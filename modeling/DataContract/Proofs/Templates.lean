import Mathlib
import DataContract.Query

/-!
# Templates of a query

A template is read into a declaration, and a declaration is displayed as a template. The two are
written apart: reading cuts at `&` and at the first `=`, marks each name as optional, tells tokens
from texts, and lets a repeated name keep its first place and its last value. Displaying has to undo
all of it.

1. `Query.written`, `Query.plain_of_mem_splitPairs`: the parameters of a text as they are written,
   and what their names and values are free of.
2. `Query.ofTemplate_inj`: the declaration holds one entry for each name that is read, and nothing
   of a name or a value is lost. `Query.display_templateEntries`: displayed, the names and values
   come back.
3. `Query.splitPairs_queryText`: reading the display. Names and values come back, but for the `?` in
   front of the first name.
4. `Query.ofTemplate_display_iff`: a template survives being displayed exactly when its first
   parameter does not begin with `?`.

The condition is about templates such as `&?a=1`. The `?` is not at the start of the text there, so
it is part of the name; displayed as `??a=1` it is at the start.
-/

namespace DataContract

/-- What stands between two separators has none inside. -/
theorem not_mem_of_mem_splitOn {α : Type} [BEq α] [LawfulBEq α] {separator : α} {text : List α} :
    ∀ part ∈ text.splitOn separator, separator ∉ part := by
  induction text with
  | nil => exact List.forall_mem_singleton.mpr List.not_mem_nil
  | cons c text ih =>
    rw [List.splitOn_cons_eq_if_modifyHead]
    split
    · exact List.forall_mem_cons.mpr ⟨List.not_mem_nil, ih⟩
    · next other =>
      obtain ⟨first, rest, split⟩ := List.exists_cons_of_ne_nil (List.splitOn_ne_nil separator text)
      rw [split] at ih ⊢
      obtain ⟨own, others⟩ := List.forall_mem_cons.mp ih
      have differs : separator ≠ c := fun same => other (beq_iff_eq.mpr same.symm)
      exact List.forall_mem_cons.mpr ⟨List.not_mem_cons_of_ne_of_not_mem differs own, others⟩

namespace Fields

variable {α β : Type}

theorem ofList_concat (pairs : List (String × α)) (pair : String × α) :
    ofList (pairs ++ [pair]) = put pair.1 pair.2 (ofList pairs) := List.foldl_concat ..

theorem nodup_names_ofList (pairs : List (String × α)) : (names (ofList pairs)).Nodup := by
  induction pairs using List.reverseRecOn with
  | nil => exact List.nodup_nil
  | append_singleton pairs pair ih =>
    rw [ofList_concat]
    exact nodup_names_put ih

/-- The first name stays the first one, whatever is put behind it. -/
theorem head?_names_ofList (pairs : List (String × α)) :
    (names (ofList pairs)).head? = (names pairs).head? := by
  induction pairs using List.reverseRecOn with
  | nil => rfl
  | append_singleton pairs pair ih =>
    have all : names (pairs ++ [pair]) = names pairs ++ [pair.1] := List.map_append
    rw [ofList_concat, names_put, all, List.head?_append, ← ih]
    split
    · next known =>
      obtain ⟨first, rest, shape⟩ := List.exists_cons_of_ne_nil (List.ne_nil_of_mem known)
      rw [shape]
      rfl
    · rw [List.head?_append]

theorem put_map {f : String → String} (apart : Function.Injective f) (g : α → β) (name : String)
    (value : α) (fields : Fields α) :
    put (f name) (g value) (fields.map (Prod.map f g)) =
        (put name value fields).map (Prod.map f g) := by
  induction fields with
  | nil => rfl
  | cons entry rest ih =>
    obtain ⟨key, old⟩ := entry
    by_cases same : key = name
    · rw [put, if_pos same, List.map_cons, Prod.map_apply, put, if_pos (congrArg f same)]
      rfl
    · rw [put, if_neg same, List.map_cons, Prod.map_apply, put, if_neg (apart.ne same), ih]
      rfl

/-- Names may be replaced by others before they are put, as long as they are told apart. -/
theorem ofList_map {f : String → String} (apart : Function.Injective f) (g : α → β)
    (pairs : List (String × α)) :
    ofList (pairs.map (Prod.map f g)) = (ofList pairs).map (Prod.map f g) := by
  induction pairs using List.reverseRecOn with
  | nil => rfl
  | append_singleton pairs pair ih =>
    rw [List.map_append, List.map_singleton, ofList_concat, ofList_concat, ih]
    exact put_map apart g pair.1 pair.2 (ofList pairs)

end Fields

namespace Query

/-! ## 1. What is read from a text -/

/-- The parameters of a text as they are written: a leading `?` and empty parameters do not
count. -/
def written (text : String) : List (List Char) :=
  ((text.toList.dropWhile (· = '?')).splitOn '&').filter (· ≠ [])

/-- The name and the value of a written parameter. -/
def namedValue (parameter : List Char) : String × String :=
  (String.ofList (cutPair parameter).1, String.ofList (cutPair parameter).2)

theorem splitPairs_eq (text : String) : splitPairs text = (written text).map namedValue := rfl

/-- The name holds no separator at all, the value may hold a `=`. -/
structure Plain (pair : String × String) : Prop where
  name_equals : '=' ∉ pair.1.toList
  name_ampersand : '&' ∉ pair.1.toList
  value_ampersand : '&' ∉ pair.2.toList

theorem not_mem_cutPair_name (parameter : List Char) : '=' ∉ (cutPair parameter).1 := by
  intro hm
  have kept : decide ('=' ≠ '=') = true := List.mem_takeWhile_imp (l := parameter) hm
  exact absurd kept (by decide)

theorem plain_namedValue {parameter : List Char} (h : '&' ∉ parameter) :
    Plain (namedValue parameter) where
  name_equals hm := by
    rw [namedValue, String.toList_ofList] at hm
    exact not_mem_cutPair_name parameter hm
  name_ampersand hm := by
    rw [namedValue, String.toList_ofList] at hm
    exact h ((List.takeWhile_sublist _).subset hm)
  value_ampersand hm := by
    rw [namedValue, String.toList_ofList] at hm
    exact h ((List.dropWhile_sublist _).subset ((List.drop_sublist 1 _).subset hm))

theorem plain_of_mem_splitPairs {text : String} : ∀ pair ∈ splitPairs text, Plain pair := by
  intro pair hm
  rw [splitPairs_eq] at hm
  obtain ⟨parameter, listed, rfl⟩ := List.mem_map.mp hm
  exact plain_namedValue (not_mem_of_mem_splitOn parameter (List.mem_filter.mp listed).1)

/-! ## 2. Names and values in a declaration -/

/-- The entry of a declaration for a name and a value of a template. -/
def templateEntry : String × String → String × Schema := Prod.map Key.optional templateSchema

/-- A name and a value in a template. -/
def pairText (pair : String × String) : String := pair.1 ++ "=" ++ pair.2

/-- The template of names and values. -/
def queryText : List (String × String) → String
  | [] => ""
  | pairs => "?" ++ "&".intercalate (pairs.map pairText)

theorem optional_injective : Function.Injective Key.optional :=
  Function.LeftInverse.injective Key.name_optional

/-- A repeated name has one entry. -/
theorem ofTemplate_eq (template : String) :
    ofTemplate template [] = ⟨(Fields.ofList (splitPairs template)).map templateEntry⟩ :=
  congrArg Query.mk (Fields.ofList_map optional_injective templateSchema (splitPairs template))

theorem display_templateSchema (value : String) : (templateSchema value).display = value := by
  rw [templateSchema]
  split
  · next token =>
    show Token.ofName (Token.ofName value) = value
    rw [Token.ofName_of_isToken token, Token.ofName_of_isToken token]
  · rfl

theorem templateEntry_injective : Function.Injective templateEntry :=
  optional_injective.prodMap (Function.LeftInverse.injective display_templateSchema)

/-- Templates declare the same when the same names and values are read from them. -/
theorem ofTemplate_inj {template template' : String} :
    ofTemplate template [] = ofTemplate template' [] ↔
      Fields.ofList (splitPairs template) = Fields.ofList (splitPairs template') := by
  rw [ofTemplate_eq, ofTemplate_eq, Query.mk.injEq]
  exact (List.map_injective_iff.mpr templateEntry_injective).eq_iff

theorem display_templateEntries {pairs : List (String × String)}
    (distinct : (Fields.names pairs).Nodup) :
    (Query.mk (pairs.map templateEntry)).display = queryText pairs := by
  have declared : (Query.mk (pairs.map templateEntry)).declared = pairs.map templateEntry := by
    rw [Query.declared, templateEntry, Fields.ofList_map optional_injective,
      Fields.ofList_of_nodup distinct]
  have entryText (pair : String × String) :
      Key.name (templateEntry pair).1 ++ "=" ++ (templateEntry pair).2.display = pairText pair := by
    rw [templateEntry, Prod.map_fst, Prod.map_snd, Key.name_optional,
      display_templateSchema, pairText]
  rw [display, declared]
  cases pairs with
  | nil => rfl
  | cons first rest =>
    simp only [List.map_cons, List.map_map, Function.comp_def, entryText, queryText]

/-! ## 3. Reading names and values back -/

/-- A name without the marks in front of it. -/
def withoutMarks (name : String) : String := String.ofList (name.toList.dropWhile (· = '?'))

theorem toList_pairText (pair : String × String) :
    (pairText pair).toList = pair.1.toList ++ '=' :: pair.2.toList := by
  simp [pairText]

theorem namedValue_append {name : List Char} (free : '=' ∉ name) (value : List Char) :
    namedValue (name ++ '=' :: value) = (String.ofList name, String.ofList value) := by
  have before : ∀ c ∈ name, decide (c ≠ '=') = true := fun c hc =>
    decide_eq_true fun same => free (same ▸ hc)
  have cut : cutPair (name ++ '=' :: value) = (name, value) := by
    rw [cutPair, List.takeWhile_append_of_pos before, List.dropWhile_append_of_pos before]
    simp
  rw [namedValue, cut]

theorem dropWhile_append_equals (name value : List Char) :
    (name ++ '=' :: value).dropWhile (· = '?') = name.dropWhile (· = '?') ++ '=' :: value := by
  induction name with
  | nil => exact List.dropWhile_cons_of_neg (by decide)
  | cons c name ih =>
    rw [List.cons_append, List.dropWhile_cons, List.dropWhile_cons]
    split
    · exact ih
    · rfl

/-- Only the first parameter of a template can lose marks. -/
theorem dropWhile_intercalate (pair : String × String) (texts : List (List Char)) :
    (['&'].intercalate ((pairText pair).toList :: texts)).dropWhile (· = '?') =
      ['&'].intercalate ((pairText pair).toList.dropWhile (· = '?') :: texts) := by
  rw [toList_pairText]
  cases texts with
  | nil => rw [List.intercalate_singleton, List.intercalate_singleton]
  | cons second texts =>
    rw [List.intercalate_cons_cons, List.intercalate_cons_cons, dropWhile_append_equals]
    simp only [List.append_assoc, List.cons_append, dropWhile_append_equals]

theorem written_queryText {first : String × String} {rest : List (String × String)}
    (plain : ∀ pair ∈ first :: rest, Plain pair) :
    written (queryText (first :: rest)) =
      (pairText first).toList.dropWhile (· = '?') :: rest.map fun pair =>
        (pairText pair).toList := by
  have text : (queryText (first :: rest)).toList =
      '?' :: ['&'].intercalate
        ((pairText first).toList :: rest.map fun pair => (pairText pair).toList) := by
    simp [queryText, String.toList_intercalate, Function.comp_def]
  have free (pair : String × String) (h : Plain pair) : '&' ∉ (pairText pair).toList := by
    rw [toList_pairText, List.mem_append, List.mem_cons]
    rintro (hm | same | hm)
    · exact h.name_ampersand hm
    · cases same
    · exact h.value_ampersand hm
  obtain ⟨own, others⟩ := List.forall_mem_cons.mp plain
  rw [written, text, List.dropWhile_cons_of_pos (by decide), dropWhile_intercalate,
    List.splitOn_intercalate '&' ?_ (List.cons_ne_nil _ _), List.filter_eq_self.mpr ?_]
  · refine List.forall_mem_cons.mpr ⟨?_, List.forall_mem_map.mpr fun pair _ => ?_⟩
    · simp [toList_pairText, dropWhile_append_equals]
    · simp [toList_pairText]
  · refine List.forall_mem_cons.mpr ⟨fun hm => ?_, List.forall_mem_map.mpr fun pair hm => ?_⟩
    · exact free first own ((List.dropWhile_sublist _).subset hm)
    · exact free pair (others pair hm)

/-- The template of names and values reads as these, but for the marks in front of the first
name. -/
theorem splitPairs_queryText {first : String × String} {rest : List (String × String)}
    (plain : ∀ pair ∈ first :: rest, Plain pair) :
    splitPairs (queryText (first :: rest)) = (withoutMarks first.1, first.2) :: rest := by
  obtain ⟨own, others⟩ := List.forall_mem_cons.mp plain
  have unmarked : '=' ∉ first.1.toList.dropWhile (· = '?') := fun hm =>
    own.name_equals ((List.dropWhile_sublist _).subset hm)
  have back : ∀ pair ∈ rest, namedValue (pairText pair).toList = pair := by
    intro pair hm
    rw [toList_pairText, namedValue_append (others pair hm).name_equals, String.ofList_toList,
      String.ofList_toList]
  have behind : rest.map (fun pair => namedValue (pairText pair).toList) = rest := by
    rw [List.map_congr_left back, List.map_id']
  rw [splitPairs_eq, written_queryText plain, List.map_cons, toList_pairText,
    dropWhile_append_equals, namedValue_append unmarked, String.ofList_toList, List.map_map,
    withoutMarks]
  exact congrArg _ behind

/-! ## 4. A template that is displayed and read again -/

theorem withoutMarks_eq_iff (name : String) :
    withoutMarks name = name ↔ name.toList.head? ≠ some '?' := by
  rw [withoutMarks, ← String.toList_inj, String.toList_ofList]
  cases name.toList with
  | nil => exact iff_of_true rfl nofun
  | cons c rest =>
    rw [List.head?_cons, ne_eq, Option.some.injEq, List.dropWhile_cons]
    by_cases mark : c = '?'
    · have shorter := List.length_dropWhile_le (fun c => decide (c = '?')) rest
      rw [if_pos (decide_eq_true mark)]
      refine iff_of_false (fun same => ?_) (absurd mark)
      rw [same, List.length_cons] at shorter
      exact Nat.not_succ_le_self _ shorter
    · rw [if_neg (by simpa using mark)]
      exact iff_of_true rfl mark

/-- A parameter begins with a mark when its name does. -/
theorem head?_namedValue (parameter : List Char) :
    (namedValue parameter).1.toList.head? = some '?' ↔ parameter.head? = some '?' := by
  rw [namedValue, String.toList_ofList, cutPair]
  cases parameter with
  | nil => rfl
  | cons c rest =>
    rw [List.takeWhile_cons]
    by_cases equals : c = '='
    · subst equals
      exact iff_of_false nofun fun same => absurd (Option.some.inj same) (by decide)
    · rw [if_pos (decide_eq_true equals)]
      rfl

/-- The first parameter begins with a mark when the first name that is read does. -/
theorem head?_written_iff (template : String) :
    (∀ first ∈ (written template).head?, first.head? ≠ some '?') ↔
      ∀ name ∈ (Fields.names (splitPairs template)).head?, withoutMarks name = name := by
  rw [splitPairs_eq, Fields.names, List.map_map, List.head?_map]
  cases (written template).head? with
  | none => simp only [Option.map_none, Option.not_mem_none, false_imp_iff, implies_true]
  | some first =>
    simp only [Option.map_some, Option.mem_some_iff, forall_eq', Function.comp_apply, ne_eq,
      withoutMarks_eq_iff, head?_namedValue]

/-- Names and values come back from their template when the first name has no marks in front. -/
theorem ofList_splitPairs_queryText_iff {pairs : List (String × String)}
    (plain : ∀ pair ∈ pairs, Plain pair) (distinct : (Fields.names pairs).Nodup) :
    Fields.ofList (splitPairs (queryText pairs)) = pairs ↔
      ∀ name ∈ (Fields.names pairs).head?, withoutMarks name = name := by
  cases pairs with
  | nil => exact iff_of_true rfl fun _ hm => absurd hm (Option.not_mem_none _)
  | cons first rest =>
    have named : (Fields.names (first :: rest)).head? = some first.1 := rfl
    rw [splitPairs_queryText plain, named]
    simp only [Option.mem_some_iff, forall_eq']
    constructor
    · intro same
      have names := congrArg (fun pairs => (Fields.names pairs).head?) same
      rw [Fields.head?_names_ofList] at names
      exact Option.some.inj names
    · intro same
      rw [same, Fields.ofList_of_nodup distinct]

/-- A template that is displayed and read again gives the same parameters in the same order, with
the same schemas, if and only if its first parameter does not begin with a question mark. -/
theorem ofTemplate_display_iff (template : String) :
    ofTemplate (ofTemplate template []).display [] = ofTemplate template [] ↔
      ∀ first ∈ (written template).head?, first.head? ≠ some '?' := by
  have distinct := Fields.nodup_names_ofList (splitPairs template)
  have plain : ∀ pair ∈ Fields.ofList (splitPairs template), Plain pair := fun pair hm =>
    plain_of_mem_splitPairs pair (Fields.mem_of_mem_ofList hm)
  rw [ofTemplate_inj, ofTemplate_eq template, display_templateEntries distinct,
    ofList_splitPairs_queryText_iff plain distinct, Fields.head?_names_ofList, head?_written_iff]

example : (ofTemplate "?=x&a?=1&b=(=&a?=(n)&c" []).display = "?=x&a?=(n)&b=(=&c=" := by
  decide +kernel
example : (ofTemplate "&?a=1" []).display = "??a=1" := by decide +kernel

end Query
end DataContract
