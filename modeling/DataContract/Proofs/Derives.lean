import Mathlib
import DataContract.Derivation.Variant
import DataContract.Proofs.RoundTrip

/-!
# What can be derived

`Schema.variants` lists the candidates for positive tests. Without steps and without an order, a
candidate is described by what stands in it and where that comes from.

1. `exampleOrSelf_eq_ok`, `rowLiteral_accepts`: a literal takes a place only when it fits.
2. `assembleFields_made`, `keyCombinations_required`: the fields of a candidate come from fields of
   the schema, and every required field is among them.
3. `Schema.Derives`, and `Schema.variantsWithin_derives`: every candidate can be derived.
-/

namespace DataContract

/-- A row that leaves out nothing and binds no tokens. -/
structure Row.Plain (row : Row) : Prop where
  omitted : row.omitted = []
  literals : ∀ entry ∈ row.fields, Token.isToken entry.2 = false

namespace Row.Plain

theorem empty : Row.empty.Plain := ⟨rfl, nofun⟩

theorem kept {α : Type} {row : Row} (plain : row.Plain) (entries : Fields α) :
    row.kept entries = entries := by
  simp [Row.kept, Row.omits, plain.omitted]

end Row.Plain

/-! ## 1. Literals in the place of candidates -/

theorem exampleOrSelf_eq_ok {context : Context} {schema candidate : Schema}
    (h : exampleOrSelf context schema = .ok candidate) :
    (∃ value, candidate = .exactly value ∧
      Schema.Accepts context.registry context.keyPolicy schema value) ∨
    candidate = schema ∧ (schema.sample? = none ∨ context.mode = .synthesize) := by
  unfold exampleOrSelf at h
  cases he : Schema.exampleValue context schema.sample? schema with
  | error halt =>
    rw [he] at h
    cases h
  | ok example? =>
    rw [he] at h
    cases h
    cases example? with
    | some value => exact .inl ⟨value, rfl, (Schema.exampleValue_fits he).2⟩
    | none =>
      refine .inr ⟨rfl, ?_⟩
      unfold Schema.exampleValue at he
      split at he
      · obtain ⟨read, _, he⟩ := Attempt.bind_eq_ok.mp he
        obtain ⟨verdict, _, he⟩ := Attempt.bind_eq_ok.mp he
        cases verdict <;> cases he
      · next other =>
        cases hs : schema.sample? with
        | none => exact .inl rfl
        | some sample =>
          cases hm : context.mode with
          | synthesize => exact .inr rfl
          | preferExamples => exact (other sample hs hm).elim

theorem rowLiteral_accepts {context : Context} {literal : String} {schema candidate : Schema}
    (h : rowLiteral context literal schema = .ok candidate) :
    ∃ value, candidate = .exactly value ∧
      Schema.Accepts context.registry context.keyPolicy schema value := by
  unfold rowLiteral at h
  obtain ⟨value, _, h⟩ := Attempt.bind_eq_ok.mp h
  obtain ⟨verdict, checked, h⟩ := Attempt.bind_eq_ok.mp h
  cases verdict with
  | rejected failure => cases h
  | accepted captured =>
    cases h
    exact ⟨value, rfl, Schema.accepts_of_check (Attempt.ofOption_eq_ok.mp checked)⟩

/-! ## 2. The fields of a candidate -/

theorem absorbCycle_eq_ok {optional : Bool} {attempt : Attempt Schema} {part : Option Schema}
    (h : absorbCycle optional attempt = .ok part) :
    (∃ schema, attempt = .ok schema ∧ part = some schema) ∨ part = none ∧ optional = true := by
  unfold absorbCycle at h
  split at h
  · cases h
    exact .inl ⟨_, rfl, rfl⟩
  · split at h
    · next ho =>
      cases h
      exact .inr ⟨rfl, ho⟩
    · cases h
  · cases h

theorem listVariant_eq_ok {title : Option String} {attempt : Attempt Schema} {candidate : Schema}
    (h : listVariant title attempt = .ok candidate) :
    (∃ item, attempt = .ok item ∧ candidate = .list item title none) ∨
      candidate = .emptyList := by
  unfold listVariant at h
  split at h
  · cases h
    exact .inl ⟨_, rfl, rfl⟩
  · cases h
    exact .inr rfl
  · cases h

/-- Required keys are in every combination. -/
theorem keyCombinations_required {keys : List String} {row : Row} {combination : List String}
    (h : combination ∈ (keyCombinations keys row).toList) {key : String} (hk : key ∈ keys)
    (required : Key.isOptional key = false) : key ∈ combination := by
  unfold keyCombinations at h
  split at h
  · simp only at h
    split at h
    · rw [Enumeration.mem_toList_single] at h
      exact h ▸ hk
    · rw [Enumeration.toList_ofList, List.mem_pair] at h
      rcases h with rfl | rfl
      · exact hk
      · exact List.mem_filter.mpr ⟨hk, by simp [required]⟩
  · rw [Enumeration.mem_toList_map] at h
    obtain ⟨choice, hc, rfl⟩ := h
    refine List.mem_filterMap.mpr ⟨some key, ?_, rfl⟩
    induction keys generalizing choice with
    | nil => cases hk
    | cons first rest ih =>
      obtain ⟨a, ha, others, ho, rfl⟩ := Enumeration.mem_toList_product_cons.mp hc
      rcases List.mem_cons.mp hk with rfl | hr
      · simp only [Row.leavesOpen, required, Bool.false_and, Bool.false_eq_true, if_false,
          Enumeration.toList_ofList, List.mem_singleton] at ha
        exact ha ▸ List.mem_cons_self
      · exact List.mem_cons_of_mem _ (ih hr others ho)

/-- Of every field a choice has a variant, or nothing where the field is optional. The choice and
the fields are consumed together, with what was put so far. -/
theorem assembleFields_made {positives : String → Schema → Enumeration (Attempt (Option Schema))}
    {fits : Schema → Schema → Prop} {entries : List (String × Schema)}
    (h : ∀ field ∈ entries, ∀ part, .ok part ∈ (positives field.1 field.2).toList →
      PartMade fits field part)
    {choice : List (String × Attempt (Option Schema))}
    (chosen : choice ∈ (Enumeration.product (entries.map fun entry => fun _ =>
      (positives entry.1 entry.2).map (entry.1, ·))).toList)
    {done made : Fields Schema} (assembled : assembleFields choice done = .ok made) :
    FieldsMade fits entries done made := by
  induction entries generalizing choice done with
  | nil =>
    rw [List.map_nil, Enumeration.toList_product_nil, List.mem_singleton] at chosen
    subst chosen
    cases assembled
    exact .nil
  | cons field rest ih =>
    obtain ⟨own, others⟩ := List.forall_mem_cons.mp h
    rw [List.map_cons] at chosen
    obtain ⟨part, hp, parts, hps, rfl⟩ := Enumeration.mem_toList_product_cons.mp chosen
    rw [Enumeration.mem_toList_map] at hp
    obtain ⟨attempt, ha, rfl⟩ := hp
    cases attempt with
    | error halt => cases assembled
    | ok part =>
      have fit := own part ha
      cases part with
      | some schema => exact .put fit (ih others hps assembled)
      | none => exact .skip fit (ih others hps assembled)

theorem fieldsOfChoice_eq_ok {choice : List (String × Attempt (Option Schema))}
    {made : Fields Schema} (h : fieldsOfChoice choice = .ok made) :
    assembleFields choice [] = .ok made := by
  unfold fieldsOfChoice at h
  split at h
  · cases h
  · exact h

/-- Every combination makes all required fields, and others only from fields of the schema. -/
theorem combinationVariants_made
    {positives : String → Schema → Enumeration (Attempt (Option Schema))}
    {fits : Schema → Schema → Prop} {row : Row} (plain : row.Plain)
    {entries : List (String × Schema)} {made : Fields Schema}
    (h : ∀ field ∈ entries, ∀ part, .ok part ∈ (positives field.1 field.2).toList →
      PartMade fits field part)
    (listed : .ok made ∈ (combinationVariants positives row entries).toList) :
    FieldsMade fits entries [] made := by
  unfold combinationVariants fieldsVariants at listed
  simp only [plain.kept, Enumeration.toList_flatMap, Enumeration.toList_map, List.mem_flatMap,
    List.mem_map] at listed
  obtain ⟨keys, hk, choice, chosen, assembled⟩ := listed
  have some := assembleFields_made (fun field hf => h field (List.mem_filter.mp hf).1) chosen
    (fieldsOfChoice_eq_ok assembled)
  refine ⟨fun name part hp => ?_, some.kept, fun field hf required => ?_, some.distinct⟩
  · exact (some.source name part hp).imp_right fun ⟨field, hf, fit⟩ =>
      ⟨field, (List.mem_filter.mp hf).1, fit⟩
  · have inside := keyCombinations_required hk (List.mem_map_of_mem hf) required
    exact some.required field (List.mem_filter.mpr ⟨hf, List.contains_iff_mem.mpr inside⟩) required

/-! ## 3. Candidates -/

namespace Schema

/-- Neither a container nor a reference nor a union; a literal may be anything. -/
def isLeaf : Schema → Bool
  | reference _ | object _ _ | list _ _ _ | union _ _ _ _ => false
  | _ => true

/-- The candidate can be derived from the schema. A literal stands for an example, or for a literal
of the row, that fits; in an object, `origin` tells of each entry the field that it comes from. -/
inductive Derives (context : Context) : Schema → Schema → Prop
  | same {schema : Schema} : schema.isLeaf = true → Derives context schema schema
  | taken {schema : Schema} {value : Value} :
      Accepts context.registry context.keyPolicy schema value →
      Derives context schema (.exactly value)
  | reference {name : String} {target candidate : Schema} :
      context.registry.find? name = some target → Derives context target candidate →
      Derives context (.reference name) candidate
  | object {fields made : List (String × Schema)} {title : Option String}
      (origin : String → String × Schema) :
      (∀ entry ∈ made, origin entry.1 ∈ fields ∧ Key.name (origin entry.1).1 = entry.1) →
      (∀ entry ∈ made, Derives context (origin entry.1).2 entry.2) →
      (∀ field ∈ fields, Key.isOptional field.1 = false → Key.name field.1 ∈ Fields.names made) →
      Derives context (.object fields title) (.object made title)
  | list {item candidate : Schema} {title sample : Option String} :
      Derives context item candidate →
      Derives context (.list item title sample) (.list candidate title none)
  | emptyList {item : Schema} {title sample : Option String} :
      Derives context (.list item title sample) emptyList
  | union {members : List Schema} {key title sample : Option String} {schema candidate : Schema} :
      schema ∈ members → Derives context schema candidate →
      Derives context (.union members key title sample) candidate

/-- Fields that are made from nothing make a candidate of an object. -/
theorem Derives.ofFields {context : Context} {fields : List (String × Schema)}
    {title : Option String} {made : Fields Schema}
    (h : FieldsMade (Derives context) fields [] made) :
    Derives context (.object fields title) (.object made title) := by
  obtain ⟨origin, ho⟩ := h.exists_origin
  have found {entry : String × Schema} (hm : entry ∈ made) :=
    ho entry.1 entry.2 (Fields.find?_of_mem (h.distinct List.nodup_nil) hm)
  exact .object origin (fun entry hm => ⟨(found hm).1, (found hm).2.1⟩)
    (fun entry hm => (found hm).2.2) h.required

/-- A variant of a field is a candidate of its schema; an optional field may have none. -/
theorem fieldVariants_part {context : Context} {row : Row} (plain : row.Plain)
    {derive : Context → Schema → Enumeration (Attempt Schema)} {expanding : List Frame}
    {key : String} {schema : Schema}
    (h : ∀ stack candidate,
      .ok candidate ∈ (derive { context with expanding := stack } schema).toList →
        Derives context schema candidate)
    {part : Option Schema}
    (listed : .ok part ∈
      (DataContract.fieldVariants derive { context with expanding := expanding } row
      key schema).toList) : PartMade (Derives context) (key, schema) part := by
  unfold DataContract.fieldVariants at listed
  split at listed
  · next literal bound =>
    rw [Enumeration.mem_toList_single,
      plain.literals _ (Fields.mem_of_find? bound)] at listed
    cases hr : rowLiteral { context with expanding := expanding } literal schema with
    | error halt =>
      rw [hr] at listed
      cases listed
    | ok candidate =>
      rw [hr] at listed
      cases listed
      obtain ⟨value, rfl, fit⟩ := rowLiteral_accepts hr
      exact .taken fit
  · simp only at listed
    split at listed
    · next child he =>
      obtain ⟨stack, rfl⟩ := Context.expanding_of_enter he
      rw [Enumeration.mem_toList_map] at listed
      obtain ⟨attempt, ha, absorbed⟩ := listed
      rcases absorbCycle_eq_ok absorbed with ⟨candidate, rfl, rfl⟩ | ⟨rfl, optional⟩
      · exact h stack candidate ha
      · exact optional
    · next he =>
      rw [Enumeration.mem_toList_single] at listed
      cases listed
      exact Context.nullable_of_enter_none he
    · rw [Enumeration.mem_toList_single] at listed
      cases listed

theorem mem_of_mem_nullsLast {members : List Schema} {schema : Schema}
    (h : schema ∈ nullsLast members) : schema ∈ members := by
  rcases List.mem_append.mp h with h | h <;> exact (List.mem_filter.mp h).1

/-- Every result that a union settles on is one of an alternative. -/
theorem mem_of_mem_settle {α : Type} {headline : String} {items : Enumeration (Attempt α)} {a : α}
    (h : .ok a ∈ (items.settle headline).toList) : .ok a ∈ items.toList := by
  rw [Enumeration.toList_settle] at h
  split at h
  · exact (List.mem_filter.mp h).1
  · unfold Enumeration.closing at h
    split at h
    · cases h
    · rw [Enumeration.mem_toList_single] at h
      cases h

theorem mem_of_mem_alternativeStream {α : Type} {context : Context} {members : List Schema}
    {derive : Context → Schema → Enumeration (Attempt α)} {expanding : List Frame} {a : α}
    (h : .ok a ∈
      (alternativeStream derive { context with expanding := expanding } members).toList) :
    ∃ schema ∈ members, ∃ stack,
      .ok a ∈ (derive { context with expanding := stack } schema).toList := by
  unfold alternativeStream at h
  rw [Enumeration.toList_flatMap, List.mem_flatMap] at h
  obtain ⟨schema, hm, h⟩ := h
  rw [Enumeration.toList_ofList] at hm
  refine ⟨schema, mem_of_mem_nullsLast hm, ?_⟩
  split at h
  · next child he =>
    obtain ⟨stack, rfl⟩ := Context.expanding_of_enter he
    exact ⟨stack, h⟩
  · cases h
  · rw [Enumeration.mem_toList_single] at h
    cases h

theorem mem_of_mem_capped {α : Type} {bound : Option Nat} {items : Enumeration α} {a : α}
    (h : a ∈ (items.capped bound).toList) : a ∈ items.toList := by
  cases bound with
  | none => exact h
  | some n =>
    unfold Enumeration.capped at h
    rw [Enumeration.toList_take] at h
    exact List.mem_of_mem_take h

/-- Every candidate can be derived. The induction is on the steps, each schema by what is derived of
its parts in one step less; bounds and settled errors only leave candidates out. -/
theorem variantsWithin_derives {context : Context} {row : Row} (plain : row.Plain) {fuel : Nat}
    {expanding : List Frame} {schema candidate : Schema}
    (listed : .ok candidate ∈
      (variantsWithin fuel { context with expanding := expanding } row schema).toList) :
    Derives context schema candidate := by
  induction fuel generalizing expanding schema candidate with
  | zero =>
    unfold variantsWithin at listed
    rw [Enumeration.mem_toList_single] at listed
    cases listed
  | succ fuel ih =>
    have ownExample {schema : Schema} (leaf : schema.isLeaf = true)
        (listed : .ok candidate ∈ (Enumeration.single
          (exampleOrSelf { context with expanding := expanding } schema)).toList) :
        Derives context schema candidate := by
      rw [Enumeration.mem_toList_single] at listed
      rcases exampleOrSelf_eq_ok listed.symm with ⟨value, rfl, fit⟩ | ⟨rfl, _⟩
      · exact .taken fit
      · exact .same leaf
    unfold variantsWithin at listed
    cases schema with
    | string range sample => exact ownExample rfl listed
    | number range fractional sample => exact ownExample rfl listed
    | boolean sample => exact ownExample rfl listed
    | null =>
      rw [Enumeration.mem_toList_single] at listed
      cases listed
      exact .same rfl
    | literal value title =>
      rw [Enumeration.mem_toList_single] at listed
      cases listed
      exact .same rfl
    | reference name =>
      simp only [Registry.lookup] at listed
      cases hf : context.registry.find? name with
      | none =>
        simp only [hf, Enumeration.mem_toList_single] at listed
        cases listed
      | some target =>
        simp only [hf] at listed
        exact .reference hf (ih listed)
    | object fields title =>
      have listed := mem_of_mem_capped listed
      rw [Enumeration.mem_toList_map] at listed
      obtain ⟨attempt, ha, mapped⟩ := listed
      cases attempt with
      | error halt => cases mapped
      | ok made =>
        cases mapped
        refine .ofFields (combinationVariants_made plain (fun field _ part hp => ?_) ha)
        exact fieldVariants_part plain (fun stack candidate hc => ih hc) hp
    | list item title sample =>
      simp only at listed
      split at listed
      · next sampled =>
        rw [Enumeration.mem_toList_single] at listed
        rcases exampleOrSelf_eq_ok listed.symm with ⟨value, rfl, fit⟩ | ⟨_, none | mode⟩
        · exact .taken fit
        · obtain ⟨_, sampled⟩ := sampled
          simp only [sample?] at none
          simp [none] at sampled
        · cases sampled.1.symm.trans mode
      · split at listed
        · next child he =>
          obtain ⟨stack, rfl⟩ := Context.expanding_of_enter he
          rw [Enumeration.mem_toList_map] at listed
          obtain ⟨attempt, ha, mapped⟩ := listed
          rcases listVariant_eq_ok mapped with ⟨part, rfl, rfl⟩ | rfl
          · exact .list (ih ha)
          · exact .emptyList
        · rw [Enumeration.mem_toList_single] at listed
          cases listed
          exact .emptyList
        · rw [Enumeration.mem_toList_single] at listed
          cases listed
    | union members key title sample =>
      simp only at listed
      split at listed
      · next value he =>
        rw [Enumeration.mem_toList_single] at listed
        cases listed
        obtain ⟨_, schema, hm, fit⟩ := exampleOfAny_fits he
        exact .taken (.union hm fit)
      · rw [Enumeration.mem_toList_single] at listed
        cases listed
      · have listed := mem_of_mem_settle listed
        unfold unionStream at listed
        rw [Enumeration.toList_filter] at listed
        obtain ⟨schema, hm, stack, hc⟩ :=
          mem_of_mem_alternativeStream (List.mem_filter.mp listed).1
        exact .union hm (ih hc)

theorem derives_of_mem_variants {context : Context} {row : Row} (plain : row.Plain)
    {expanding : List Frame} {schema candidate : Schema}
    (listed : .ok candidate ∈
      (schema.variants { context with expanding := expanding } row).toList) :
    Derives context schema candidate := by
  unfold variants at listed
  exact variantsWithin_derives plain listed

end Schema
end DataContract
