import Mathlib
import DataContract.Proofs.Candidates
import DataContract.Proofs.Merging

/-!
# One field is mutated at a time

The maps for negative tests are worked out lazily, by nested streams and one mark. Here they are
said as one list: for each field in declared order, for each of its mutants, for each choice of
variants of the other fields, one map.

1. `choices`: every choice of one item from each list, in lexicographic order. A product of
   enumerations lists just these (`Enumeration.toList_product`).
2. `mapParts`: the parts of every map, in order; `toList_mutantMaps_parts`: the stream merges them
   one by one, and is a lone empty map where there are none to merge.
3. `MapOf`, `mapOfChoice_nested`: what the parts of one map come to.
4. `mutantMaps_enumerated`: the stream of both strategies, item for item.
-/

namespace DataContract

/-! ## 1. Choices -/

/-- Every choice of one item from each list, the first list outermost. -/
def choices {α : Type} : List (List α) → List (List α)
  | [] => [[]]
  | first :: rest => first.flatMap fun a => (choices rest).map (a :: ·)

theorem Enumeration.toList_product {α : Type} (items : List (Unit → Enumeration α)) :
    (product items).toList = choices (items.map fun item => (item ()).toList) := by
  induction items with
  | nil => rfl
  | cons first rest ih => rw [toList_product_cons, ih, List.map_cons, choices]

theorem mem_choices {α : Type} {lists : List (List α)} {choice : List α} :
    choice ∈ choices lists ↔ List.Forall₂ (· ∈ ·) choice lists := by
  induction lists generalizing choice with
  | nil => rw [choices, List.mem_singleton, List.forall₂_nil_right_iff]
  | cons first rest ih =>
    rw [choices, List.mem_flatMap, List.forall₂_cons_right_iff]
    constructor
    · rintro ⟨a, ha, h⟩
      obtain ⟨others, ho, rfl⟩ := List.mem_map.mp h
      exact ⟨a, others, ha, ih.mp ho, rfl⟩
    · rintro ⟨a, others, ha, ho, rfl⟩
      exact ⟨a, ha, List.mem_map_of_mem (ih.mpr ho)⟩

theorem exists_of_mem_forall₂ {α β : Type} {R : α → β → Prop} {items : List α} {others : List β}
    (h : List.Forall₂ R items others) {a : α} (ha : a ∈ items) : ∃ b ∈ others, R a b := by
  induction h with
  | nil => cases ha
  | @cons _ b _ rest fit _ ih =>
    rcases List.mem_cons.mp ha with rfl | hr
    · exact ⟨b, List.mem_cons_self, fit⟩
    · obtain ⟨other, hm, fit⟩ := ih hr
      exact ⟨other, List.mem_cons_of_mem _ hm, fit⟩

/-- Every item of a choice comes from one of the enumerations. -/
theorem Enumeration.mem_of_mem_product {α : Type} {items : List (Unit → Enumeration α)}
    {choice : List α} (h : choice ∈ (product items).toList) {a : α} (ha : a ∈ choice) :
    ∃ item ∈ items, a ∈ (item ()).toList := by
  rw [toList_product, mem_choices, List.forall₂_map_right_iff] at h
  exact exists_of_mem_forall₂ h ha

/-- Items that are prepared first are chosen in the same way. -/
theorem choices_map {α β : Type} (f : α → β) (lists : List (List α)) :
    choices (lists.map (List.map f)) = (choices lists).map (List.map f) := by
  induction lists with
  | nil => rfl
  | cons first rest ih =>
    rw [List.map_cons, choices, ih, choices, List.flatMap_map, List.map_flatMap]
    refine List.flatMap_congr fun a _ => ?_
    rw [List.map_map, List.map_map]
    rfl

/-! ## 2. The parts of all maps -/

/-- A part of a map: the name of a field, and what its schema becomes. -/
abbrev Part := String × Outcome (Option Schema)

/-- A part inside its map: notes and failures stand under its name. -/
def nested (part : Part) : Part := (part.1, part.2.under part.1)

section Parts

variable (mutants : String → Schema → Enumeration (Outcome Schema))
  (positives : String → Schema → Enumeration (Attempt (Option Schema)))

/-- A mutant of a field as a part. -/
def mutantPart (key : String) (candidate : Outcome Schema) : Part :=
  (Key.name key, candidate.map some)

/-- The variants of a field as parts. -/
def variantParts (field : String × Schema) : List Part :=
  (positives field.1 field.2).toList.map fun choice => (Key.name field.1, Outcome.ofAttempt choice)

/-- The parts of every map: for each field in order, for each of its mutants, each choice of
variants of the fields before it and behind it. -/
def mapParts (entries : Fields Schema) : List (List Part) :=
  entries.zipIdx.flatMap fun (field, place) =>
    (mutants field.1 field.2).toList.flatMap fun candidate =>
      choices ((entries.take place).map (variantParts positives) ++
        [mutantPart field.1 candidate] :: (entries.drop (place + 1)).map (variantParts positives))

/-- One place of a list is treated in its own way. -/
theorem map_zipIdx_at {α β : Type} (own other : α → β) (before : List α) (a : α) (after : List α) :
    ((before ++ a :: after).zipIdx.map fun entry =>
        if entry.2 = before.length then own entry.1 else other entry.1) =
      before.map other ++ own a :: after.map other := by
  have elsewhere (items : List α) (start : Nat)
      (away : start + items.length ≤ before.length ∨ before.length < start) :
      (items.zipIdx start).map (fun entry =>
        if entry.2 = before.length then own entry.1 else other entry.1) = items.map other := by
    have fst : (items.zipIdx start).map (fun entry => other entry.1) = items.map other := by
      rw [← List.zipIdx_map_fst start items, List.map_map, List.zipIdx_map_fst]
      rfl
    rw [← fst]
    refine List.map_congr_left fun entry hm => if_neg ?_
    obtain ⟨low, high, _⟩ := List.mem_zipIdx hm
    omega
  rw [List.zipIdx_append, List.map_append, List.zipIdx_cons, List.map_cons, Nat.zero_add,
    if_pos rfl, elsewhere before 0 (.inl (Nat.le_of_eq (Nat.zero_add _))),
    elsewhere after (before.length + 1) (.inr (Nat.lt_succ_self _))]

theorem toList_mutateAt {entries : Fields Schema} {field : String × Schema} {place : Nat}
    (h : entries[place]? = some field) (candidate : Outcome Schema) :
    (mutateAt positives entries place (candidate.under (Key.name field.1))).toList =
      (choices ((entries.take place).map (variantParts positives) ++
        [mutantPart field.1 candidate] ::
          (entries.drop (place + 1)).map (variantParts positives))).map
        fun parts => mapOfChoice (parts.map nested) := by
  obtain ⟨inside, rfl⟩ := List.getElem?_eq_some_iff.mp h
  have split : entries = entries.take place ++ entries[place] :: entries.drop (place + 1) := by
    rw [List.getElem_cons_drop, List.take_append_drop]
  have length : (entries.take place).length = place := by
    rw [List.length_take]
    omega
  have at_place := map_zipIdx_at
    (fun field => [mutantPart field.1 candidate].map nested)
    (fun field => (variantParts positives field).map nested)
    (entries.take place) entries[place] (entries.drop (place + 1))
  rw [← split, length] at at_place
  have inside_first (parts : List (List Part)) :
      (parts.map fun parts => mapOfChoice (parts.map nested)) =
        (parts.map (List.map nested)).map mapOfChoice := by
    rw [List.map_map]
    rfl
  rw [mutateAt, Enumeration.toList_map, Enumeration.toList_product, List.map_map, inside_first,
    ← choices_map, List.map_append, List.map_cons, List.map_map, List.map_map]
  congr 2
  refine Eq.trans (List.map_congr_left fun entry hm => ?_) at_place
  obtain ⟨_, _, same⟩ := List.mem_zipIdx hm
  show (if entry.2 = place then _ else _ : Enumeration Part).toList = _
  split
  · next here =>
    subst here
    simp only [Nat.sub_zero] at same
    rw [Enumeration.toList_single, ← same]
    cases candidate <;> rfl
  · rw [Enumeration.toList_map, variantParts, List.map_map]
    rfl

/-- The stream merges the parts of one map after the other. When no field has a mutant, a lone empty
map stands in their place. -/
theorem toList_mutantMaps_parts (entries : Fields Schema) :
    (mutantMaps mutants positives entries).toList =
      ((mapParts mutants positives entries).map fun parts => mapOfChoice (parts.map nested)) ++
        if entries.any fun entry => !(mutants entry.1 entry.2).toList.isEmpty then []
        else [.pure []] := by
  rw [toList_mutantMaps, mapParts, List.map_flatMap]
  congr 1
  refine List.flatMap_congr fun entry hm => ?_
  rw [List.map_flatMap]
  refine List.flatMap_congr fun candidate _ => ?_
  obtain ⟨_, inside, same⟩ := List.mem_zipIdx hm
  refine toList_mutateAt positives ?_ candidate
  rw [Nat.zero_add] at inside
  rw [List.getElem?_eq_getElem inside, same]
  rfl

end Parts

/-! ## 3. The parts of one map -/

/-- The fields that have a schema. -/
def presentFields (fields : Fields (Option Schema)) : Fields Schema :=
  fields.filterMap fun entry => entry.2.map (entry.1, ·)

/-- What the parts of a map come to. -/
inductive MapOf (parts : List Part) : Outcome (Fields Schema) → Prop
  /-- Where every part has a value: their schemas under their names, fields without a schema left
  out. The notes are those of the parts in order, after those of each part its name. -/
  | value {contents : List (Option Schema)} :
      parts.map (fun part => part.2.value?) = contents.map some →
      MapOf parts (.value (presentFields ((Fields.names parts).zip contents))
        (parts.flatMap fun part => part.2.notes ++ [⟨[""], [part.1]⟩]))
  /-- Where a part failed: the leaves of exactly the failed parts, each under its own name. -/
  | failed {failure : Failure} : (∀ part ∈ parts, part.2.isCrash = false) →
      (∃ part ∈ parts, ∃ cause, part.2 = .failed cause) →
      failure.leaves = parts.flatMap (fun part => part.2.leaves.map (Leaf.under part.1)) →
      MapOf parts (.failed failure)
  /-- The first crash, under its own name. -/
  | crashed {before after : List Part} {name : String} {crash : Outcome (Option Schema)}
      {error message path : String} : parts = before ++ (name, crash) :: after →
      (∀ part ∈ before, part.2.isCrash = false) → crash.under name = .crashed error message path →
      MapOf parts (.crashed error message path)

theorem exists_content {parts : List Part} {contents : List (Option Schema)}
    (valued : parts.map (fun part => part.2.value?) = contents.map some) {part : Part}
    (hp : part ∈ parts) : ∃ content, part.2.value? = some content := by
  have listed : part.2.value? ∈ contents.map some :=
    valued ▸ List.mem_map_of_mem (f := fun part : Part => part.2.value?) hp
  obtain ⟨content, _, same⟩ := List.mem_map.mp listed
  exact ⟨content, same.symm⟩

theorem names_nested (parts : List Part) :
    Fields.names (parts.map nested) = Fields.names parts := by
  rw [Fields.names, List.map_map]
  rfl

theorem mapOfChoice_nested {parts : List Part} (distinct : (Fields.names parts).Nodup) :
    MapOf parts (mapOfChoice (parts.map nested)) := by
  rw [← names_nested] at distinct
  rw [mapOfChoice, Fields.ofList_of_nodup distinct]
  have merged := Outcome.foldFields_merged distinct
  revert merged
  generalize Outcome.foldFields (parts.map nested) = outcome
  intro merged
  rw [names_nested, List.map_map] at merged
  cases merged with
  | @value contents valued =>
    rw [List.map_map] at valued
    have own : parts.map (fun part => part.2.value?) = contents.map some :=
      Eq.trans (List.map_congr_left fun part _ => (Outcome.value?_under part.1 part.2).symm) valued
    have notes : (parts.map (Prod.snd ∘ nested)).flatMap Outcome.notes =
        parts.flatMap fun part => part.2.notes ++ [⟨[""], [part.1]⟩] := by
      rw [List.flatMap_map]
      refine List.flatMap_congr fun part hp => ?_
      obtain ⟨_, content⟩ := exists_content own hp
      exact Outcome.notes_under content part.1
    rw [notes]
    exact .value own
  | failed free failed leaves =>
    obtain ⟨cause, hm⟩ := failed
    obtain ⟨part, hp, same⟩ := List.mem_map.mp hm
    refine .failed (fun other ho => ?_) ⟨part, hp, ?_⟩ (leaves.trans ?_)
    · rw [← Outcome.isCrash_under other.1]
      exact free _ (List.mem_map_of_mem ho)
    · obtain ⟨name, outcome⟩ := part
      cases outcome with
      | value _ _ => cases same
      | failed own => exact ⟨own, rfl⟩
      | crashed _ _ _ => cases same
    · rw [List.flatMap_map]
      exact List.flatMap_congr fun part _ => Outcome.leaves_under part.1 part.2
  | crashed split free =>
    obtain ⟨before, rest, rfl, hb, hr⟩ := List.map_eq_append_iff.mp split
    obtain ⟨part, after, rfl, hp, rfl⟩ := List.map_eq_cons_iff.mp hr
    subst hb
    obtain ⟨name, crash⟩ := part
    refine .crashed rfl (fun other ho => ?_) hp
    rw [← Outcome.isCrash_under other.1]
    exact free _ (List.mem_map_of_mem ho)

/-- A field is present where its part is a schema. -/
theorem mem_presentFields {fields : Fields (Option Schema)} {key : String} {schema : Schema} :
    (key, schema) ∈ presentFields fields ↔ (key, some schema) ∈ fields := by
  rw [presentFields, List.mem_filterMap]
  constructor
  · rintro ⟨⟨name, content⟩, hm, same⟩
    obtain ⟨found, hf, pair⟩ := Option.map_eq_some_iff.mp same
    rw [Prod.mk.injEq] at pair
    obtain ⟨rfl, rfl⟩ := pair
    cases hf
    exact hm
  · intro hm
    exact ⟨(key, some schema), hm, rfl⟩

/-- The names of the present fields are some of the names. -/
theorem names_presentFields_sublist (fields : Fields (Option Schema)) :
    (Fields.names (presentFields fields)).Sublist (Fields.names fields) := by
  induction fields with
  | nil => exact .slnil
  | cons entry rest ih =>
    obtain ⟨key, content⟩ := entry
    cases content with
    | none => exact ih.cons key
    | some schema => exact ih.cons_cons key

/-- A map with a value has a value for each part, and just the fields whose part is a schema. -/
theorem MapOf.fields {parts : List Part} {outcome : Outcome (Fields Schema)} {made : Fields Schema}
    (h : MapOf parts outcome) (hv : outcome.value? = some made) :
    (∀ part ∈ parts, ∃ content, part.2.value? = some content) ∧
      (Fields.names made).Sublist (Fields.names parts) ∧
      ∀ key schema, (key, schema) ∈ made ↔ ∃ part ∈ parts, part.1 = key ∧
        part.2.value? = some (some schema) := by
  cases h with
  | failed _ _ _ => cases hv
  | crashed _ _ => cases hv
  | @value contents valued =>
    cases hv
    have same : List.Forall₂ Eq (parts.map fun part => part.2.value?) (contents.map some) :=
      valued ▸ List.forall₂_refl _
    have each : List.Forall₂ (fun part content => part.2.value? = some content) parts contents :=
      List.forall₂_map_right_iff.mp (List.forall₂_map_left_iff.mp same)
    have pairs : ∀ key content, (key, content) ∈ (Fields.names parts).zip contents ↔
        ∃ part ∈ parts, part.1 = key ∧ part.2.value? = some content := by
      clear valued same
      induction each with
      | nil => simp
      | @cons part content parts contents same _ ih =>
        intro key other
        rw [Fields.names, List.map_cons, List.zip_cons_cons, List.mem_cons, ← Fields.names, ih,
          List.exists_mem_cons_iff, same, Prod.mk.injEq, Option.some.injEq, eq_comm (a := key),
          eq_comm (a := other)]
    refine ⟨fun _ => exists_content valued, ?_, fun key schema => ?_⟩
    · refine (names_presentFields_sublist _).trans ?_
      have length : (Fields.names parts).length = contents.length := by
        simpa [Fields.names] using congrArg List.length valued
      rw [Fields.names, List.map_fst_zip (Nat.le_of_eq length)]
    · rw [mem_presentFields, pairs]

section Enumerated

variable {mutants : String → Schema → Enumeration (Outcome Schema)}
  {positives : String → Schema → Enumeration (Attempt (Option Schema))} {entries : Fields Schema}
  {parts : List Part}

/-- The parts of a map: a mutant at one place, variants before and behind it. -/
theorem mem_mapParts (h : parts ∈ mapParts mutants positives entries) :
    ∃ before field after, entries = before ++ field :: after ∧
      ∃ candidate ∈ (mutants field.1 field.2).toList, ∃ first last,
        parts = first ++ mutantPart field.1 candidate :: last ∧
        List.Forall₂ (fun part field => part ∈ variantParts positives field) first before ∧
        List.Forall₂ (fun part field => part ∈ variantParts positives field) last after := by
  obtain ⟨entry, hm, h⟩ := List.mem_flatMap.mp h
  obtain ⟨candidate, hc, h⟩ := List.mem_flatMap.mp h
  obtain ⟨_, inside, same⟩ := List.mem_zipIdx hm
  simp only [Nat.zero_add, Nat.sub_zero] at inside same
  refine ⟨entries.take entry.2, entry.1, entries.drop (entry.2 + 1), ?_, candidate, hc, ?_⟩
  · rw [same, List.getElem_cons_drop, List.take_append_drop]
  · rw [mem_choices] at h
    have front := List.forall₂_take_append parts _ _ h
    have back := List.forall₂_drop_append parts _ _ h
    rw [List.length_map] at front back
    obtain ⟨part, last, hp, hl, split⟩ := List.forall₂_cons_right_iff.mp back
    rw [List.mem_singleton] at hp
    refine ⟨_, last, ?_, List.forall₂_map_right_iff.mp front, List.forall₂_map_right_iff.mp hl⟩
    rw [← hp, ← split, List.take_append_drop]

/-- One part of a map is a mutant, every other one is a variant of a field, and every other field
has a variant among them. -/
theorem around_of_mem_mapParts (h : parts ∈ mapParts mutants positives entries) :
    ∃ field ∈ entries, ∃ candidate ∈ (mutants field.1 field.2).toList,
      mutantPart field.1 candidate ∈ parts ∧
      (∀ part ∈ parts, part = mutantPart field.1 candidate ∨
        ∃ other ∈ entries, part ∈ variantParts positives other) ∧
      ∀ other ∈ entries, other = field ∨ ∃ part ∈ parts, part ∈ variantParts positives other := by
  obtain ⟨before, field, after, rfl, candidate, hc, first, last, rfl, hf, hl⟩ := mem_mapParts h
  refine ⟨field, List.mem_append_right _ List.mem_cons_self, candidate, hc,
    List.mem_append_right _ List.mem_cons_self, fun part hp => ?_, fun other ho => ?_⟩
  · rcases List.mem_append.mp hp with hp | hp
    · obtain ⟨other, ho, listed⟩ := exists_of_mem_forall₂ hf hp
      exact .inr ⟨other, List.mem_append_left _ ho, listed⟩
    · rcases List.mem_cons.mp hp with rfl | hp
      · exact .inl rfl
      · obtain ⟨other, ho, listed⟩ := exists_of_mem_forall₂ hl hp
        exact .inr ⟨other, List.mem_append_right _ (List.mem_cons_of_mem _ ho), listed⟩
  · rcases List.mem_append.mp ho with ho | ho
    · obtain ⟨part, hp, listed⟩ := exists_of_mem_forall₂ hf.flip ho
      exact .inr ⟨part, List.mem_append_left _ hp, listed⟩
    · rcases List.mem_cons.mp ho with rfl | ho
      · exact .inl rfl
      · obtain ⟨part, hp, listed⟩ := exists_of_mem_forall₂ hl.flip ho
        exact .inr ⟨part, List.mem_append_right _ (List.mem_cons_of_mem _ hp), listed⟩

/-- The parts of a map stand under the names of the fields. -/
theorem names_of_mem_mapParts (h : parts ∈ mapParts mutants positives entries) :
    Fields.names parts = (Fields.names entries).map Key.name := by
  have variants {parts : List Part} {fields : Fields Schema}
      (h : List.Forall₂ (fun part field => part ∈ variantParts positives field) parts fields) :
      Fields.names parts = (Fields.names fields).map Key.name := by
    induction h with
    | nil => rfl
    | cons hp _ ih =>
      obtain ⟨choice, _, rfl⟩ := List.mem_map.mp hp
      rw [Fields.names, List.map_cons, ← Fields.names, ih]
      rfl
  obtain ⟨before, field, after, rfl, candidate, _, first, last, rfl, hf, hl⟩ := mem_mapParts h
  have first := variants hf
  have last := variants hl
  unfold Fields.names at first last ⊢
  rw [List.map_append, List.map_cons, first, last, List.map_append, List.map_append, List.map_cons,
    List.map_cons]
  rfl

/-- Parts of one map never stand under one name, so they come to a map. -/
theorem mapOf_of_mem_mapParts (distinct : ((Fields.names entries).map Key.name).Nodup)
    (h : parts ∈ mapParts mutants positives entries) :
    MapOf parts (mapOfChoice (parts.map nested)) := by
  refine mapOfChoice_nested ?_
  rw [names_of_mem_mapParts h]
  exact distinct

/-- A map has a name for its mutant, whatever its other parts are: a mutant has a schema, so that
its field is never left out. -/
theorem not_mapOf_empty (h : parts ∈ mapParts mutants positives entries) :
    ¬MapOf parts (.pure []) := by
  intro map
  obtain ⟨_, field, _, _, candidate, _, first, last, rfl, _, _⟩ := mem_mapParts h
  obtain ⟨valued, _, made⟩ := map.fields rfl
  have listed : mutantPart field.1 candidate ∈ first ++ mutantPart field.1 candidate :: last :=
    List.mem_append_right _ List.mem_cons_self
  obtain ⟨content, hv⟩ := valued _ listed
  rw [mutantPart, Outcome.value?_map] at hv
  obtain ⟨schema, _, rfl⟩ := Option.map_eq_some_iff.mp hv
  exact List.not_mem_nil ((made _ schema).mpr ⟨_, listed, rfl, (Outcome.value?_map _ _).trans hv⟩)

/-! ## 4. The stream -/

variable (mutants positives)

/-- Each item is what the parts of its place come to, if any field has a mutant. -/
theorem mutantMaps_forall₂ (distinct : ((Fields.names entries).map Key.name).Nodup)
    (some : ∃ entry ∈ entries, (mutants entry.1 entry.2).toList ≠ []) :
    List.Forall₂ MapOf (mapParts mutants positives entries)
      (mutantMaps mutants positives entries).toList := by
  have any : (entries.any fun entry => !(mutants entry.1 entry.2).toList.isEmpty) = true := by
    obtain ⟨entry, hm, nonempty⟩ := some
    exact List.any_eq_true.mpr ⟨entry, hm, by simpa using nonempty⟩
  rw [toList_mutantMaps_parts, if_pos any, List.append_nil, List.forall₂_map_right_iff,
    List.forall₂_same]
  exact fun _ => mapOf_of_mem_mapParts distinct

/-- The lone empty map stands where no field has a mutant, and nowhere else. -/
theorem mutantMaps_eq_empty_iff (distinct : ((Fields.names entries).map Key.name).Nodup) :
    (mutantMaps mutants positives entries).toList = [.pure []] ↔
      ∀ entry ∈ entries, (mutants entry.1 entry.2).toList = [] := by
  constructor
  · intro lone
    by_contra some
    push Not at some
    have each := mutantMaps_forall₂ mutants positives distinct some
    rw [lone] at each
    obtain ⟨parts, _, map, _, listed⟩ := List.forall₂_cons_right_iff.mp each
    have hp : parts ∈ mapParts mutants positives entries := listed ▸ List.mem_cons_self
    exact not_mapOf_empty hp map
  · intro none
    have any : ¬(entries.any fun entry => !(mutants entry.1 entry.2).toList.isEmpty) = true := by
      intro any
      obtain ⟨entry, hm, nonempty⟩ := List.any_eq_true.mp any
      rw [none entry hm] at nonempty
      cases nonempty
    have noParts : mapParts mutants positives entries = [] := by
      refine List.eq_nil_iff_forall_not_mem.mpr fun parts hp => ?_
      obtain ⟨before, field, after, rfl, candidate, hc, _⟩ := mem_mapParts hp
      rw [none field (List.mem_append_right _ List.mem_cons_self)] at hc
      cases hc
    rw [toList_mutantMaps_parts, noParts, if_neg any]
    rfl

end Enumerated

/-- The maps for negative tests, item for item: for each field in order and each of its mutants in
order, each choice of variants of the other fields, in lexicographic order. The lone empty map
stands there just when no field has a mutant. -/
theorem Schema.mutantMaps_enumerated (strategy : Strategy) (context : Context) (row : Row)
    {entries : Fields Schema} (distinct : ((Fields.names entries).map Key.name).Nodup) :
    ((∃ entry ∈ entries, (fieldMutants strategy context row entry.2).toList ≠ []) →
      List.Forall₂ MapOf
        (mapParts (fun _ schema => fieldMutants strategy context row schema)
          (fieldVariants context row) entries)
        (mutantMaps strategy context row entries).toList) ∧
      ((mutantMaps strategy context row entries).toList = [.pure []] ↔
        ∀ entry ∈ entries, (fieldMutants strategy context row entry.2).toList = []) :=
  ⟨mutantMaps_forall₂ (fun _ schema => fieldMutants strategy context row schema)
      (fieldVariants context row) distinct,
    mutantMaps_eq_empty_iff (fun _ schema => fieldMutants strategy context row schema)
      (fieldVariants context row) distinct⟩

/-- The fields of a node: both have mutants, and the maps for them are listed one by one. -/
theorem mutantMaps_enumerated_node :
    let fields : Fields Schema := [("next?", .named "Node"), ("value", .numeric)]
    let context : Context := .ofRegistry linkedNodes
    ((Fields.names fields).map Key.name).Nodup ∧
      List.Forall₂ MapOf
        (mapParts (fun _ schema => Schema.fieldMutants .full context .empty schema)
          (Schema.fieldVariants context .empty) fields)
        (Schema.mutantMaps .full context .empty fields).toList := by
  intro fields context
  have distinct : ((Fields.names fields).map Key.name).Nodup := by decide +kernel
  refine ⟨distinct, (Schema.mutantMaps_enumerated .full context .empty distinct).1 ?_⟩
  exact ⟨("value", .numeric), .tail _ (.head _), by decide +kernel⟩

end DataContract
