import Mathlib
import DataContract.Proofs.Reentry
import DataContract.Schema.Compatibility

/-!
# Expansion

The schemas that a computation comes to from a schema are not bounded by its size, because
references lead anywhere in the registry. What bounds them is the stack: each reference and each
schema with a title is put on it when a field, an item or an alternative is entered, in either kind
of place at most once.

1. `Registry.LoopFree`: no name stands for itself in the end, so that none is `Registry.OnLoop`. A
   rank shows it, and it is all that is asked of a registry: an alternative that leads back to its
   own union is no loop.
2. `Schema.Expands`: one step, from a schema under a stack to one that is derived or generated for
   it.
3. `Schema.expansionLeft`: the frames that are not on the stack, and the nodes ahead before the next
   one is put there. It falls with every step but one round a loop (`Schema.Expands.left_lt`), and
   the budget of steps is enough for it (`Schema.expansionLeft_le_budget`).
4. `Schema.expand_induction`: hence what one step preserves holds of the whole expansion. Where
   there may be loops, it has to hold of the names on them besides
   (`Schema.expand_induction_of_onLoop`).
5. `Schema.nodup_of_expands`: no frame is ever on the stack twice.
-/

namespace DataContract

/-! ## 1. Names that stand for names -/

namespace Registry

variable {registry : Registry}

/-- What is registered under one name is a reference to another. -/
def StandsFor (registry : Registry) (name target : String) : Prop :=
  ∃ other, Fields.find? name registry.entries = some (.reference other) ∧
    target = Token.ofName other

/-- A name that stands for itself in the end. -/
def OnLoop (registry : Registry) (name : String) : Prop :=
  Relation.TransGen registry.StandsFor name name

/-- No name stands for itself in the end. -/
def LoopFree (registry : Registry) : Prop := ∀ name, ¬Relation.TransGen registry.StandsFor name name

/-- What a name on a loop stands for is a reference to a name on the same loop. -/
theorem OnLoop.next {name : String} (loop : registry.OnLoop name) :
    ∃ other, Fields.find? name registry.entries = some (.reference other) ∧
      registry.OnLoop (Token.ofName other) := by
  obtain ⟨_, stands, back⟩ := Relation.TransGen.head'_iff.mp loop
  obtain ⟨other, found, rfl⟩ := stands
  exact ⟨other, found, .tail' back ⟨other, found, rfl⟩⟩

/-- A rank that falls from a name to the one that it stands for rules out loops. -/
theorem loopFree_of_rank (rank : String → Nat)
    (h : ∀ entry ∈ registry.entries, entry.2.isReference = true →
      ∀ name ∈ entry.2.frontNames, rank name < rank entry.1) : registry.LoopFree := by
  have falls {a b : String} (hl : Relation.TransGen registry.StandsFor a b) : rank b < rank a := by
    have one {a b : String} (hl : registry.StandsFor a b) : rank b < rank a := by
      obtain ⟨other, found, rfl⟩ := hl
      exact h (a, .reference other) (Fields.mem_of_find? found) rfl _ (List.mem_singleton_self _)
    induction hl with
    | single hl => exact one hl
    | tail _ hl ih => exact Nat.lt_trans (one hl) ih
  exact fun name loop => Nat.lt_irrefl _ (falls loop)

/-- In a guarded registry no name stands for itself. -/
theorem Guarded.loopFree (guarded : registry.Guarded) : registry.LoopFree := by
  refine fun name loop => guarded name (loop.lift id ?_)
  rintro name target ⟨other, found, rfl⟩
  exact ⟨_, found, List.mem_singleton_self _⟩

open Classical in
/-- The nodes of the entries whose name is as said. -/
noncomputable def sizeWhere (p : String → Prop) : Fields Schema → Nat
  | [] => 0
  | (name, schema) :: rest => (if p name then schema.size else 0) + sizeWhere p rest

theorem sizeWhere_le (p : String → Prop) (entries : Fields Schema) :
    sizeWhere p entries ≤ Schema.sizeOfFields entries := by
  induction entries with
  | nil => exact Nat.le_refl _
  | cons entry rest ih =>
    obtain ⟨name, schema⟩ := entry
    rw [sizeWhere, Schema.sizeOfFields]
    split <;> omega

theorem sizeWhere_mono {p q : String → Prop} (h : ∀ name, p name → q name)
    (entries : Fields Schema) : sizeWhere p entries ≤ sizeWhere q entries := by
  induction entries with
  | nil => exact Nat.le_refl _
  | cons entry rest ih =>
    obtain ⟨name, schema⟩ := entry
    by_cases hp : p name
    · simp only [sizeWhere, hp, h name hp, if_true]
      omega
    · simp only [sizeWhere, hp, if_false]
      omega

/-- A name more is a schema more. -/
theorem size_add_sizeWhere_le {p q : String → Prop} (h : ∀ name, p name → q name) {name : String}
    (hp : ¬p name) (hq : q name) {entries : Fields Schema} {schema : Schema}
    (found : Fields.find? name entries = some schema) :
    schema.size + sizeWhere p entries ≤ sizeWhere q entries := by
  induction entries with
  | nil => cases found
  | cons entry rest ih =>
    obtain ⟨key, first⟩ := entry
    by_cases hk : key = name
    · subst hk
      simp only [Fields.find?, if_true, Option.some.injEq] at found
      have := sizeWhere_mono h rest
      simp only [sizeWhere, hp, hq, if_true, if_false, found]
      omega
    · simp only [Fields.find?, hk, if_false] at found
      have := ih found
      by_cases hp : p key
      · simp only [sizeWhere, hp, h key hp, if_true]
        omega
      · simp only [sizeWhere, hp, if_false]
        omega

/-- The nodes of all that a name stands for, its own entry among them. -/
noncomputable def standSize (registry : Registry) (name : String) : Nat :=
  sizeWhere (Relation.ReflTransGen registry.StandsFor name) registry.entries

theorem standSize_le_size (registry : Registry) (name : String) :
    registry.standSize name ≤ registry.size :=
  sizeWhere_le _ _

end Registry

namespace Schema

/-- The nodes that are passed at most before the next frame is put on the stack. -/
noncomputable def ahead (registry : Registry) : Schema → Nat
  | reference name => registry.standSize (Token.ofName name) + 1
  | schema => schema.size

theorem size_pos (schema : Schema) : 0 < schema.size := by
  cases schema <;> simp [size]

theorem ahead_pos (registry : Registry) (schema : Schema) : 0 < schema.ahead registry := by
  cases schema <;> simp [ahead, size]

theorem ahead_of_untracked (registry : Registry) {schema : Schema} (h : schema.identity = none) :
    schema.ahead registry = schema.size := by
  cases schema with
  | reference name => cases h
  | _ => rfl

/-- A reference that is followed leaves fewer nodes ahead, unless it leads round a loop. -/
theorem ahead_target_lt {registry : Registry} {name : String}
    (straight : ¬registry.OnLoop (Token.ofName name)) {target : Schema}
    (found : registry.find? name = some target) :
    target.ahead registry < (reference name).ahead registry := by
  cases target with
  | reference other =>
    have stands : registry.StandsFor (Token.ofName name) (Token.ofName other) := ⟨other, found, rfl⟩
    have fewer := Registry.size_add_sizeWhere_le
      (p := Relation.ReflTransGen registry.StandsFor (Token.ofName other))
      (q := Relation.ReflTransGen registry.StandsFor (Token.ofName name))
      (fun next chain => .head stands chain) (fun back => straight (.head' stands back)) .refl found
    have := (reference other).size_pos
    simp only [ahead, Registry.standSize]
    omega
  | _ =>
    have fewer := Registry.size_add_sizeWhere_le (p := fun _ => False)
      (q := Relation.ReflTransGen registry.StandsFor (Token.ofName name)) nofun
        not_false .refl found
    simp only [ahead, Registry.standSize]
    omega

/-! ## 2. Steps -/

/-- From a schema under a stack to what is expanded next for it: the target of a reference, or a
field, an item or an alternative that is entered. A field is entered as one that can be left out
whenever it is mutated. -/
inductive Expands (context : Context) : List Frame × Schema → List Frame × Schema → Prop
  | follow {stack : List Frame} {name : String} {target : Schema} :
      context.registry.find? name = some target →
      Expands context (stack, .reference name) (stack, target)
  | field {stack stack' : List Frame} {fields : List (String × Schema)} {title : Option String}
      {field : String × Schema} {nullable : Bool} :
      field ∈ fields → nullable = Key.isOptional field.1 ∨ nullable = true →
      ({ context with expanding := stack } : Context).enter field.2 nullable =
        .ok (some { context with expanding := stack' }) →
      Expands context (stack, .object fields title) (stack', field.2)
  | item {stack stack' : List Frame} {item : Schema} {title sample : Option String} :
      ({ context with expanding := stack } : Context).enter item true =
        .ok (some { context with expanding := stack' }) →
      Expands context (stack, .list item title sample) (stack', item)
  | member {stack stack' : List Frame} {members : List Schema} {key title sample : Option String}
      {schema : Schema} :
      schema ∈ members →
      ({ context with expanding := stack } : Context).enter schema (listsNull members) =
        .ok (some { context with expanding := stack' }) →
      Expands context (stack, .union members key title sample) (stack', schema)

/-! ## 3. What is left of an expansion -/

/-- The frames of some schemas, in both kinds of places. -/
def framesOf (schemas : List Schema) : Finset Frame :=
  ((schemas.filterMap identity).flatMap fun identity =>
    [⟨identity, true⟩, ⟨identity, false⟩]).toFinset

/-- The frames of a schema and of everything that is registered. -/
def frames (registry : Registry) (schema : Schema) : Finset Frame :=
  framesOf (schema.nodes ++ registry.entries.flatMap (·.2.nodes))

/-- Everything inside the schema has its frames among these, and there are at most so many nodes. -/
structure Charted (pool : Finset Frame) (width : Nat) (schema : Schema) : Prop where
  listed : schema.Everywhere fun node =>
    ∀ identity, node.identity = some identity → ∀ nullable, ⟨identity, nullable⟩ ∈ pool
  fits : schema.size ≤ width

/-- How far an expansion can still go: so many steps for each frame that is not on the stack, and
the nodes ahead. -/
noncomputable def expansionLeft (registry : Registry) (pool : Finset Frame) (width : Nat)
    (state : List Frame × Schema) : Nat :=
  (pool \ state.1.toFinset).card * width + state.2.ahead registry

theorem size_le_of_mem {members : List Schema} {schema : Schema} (h : schema ∈ members) :
    schema.size ≤ sizeOfAll members := by
  induction members with
  | nil => cases h
  | cons first rest ih =>
    rw [sizeOfAll]
    rcases List.mem_cons.mp h with rfl | hr
    · exact Nat.le_add_right _ _
    · exact Nat.le_trans (ih hr) (Nat.le_add_left _ _)

/-- What is put on a stack is no longer left. -/
theorem card_sdiff_cons_lt {α : Type} [DecidableEq α] {pool : Finset α} {a : α} {stack : List α}
    (listed : a ∈ pool) (fresh : a ∉ stack) :
    (pool \ (a :: stack).toFinset).card < (pool \ stack.toFinset).card := by
  refine Finset.card_lt_card (Finset.ssubset_iff_subset_ne.mpr ⟨?_, fun same => ?_⟩)
  · exact Finset.sdiff_subset_sdiff subset_rfl (by simp)
  · have here : a ∈ pool \ stack.toFinset := Finset.mem_sdiff.mpr ⟨listed, by simpa using fresh⟩
    rw [← same] at here
    simp at here

section Left

variable {context : Context} {pool : Finset Frame} {width : Nat} {stack stack' : List Frame}
  {schema part : Schema} {nullable : Bool}

/-- A part that is entered has its frame put on the stack, or has none. -/
theorem stack_of_enter (h : ({ context with expanding := stack } : Context).enter part nullable =
      .ok (some { context with expanding := stack' })) :
    (part.identity = none ∧ stack' = stack) ∨
      ∃ identity, part.identity = some identity ∧ ⟨identity, nullable⟩ ∉ stack ∧
        stack' = ⟨identity, nullable⟩ :: stack := by
  unfold Context.enter at h
  cases tracked : part.identity with
  | none =>
    simp only [tracked] at h
    have same := congrArg Context.expanding (Option.some.inj (Except.ok.inj h))
    exact .inl ⟨rfl, same.symm⟩
  | some identity =>
    simp only [tracked] at h
    split at h
    · split at h <;> cases h
    · next fresh =>
      have same := congrArg Context.expanding (Option.some.inj (Except.ok.inj h))
      refine .inr ⟨identity, rfl, fun seen => fresh (List.contains_iff_mem.mpr seen), same.symm⟩

/-- Entering a part leaves less of the expansion: a frame less, or fewer nodes ahead. -/
theorem left_lt_of_enter (wide : context.registry.size + 1 ≤ width)
    (charted : part.Charted pool width) (smaller : part.size < schema.ahead context.registry)
    (h : ({ context with expanding := stack } : Context).enter part nullable =
      .ok (some { context with expanding := stack' })) :
    expansionLeft context.registry pool width (stack', part) <
      expansionLeft context.registry pool width (stack, schema) := by
  unfold expansionLeft
  rcases stack_of_enter h with ⟨untracked, rfl⟩ | ⟨identity, tracked, fresh, rfl⟩
  · rw [ahead_of_untracked _ untracked]
    exact Nat.add_lt_add_left smaller _
  · have fewer := card_sdiff_cons_lt (charted.listed.here identity tracked nullable) fresh
    have room : part.ahead context.registry ≤ width := by
      cases part with
      | reference name =>
        have := context.registry.standSize_le_size (Token.ofName name)
        simp only [ahead]
        omega
      | _ => exact charted.fits
    have ahead := schema.ahead_pos context.registry
    have paid := Nat.mul_le_mul_right width fewer
    rw [Nat.succ_mul] at paid
    dsimp only
    omega

/-- Every step leaves less of the expansion, unless it leads round a loop. -/
theorem Expands.left_lt (wide : context.registry.size + 1 ≤ width)
    (registered : ∀ entry ∈ context.registry.entries, entry.2.Charted pool width)
    {state next : List Frame × Schema} (charted : state.2.Charted pool width)
    (straight : ∀ name, state.2 = .reference name → ¬context.registry.OnLoop (Token.ofName name))
    (step : Expands context state next) :
    next.2.Charted pool width ∧
      expansionLeft context.registry pool width next <
        expansionLeft context.registry pool width state := by
  obtain ⟨listed, fits⟩ := charted
  cases step with
  | follow found =>
    exact ⟨registered _ (Fields.mem_of_find? found),
      Nat.add_lt_add_left (ahead_target_lt (straight _ rfl) found) _⟩
  | @field _ _ fields _ field _ hf _ entered =>
    have smaller : field.2.size < sizeOfFields fields + 1 := Nat.lt_succ_of_le (size_le_of_field hf)
    have charted : field.2.Charted pool width :=
      ⟨(everywhere_object.mp listed).2 _ hf, Nat.le_trans (Nat.le_of_lt smaller) fits⟩
    exact ⟨charted, left_lt_of_enter wide charted smaller entered⟩
  | @item _ _ item _ _ entered =>
    have smaller : item.size < item.size + 1 := Nat.lt_succ_self _
    have charted : item.Charted pool width :=
      ⟨(everywhere_list.mp listed).2, Nat.le_trans (Nat.le_of_lt smaller) fits⟩
    exact ⟨charted, left_lt_of_enter wide charted smaller entered⟩
  | @member _ _ members _ _ _ schema hm entered =>
    have smaller : schema.size < sizeOfAll members + 1 := Nat.lt_succ_of_le (size_le_of_mem hm)
    have charted : schema.Charted pool width :=
      ⟨(everywhere_union.mp listed).2 _ hm, Nat.le_trans (Nat.le_of_lt smaller) fits⟩
    exact ⟨charted, left_lt_of_enter wide charted smaller entered⟩

end Left

mutual

/-- There are as many nodes as the size says. -/
theorem length_nodes : ∀ schema : Schema, schema.nodes.length = schema.size
  | string _ _ | number _ _ _ | boolean _ | null | literal _ _ | reference _ => rfl
  | object fields _ => by
    rw [nodes, List.length_cons, length_nodesOfFields fields, size]
  | list item _ _ => by
    rw [nodes, List.length_cons, length_nodes item, size]
  | union members _ _ _ => by
    rw [nodes, List.length_cons, length_nodesOfAll members, size]

theorem length_nodesOfFields : ∀ fields : List (String × Schema),
    (nodesOfFields fields).length = sizeOfFields fields
  | [] => rfl
  | (_, schema) :: rest => by
    rw [nodesOfFields, List.length_append, length_nodes schema, length_nodesOfFields rest,
      sizeOfFields]

theorem length_nodesOfAll : ∀ members : List Schema, (nodesOfAll members).length = sizeOfAll members
  | [] => rfl
  | schema :: rest => by
    rw [nodesOfAll, List.length_append, length_nodes schema, length_nodesOfAll rest, sizeOfAll]

end

theorem length_registryNodes (registry : Registry) :
    (registry.entries.flatMap (·.2.nodes)).length = registry.size := by
  unfold Registry.size
  generalize registry.entries = entries
  induction entries with
  | nil => rfl
  | cons entry rest ih =>
    obtain ⟨key, schema⟩ := entry
    rw [List.flatMap_cons, List.length_append, ih, length_nodes, sizeOfFields]

theorem card_framesOf_le (schemas : List Schema) :
    (framesOf schemas).card ≤ 2 * schemas.length := by
  refine (List.toFinset_card_le _).trans ?_
  rw [List.length_flatMap]
  have tracked := List.length_filterMap_le identity schemas
  simp only [List.length_cons, List.length_nil, List.map_const', List.sum_replicate, smul_eq_mul]
  omega

theorem mem_framesOf {schemas : List Schema} {schema : Schema} (h : schema ∈ schemas)
    {identity : String} (tracked : schema.identity = some identity) (nullable : Bool) :
    ⟨identity, nullable⟩ ∈ framesOf schemas := by
  have listed : identity ∈ schemas.filterMap Schema.identity :=
    List.mem_filterMap.mpr ⟨_, h, tracked⟩
  rw [framesOf, List.mem_toFinset, List.mem_flatMap]
  exact ⟨identity, listed, by cases nullable <;> simp⟩

/-- The schema and everything that is registered, among its frames and within its number of
nodes. -/
theorem charted_frames (registry : Registry) (schema : Schema) :
    schema.Charted (frames registry schema) (schema.size + registry.size + 1) ∧
      ∀ entry ∈ registry.entries,
        entry.2.Charted (frames registry schema) (schema.size + registry.size + 1) := by
  refine ⟨⟨fun node hn identity tracked nullable => ?_, by omega⟩,
    fun entry he => ⟨fun node hn identity tracked nullable => ?_, ?_⟩⟩
  · exact mem_framesOf (List.mem_append_left _ hn) tracked nullable
  · exact mem_framesOf (List.mem_append_right _ (List.mem_flatMap.mpr ⟨entry, he, hn⟩))
      tracked nullable
  · have : entry.2.size ≤ registry.size := size_le_of_field he
    omega

theorem card_frames_le (registry : Registry) (schema : Schema) :
    (frames registry schema).card ≤ 2 * (schema.size + registry.size) := by
  have := card_framesOf_le (schema.nodes ++ registry.entries.flatMap (·.2.nodes))
  rwa [List.length_append, length_nodes, length_registryNodes] at this

/-- The budget is enough for an expansion from any stack. -/
theorem expansionLeft_le_budget (registry : Registry) (stack : List Frame) (schema : Schema) :
    expansionLeft registry (frames registry schema) (schema.size + registry.size + 1)
      (stack, schema) ≤ schema.expansionBudget registry := by
  have few : (frames registry schema \ stack.toFinset).card ≤ 2 * (schema.size + registry.size) :=
    (Finset.card_le_card Finset.sdiff_subset).trans (card_frames_le registry schema)
  have ahead : schema.ahead registry ≤ schema.size + registry.size + 1 := by
    cases schema with
    | reference name =>
      have := registry.standSize_le_size (Token.ofName name)
      simp only [Schema.ahead]
      omega
    | _ => exact Nat.le_trans (Nat.le_add_right _ _) (Nat.le_succ _)
  unfold expansionLeft expansionBudget
  generalize schema.size + registry.size = nodes at few ahead ⊢
  have paid := Nat.mul_le_mul_right (nodes + 1) few
  have total : 2 * nodes * (nodes + 1) + (nodes + 1) ≤ (nodes + 1 + 1) * (2 * (nodes + 1) + 2) := by
    nlinarith
  dsimp only
  omega

/-! ## 4. One step and the whole expansion -/

/-- What a step preserves, from the schemas that are expanded next to the schema itself, and what
holds of every name on a loop, holds of an expansion that has the steps of the budget, or more. -/
theorem expand_induction_of_onLoop {context : Context} {P : Nat → List Frame → Schema → Prop}
    (loop : ∀ fuel stack name, context.registry.OnLoop (Token.ofName name) →
      P fuel stack (.reference name))
    (step : ∀ fuel stack schema, (∀ stack' part, Expands context (stack, schema) (stack', part) →
      P fuel stack' part) → P (fuel + 1) stack schema)
    (stack : List Frame) (schema : Schema) {fuel : Nat}
    (enough : schema.expansionBudget context.registry ≤ fuel) : P fuel stack schema := by
  obtain ⟨charted, registered⟩ := charted_frames context.registry schema
  have left := Nat.le_trans (expansionLeft_le_budget context.registry stack schema) enough
  have wide : context.registry.size + 1 ≤ schema.size + context.registry.size + 1 := by omega
  generalize frames context.registry schema = pool at charted registered left
  generalize schema.size + context.registry.size + 1 = width at charted registered left wide
  clear enough
  induction fuel generalizing stack schema with
  | zero =>
    have := schema.ahead_pos context.registry
    simp only [expansionLeft] at left
    omega
  | succ fuel ih =>
    by_cases straight : ∀ name, schema = .reference name →
      ¬context.registry.OnLoop (Token.ofName name)
    · refine step fuel stack schema fun stack' part taken => ?_
      obtain ⟨charted', less⟩ := taken.left_lt wide registered charted straight
      exact ih stack' part charted' (by omega)
    · push Not at straight
      obtain ⟨name, rfl, round⟩ := straight
      exact loop _ stack name round

/-- What a step preserves, from the schemas that are expanded next to the schema itself, holds of an
expansion that has the steps of the budget, or more. -/
theorem expand_induction {context : Context} (loopFree : context.registry.LoopFree)
    {P : Nat → List Frame → Schema → Prop}
    (step : ∀ fuel stack schema, (∀ stack' part, Expands context (stack, schema) (stack', part) →
      P fuel stack' part) → P (fuel + 1) stack schema)
    (stack : List Frame) (schema : Schema) {fuel : Nat}
    (enough : schema.expansionBudget context.registry ≤ fuel) : P fuel stack schema :=
  expand_induction_of_onLoop (fun _ _ _ round => absurd round (loopFree _)) step stack schema enough

/-! ## 5. Stacks -/

/-- No frame is ever on the stack twice. -/
theorem nodup_of_expands {context : Context} {state last : List Frame × Schema}
    (h : Relation.ReflTransGen (Expands context) state last) (fresh : state.1.Nodup) :
    last.1.Nodup := by
  induction h with
  | refl => exact fresh
  | tail _ step ih =>
    cases step with
    | follow => exact ih
    | field _ _ entered | item entered | member _ entered =>
      rcases stack_of_enter entered with ⟨_, rfl⟩ | ⟨identity, _, new, rfl⟩
      · exact ih
      · exact List.nodup_cons.mpr ⟨new, ih⟩

/-- Where no frame is there twice, no name is there more than twice. -/
theorem count_identity_le {stack : List Frame} (fresh : stack.Nodup) (identity : String) :
    (stack.filter (·.identity = identity)).length ≤ 2 := by
  have only : stack.filter (·.identity = identity) ⊆ [⟨identity, true⟩, ⟨identity, false⟩] := by
    intro frame hf
    obtain ⟨_, same⟩ := List.mem_filter.mp hf
    obtain ⟨own, nullable⟩ := frame
    cases of_decide_eq_true same
    cases nullable <;> simp
  exact ((fresh.filter _).subperm only).length_le

end Schema
end DataContract
