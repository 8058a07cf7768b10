import Mathlib
import DataContract.Registry

/-!
# Guarded registries

A registry is guarded when every cycle of references passes a field or an item. Checking a value
then ends: along a reference that is not guarded the value stays the same, and what is left of the
registry gets smaller.

- `Schema.frontNames`: the names that a schema refers to before it passes a field or an item.
- `Registry.Guarded`: no name leads back to itself through such references. A rank that falls along
  them shows it (`guarded_of_rank`).
- `Registry.frontOutside`: the nodes in front that a walk has not used up. It falls by the front of
  the target whenever a new name is followed (`frontSize_add_frontOutside_le`).
- `Registry.inner_add_front_le_size`: the bound that makes one budget enough for every walk.
- `Registry.Behind`: what a walk has seen, which it never meets again (`Behind.follow`). Hence
  following references comes to the end of every chain (`Registry.resolve_of_follows`).
-/

namespace DataContract

namespace Schema

mutual

/-- The names that a schema refers to without passing a field or an item. -/
def frontNames : Schema → List String
  | reference name => [Token.ofName name]
  | union members _ _ _ => frontNamesOfAll members
  | _ => []

def frontNamesOfAll : List Schema → List String
  | [] => []
  | schema :: rest => frontNames schema ++ frontNamesOfAll rest

end

mutual

/-- Number of nodes that are reached without passing a field or an item. -/
def frontSize : Schema → Nat
  | union members _ _ _ => frontSizeOfAll members + 1
  | _ => 1

def frontSizeOfAll : List Schema → Nat
  | [] => 0
  | schema :: rest => frontSize schema + frontSizeOfAll rest

end

mutual

/-- The greatest front of a field or an item somewhere inside. -/
def innerSize : Schema → Nat
  | object fields _ => innerSizeOfFields fields
  | list item _ _ => max (frontSize item) (innerSize item)
  | union members _ _ _ => innerSizeOfAll members
  | _ => 0

def innerSizeOfFields : List (String × Schema) → Nat
  | [] => 0
  | (_, schema) :: rest => max (max (frontSize schema) (innerSize schema)) (innerSizeOfFields rest)

def innerSizeOfAll : List Schema → Nat
  | [] => 0
  | schema :: rest => max (innerSize schema) (innerSizeOfAll rest)

end

end Schema

namespace Registry

/-- One name refers to another without passing a field or an item. -/
def Leads (registry : Registry) (name target : String) : Prop :=
  ∃ schema, Fields.find? name registry.entries = some schema ∧ target ∈ schema.frontNames

/-- Every cycle of references passes a field or an item. -/
def Guarded (registry : Registry) : Prop :=
  ∀ name, ¬ Relation.TransGen registry.Leads name name

/-- The nodes in front of the entries whose name is not among those seen. -/
def frontOf (seen : List String) : Fields Schema → Nat
  | [] => 0
  | (name, schema) :: rest => (if name ∈ seen then 0 else schema.frontSize) + frontOf seen rest

/-- The nodes in front of the registered schemas that a walk has not seen. -/
def frontOutside (registry : Registry) (seen : List String) : Nat := frontOf seen registry.entries

end Registry

/-! ## 1. Fronts -/

namespace Schema

theorem frontSize_pos (schema : Schema) : 0 < schema.frontSize := by
  cases schema <;> simp [frontSize]

theorem frontNames_subset_of_mem {members : List Schema} {schema : Schema} (h : schema ∈ members) :
    ∀ name ∈ schema.frontNames, name ∈ frontNamesOfAll members := by
  induction members with
  | nil => cases h
  | cons first rest ih =>
    intro name hn
    rw [frontNamesOfAll, List.mem_append]
    rcases List.mem_cons.mp h with rfl | hr
    · exact Or.inl hn
    · exact Or.inr (ih hr name hn)

theorem frontSize_le_of_mem {members : List Schema} {schema : Schema} (h : schema ∈ members) :
    schema.frontSize ≤ frontSizeOfAll members := by
  induction members with
  | nil => cases h
  | cons first rest ih =>
    rw [frontSizeOfAll]
    rcases List.mem_cons.mp h with rfl | hr
    · omega
    · have := ih hr
      omega

theorem innerSize_le_of_mem {members : List Schema} {schema : Schema} (h : schema ∈ members) :
    schema.innerSize ≤ innerSizeOfAll members := by
  induction members with
  | nil => cases h
  | cons first rest ih =>
    rw [innerSizeOfAll]
    rcases List.mem_cons.mp h with rfl | hr
    · omega
    · have := ih hr
      omega

theorem inner_of_field {fields : List (String × Schema)} {entry : String × Schema}
    (h : entry ∈ fields) :
    entry.2.frontSize ≤ innerSizeOfFields fields ∧
        entry.2.innerSize ≤ innerSizeOfFields fields := by
  induction fields with
  | nil => cases h
  | cons first rest ih =>
    obtain ⟨key, schema⟩ := first
    rw [innerSizeOfFields]
    rcases List.mem_cons.mp h with rfl | hr
    · constructor <;> simp only <;> omega
    · have := ih hr
      omega

mutual

/-- The front and any front inside are different nodes. -/
theorem front_add_inner_le_size : ∀ schema : Schema,
    schema.frontSize + schema.innerSize ≤ schema.size
  | string _ _ | number _ _ _ | boolean _ | null | literal _ _ | reference _ => by
    simp [frontSize, innerSize, size]
  | object fields _ => by
    have := innerSizeOfFields_le fields
    simp only [frontSize, innerSize, size]
    omega
  | list item _ _ => by
    have := front_add_inner_le_size item
    simp only [frontSize, innerSize, size]
    omega
  | union members _ _ _ => by
    have := frontOfAll_add_innerOfAll_le members
    simp only [frontSize, innerSize, size]
    omega

theorem innerSizeOfFields_le : ∀ fields : List (String × Schema),
    innerSizeOfFields fields ≤ sizeOfFields fields
  | [] => Nat.le_refl _
  | (_, schema) :: rest => by
    have own := front_add_inner_le_size schema
    have others := innerSizeOfFields_le rest
    simp only [innerSizeOfFields, sizeOfFields]
    omega

theorem frontOfAll_add_innerOfAll_le : ∀ members : List Schema,
    frontSizeOfAll members + innerSizeOfAll members ≤ sizeOfAll members
  | [] => Nat.le_refl _
  | schema :: rest => by
    have own := front_add_inner_le_size schema
    have others := frontOfAll_add_innerOfAll_le rest
    simp only [frontSizeOfAll, innerSizeOfAll, sizeOfAll]
    omega

end

end Schema

/-! ## 2. Walks through a guarded registry -/

namespace Registry

/-- A rank that falls along unguarded references rules out their cycles. -/
theorem guarded_of_rank {registry : Registry} (rank : String → Nat)
    (h : ∀ entry ∈ registry.entries, ∀ name ∈ entry.2.frontNames, rank name < rank entry.1) :
    registry.Guarded := by
  have falls {a b : String} (hl : Relation.TransGen registry.Leads a b) : rank b < rank a := by
    have one {a b : String} (hl : registry.Leads a b) : rank b < rank a := by
      obtain ⟨schema, hf, hn⟩ := hl
      exact h (a, schema) (Fields.mem_of_find? hf) b hn
    induction hl with
    | single hl => exact one hl
    | tail _ hl ih => exact Nat.lt_trans (one hl) ih
  intro name hc
  exact Nat.lt_irrefl _ (falls hc)

theorem frontOf_cons_le (name : String) (seen : List String) (entries : Fields Schema) :
    frontOf (name :: seen) entries ≤ frontOf seen entries := by
  induction entries with
  | nil => exact Nat.le_refl _
  | cons entry rest ih =>
    obtain ⟨key, schema⟩ := entry
    by_cases hs : key ∈ seen <;> by_cases hk : key = name <;> simp [frontOf, hs, hk] <;> omega

/-- Following a name that was not seen uses up the front of its target. -/
theorem frontSize_add_frontOutside_le {registry : Registry} {name : String} {seen : List String}
    {schema : Schema} (hf : Fields.find? name registry.entries = some schema) (hn : name ∉ seen) :
    schema.frontSize + registry.frontOutside (name :: seen) ≤ registry.frontOutside seen := by
  unfold frontOutside
  generalize registry.entries = entries at hf
  induction entries with
  | nil => cases hf
  | cons entry rest ih =>
    obtain ⟨key, first⟩ := entry
    by_cases hk : key = name
    · simp only [Fields.find?, hk, if_true, Option.some.injEq] at hf
      have := frontOf_cons_le name seen rest
      simp only [frontOf, hk, hf, hn, List.mem_cons, true_or, if_true, if_false]
      omega
    · simp only [Fields.find?, hk, if_false] at hf
      have := ih hf
      by_cases hs : key ∈ seen <;> simp [frontOf, hk, hs] <;> omega

theorem frontOutside_nil_le_size (registry : Registry) :
    registry.frontOutside [] ≤ registry.size := by
  unfold frontOutside size
  generalize registry.entries = entries
  induction entries with
  | nil => exact Nat.le_refl _
  | cons entry rest ih =>
    obtain ⟨key, schema⟩ := entry
    have := schema.front_add_inner_le_size
    simp only [frontOf, Schema.sizeOfFields, List.not_mem_nil, if_false]
    omega

/-- All fronts together with one inside a registered schema are nodes of the registry. -/
theorem inner_add_front_le_size {registry : Registry} {entry : String × Schema}
    (h : entry ∈ registry.entries) :
    entry.2.innerSize + registry.frontOutside [] ≤ registry.size := by
  have total := frontOutside_nil_le_size ⟨registry.entries⟩
  revert total h
  unfold frontOutside size
  generalize registry.entries = entries
  intro h _
  induction entries with
  | nil => cases h
  | cons first rest ih =>
    obtain ⟨key, schema⟩ := first
    have own := schema.front_add_inner_le_size
    have others : frontOf [] rest ≤ Schema.sizeOfFields rest := frontOutside_nil_le_size ⟨rest⟩
    simp only [frontOf, Schema.sizeOfFields, List.not_mem_nil, if_false]
    rcases List.mem_cons.mp h with rfl | hr
    · simp only
      omega
    · have := ih hr
      omega

/-! ## 3. Chains of references -/

section Chains

variable {registry : Registry} {seen : List String} {schema target : Schema} {name : String}

/-- The names seen on a walk lead to all that the schema refers to in front. -/
def Behind (registry : Registry) (seen : List String) (schema : Schema) : Prop :=
  ∀ name ∈ seen, ∀ target ∈ schema.frontNames, Relation.TransGen registry.Leads name target

theorem behind_nil (registry : Registry) (schema : Schema) : registry.Behind [] schema := nofun

/-- A walk goes on to an alternative of a union without a step. -/
theorem Behind.member {members : List Schema} {key title sample : Option String}
    (h : registry.Behind seen (.union members key title sample)) (hm : schema ∈ members) :
    registry.Behind seen schema :=
  fun name hs target ht => h name hs target (Schema.frontNames_subset_of_mem hm target ht)

/-- A walk through a guarded registry never follows a name again, and each step uses up the front of
its target. -/
theorem Behind.follow (guarded : registry.Guarded) (h : registry.Behind seen (.reference name))
    (found : registry.find? name = some target) :
    Token.ofName name ∉ seen ∧ registry.Behind (Token.ofName name :: seen) target ∧
      target.frontSize + registry.frontOutside (Token.ofName name :: seen) ≤
        registry.frontOutside seen := by
  have here : Token.ofName name ∈ (Schema.reference name).frontNames := by simp [Schema.frontNames]
  have new : Token.ofName name ∉ seen := fun hs => guarded _ (h _ hs _ here)
  refine ⟨new, fun source hs next hn => ?_, frontSize_add_frontOutside_le found new⟩
  have step : registry.Leads (Token.ofName name) next := ⟨target, found, hn⟩
  rcases List.mem_cons.mp hs with rfl | hs
  · exact .single step
  · exact (h source hs _ here).tail step

/-- Following references to the end of a chain is a walk. -/
theorem Behind.resolveWithin (guarded : registry.Guarded) (fuel : Nat) (visited : List String)
    (h : registry.Behind seen schema) :
    ∃ seen', registry.Behind seen' (registry.resolveWithin fuel visited schema) ∧
      (registry.resolveWithin fuel visited schema).frontSize + registry.frontOutside seen' ≤
        schema.frontSize + registry.frontOutside seen := by
  induction fuel generalizing visited seen schema with
  | zero => exact ⟨seen, h, Nat.le_refl _⟩
  | succ fuel ih =>
    cases schema with
    | reference name =>
      unfold Registry.resolveWithin
      split
      · exact ⟨seen, h, Nat.le_refl _⟩
      · split
        · next target found =>
          obtain ⟨_, behind, used⟩ := h.follow guarded found
          obtain ⟨seen', onward, less⟩ := ih (name :: visited) behind
          exact ⟨seen', onward, by omega⟩
        · exact ⟨seen, h, Nat.le_refl _⟩
    | _ => exact ⟨seen, h, Nat.le_refl _⟩

/-- A chain of references from one schema to another. -/
inductive Follows (registry : Registry) : Schema → Schema → Prop
  | here {schema : Schema} : Follows registry schema schema
  | step {name : String} {target last : Schema} : registry.find? name = some target →
      Follows registry target last → Follows registry (.reference name) last

theorem Follows.trans {middle last : Schema} (h : registry.Follows schema middle)
    (h' : registry.Follows middle last) : registry.Follows schema last := by
  induction h with
  | here => exact h'
  | step found _ ih => exact .step found (ih h')

/-- Whatever stops it, following references stays on their chain. -/
theorem follows_resolveWithin (fuel : Nat) (visited : List String) (schema : Schema) :
    registry.Follows schema (registry.resolveWithin fuel visited schema) := by
  induction fuel generalizing visited schema with
  | zero => exact .here
  | succ fuel ih =>
    cases schema with
    | reference name =>
      unfold resolveWithin
      split
      · exact .here
      · split
        · next target found => exact .step found (ih (name :: visited) target)
        · exact .here
    | _ => exact .here

theorem follows_resolve (schema : Schema) : registry.Follows schema (registry.resolve schema) :=
  follows_resolveWithin _ [] schema

/-- Steps enough for the names that are left come to the end of a chain. -/
theorem resolveWithin_of_follows (guarded : registry.Guarded) {last : Schema}
    (chain : registry.Follows schema last) (ends : ∀ name, last ≠ .reference name)
    (fuel : Nat) (visited : List String) (behind : registry.Behind seen schema)
    (distinct : seen.Nodup) (registered : seen ⊆ Fields.names registry.entries)
    (known : ∀ name ∈ visited, Token.ofName name ∈ seen)
    (enough : registry.entries.length < fuel + seen.length) :
    registry.resolveWithin fuel visited schema = last := by
  have few : seen.length ≤ registry.entries.length := by
    have := (distinct.subperm registered).length_le
    rwa [Fields.names, List.length_map] at this
  induction chain generalizing fuel visited seen with
  | @here schema =>
    cases fuel with
    | zero => omega
    | succ fuel =>
      cases schema with
      | reference name => exact absurd rfl (ends name)
      | _ => rfl
  | @step name target last found _ ih =>
    cases fuel with
    | zero => omega
    | succ fuel =>
      obtain ⟨new, onward, _⟩ := behind.follow guarded found
      have unvisited : ¬visited.contains name = true := fun hv =>
        new (known name (List.contains_iff_mem.mp hv))
      have inside : Token.ofName name ∈ Fields.names registry.entries :=
        Fields.mem_names_of_find? found
      have distinct := List.nodup_cons.mpr ⟨new, distinct⟩
      have registered := List.cons_subset.mpr ⟨inside, registered⟩
      unfold resolveWithin
      rw [if_neg unvisited, found]
      refine ih ends fuel (name :: visited) onward distinct registered ?_ ?_ ?_
      · exact List.forall_mem_cons.mpr ⟨List.mem_cons_self, fun other ho =>
          List.mem_cons_of_mem _ (known other ho)⟩
      · rw [List.length_cons]
        omega
      · have := (distinct.subperm registered).length_le
        rwa [Fields.names, List.length_map] at this

/-- Over a guarded registry references are followed to the end of the chain. -/
theorem resolve_of_follows (guarded : registry.Guarded) {last : Schema}
    (chain : registry.Follows schema last) (ends : ∀ name, last ≠ .reference name) :
    registry.resolve schema = last :=
  resolveWithin_of_follows guarded chain ends _ [] (registry.behind_nil schema) List.nodup_nil
    (List.nil_subset _) nofun (Nat.lt_succ_self _)

end Chains

end Registry

/-- The scalar names refer to nothing. -/
theorem guarded_initial : Registry.initial.Guarded :=
  Registry.guarded_of_rank (fun _ => 0) (by decide +kernel)

end DataContract
