import Mathlib
import DataContract.Proofs.Guarded
import DataContract.Schema.Compatibility

/-!
# Where following references ends

References are followed until a schema comes that is none, a name that is not registered, or a name
that was followed before. Names are compared as they are written, but a look-up does not tell a name
in brackets from the bare one. One entry can thus be met under two names before a loop is noticed,
so the number of entries alone does not bound the hops; and a name that comes up again has to mean
that nothing else is ahead.

1. `Registry.Hop`, `Registry.Hops`: following references hop by hop, without a budget.
   `Registry.resolve` makes such hops until its budget is spent or none is left
   (`Registry.Hops.resolveWithin`).
2. `Registry.length_le_of_follows`: all names on a chain but the first are names that a registered
   schema refers to, so there is at most one more of them than there are registered names.
3. `Registry.Tracked`: what every hop keeps (`Registry.Tracked.hop`), and so a whole run. Its names
   are different ones on the chain, which bounds the run (`Registry.Hops.le`).
4. `Registry.Returns`: where look-ups come back to the same schema, the chain has references only
   (`Registry.Returns.isReference`). Hence `Registry.resolve_ends`: the budget is enough, and the
   result is what the chain leads to. The registry need not be guarded.
-/

namespace DataContract
namespace Registry

variable {registry : Registry} {schema target last : Schema} {name : String}

/-- The names that schemas are registered under. -/
def names (registry : Registry) : Finset String := (Fields.names registry.entries).toFinset

/-! ## 1. Hops -/

/-- How far references were followed: the names so far, the latest first, and the schema that they
led to. -/
structure Position where
  seen : List String
  schema : Schema

/-- A reference gives way to what is registered under its name, unless that name was followed
before. -/
inductive Hop (registry : Registry) : Position → Position → Prop
  | follow {seen : List String} {name : String} {target : Schema} :
      name ∉ seen → registry.find? name = some target →
      Hop registry ⟨seen, .reference name⟩ ⟨name :: seen, target⟩

/-- So many hops, one after the other. -/
inductive Hops (registry : Registry) : Nat → Position → Position → Prop
  | none {position : Position} : Hops registry 0 position position
  | more {count : Nat} {start position next : Position} : Hops registry count start position →
      Hop registry position next → Hops registry (count + 1) start next

/-- No hop is left. -/
def AtEnd (registry : Registry) (position : Position) : Prop := ∀ next, ¬Hop registry position next

theorem atEnd_reference_iff {seen : List String} :
    registry.AtEnd ⟨seen, .reference name⟩ ↔ name ∈ seen ∨ registry.find? name = none := by
  constructor
  · intro ends
    by_contra neither
    rw [not_or, ← ne_eq, Option.ne_none_iff_exists'] at neither
    obtain ⟨new, target, found⟩ := neither
    exact ends _ (.follow new found)
  · rintro (known | unknown) next ⟨new, found⟩
    · exact new known
    · cases unknown.symm.trans found

/-- References are followed by hops, until the budget is spent or no hop is left. -/
theorem Hops.resolveWithin {count : Nat} {start : Position} {seen : List String} (budget : Nat)
    (run : registry.Hops count start ⟨seen, schema⟩) :
    ∃ more seen',
      registry.Hops (count + more) start ⟨seen', registry.resolveWithin budget seen schema⟩ ∧
      (registry.AtEnd ⟨seen', registry.resolveWithin budget seen schema⟩ ∨ more = budget) := by
  induction budget generalizing count seen schema with
  | zero => exact ⟨0, seen, run, .inr rfl⟩
  | succ budget ih =>
    cases schema with
    | reference name =>
      unfold Registry.resolveWithin
      split
      · next known =>
        exact ⟨0, seen, run, .inl (atEnd_reference_iff.mpr (.inl (List.contains_iff_mem.mp known)))⟩
      · next unseen =>
        have new : name ∉ seen := fun known => unseen (List.contains_iff_mem.mpr known)
        split
        · next target found =>
          obtain ⟨more, seen', onward, ends⟩ := ih (run.more (.follow new found))
          have total : count + (more + 1) = count + 1 + more := by omega
          exact ⟨more + 1, seen', total ▸ onward, ends.imp_right (congrArg (· + 1))⟩
        · next unknown => exact ⟨0, seen, run, .inl (atEnd_reference_iff.mpr (.inr unknown))⟩
    | _ => exact ⟨0, seen, run, .inl nofun⟩

/-! ## 2. Names on a chain -/

/-- What a chain leads to is where it starts or is registered. -/
theorem Follows.eq_or_registered (chain : registry.Follows schema last) :
    schema = last ∨ ∃ token, Fields.find? token registry.entries = some last := by
  induction chain with
  | here => exact .inl rfl
  | @step name target last found _ ih =>
    rcases ih with rfl | registered
    · exact .inr ⟨Token.ofName name, found⟩
    · exact .inr registered

/-- Different names that one chain passes are at most one more than there are registered names: one
of them may be that of the start. -/
theorem length_le_of_follows {passed : List String} (distinct : passed.Nodup)
    (chain : ∀ name ∈ passed, registry.Follows schema (.reference name)) :
    passed.length ≤ registry.names.card + 1 := by
  obtain ⟨start, first⟩ : ∃ start, ∀ name, schema = .reference name → name = start := by
    cases schema with
    | reference start => exact ⟨start, fun name same => (Schema.reference.inj same).symm⟩
    | _ => exact ⟨"", nofun⟩
  have referred : ∀ name ∈ passed.erase start,
      ∃ token, Fields.find? token registry.entries = some (.reference name) := by
    intro name hn
    obtain ⟨other, listed⟩ := distinct.mem_erase_iff.mp hn
    exact (chain name listed).eq_or_registered.resolve_left fun same => other (first name same)
  choose! token found using referred
  have few : (passed.erase start).toFinset.card ≤ registry.names.card := by
    refine Finset.card_le_card_of_injOn token (fun name hn => ?_) (fun name hn other ho same => ?_)
    · exact List.mem_toFinset.mpr (Fields.mem_names_of_find? (found name (List.mem_toFinset.mp hn)))
    · have both := found name (List.mem_toFinset.mp hn)
      rw [same, found other (List.mem_toFinset.mp ho)] at both
      exact (Schema.reference.inj (Option.some.inj both)).symm
  rw [List.toFinset_card_of_nodup (distinct.erase start)] at few
  have := List.le_length_erase (a := start) (l := passed)
  omega

/-! ## 3. Runs -/

/-- Where so many hops lead from a schema. -/
structure Tracked (registry : Registry) (schema : Schema) (count : Nat) (position : Position) :
    Prop where
  length : position.seen.length = count
  distinct : position.seen.Nodup
  chain : registry.Follows schema position.schema
  /-- The names that were followed are on the chain. -/
  passed : ∀ name ∈ position.seen, registry.Follows schema (.reference name)
  /-- What they stand for leads here. -/
  leads : ∀ name ∈ position.seen,
    ∃ target, registry.find? name = some target ∧ registry.Follows target position.schema

theorem tracked_start (registry : Registry) (schema : Schema) :
    Tracked registry schema 0 ⟨[], schema⟩ :=
  ⟨rfl, List.nodup_nil, .here, nofun, nofun⟩

/-- One hop more. -/
theorem Tracked.hop {count : Nat} {position next : Position}
    (tracked : Tracked registry schema count position) (hop : registry.Hop position next) :
    Tracked registry schema (count + 1) next := by
  cases hop with
  | @follow seen name target new found =>
    have step : registry.Follows (.reference name) target := .step found .here
    constructor
    case length => exact congrArg (· + 1) tracked.length
    case distinct => exact List.nodup_cons.mpr ⟨new, tracked.distinct⟩
    case chain => exact tracked.chain.trans step
    case passed => exact List.forall_mem_cons.mpr ⟨tracked.chain, tracked.passed⟩
    case leads =>
      refine List.forall_mem_cons.mpr ⟨⟨target, found, .here⟩, fun other ho => ?_⟩
      obtain ⟨source, known, onward⟩ := tracked.leads other ho
      exact ⟨source, known, onward.trans step⟩

theorem Hops.tracked {count : Nat} {position : Position}
    (run : registry.Hops count ⟨[], schema⟩ position) : Tracked registry schema count position := by
  generalize same : (⟨[], schema⟩ : Position) = start at run
  induction run with
  | none => exact same ▸ tracked_start registry schema
  | more _ hop ih => exact (ih same).hop hop

/-- A run has at most one hop more than there are registered names. -/
theorem Hops.le {count : Nat} {position : Position}
    (run : registry.Hops count ⟨[], schema⟩ position) : count ≤ registry.names.card + 1 :=
  run.tracked.length ▸ length_le_of_follows run.tracked.distinct run.tracked.passed

/-! ## 4. The end of a run -/

/-- Look-ups come back to the schema. -/
def Returns (registry : Registry) (schema : Schema) : Prop :=
  ∃ name target, schema = .reference name ∧ registry.find? name = some target ∧
    registry.Follows target schema

/-- Then they come back to the next one as well. -/
theorem Returns.next (returns : registry.Returns (.reference name))
    (found : registry.find? name = some target) : registry.Returns target := by
  obtain ⟨_, _, same, known, back⟩ := returns
  cases same
  cases known.symm.trans found
  cases back with
  | here => exact ⟨name, _, rfl, found, .here⟩
  | step onward back => exact ⟨_, _, rfl, onward, back.trans (.step found .here)⟩

/-- All that such a chain passes are references. -/
theorem Returns.isReference (returns : registry.Returns schema)
    (chain : registry.Follows schema last) : last.isReference = true := by
  induction chain with
  | here =>
    obtain ⟨_, _, rfl, _⟩ := returns
    rfl
  | step found _ ih => exact ih (returns.next found)

/-- There is one way to go on: a chain to its last schema passes all that can be reached. -/
theorem Follows.onward {middle : Schema} (part : registry.Follows schema middle)
    (chain : registry.Follows schema last) (plain : last.isReference = false) :
    registry.Follows middle last := by
  induction part with
  | here => exact chain
  | step found _ ih =>
    cases chain with
    | here => cases plain
    | step same rest =>
      cases found.symm.trans same
      exact ih rest

/-- Where no hop is left, the chain leads to no other schema that is no reference. -/
theorem Tracked.eq_of_follows {count : Nat} {position : Position}
    (tracked : Tracked registry schema count position) (ends : registry.AtEnd position)
    (chain : registry.Follows schema last) (plain : last.isReference = false) :
    position.schema = last := by
  obtain ⟨seen, reached⟩ := position
  have rest : registry.Follows reached last := tracked.chain.onward chain plain
  cases rest with
  | here => rfl
  | @step name target _ found rest =>
    rcases atEnd_reference_iff.mp ends with known | unknown
    · obtain ⟨source, same, back⟩ := tracked.leads name known
      have returns : registry.Returns (.reference name) := ⟨name, source, rfl, same, back⟩
      cases plain.symm.trans (returns.isReference (.step found rest))
    · cases unknown.symm.trans found

theorem card_names_le (registry : Registry) : registry.names.card ≤ registry.entries.length := by
  refine (List.toFinset_card_le _).trans ?_
  rw [Fields.names, List.length_map]

/-- The budget is enough: no hop is left where it leads. -/
theorem exists_hops_resolve (registry : Registry) (schema : Schema) :
    ∃ count seen, registry.Hops count ⟨[], schema⟩ ⟨seen, registry.resolve schema⟩ ∧
      registry.AtEnd ⟨seen, registry.resolve schema⟩ := by
  obtain ⟨count, seen, run, ends⟩ :=
    Hops.resolveWithin (registry.entries.length + 1) (.none : registry.Hops 0 ⟨[], schema⟩ _)
  rw [Nat.zero_add] at run
  refine ⟨count, seen, run, ?_⟩
  rcases ends with ends | rfl
  · exact ends
  · intro next hop
    have := (run.more hop).le
    have := registry.card_names_le
    omega

/-- Following references ends after at most one hop more than there are registered names, where no
hop is left, whatever loops and unknown names there are. The result is no reference exactly when the
chain of look-ups comes to a schema that is none. Such a schema is the only one on the chain, which
passes references only, and it is the result. -/
theorem resolve_ends (registry : Registry) (schema : Schema) :
    (∀ count position, registry.Hops count ⟨[], schema⟩ position →
      count ≤ registry.names.card + 1) ∧
      (∃ count seen, registry.Hops count ⟨[], schema⟩ ⟨seen, registry.resolve schema⟩ ∧
        registry.AtEnd ⟨seen, registry.resolve schema⟩) ∧
      ((registry.resolve schema).isReference = false ↔
        ∃ last, registry.Follows schema last ∧ last.isReference = false) ∧
      ∀ last, registry.Follows schema last → last.isReference = false →
        registry.resolve schema = last := by
  obtain ⟨count, seen, run, atEnd⟩ := registry.exists_hops_resolve schema
  have found : ∀ last, registry.Follows schema last → last.isReference = false →
      registry.resolve schema = last :=
    fun _ chain plain => run.tracked.eq_of_follows atEnd chain plain
  refine ⟨fun _ _ run => run.le, ⟨count, seen, run, atEnd⟩, ⟨fun plain => ?_, ?_⟩, found⟩
  · exact ⟨_, registry.follows_resolve schema, plain⟩
  · rintro ⟨last, chain, plain⟩
    exact found last chain plain ▸ plain

/-- The bound is reached: a name that stands for itself is followed under either spelling. -/
example : (⟨[("(Loop)", .reference "(Loop)")]⟩ : Registry).Hops 2 ⟨[], .reference "Loop"⟩
    ⟨["(Loop)", "Loop"], .reference "(Loop)"⟩ :=
  .more (.more .none (.follow (by decide) rfl)) (.follow (by decide) rfl)

end Registry
end DataContract
