import Mathlib
import DataContract.Schema.Compatibility

/-!
# What a comparison finds

`Schema.covers` compares two schemas node by node and keeps the names of the pairs that are under
comparison. A comparison that accepts leaves a derivation without steps and reports.

1. `Schema.alternatives_down`, `Schema.alternatives_up`: from a union to its alternatives and back.
2. `eachWithin_accepted`, `fieldVerdicts_accepted`: what the parts of a comparison accept.
3. `Schema.Covered`, and `Schema.coversWithin_covered`: every comparison that accepts has a
   derivation.
-/

namespace DataContract

/-! ## 1. Alternatives -/

namespace Schema

mutual

/-- What passes from a union to its members passes from a schema to its alternatives. -/
theorem alternatives_down {P : Schema → Prop}
    (down : ∀ members key title sample, P (union members key title sample) →
      ∀ schema ∈ members, P schema) :
    ∀ schema : Schema, P schema → ∀ alternative ∈ schema.alternatives, P alternative
  | union members key title sample, h => by
    rw [alternatives]
    exact alternativesOfAll_down down members (down members key title sample h)
  | string _ _, h | number _ _ _, h | boolean _, h | null, h | literal _ _, h | reference _, h
  | object _ _, h | list _ _ _, h => by
    rw [alternatives, List.forall_mem_singleton]
    · exact h
    · exact nofun

theorem alternativesOfAll_down {P : Schema → Prop}
    (down : ∀ members key title sample, P (union members key title sample) →
      ∀ schema ∈ members, P schema) :
    ∀ members : List Schema, (∀ schema ∈ members, P schema) →
      ∀ alternative ∈ alternativesOfAll members, P alternative
  | [], _ => nofun
  | schema :: rest, h => by
    obtain ⟨own, others⟩ := List.forall_mem_cons.mp h
    rw [alternativesOfAll, List.forall_mem_append]
    exact ⟨alternatives_down down schema own, alternativesOfAll_down down rest others⟩

end

/-- What passes from a member to its union passes from an alternative to the schema. -/
theorem alternatives_up {P : Schema → Prop}
    (up : ∀ members key title sample, ∀ schema ∈ members, P schema →
      P (union members key title sample)) {schema alternative : Schema}
    (hm : alternative ∈ schema.alternatives) (h : P alternative) : P schema := by
  by_contra hn
  exact alternatives_down (P := fun schema => ¬P schema)
    (fun members key title sample hu member hm hp => hu (up members key title sample member hm hp))
    schema hn alternative hm h

def isUnion : Schema → Bool
  | union _ _ _ _ => true
  | _ => false

theorem alternatives_of_not_union {schema : Schema} (h : schema.isUnion = false) :
    schema.alternatives = [schema] := by
  cases schema <;> first | rfl | cases h

/-- A scalar is neither a reference nor a union. -/
theorem neither_of_isScalar {schema : Schema} (scalar : schema.isScalar = true) :
    schema.isReference = false ∧ schema.isUnion = false := by
  cases schema <;> first | exact ⟨rfl, rfl⟩ | cases scalar

mutual

/-- Unions are taken apart. -/
theorem not_isUnion_of_mem_alternatives : ∀ schema : Schema,
    ∀ alternative ∈ schema.alternatives, alternative.isUnion = false
  | union members _ _ _ => not_isUnion_of_mem_alternativesOfAll members
  | string _ _ | number _ _ _ | boolean _ | null | literal _ _ | reference _ | object _ _
  | list _ _ _ => List.forall_mem_singleton.mpr rfl

theorem not_isUnion_of_mem_alternativesOfAll : ∀ members : List Schema,
    ∀ alternative ∈ alternativesOfAll members, alternative.isUnion = false
  | [] => nofun
  | schema :: rest => List.forall_mem_append.mpr
      ⟨not_isUnion_of_mem_alternatives schema, not_isUnion_of_mem_alternativesOfAll rest⟩

end

/-- A schema that is no reference leads to itself. -/
theorem resolve_of_not_reference {registry : Registry} {schema : Schema}
    (h : schema.isReference = false) : registry.resolve schema = schema := by
  unfold Registry.resolve Registry.resolveWithin
  cases schema <;> first | rfl | cases h

/-- A schema that is no reference stands for its own alternatives. -/
theorem registry_alternatives {registry : Registry} {schema : Schema}
    (h : schema.isReference = false) : registry.alternatives schema = schema.alternatives := by
  unfold Registry.alternatives
  rw [resolve_of_not_reference h]
  cases schema <;> rfl

end Schema

/-! ## 2. Verdicts of the parts -/

/-- There is a verdict and it accepts. -/
def Accepting (verdict? : Option Verdict) : Prop :=
  ∃ verdict, verdict? = some verdict ∧ verdict.isAccepted = true

instance (verdict? : Option Verdict) : Decidable (Accepting verdict?) :=
  decidable_of_iff (verdict?.any Verdict.isAccepted = true) (by cases verdict? <;> simp [Accepting])

theorem accepting_some {verdict : Verdict} :
    Accepting (some verdict) ↔ verdict.isAccepted = true := by
  simp [Accepting]

theorem mem_of_allVerdicts {α : Type} {check : α → Option Verdict} {items : List α}
    {verdicts : List Verdict} (h : allVerdicts check items = some verdicts) :
    (∀ item ∈ items, ∃ verdict ∈ verdicts, check item = some verdict) ∧
      ∀ verdict ∈ verdicts, ∃ item ∈ items, check item = some verdict := by
  induction items generalizing verdicts with
  | nil =>
    cases h
    exact ⟨nofun, nofun⟩
  | cons item rest ih =>
    simp only [allVerdicts, Option.bind_eq_bind, Option.bind_eq_some_iff, Option.pure_def,
      Option.some.injEq] at h
    obtain ⟨own, ho, others, hr, rfl⟩ := h
    obtain ⟨there, back⟩ := ih hr
    simp only [List.forall_mem_cons, List.exists_mem_cons_iff]
    exact ⟨⟨.inl ho, fun item hi => .inr (there item hi)⟩,
      .inl ho, fun verdict hv => .inr (back verdict hv)⟩

theorem mem_of_bestVerdict {verdicts : List Verdict} {candidate : Schema}
    (h : (bestVerdict verdicts candidate).isAccepted = true) :
    ∃ verdict ∈ verdicts, verdict.isAccepted = true := by
  unfold bestVerdict at h
  split at h
  · next verdict found => exact ⟨verdict, List.mem_of_find?_eq_some found, h⟩
  · next verdict _ found => exact ⟨verdict, List.mem_of_head? found, h⟩
  · cases h

/-- Every candidate is within a container. -/
theorem eachWithin_accepted {covers : Schema → Schema → Option Verdict}
    {candidates containers : List Schema}
    (h : Accepting (eachWithin covers candidates containers)) :
    ∀ candidate ∈ candidates, ∃ container ∈ containers, Accepting (covers container candidate) := by
  obtain ⟨verdict, hv, accepted⟩ := h
  simp only [eachWithin, Option.bind_eq_bind, Option.bind_eq_some_iff, Option.pure_def,
    Option.some.injEq] at hv
  obtain ⟨verdicts, hv, rfl⟩ := hv
  rw [Verdict.isAccepted_all, List.all_eq_true] at accepted
  intro candidate hc
  obtain ⟨verdict, hm, one⟩ := (mem_of_allVerdicts hv).1 candidate hc
  simp only [Option.bind_eq_some_iff, Option.some.injEq] at one
  obtain ⟨own, ho, rfl⟩ := one
  obtain ⟨best, hb, fits⟩ := mem_of_bestVerdict (accepted _ hm)
  obtain ⟨container, hm, covered⟩ := (mem_of_allVerdicts ho).2 best hb
  exact ⟨container, hm, best, covered, fits⟩

theorem isAccepted_bestVerdict {verdicts : List Verdict} {candidate : Schema} {verdict : Verdict}
    (hm : verdict ∈ verdicts) (accepted : verdict.isAccepted = true) :
    (bestVerdict verdicts candidate).isAccepted = true := by
  obtain ⟨first, found⟩ := Option.isSome_iff_exists.mp
    (List.find?_isSome.mpr ⟨verdict, hm, accepted⟩)
  unfold bestVerdict
  rw [found]
  exact List.find?_some found

/-- A verdict on candidates accepts when there is a container for each of them. -/
theorem isAccepted_eachWithin {covers : Schema → Schema → Option Verdict}
    {candidates containers : List Schema} {verdict : Verdict}
    (h : eachWithin covers candidates containers = some verdict)
    (within : ∀ candidate ∈ candidates, ∃ container ∈ containers, ∀ own,
      covers container candidate = some own → own.isAccepted = true) :
    verdict.isAccepted = true := by
  simp only [eachWithin, Option.bind_eq_bind, Option.bind_eq_some_iff, Option.pure_def,
    Option.some.injEq] at h
  obtain ⟨verdicts, hv, rfl⟩ := h
  rw [Verdict.isAccepted_all, List.all_eq_true]
  intro verdict hm
  obtain ⟨candidate, hc, one⟩ := (mem_of_allVerdicts hv).2 verdict hm
  simp only [Option.bind_eq_some_iff, Option.some.injEq] at one
  obtain ⟨own, ho, rfl⟩ := one
  obtain ⟨container, hm, accepted⟩ := within candidate hc
  obtain ⟨verdict, hm, compared⟩ := (mem_of_allVerdicts ho).1 container hm
  exact isAccepted_bestVerdict hm (accepted verdict compared)

/-- The field of the other object that stands under the name of a key. -/
def partner (others : List (String × Schema)) (key : String) : Option (String × Schema) :=
  others.find? fun other => Key.name other.1 == Key.name key

theorem partner_eq_some {others : List (String × Schema)} {key : String}
    {other : String × Schema} (h : partner others key = some other) :
    other ∈ others ∧ Key.name other.1 = Key.name key := by
  unfold partner at h
  have same := List.find?_some h
  exact ⟨List.mem_of_find?_eq_some h, beq_iff_eq.mp same⟩

/-- A name that the other object declares has a partner, which is the first of that name. -/
theorem exists_partner {others : List (String × Schema)} {key : String} {own : String × Schema}
    (hm : own ∈ others) (same : Key.name own.1 = Key.name key) :
    ∃ first, partner others key = some first :=
  Option.isSome_iff_exists.mp (List.find?_isSome.mpr ⟨own, hm, beq_iff_eq.mpr same⟩)

theorem partner_eq_of_name_eq {others : List (String × Schema)} {key key' : String}
    (h : Key.name key = Key.name key') : partner others key = partner others key' := by
  simp only [partner, h]

section FieldVerdicts

variable {covers : Schema → Schema → Option Verdict} {phrasing : Phrasing} {others : Fields Schema}
  {key : String} {schema : Schema} {rest : List (String × Schema)} {verdicts : List Verdict}

/-- A field without a partner is accepted when it is optional. -/
theorem fieldVerdicts_of_none (alone : partner others key = none)
    (h : fieldVerdicts covers phrasing others ((key, schema) :: rest) = some verdicts)
    (accepted : verdicts.all Verdict.isAccepted = true) :
    Key.isOptional key = true ∧ ∃ below, fieldVerdicts covers phrasing others rest = some below ∧
      below.all Verdict.isAccepted = true := by
  unfold partner at alone
  simp only [fieldVerdicts, alone, Option.bind_eq_bind, Option.bind_some, Option.bind_eq_some_iff,
    Option.pure_def, Option.some.injEq] at h
  obtain ⟨below, hb, rfl⟩ := h
  rw [List.all_append, Bool.and_eq_true] at accepted
  refine ⟨?_, below, hb, accepted.2⟩
  by_contra required
  have own := accepted.1
  rw [if_neg required] at own
  cases own

/-- A field with a partner is accepted when it covers the partner, which is no less required. -/
theorem fieldVerdicts_of_some {other : String × Schema} (found : partner others key = some other)
    (h : fieldVerdicts covers phrasing others ((key, schema) :: rest) = some verdicts)
    (accepted : verdicts.all Verdict.isAccepted = true) :
    Accepting (covers schema other.2) ∧
      (Key.isOptional key = false → Key.isOptional other.1 = false) ∧
      ∃ below, fieldVerdicts covers phrasing others rest = some below ∧
        below.all Verdict.isAccepted = true := by
  unfold partner at found
  simp only [fieldVerdicts, found, Option.bind_eq_bind] at h
  split at h
  · simp only [Option.bind_some, Option.bind_eq_some_iff, Option.pure_def, Option.some.injEq] at h
    obtain ⟨below, hb, rfl⟩ := h
    rw [List.all_append, Bool.and_eq_true] at accepted
    cases accepted.1
  · next strict =>
    simp only [Option.bind_eq_some_iff, Option.map_eq_some_iff, Option.pure_def,
      Option.some.injEq] at h
    obtain ⟨_, ⟨verdict, hv, rfl⟩, below, hb, rfl⟩ := h
    rw [List.all_append, Bool.and_eq_true, List.all_cons, Verdict.isAccepted_under,
      Bool.and_eq_true] at accepted
    exact ⟨⟨verdict, hv, accepted.1.1⟩, fun required => by simpa [required] using strict,
      below, hb, accepted.2⟩

/-- Every field covers its partner, and a required field has a required one. -/
theorem fieldVerdicts_accepted {fields : List (String × Schema)}
    (h : fieldVerdicts covers phrasing others fields = some verdicts)
    (accepted : verdicts.all Verdict.isAccepted = true) :
    ∀ field ∈ fields,
      (∀ other, partner others field.1 = some other → Accepting (covers field.2 other.2)) ∧
      (Key.isOptional field.1 = false →
        ∃ other, partner others field.1 = some other ∧ Key.isOptional other.1 = false) := by
  induction fields generalizing verdicts with
  | nil => exact nofun
  | cons field rest ih =>
    cases hp : partner others field.1 with
    | none =>
      obtain ⟨optional, below, hb, fit⟩ := fieldVerdicts_of_none hp h accepted
      refine List.forall_mem_cons.mpr ⟨⟨fun other ho => ?_, fun required => ?_⟩, ih hb fit⟩
      · cases hp.symm.trans ho
      · cases optional.symm.trans required
    | some own =>
      obtain ⟨covered, strict, below, hb, fit⟩ := fieldVerdicts_of_some hp h accepted
      refine List.forall_mem_cons.mpr ⟨⟨fun other ho => ?_, fun required => ?_⟩, ih hb fit⟩
      · cases hp.symm.trans ho
        exact covered
      · exact ⟨own, hp, strict required⟩

/-- No field is refused when each one covers its partner, and a required one has a required
partner. -/
theorem isAccepted_fieldVerdicts {fields : List (String × Schema)}
    (covered : ∀ field ∈ fields, ∀ own, partner others field.1 = some own →
      ∀ verdict, covers field.2 own.2 = some verdict → verdict.isAccepted = true)
    (required : ∀ field ∈ fields, Key.isOptional field.1 = false →
      ∃ own, partner others field.1 = some own ∧ Key.isOptional own.1 = false)
    (h : fieldVerdicts covers phrasing others fields = some verdicts) :
    verdicts.all Verdict.isAccepted = true := by
  induction fields generalizing verdicts with
  | nil =>
    cases h
    rfl
  | cons field rest ih =>
    obtain ⟨key, schema⟩ := field
    obtain ⟨own, below⟩ := List.forall_mem_cons.mp covered
    obtain ⟨needed, further⟩ := List.forall_mem_cons.mp required
    unfold partner at own needed
    cases found : List.find? (fun other => Key.name other.1 == Key.name key) others with
    | none =>
      have optional : Key.isOptional key = true := by
        by_contra required
        obtain ⟨own, ho, _⟩ := needed (Bool.not_eq_true _ ▸ required)
        cases found.symm.trans ho
      simp only [fieldVerdicts, found, if_pos optional, Option.bind_eq_bind, Option.bind_some,
        List.nil_append, Option.pure_def, Option.bind_eq_some_iff, Option.some.injEq] at h
      obtain ⟨_, ho, rfl⟩ := h
      exact ih below further ho
    | some other =>
      have strict : ¬(!Key.isOptional key && Key.isOptional other.1) = true := by
        intro loose
        obtain ⟨hk, loose⟩ := Bool.and_eq_true_iff.mp loose
        obtain ⟨own, ho, tight⟩ := needed (by simpa using hk)
        cases found.symm.trans ho
        cases tight.symm.trans loose
      simp only [fieldVerdicts, found, if_neg strict, Option.bind_eq_bind, Option.pure_def,
        Option.bind_eq_some_iff, Option.map_eq_some_iff, Option.some.injEq] at h
      obtain ⟨_, ⟨verdict, hv, rfl⟩, others, ho, rfl⟩ := h
      rw [List.all_append, List.all_cons, List.all_nil, Verdict.isAccepted_under,
        own other found verdict hv, ih below further ho]
      rfl

end FieldVerdicts

theorem isAccepted_ite (fits : Bool) (failure : Failure) :
    (if fits then Verdict.ok else .rejected failure).isAccepted = fits := by
  cases fits <;> rfl

/-- A range covers another one whose bounds are at least as tight. -/
theorem rangeCovers_isAccepted (what : String) (this other : NumberRange) :
    (rangeCovers what this other).isAccepted = true ↔
      (∀ least, this.least = some least → ∃ least', other.least = some least' ∧ least ≤ least') ∧
        ∀ most, this.most = some most → ∃ most', other.most = some most' ∧ most' ≤ most := by
  obtain ⟨least, most⟩ := this
  obtain ⟨least', most'⟩ := other
  rw [rangeCovers, isAccepted_ite, Bool.and_eq_true]
  exact and_congr (by cases least <;> cases least' <;> simp)
    (by cases most <;> cases most' <;> simp)

theorem LengthRange.least_toNumberRange {range : LengthRange} {x : Double} :
    range.toNumberRange.least = some x ↔ ∃ n : Nat, range.least = some n ∧ Double.ofInt n = x := by
  obtain ⟨least, most⟩ := range
  cases least <;> simp [toNumberRange]

theorem LengthRange.most_toNumberRange {range : LengthRange} {x : Double} :
    range.toNumberRange.most = some x ↔ ∃ n : Nat, range.most = some n ∧ Double.ofInt n = x := by
  obtain ⟨least, most⟩ := range
  cases most <;> simp [toNumberRange]

/-! ## 3. Derivations -/

namespace Schema

/-- How a comparison accepts, `stack` being the pairs of names that are under comparison. -/
inductive Covered (this other : Context) : List (String × String) → Schema → Schema → Prop
  /-- The pair of names is under comparison already. -/
  | seen {stack : List (String × String)} {p q : Schema} :
      (p.isReference || q.isReference) = true → (p.typeName, q.typeName) ∈ stack →
      Covered this other stack p q
  | follow {stack : List (String × String)} {p q target source : Schema} :
      (p.isReference || q.isReference) = true → p.followed this.registry = .ok target →
      q.followed other.registry = .ok source →
      Covered this other ((p.typeName, q.typeName) :: stack) target source →
      Covered this other stack p q
  /-- Every alternative is within the member that is chosen for it. -/
  | choose {stack : List (String × String)} {members : List Schema}
      {key title sample : Option String} {q : Schema} (container : Schema → Schema) :
      q.isReference = false →
      (∀ alternative ∈ q.alternatives, container alternative ∈ alternativesOfAll members) →
      (∀ alternative ∈ q.alternatives,
        Covered this other stack (container alternative) alternative) →
      Covered this other stack (union members key title sample) q
  | each {stack : List (String × String)} {p : Schema} {members : List Schema}
      {key title sample : Option String} :
      p.isReference = false → p.isUnion = false →
      (∀ alternative ∈ alternativesOfAll members, Covered this other stack p alternative) →
      Covered this other stack p (union members key title sample)
  | literal {stack : List (String × String)} {p : Schema} {value : Value} {title : Option String} :
      p.accepts this value = some true → Covered this other stack p (literal value title)
  | string {stack : List (String × String)} {range range' : LengthRange}
      {sample sample' : Option String} :
      (rangeCovers "length" range.toNumberRange range'.toNumberRange).isAccepted = true →
      Covered this other stack (string range sample) (string range' sample')
  | number {stack : List (String × String)} {range range' : NumberRange}
      {fractional fractional' : Bool} {sample sample' : Option String} :
      (rangeCovers "value" range range').isAccepted = true →
      Covered this other stack (number range fractional sample) (number range' fractional' sample')
  | boolean {stack : List (String × String)} {sample sample' : Option String} :
      Covered this other stack (boolean sample) (boolean sample')
  | null {stack : List (String × String)} : Covered this other stack null null
  | object {stack : List (String × String)} {fields : List (String × Schema)}
      {others : Fields Schema} {title title' : Option String} :
      (∀ field ∈ fields, ∀ own, partner others field.1 = some own →
        Covered this other stack field.2 own.2) →
      (∀ field ∈ fields, Key.isOptional field.1 = false →
        ∃ own, partner others field.1 = some own ∧ Key.isOptional own.1 = false) →
      (this.keyPolicy.unexpected = true →
        ∀ own ∈ others, ∃ field ∈ fields, Key.name field.1 = Key.name own.1) →
      Covered this other stack (object fields title) (object others title')
  | list {stack : List (String × String)} {item item' : Schema}
      {title title' sample sample' : Option String} :
      Covered this other stack item item' →
      Covered this other stack (list item title sample) (list item' title' sample')

/-- Where unexpected keys are reported and none is, every name is declared. -/
theorem declared_of_problems {context : Context} (policy : context.keyPolicy.unexpected = true)
    {fields : List (String × Schema)} {others : Fields Schema}
    (h : (((context.keyProblems (Fields.names fields) (others.map fun entry =>
      Key.name entry.1)).filter (!·.missing)).map fun problem =>
        Verdict.rejected (problem.failure "key" context.phrasing)).all Verdict.isAccepted = true) :
    ∀ own ∈ others, ∃ field ∈ fields, Key.name field.1 = Key.name own.1 := by
  intro own ho
  by_contra undeclared
  have unexpected : (⟨Key.name own.1, false⟩ : KeyProblem) ∈
      context.keyProblems (Fields.names fields) (others.map fun entry => Key.name entry.1) := by
    refine List.mem_append_right _ ?_
    rw [if_pos policy]
    refine List.mem_map_of_mem (List.mem_filter.mpr ⟨List.mem_map_of_mem ho, ?_⟩)
    simpa [Fields.names] using undeclared
  cases List.all_eq_true.mp h _
    (List.mem_map_of_mem (List.mem_filter.mpr ⟨unexpected, rfl⟩))

/-- No undeclared name means that no unexpected key is reported. -/
theorem problems_of_declared {context : Context} {fields : List (String × Schema)}
    {others : Fields Schema}
    (declared : context.keyPolicy.unexpected = true →
      ∀ own ∈ others, ∃ field ∈ fields, Key.name field.1 = Key.name own.1) :
    (context.keyProblems (Fields.names fields) (others.map fun entry => Key.name entry.1)).filter
      (!·.missing) = [] := by
  rw [Context.keyProblems, List.filter_append, List.append_eq_nil_iff]
  refine ⟨List.filter_eq_nil_iff.mpr fun problem hp => ?_,
    List.filter_eq_nil_iff.mpr fun problem hp => ?_⟩
  · split at hp
    · obtain ⟨_, _, rfl⟩ := List.mem_map.mp hp
      exact Bool.false_ne_true
    · cases hp
  · split at hp
    · next policy =>
      obtain ⟨name, hn, rfl⟩ := List.mem_map.mp hp
      obtain ⟨hn, undeclared⟩ := List.mem_filter.mp hn
      obtain ⟨own, ho, rfl⟩ := List.mem_map.mp hn
      obtain ⟨field, hf, same⟩ := declared policy own ho
      simp only [Fields.names, List.any_map, Bool.not_eq_true', List.any_eq_false] at undeclared
      exact absurd (beq_iff_eq.mpr same) (undeclared field hf)
    · cases hp

/-- A comparison that accepts has a derivation, with one container for each alternative of a
union. -/
theorem coversWithin_covered {this other : Context} {fuel : Nat} {stack : List (String × String)}
    {p q : Schema} (h : Accepting (coversWithin this other fuel stack p q)) :
    Covered this other stack p q := by
  induction fuel generalizing stack p q with
  | zero =>
    obtain ⟨_, hv, _⟩ := h
    cases hv
  | succ fuel ih =>
    cases refers : p.isReference || q.isReference with
    | true =>
      simp only [coversWithin, refers, if_true] at h
      split at h
      · next seen => exact .seen refers (List.contains_iff_mem.mp seen)
      · split at h
        · cases accepting_some.mp h
        · cases accepting_some.mp h
        · next hp hq => exact .follow refers hp hq (ih h)
    | false =>
      obtain ⟨own, others⟩ := Bool.or_eq_false_iff.mp refers
      simp only [coversWithin, refers, Bool.false_eq_true, if_false] at h
      split at h
      · next members _ _ _ =>
        obtain ⟨verdict, hv, accepted⟩ := h
        simp only [Option.bind_eq_bind, Option.bind_eq_some_iff] at hv
        obtain ⟨each, he, hv⟩ := hv
        have fits : each.isAccepted = true := by
          by_contra rejected
          rw [Bool.not_eq_true] at rejected
          simp only [rejected, Bool.not_false, Bool.true_and] at hv
          split at hv <;> cases hv
          · cases accepted
          · cases rejected.symm.trans accepted
        have covered := eachWithin_accepted ⟨each, he, fits⟩
        rw [registry_alternatives others] at covered
        choose! container chosen below using covered
        exact .choose container others chosen fun alternative hm => ih (below alternative hm)
      · next notUnion =>
        have single : p.isUnion = false := by
          cases p <;> first | rfl | exact (notUnion _ _ _ _ rfl).elim
        refine .each own single fun alternative hm => ?_
        obtain ⟨container, hc, covered⟩ := eachWithin_accepted h alternative hm
        exact ih (List.mem_singleton.mp hc ▸ covered)
      · obtain ⟨verdict, hv, accepted⟩ := h
        simp only [Option.bind_eq_bind, Option.bind_eq_some_iff] at hv
        obtain ⟨fits, hf, hv⟩ := hv
        cases fits with
        | true => exact .literal hf
        | false =>
          cases hv
          cases accepted
      · exact .string (accepting_some.mp h)
      · exact .number (accepting_some.mp h)
      · exact .boolean
      · exact .null
      · obtain ⟨verdict, hv, accepted⟩ := h
        simp only [Option.bind_eq_bind, Option.bind_eq_some_iff, Option.pure_def,
          Option.some.injEq] at hv
        obtain ⟨verdicts, hv, rfl⟩ := hv
        rw [Verdict.isAccepted_all, List.all_append, Bool.and_eq_true] at accepted
        have parts := fieldVerdicts_accepted hv accepted.1
        exact .object (fun field hf own ho => ih ((parts field hf).1 own ho))
          (fun field hf => (parts field hf).2) fun policy => declared_of_problems policy accepted.2
      · obtain ⟨verdict, hv, accepted⟩ := h
        simp only [Option.map_eq_some_iff] at hv
        obtain ⟨inner, hi, rfl⟩ := hv
        rw [Verdict.isAccepted_under] at accepted
        exact .list (ih ⟨inner, hi, accepted⟩)
      · cases accepting_some.mp h

end Schema
end DataContract
