import Mathlib
import DataContract.Proofs.Coverage
import DataContract.Proofs.Expansion

/-!
# The verdict of a comparison

A comparison goes down in the schemas until it comes to a reference, and it enters each pair of
names once. So it ends over any registry, guarded or not, provided that the literals which it comes
to can be checked: it checks their values as data, and no stack of names ends that.

1. `eachWithin_isSome`, `fieldVerdicts_isSome`: the parts of a comparison.
2. `Schema.LiteralsSettle`: every check on the way has a verdict. `Schema.Calls`: the calls that a
   call makes, each of which leaves less of the comparison (`Schema.Calls.left_lt`). What one call
   preserves holds of the whole comparison (`Schema.call_induction`), hence `Schema.covers_isSome`.
3. `Schema.Covered.isAccepted`: where there is a derivation, every verdict accepts.
-/

namespace DataContract

/-! ## 1. The parts of a comparison -/

theorem allVerdicts_isSome {α : Type} {check : α → Option Verdict} {items : List α}
    (h : ∀ item ∈ items, (check item).isSome) : (allVerdicts check items).isSome := by
  induction items with
  | nil => rfl
  | cons item rest ih =>
    obtain ⟨own, others⟩ := List.forall_mem_cons.mp h
    obtain ⟨verdict, hv⟩ := Option.isSome_iff_exists.mp own
    obtain ⟨verdicts, ho⟩ := Option.isSome_iff_exists.mp (ih others)
    simp [allVerdicts, hv, ho]

theorem eachWithin_isSome {covers : Schema → Schema → Option Verdict}
    {candidates containers : List Schema}
    (h : ∀ candidate ∈ candidates, ∀ container ∈ containers, (covers container candidate).isSome) :
    (eachWithin covers candidates containers).isSome := by
  have one : ∀ candidate ∈ candidates,
      ((allVerdicts (fun container => covers container candidate) containers).bind fun verdicts =>
        some (bestVerdict verdicts candidate)).isSome := by
    intro candidate hc
    obtain ⟨verdicts, hv⟩ := Option.isSome_iff_exists.mp (allVerdicts_isSome (h candidate hc))
    rw [hv]
    rfl
  obtain ⟨verdicts, hv⟩ := Option.isSome_iff_exists.mp (allVerdicts_isSome one)
  unfold eachWithin
  simp only [Option.bind_eq_bind, Option.pure_def]
  rw [hv]
  rfl

/-- The fields of two objects have verdicts when the partners among them have. -/
theorem fieldVerdicts_isSome {covers : Schema → Schema → Option Verdict} {phrasing : Phrasing}
    {others : Fields Schema} {fields : List (String × Schema)}
    (h : ∀ field ∈ fields, ∀ own, partner others field.1 = some own →
      (covers field.2 own.2).isSome) :
    (fieldVerdicts covers phrasing others fields).isSome := by
  induction fields with
  | nil => rfl
  | cons field rest ih =>
    obtain ⟨key, schema⟩ := field
    obtain ⟨own, below⟩ := List.forall_mem_cons.mp h
    obtain ⟨verdicts, hv⟩ := Option.isSome_iff_exists.mp (ih below)
    unfold partner at own
    cases found : List.find? (fun other => Key.name other.1 == Key.name key) others with
    | none => simp [fieldVerdicts, found, hv]
    | some other =>
      obtain ⟨verdict, ho⟩ := Option.isSome_iff_exists.mp (own other found)
      simp only [fieldVerdicts, found, hv, ho]
      split <;> rfl

namespace Schema

mutual

/-- An alternative has no more nodes than the schema. -/
theorem size_le_of_alternative : ∀ schema : Schema, ∀ alternative ∈ schema.alternatives,
    alternative.size ≤ schema.size
  | union members _ _ _ => fun alternative ha => by
    have := size_le_of_alternativeOfAll members alternative ha
    simp only [size]
    omega
  | string _ _ | number _ _ _ | boolean _ | null | literal _ _ | reference _ | object _ _
  | list _ _ _ => List.forall_mem_singleton.mpr (Nat.le_refl _)

theorem size_le_of_alternativeOfAll : ∀ members : List Schema,
    ∀ alternative ∈ alternativesOfAll members, alternative.size ≤ sizeOfAll members
  | [] => nofun
  | schema :: rest => by
    rw [alternativesOfAll, sizeOfAll, List.forall_mem_append]
    exact ⟨fun alternative ha => (size_le_of_alternative schema alternative ha).trans (by omega),
      fun alternative ha => (size_le_of_alternativeOfAll rest alternative ha).trans (by omega)⟩

end

/-! ## 2. Every comparison ends -/

variable {this other : Context} {start : Schema × Schema} {stack : List (String × String)}

/-- Wherever a comparison comes to a literal, the node that it is compared with has a verdict on its
value. -/
def LiteralsSettle (this other : Context) (start : Schema × Schema) : Prop :=
  ∀ p value title, Reaches this other start (p, literal value title) → p.isReference = false →
    p.isUnion = false → (p.check this value).isSome

theorem literalsSettle_of_guarded (guarded : this.registry.Guarded) :
    LiteralsSettle this other start :=
  fun p value _ _ _ _ => check_isSome guarded p value

/-- What is followed has no more nodes than the schema or the registry. -/
theorem size_le_of_followed {registry : Registry} {schema target : Schema} {width : Nat}
    (wide : registry.size ≤ width) (small : schema.size ≤ width)
    (found : schema.followed registry = .ok target) : target.size ≤ width := by
  cases schema with
  | reference name => exact (size_le_of_field
      (Fields.mem_of_find? (find?_of_followed found))).trans wide
  | _ =>
    cases found
    exact small

/-- A call of a comparison: the pairs of names under comparison, and the pair that is compared. -/
abbrev Call := List (String × String) × Schema × Schema

/-- The calls that a call makes. The names of a pair with a reference are entered, unless they are
under comparison; any other pair leads to pairs below it. -/
inductive Calls (this other : Context) : Call → Call → Prop
  | enter {stack : List (String × String)} {p q target source : Schema} :
      (p.isReference || q.isReference) = true → (p.typeName, q.typeName) ∉ stack →
      p.followed this.registry = .ok target → q.followed other.registry = .ok source →
      Calls this other (stack, p, q) ((p.typeName, q.typeName) :: stack, target, source)
  | descend {stack : List (String × String)} {p q p' q' : Schema} :
      (p.isReference || q.isReference) = false → Meets this other (p, q) (p', q') →
      Calls this other (stack, p, q) (stack, p', q')

theorem Calls.meets {call next : Call} (step : Calls this other call next) :
    Meets this other call.2 next.2 := by
  cases step with
  | enter refers _ hp hq => exact .follow refers hp hq
  | descend _ step => exact step

/-- A call has a verdict when the calls that it makes have one, one step less being left for
them. -/
theorem coversWithin_succ_isSome {fuel : Nat} {p q : Schema}
    (settled : ∀ value title, q = literal value title → p.isReference = false → p.isUnion = false →
      (p.check this value).isSome)
    (below : ∀ stack' p' q', Calls this other (stack, p, q) (stack', p', q') →
      (coversWithin this other fuel stack' p' q').isSome) :
    (coversWithin this other (fuel + 1) stack p q).isSome := by
  cases refers : p.isReference || q.isReference with
  | true =>
    simp only [coversWithin, refers, if_true]
    split
    · rfl
    · next fresh =>
      split
      · rfl
      · rfl
      · next hp hq =>
        exact below _ _ _ (.enter refers (fun seen => fresh (List.contains_iff_mem.mpr seen)) hp hq)
  | false =>
    replace below {p' q' : Schema} (step : Meets this other (p, q) (p', q')) :
        (coversWithin this other fuel stack p' q').isSome :=
          below stack p' q' (.descend refers step)
    obtain ⟨free, free'⟩ := Bool.or_eq_false_iff.mp refers
    simp only [coversWithin, refers, Bool.false_eq_true, if_false]
    split
    · next members _ _ _ =>
      rw [registry_alternatives free']
      have compared : (eachWithin (coversWithin this other fuel stack) q.alternatives
          (alternativesOfAll members)).isSome :=
        eachWithin_isSome fun b hb a ha => below (.choose free' ha hb)
      obtain ⟨verdict, hv⟩ := Option.isSome_iff_exists.mp compared
      rw [hv]
      simp only [Option.bind_eq_bind, Option.bind_some]
      split <;> rfl
    · next members _ _ _ notUnion =>
      have single : p.isUnion = false := by
        cases p <;> first | rfl | exact (notUnion _ _ _ _ rfl).elim
      exact eachWithin_isSome fun b hb a ha =>
        List.mem_singleton.mp ha ▸ below (.each free single hb)
    · next value title notUnion =>
      have single : p.isUnion = false := by
        cases p <;> first | rfl | exact (notUnion _ _ _ _ rfl).elim
      obtain ⟨verdict, hv⟩ := Option.isSome_iff_exists.mp (settled value title rfl free single)
      simp only [accepts, hv, Option.map_some, Option.bind_eq_bind, Option.bind_some]
      split <;> rfl
    · rfl
    · rfl
    · rfl
    · rfl
    · obtain ⟨verdicts, hv⟩ := Option.isSome_iff_exists.mp
        (@fieldVerdicts_isSome _ this.phrasing _ _ fun field hf own ho => below (.field hf ho))
      rw [hv]
      rfl
    · rw [Option.isSome_map]
      exact below .item
    · rfl

/-- A step that follows no reference goes down. -/
theorem Meets.size_lt {p q p' q' : Schema} (step : Meets this other (p, q) (p', q'))
    (free : (p.isReference || q.isReference) = false) :
    p'.size ≤ p.size ∧ q'.size ≤ q.size ∧ p'.size + q'.size < p.size + q.size := by
  cases step with
  | follow refers => cases free.symm.trans refers
  | choose _ hp hq =>
    have := size_le_of_alternativeOfAll _ _ hp
    have := size_le_of_alternative _ _ hq
    simp only [size]
    omega
  | each _ _ hq =>
    have := size_le_of_alternativeOfAll _ _ hq
    simp only [size]
    omega
  | field hf ho =>
    have := size_le_of_field hf
    have := size_le_of_field (partner_eq_some ho).1
    simp only [size]
    omega
  | item =>
    simp only [size]
    omega

/-- The schema and everything that is registered have their names among these, and neither the names
nor the nodes of the schema or of the registry are more than the width. -/
structure Catalogued (registry : Registry) (names : Finset String) (width : Nat) (schema : Schema) :
    Prop where
  registered : registry.Everywhere fun node => node.typeName ∈ names
  inside : schema.Everywhere fun node => node.typeName ∈ names
  few : names.card ≤ width
  wide : registry.size ≤ width
  small : schema.size ≤ width

section Catalogued

variable {registry : Registry} {names : Finset String} {width : Nat} {schema part : Schema}

theorem Catalogued.smaller (named : Catalogued registry names width schema)
    (inside : part.Everywhere fun node => node.typeName ∈ names) (down : part.size ≤ schema.size) :
    Catalogued registry names width part :=
  ⟨named.registered, inside, named.few, named.wide, down.trans named.small⟩

theorem Catalogued.followed (named : Catalogued registry names width schema)
    (found : schema.followed registry = .ok part) : Catalogued registry names width part :=
  ⟨named.registered, everywhere_followed named.registered named.inside found, named.few, named.wide,
    size_le_of_followed named.wide named.small found⟩

/-- The names of a schema and of everything that is registered. -/
def typeNamesOf (registry : Registry) (schema : Schema) : Finset String :=
  ((schema.nodes ++ registry.entries.flatMap (·.2.nodes)).map typeName).toFinset

/-- The schema, and everything that is followed from there, has its name among these. -/
theorem everywhere_typeNamesOf (registry : Registry) (schema : Schema) :
    (schema.Everywhere fun node => node.typeName ∈ typeNamesOf registry schema) ∧
      registry.Everywhere fun node => node.typeName ∈ typeNamesOf registry schema :=
  ⟨fun _ hn => List.mem_toFinset.mpr (List.mem_map_of_mem (List.mem_append_left _ hn)),
    fun entry he _ hn => List.mem_toFinset.mpr (List.mem_map_of_mem
      (List.mem_append_right _ (List.mem_flatMap.mpr ⟨entry, he, hn⟩)))⟩

theorem catalogued_typeNamesOf (enough : schema.size + registry.size ≤ width) :
    Catalogued registry (typeNamesOf registry schema) width schema := by
  obtain ⟨inside, registered⟩ := everywhere_typeNamesOf registry schema
  refine ⟨registered, inside, (List.toFinset_card_le _).trans ?_, by omega, by omega⟩
  rwa [List.length_map, List.length_append, length_nodes, length_registryNodes]

end Catalogued

/-- How far a comparison can still go: the width for each pair of names that is not on the stack,
and the nodes of the pair. -/
def comparisonLeft (pool : Finset (String × String)) (width : Nat) (call : Call) : Nat :=
  (pool \ call.1.toFinset).card * width + call.2.1.size + call.2.2.size

/-- Every call leaves less of the comparison: a pair of names less, or fewer nodes. -/
theorem Calls.left_lt {names names' : Finset String} {own others : Nat} {call next : Call}
    (named : Catalogued this.registry names own call.2.1)
    (named' : Catalogued other.registry names' others call.2.2)
    (step : Calls this other call next) :
    Catalogued this.registry names own next.2.1 ∧ Catalogued other.registry names' others next.2.2 ∧
      comparisonLeft (names ×ˢ names') (own + others) next <
        comparisonLeft (names ×ˢ names') (own + others) call := by
  cases step with
  | @enter stack p q _ _ refers new hp hq =>
    have listed : (p.typeName, q.typeName) ∈ names ×ˢ names' :=
      Finset.mem_product.mpr ⟨named.inside.here, named'.inside.here⟩
    have paid := Nat.mul_le_mul_right (own + others) (card_sdiff_cons_lt listed new)
    have room := (named.followed hp).small
    have room' := (named'.followed hq).small
    have here := p.size_pos
    rw [Nat.succ_mul] at paid
    simp only [comparisonLeft]
    exact ⟨named.followed hp, named'.followed hq, by omega⟩
  | @descend stack p q p' q' free step =>
    obtain ⟨down, down', less⟩ := step.size_lt free
    obtain ⟨inside, inside'⟩ := Reaches.everywhere (everywhere_followed named.registered)
      (everywhere_followed named'.registered) (.single step) ⟨named.inside, named'.inside⟩
    simp only [comparisonLeft]
    exact ⟨named.smaller inside down, named'.smaller inside' down', by omega⟩

/-- The budget pays for every pair of names, and for the nodes of the pair. -/
theorem comparisonLeft_le_budget {names names' : Finset String} {mine theirs : Nat} {p q : Schema}
    (named : Catalogued this.registry names (mine + this.registry.size) p)
    (named' : Catalogued other.registry names' (theirs + other.registry.size) q) :
    comparisonLeft (names ×ˢ names') (mine + this.registry.size + (theirs + other.registry.size))
      (stack, p, q) ≤ coversBudget this other mine theirs := by
  have few : ((names ×ˢ names') \ stack.toFinset).card ≤
      (mine + this.registry.size) * (theirs + other.registry.size) := by
    refine (Finset.card_le_card Finset.sdiff_subset).trans ?_
    rw [Finset.card_product]
    exact Nat.mul_le_mul named.few named'.few
  have small := named.small
  have small' := named'.small
  simp only [comparisonLeft, coversBudget]
  generalize mine + this.registry.size = own at few small ⊢
  generalize theirs + other.registry.size = others at few small' ⊢
  have paid := Nat.mul_le_mul_right (own + others) few
  have room : (own * others + 1) * (own + others) ≤
      ((own + 1) * (others + 1) + 1) * (own + 1 + (others + 1) + 1) :=
    Nat.mul_le_mul (Nat.succ_le_succ (Nat.mul_le_mul (Nat.le_succ _) (Nat.le_succ _))) (by omega)
  rw [Nat.succ_mul] at room
  omega

/-- What a call preserves, from the calls that it makes to the call itself, holds of the whole
comparison. -/
theorem call_induction {names names' : Finset String} {own others : Nat}
    {P : Nat → List (String × String) → Schema → Schema → Prop}
    (step : ∀ fuel stack p q, Reaches this other start (p, q) →
      (∀ stack' p' q', Calls this other (stack, p, q) (stack', p', q') → P fuel stack' p' q') →
        P (fuel + 1) stack p q)
    {p q : Schema} (reach : Reaches this other start (p, q))
    (named : Catalogued this.registry names own p)
    (named' : Catalogued other.registry names' others q)
    {fuel : Nat} (enough : comparisonLeft (names ×ˢ names') (own + others) (stack, p, q) ≤ fuel) :
    P fuel stack p q := by
  induction fuel generalizing stack p q with
  | zero =>
    have := p.size_pos
    simp only [comparisonLeft] at enough
    omega
  | succ fuel ih =>
    refine step fuel stack p q reach fun stack' p' q' taken => ?_
    obtain ⟨named, named', less⟩ := taken.left_lt named named'
    exact ih (reach.tail taken.meets) named named' (by omega)

/-- A comparison ends within its budget, over any registry and from any stack. -/
theorem coversWithin_budget_isSome {container candidate : Schema}
    (settled : LiteralsSettle this other (container, candidate)) (stack : List (String × String)) :
    (coversWithin this other (coversBudget this other container.size candidate.size) stack container
      candidate).isSome := by
  have named := @catalogued_typeNamesOf this.registry _ container (Nat.le_refl _)
  have named' := @catalogued_typeNamesOf other.registry _ candidate (Nat.le_refl _)
  exact call_induction (P := fun fuel stack p q => (coversWithin this other fuel stack p q).isSome)
    (fun _ _ p _ reach below => coversWithin_succ_isSome
      (fun value title same => settled p value title (same ▸ reach)) below)
    .refl named named' (comparisonLeft_le_budget named named')

/-- A comparison has a verdict, over any registry. -/
theorem covers_isSome {container candidate : Schema}
    (settled : LiteralsSettle this other (container, candidate)) :
    (covers this other container candidate).isSome :=
  coversWithin_budget_isSome settled []

/-! ## 3. Verdicts where there is a derivation -/

/-- No comparison refuses, in whatever number of steps and with whatever pairs of names under
comparison. -/
def CoversAlways (this other : Context) (container candidate : Schema) : Prop :=
  ∀ fuel stack verdict, coversWithin this other fuel stack container candidate = some verdict →
    verdict.isAccepted = true

/-- A union covers what has a container for each of its alternatives. -/
theorem isAccepted_coversWithin_union {fuel : Nat} {members : List Schema}
    {key title sample : Option String} {q : Schema} {verdict : Verdict}
    (free : q.isReference = false)
    (within : ∀ alternative ∈ q.alternatives, ∃ container ∈ alternativesOfAll members,
      ∀ own, coversWithin this other fuel stack container alternative = some own →
        own.isAccepted = true)
    (h : coversWithin this other (fuel + 1) stack (union members key title sample) q =
      some verdict) :
    verdict.isAccepted = true := by
  have refers : ((union members key title sample).isReference || q.isReference) = false := free
  simp only [coversWithin, refers, Bool.false_eq_true, if_false, registry_alternatives free,
    Option.bind_eq_bind, Option.bind_eq_some_iff] at h
  obtain ⟨each, he, h⟩ := h
  have accepted := isAccepted_eachWithin he within
  simp only [accepted, Bool.not_true, Bool.false_and, Bool.false_eq_true, if_false] at h
  cases h
  exact accepted

/-- What a schema accepts is accepted in a comparison, whatever the number of steps. -/
theorem isAccepted_coversWithin_literal {fuel : Nat} {p : Schema} {value : Value}
    {title : Option String} {verdict : Verdict}
    (accepted : Accepts this.registry this.keyPolicy p value)
    (h : coversWithin this other fuel stack p (literal value title) = some verdict) :
    verdict.isAccepted = true := by
  induction fuel generalizing stack p verdict with
  | zero => cases h
  | succ fuel ih =>
    cases p with
    | reference name =>
      cases accepted with
      | reference found fits =>
        simp only [coversWithin, isReference, Bool.true_or, if_true, followed, Registry.lookup,
          found] at h
        split at h
        · cases h
          rfl
        · exact ih fits h
    | union members key title' sample =>
      obtain ⟨alternative, ha, fits⟩ := accepted.alternative
      exact isAccepted_coversWithin_union rfl (List.forall_mem_singleton.mpr
        ⟨alternative, ha, fun own ho => ih fits ho⟩) h
    | _ =>
      simp only [coversWithin, isReference, Bool.or_self, Bool.false_eq_true, if_false,
        Option.bind_eq_bind, Option.bind_eq_some_iff] at h
      obtain ⟨covered, hc, h⟩ := h
      rw [accepts_eq_true hc accepted] at h
      cases h
      rfl

/-- Where there is a derivation every verdict accepts, whatever the number of steps. -/
theorem Covered.isAccepted {fuel : Nat} {p q : Schema} {verdict : Verdict}
    (covered : Covered this other stack p q)
    (h : coversWithin this other fuel stack p q = some verdict) : verdict.isAccepted = true := by
  induction fuel generalizing stack p q verdict with
  | zero => cases h
  | succ fuel ih =>
    cases covered with
    | seen refers seen =>
      simp only [coversWithin, refers, if_true, if_pos (List.contains_iff_mem.mpr seen)] at h
      cases h
      rfl
    | follow refers hp hq below =>
      simp only [coversWithin, refers, if_true, hp, hq] at h
      split at h
      · cases h
        rfl
      · exact ih below h
    | choose container free chosen below =>
      exact isAccepted_coversWithin_union free (fun alternative ha =>
        ⟨container alternative, chosen alternative ha,
          fun own ho => ih (below alternative ha) ho⟩) h
    | @each _ _ members _ _ _ free single below =>
      have compared :
          eachWithin (coversWithin this other fuel stack) (alternativesOfAll members) [p] =
          some verdict := by
        cases p with
        | reference name => cases free
        | union => cases single
        | _ => exact h
      exact isAccepted_eachWithin compared fun alternative ha =>
        ⟨p, List.mem_singleton_self p, fun own ho => ih (below alternative ha) ho⟩
    | literal accepted => exact isAccepted_coversWithin_literal (Accepts.of_accepts accepted) h
    | string inside =>
      cases h
      exact inside
    | number inside =>
      cases h
      exact inside
    | boolean =>
      cases h
      rfl
    | null =>
      cases h
      rfl
    | object fields required declared =>
      simp only [coversWithin, isReference, Bool.or_self, Bool.false_eq_true, if_false,
        Option.bind_eq_bind, Option.bind_eq_some_iff, Option.pure_def, Option.some.injEq,
        problems_of_declared declared, List.map_nil, List.append_nil] at h
      obtain ⟨verdicts, hv, rfl⟩ := h
      rw [Verdict.isAccepted_all]
      exact isAccepted_fieldVerdicts (fun field hf own ho _ hw => ih (fields field hf own ho) hw)
        required hv
    | list covered =>
      obtain ⟨inner, hi, rfl⟩ := Option.map_eq_some_iff.mp h
      rw [Verdict.isAccepted_under]
      exact ih covered hi

end Schema
end DataContract
