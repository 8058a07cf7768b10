import Mathlib
import DataContract.Proofs.Reflexivity

/-!
# The calls of a comparison

A comparison is a recursion whose calls either enter a new pair of names or go on to smaller
schemas. The names are those of what the two schemas use, of which there are finitely many, so every
comparison ends: over registries with references that lead back to themselves, with names that
nothing is registered under, and with unions among their own members. Only the candidate must be
free of literals. The value of a literal is checked as data, and no stack of names ends that.

1. `Schema.CallsAdvance`: what the calls of a comparison do. It holds of every pair of schemas
   (`Schema.callsAdvance`).
2. `Schema.coversWithin_congr`: nothing but the calls that a call makes counts for its verdict.
3. `Registry.alternatives_down`: what a schema stands for, its own references followed.
4. `Schema.comparison_ends`: the budget of steps is enough, and more steps would change nothing.
-/

namespace DataContract

/-! ## 1. What the calls do -/

namespace Schema

variable {this other : Context} {start : Schema × Schema} {stack : List (String × String)}

/-- The names of a schema and of all that it uses. -/
def usedNames (registry : Registry) (schema : Schema) : Set String :=
  {name | ∃ node, Uses registry schema node ∧ node.typeName = name}

theorem finite_usedNames (registry : Registry) (schema : Schema) :
    (usedNames registry schema).Finite := by
  obtain ⟨inside, registered⟩ := everywhere_typeNamesOf registry schema
  refine (typeNamesOf registry schema).finite_toSet.subset ?_
  rintro name ⟨node, used, rfl⟩
  exact (used.everywhere registered inside).here

/-- The calls in the comparison of a pair enter a new pair of names, out of finitely many, or go on
to smaller schemas. -/
structure CallsAdvance (this other : Context) (container candidate : Schema) : Prop where
  finite : (usedNames this.registry container ×ˢ usedNames other.registry candidate).Finite
  advance : ∀ call next, Relation.ReflTransGen (Calls this other) ([], container, candidate) call →
    Calls this other call next →
      (∃ names ∈ usedNames this.registry container ×ˢ usedNames other.registry candidate,
        names ∉ call.1 ∧ next.1 = names :: call.1) ∨
      (next.1 = call.1 ∧ next.2.1.size ≤ call.2.1.size ∧ next.2.2.size ≤ call.2.2.size ∧
        next.2.1.size + next.2.2.size < call.2.1.size + call.2.2.size)

theorem Uses.followed {registry : Registry} {start schema target : Schema}
    (used : Uses registry start schema) (found : schema.followed registry = .ok target) :
    Uses registry start target := by
  cases schema with
  | reference name => exact used.target (find?_of_followed found)
  | _ =>
    cases found
    exact used

/-- What a comparison comes to is used by the schemas that it is about. -/
theorem Reaches.uses {last : Schema × Schema} (reach : Reaches this other start last) :
    Uses this.registry start.1 last.1 ∧ Uses other.registry start.2 last.2 := by
  induction reach with
  | refl => exact ⟨.self, .self⟩
  | tail _ step ih =>
    obtain ⟨own, others⟩ := ih
    cases step with
    | follow _ hp hq => exact ⟨own.followed hp, others.followed hq⟩
    | choose _ hc ha => exact ⟨own.alternative hc, others.alternative ha⟩
    | each _ _ ha => exact ⟨own, others.alternative ha⟩
    | field hf ho => exact ⟨own.field hf, others.field (partner_eq_some ho).1⟩
    | item => exact ⟨own.item, others.item⟩

/-- The calls of every comparison get on. -/
theorem callsAdvance (this other : Context) (container candidate : Schema) :
    CallsAdvance this other container candidate := by
  refine ⟨(finite_usedNames _ _).prod (finite_usedNames _ _), fun call next made step => ?_⟩
  have reach : Reaches this other (container, candidate) call.2 :=
    Relation.ReflTransGen.lift Prod.snd (fun _ _ => Calls.meets) _ _ made
  obtain ⟨used, used'⟩ := reach.uses
  cases step with
  | @enter stack p q _ _ _ new _ _ => exact .inl ⟨_, ⟨⟨p, used, rfl⟩, ⟨q, used', rfl⟩⟩, new, rfl⟩
  | descend free step => exact .inr ⟨rfl, step.size_lt free⟩

end Schema

/-! ## 2. What a call looks at -/

theorem allVerdicts_congr {α : Type} {check check' : α → Option Verdict} {items : List α}
    (h : ∀ item ∈ items, check item = check' item) :
    allVerdicts check items = allVerdicts check' items := by
  induction items with
  | nil => rfl
  | cons item rest ih =>
    obtain ⟨own, others⟩ := List.forall_mem_cons.mp h
    simp only [allVerdicts, own, ih others]

theorem eachWithin_congr {covers covers' : Schema → Schema → Option Verdict}
    {candidates containers : List Schema}
    (h : ∀ candidate ∈ candidates, ∀ container ∈ containers,
      covers container candidate = covers' container candidate) :
    eachWithin covers candidates containers = eachWithin covers' candidates containers := by
  unfold eachWithin
  rw [allVerdicts_congr fun candidate hc => by rw [allVerdicts_congr (h candidate hc)]]

theorem fieldVerdicts_congr {covers covers' : Schema → Schema → Option Verdict}
    {phrasing : Phrasing} {others : Fields Schema} {fields : List (String × Schema)}
    (h : ∀ field ∈ fields, ∀ own, partner others field.1 = some own →
      covers field.2 own.2 = covers' field.2 own.2) :
    fieldVerdicts covers phrasing others fields = fieldVerdicts covers' phrasing others fields := by
  induction fields with
  | nil => rfl
  | cons field rest ih =>
    obtain ⟨own, below⟩ := List.forall_mem_cons.mp h
    unfold partner at own
    cases found : List.find? (fun other => Key.name other.1 == Key.name field.1) others with
    | none => simp only [fieldVerdicts, found, ih below]
    | some other => simp only [fieldVerdicts, found, own other found, ih below]

namespace Schema

variable {this other : Context} {stack : List (String × String)} {fuel fuel' : Nat}

/-- A call looks at nothing but the verdicts of the calls that it makes. -/
theorem coversWithin_congr {p q : Schema}
    (h : ∀ stack' p' q', Calls this other (stack, p, q) (stack', p', q') →
      coversWithin this other fuel stack' p' q' = coversWithin this other fuel' stack' p' q') :
    coversWithin this other (fuel + 1) stack p q =
        coversWithin this other (fuel' + 1) stack p q := by
  cases refers : p.isReference || q.isReference with
  | true =>
    simp only [coversWithin, refers, if_true]
    split
    · rfl
    · next fresh =>
      split
      · rfl
      · rfl
      · next hp hq =>
        exact h _ _ _ (.enter refers (fun seen => fresh (List.contains_iff_mem.mpr seen)) hp hq)
  | false =>
    replace h {p' q' : Schema} (step : Meets this other (p, q) (p', q')) :=
      h stack p' q' (.descend refers step)
    obtain ⟨free, free'⟩ := Bool.or_eq_false_iff.mp refers
    simp only [coversWithin, refers, Bool.false_eq_true, if_false]
    split
    · rw [registry_alternatives free', eachWithin_congr fun b hb a ha => h (.choose free' ha hb)]
    · next notUnion =>
      have single : p.isUnion = false := by
        cases p <;> first | rfl | exact (notUnion _ _ _ _ rfl).elim
      rw [eachWithin_congr fun b hb a ha => List.mem_singleton.mp ha ▸ h (.each free single hb)]
    · rfl
    · rfl
    · rfl
    · rfl
    · rfl
    · rw [fieldVerdicts_congr fun field hf own ho => h (.field hf ho)]
    · rw [h .item]
    · rfl

end Schema

/-! ## 3. What a schema stands for -/

/-- What holds of all that is registered, and passes from a union to its members, passes from a
schema to what it stands for. -/
theorem Registry.alternatives_down {registry : Registry} {P : Schema → Prop}
    (registered : ∀ name target, registry.find? name = some target → P target)
    (down : ∀ members key title sample, P (.union members key title sample) →
      ∀ schema ∈ members, P schema) {schema : Schema} (h : P schema) :
    ∀ alternative ∈ registry.alternatives schema, P alternative := by
  have last {schema last : Schema} (chain : registry.Follows schema last) (h : P schema) :
      P last := by
    induction chain with
    | here => exact h
    | step found _ ih => exact ih (registered _ _ found)
  have resolved := last (registry.follows_resolve schema) h
  unfold Registry.alternatives
  split
  · next members key title sample same =>
    exact Schema.alternativesOfAll_down down members
      (down members key title sample (same ▸ resolved))
  · exact List.forall_mem_singleton.mpr h

namespace Schema

variable {this other : Context} {fuel : Nat}

/-- What a catalogued schema stands for is catalogued as well. -/
theorem Catalogued.alternative {registry : Registry} {names : Finset String} {width : Nat}
    {schema : Schema} (named : Catalogued registry names width schema) :
    ∀ alternative ∈ registry.alternatives schema, Catalogued registry names width alternative :=
  Registry.alternatives_down (P := Catalogued registry names width)
    (fun _ _ found => ⟨named.registered, named.registered.target found, named.few, named.wide,
      (size_le_of_field (Fields.mem_of_find? found)).trans named.wide⟩)
    (fun _ _ _ _ whole schema hm =>
        whole.smaller ((everywhere_union.mp whole.inside).2 schema hm) (by
      have := size_le_of_mem hm
      simp only [size]
      omega))
    named

/-! ## 4. Comparisons end -/

/-- A comparison with a candidate that is free of literals comes to none. -/
theorem literalsSettle_of_no_literal {start : Schema × Schema}
    (registered : other.registry.Everywhere fun node => node.isLiteral = false)
    (plain : start.2.Everywhere fun node => node.isLiteral = false) :
    LiteralsSettle this other start := by
  intro p value title reach _ _
  obtain ⟨-, used⟩ := reach.uses
  cases (used.everywhere registered plain).here

/-- A comparison of catalogued schemas has a verdict within the budget, and more steps would change
nothing. -/
theorem coversWithin_settled {names names' : Finset String} {mine theirs : Nat} {p q : Schema}
    (settled : LiteralsSettle this other (p, q))
    (named : Catalogued this.registry names (mine + this.registry.size) p)
    (named' : Catalogued other.registry names' (theirs + other.registry.size) q)
    (enough : coversBudget this other mine theirs ≤ fuel) :
    (coversWithin this other (coversBudget this other mine theirs) [] p q).isSome ∧
      coversWithin this other fuel [] p q =
        coversWithin this other (coversBudget this other mine theirs) [] p q := by
  obtain ⟨more, rfl⟩ := Nat.exists_eq_add_of_le enough
  refine call_induction (P := fun fuel stack p q =>
      (coversWithin this other fuel stack p q).isSome ∧
      coversWithin this other (fuel + more) stack p q = coversWithin this other fuel stack p q)
    (fun fuel stack p q reach below => ⟨?_, ?_⟩) .refl named named'
      (comparisonLeft_le_budget named named')
  · exact coversWithin_succ_isSome (fun value title same => settled p value title (same ▸ reach))
      fun stack' p' q' step => (below stack' p' q' step).1
  · rw [Nat.add_right_comm]
    exact coversWithin_congr fun stack' p' q' step => (below stack' p' q' step).2

/-- Every comparison with a candidate that is free of literals ends, over any two registries. Its
calls get on, there is a verdict within the budget of steps, and more steps would change nothing. So
does the comparison of the candidate with several containers, each of which is compared with all
that the candidate stands for. -/
theorem comparison_ends {candidate : Schema}
    (registered : other.registry.Everywhere fun node => node.isLiteral = false)
    (plain : candidate.Everywhere fun node => node.isLiteral = false) :
    (∀ container,
      CallsAdvance this other container candidate ∧
      ∃ verdict, covers this other container candidate = some verdict ∧
        ∀ fuel, coversBudget this other container.size candidate.size ≤ fuel →
          coversWithin this other fuel [] container candidate = some verdict) ∧
    ∀ containers,
      (∀ container ∈ containers, ∀ alternative ∈ other.registry.alternatives candidate,
        CallsAdvance this other container alternative) ∧
      ∃ verdict, fitsWithin other this candidate containers = some verdict ∧
        ∀ fuel, coversBudget this other (sizeOfAll containers) candidate.size ≤ fuel →
          eachWithin (coversWithin this other fuel [])
            (other.registry.alternatives candidate) containers = some verdict := by
  have theirs := @catalogued_typeNamesOf other.registry _ candidate (Nat.le_refl _)
  refine ⟨fun container => ⟨callsAdvance this other container candidate, ?_⟩,
    fun containers =>
      ⟨fun container _ alternative _ => callsAdvance this other container alternative, ?_⟩⟩
  · have mine := @catalogued_typeNamesOf this.registry _ container (Nat.le_refl _)
    have ended {fuel : Nat} := @coversWithin_settled this other fuel _ _ _ _ container candidate
      (literalsSettle_of_no_literal registered plain) mine theirs
    obtain ⟨verdict, hv⟩ := Option.isSome_iff_exists.mp (ended (Nat.le_refl _)).1
    exact ⟨verdict, hv, fun fuel enough => (ended enough).2.trans hv⟩
  · have free : ∀ alternative ∈ other.registry.alternatives candidate,
        alternative.Everywhere fun node => node.isLiteral = false :=
      Registry.alternatives_down (P := Everywhere fun node => node.isLiteral = false)
        (fun _ _ found => registered.target found)
        (fun _ _ _ _ whole => (everywhere_union.mp whole).2) plain
    have ended {fuel : Nat} (container : Schema) (hc : container ∈ containers)
        (alternative : Schema) (ha : alternative ∈ other.registry.alternatives candidate) :=
      @coversWithin_settled this other fuel _ _ (sizeOfAll containers) _ container alternative
        (literalsSettle_of_no_literal registered (free alternative ha))
        (catalogued_typeNamesOf (Nat.add_le_add_right (size_le_of_mem hc) _))
        (theirs.alternative alternative ha)
    obtain ⟨verdict, hv⟩ := Option.isSome_iff_exists.mp
      (eachWithin_isSome fun alternative ha container hc =>
        (ended container hc alternative ha (Nat.le_refl _)).1)
    refine ⟨verdict, hv, fun fuel enough => ?_⟩
    rw [eachWithin_congr fun alternative ha container hc =>
      (ended container hc alternative ha enough).2]
    exact hv

end Schema

/-- Names that stand for each other, a union among its own members, and a list of what is not
registered. -/
def tangles : Registry :=
  ((Registry.initial.register "There" (.named "Back")).register "Back" (.named "There")).register
    "Self" (.union [.named "Self",
      .object [("next", .named "Back"), ("items?", .list (.named "Missing") none none)] none]
      none none none)

/-- The union and the names that stand for each other are compared to the end, alone and among
others. -/
theorem comparison_ends_tangles :
    ¬tangles.LoopFree ∧ tangles.find? "Missing" = none ∧
    (tangles.Everywhere fun node => node.isLiteral = false) ∧
    ((Schema.named "Self").Everywhere fun node => node.isLiteral = false) ∧
    (Schema.covers (.ofRegistry tangles) (.ofRegistry tangles) (.named "There")
      (.named "Self")).isSome ∧
    (Schema.fitsWithin (.ofRegistry tangles) (.ofRegistry tangles) (.named "Self")
      [.named "Back", .named "Self"]).isSome := by
  have loop : tangles.StandsFor "(There)" "(Back)" ∧ tangles.StandsFor "(Back)" "(There)" :=
    ⟨⟨_, rfl, by decide +kernel⟩, ⟨_, rfl, by decide +kernel⟩⟩
  have registered : tangles.Everywhere fun node => node.isLiteral = false := by decide +kernel
  have plain : (Schema.named "Self").Everywhere fun node => node.isLiteral = false := by
    decide +kernel
  obtain ⟨one, several⟩ :=
    @Schema.comparison_ends (.ofRegistry tangles) (.ofRegistry tangles) _ registered plain
  obtain ⟨_, verdict, hv, _⟩ := one (.named "There")
  obtain ⟨_, verdict', hv', _⟩ := several [.named "Back", .named "Self"]
  exact ⟨fun free => free _ (.tail (.single loop.1) loop.2), rfl, registered, plain,
    Option.isSome_iff_exists.mpr ⟨verdict, hv⟩, Option.isSome_iff_exists.mpr ⟨verdict', hv'⟩⟩

end DataContract
