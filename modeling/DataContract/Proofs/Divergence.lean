import Mathlib
import DataContract.Proofs.Expansion
import DataContract.Proofs.TwoRuns

/-!
# Checks that never end

Nothing stops a check that goes round in circles. Fields and items are smaller than the value that
they are in, so a check can only go round while it hands the same value on, and that it does along
references and to the members of unions. A union that accepts early tries no member after that. So a
registry with references that lead back to themselves may still have a verdict on many values.

1. `Schema.Circles`: a check comes to a schema that hands the same value back to itself. No number
   of steps gives it a verdict (`Schema.Circles.checkWithin_eq_none`).
2. `Schema.check_isSome_of_not_circles`: any other check has a verdict within its budget, whatever
   the registry. So the budget makes no difference (`Schema.check_eq_of_checkWithin`), and whether
   there is a verdict can be told from the checks that a check makes (`Schema.check_isSome_iff`).
3. `Schema.check_ends`: the two together. Over a guarded registry no check goes round in circles.
-/

namespace DataContract
namespace Schema

/-- A check comes to a schema that hands the value it is given back to itself, along references and
to members of unions. -/
def Circles (context : Context) (schema : Schema) (value : Value) : Prop :=
  ∃ node part, Relation.ReflTransGen (Consults context) (schema, value) (node, part) ∧
    Relation.TransGen (Defers context part) node node

variable {context : Context} {fuel : Nat} {schema : Schema} {value : Value}

/-! ## 1. Round in circles -/

theorem Circles.of_consults {next : Schema} {part : Value} (h : Circles context next part)
    (step : Consults context (schema, value) (next, part)) : Circles context schema value := by
  obtain ⟨node, content, reached, round⟩ := h
  exact ⟨node, content, .head step reached, round⟩

/-- Every check on the way has a verdict in fewer steps. -/
theorem exists_lt_isSome_of_consults {start last : Schema × Value}
    (h : Relation.TransGen (Consults context) start last)
    (checked : (checkWithin context fuel start.1 start.2).isSome) :
    ∃ fewer < fuel, (checkWithin context fewer last.1 last.2).isSome := by
  have one {fuel : Nat} {call next : Schema × Value} (step : Consults context call next)
      (checked : (checkWithin context fuel call.1 call.2).isSome) :
      ∃ fewer < fuel, (checkWithin context fewer next.1 next.2).isSome := by
    cases fuel with
    | zero => cases checked
    | succ fuel => exact ⟨fuel, Nat.lt_succ_self fuel,
        checkWithin_succ_isSome_iff.mp checked _ _ step⟩
  induction h with
  | single step => exact one step checked
  | tail _ step ih =>
    obtain ⟨fewer, less, between⟩ := ih
    obtain ⟨fewest, least, last⟩ := one step between
    exact ⟨fewest, least.trans less, last⟩

/-- A schema that hands its value back to itself has no verdict on it: one time round leaves fewer
steps for the next. -/
theorem not_isSome_of_round {node : Schema} {part : Value}
    (round : Relation.TransGen (Defers context part) node node) :
    ¬(checkWithin context fuel node part).isSome := by
  have again : Relation.TransGen (Consults context) (node, part) (node, part) :=
    round.lift (·, part) fun _ _ step => .whole step
  induction fuel using Nat.strong_induction_on with
  | _ fuel ih =>
    intro checked
    obtain ⟨fewer, less, checked⟩ := exists_lt_isSome_of_consults again checked
    exact ih fewer less checked

/-- A check that goes round in circles has no verdict in any number of steps. -/
theorem Circles.checkWithin_eq_none (h : Circles context schema value) (fuel : Nat) :
    checkWithin context fuel schema value = none := by
  obtain ⟨node, part, reached, round⟩ := h
  rw [← Option.not_isSome_iff_eq_none]
  intro checked
  rcases Relation.reflTransGen_iff_eq_or_transGen.mp reached with same | reached
  · cases same
    exact not_isSome_of_round round checked
  · obtain ⟨fewer, _, checked⟩ := exists_lt_isSome_of_consults reached checked
    exact not_isSome_of_round round checked

/-! ## 2. Any other check -/

open Classical in
/-- A check that does not go round in circles has a verdict when its steps cover, for every node of
the value that is left, a whole pool of schemas (`width`), and the schemas of the pool that have not
had the value yet. A smaller value pays for a whole new pool. -/
theorem checkWithin_isSome_of_not_circles {pool : Finset Schema} {width : Nat}
    (few : pool.card ≤ width) (registered : context.registry.Everywhere (· ∈ pool))
    (inside : schema.Everywhere (· ∈ pool)) (seen : List Schema) (fresh : schema ∉ seen)
    (passed : ∀ earlier ∈ seen, Relation.TransGen (Defers context value) earlier schema)
    (straight : ¬Circles context schema value)
    (enough : value.size * (width + 1) + (pool \ seen.toFinset).card < fuel) :
    (checkWithin context fuel schema value).isSome := by
  induction fuel generalizing schema value seen with
  | zero => exact absurd enough (Nat.not_lt_zero _)
  | succ fuel ih =>
    refine checkWithin_succ_isSome_iff.mpr fun next part step => ?_
    have onward : ¬Circles context next part := fun circles => straight (circles.of_consults step)
    have below (smaller : part.size < value.size) (inside : next.Everywhere (· ∈ pool)) :
        (checkWithin context fuel next part).isSome := by
      refine ih inside [] List.not_mem_nil nofun onward ?_
      have paid := Nat.mul_le_mul_right (width + 1) (Nat.succ_le_of_lt smaller)
      have all := Finset.card_le_card (Finset.sdiff_subset (s := pool) (t := List.toFinset []))
      rw [Nat.succ_mul] at paid
      omega
    cases step with
    | whole step =>
      have passed : ∀ earlier ∈ schema :: seen,
          Relation.TransGen (Defers context value) earlier next :=
        List.forall_mem_cons.mpr ⟨.single step, fun earlier he => (passed earlier he).tail step⟩
      have fresh' : next ∉ schema :: seen :=
        fun again => onward ⟨next, value, .refl, passed next again⟩
      have used := card_sdiff_cons_lt inside.here fresh
      have inside : next.Everywhere (· ∈ pool) := by
        cases step with
        | target found => exact registered.target found
        | member tried => exact (everywhere_union.mp inside).2 next tried.mem
      exact ih inside (schema :: seen) fresh' passed onward (by omega)
    | field hf found =>
      exact below (Value.size_lt_of_find? found) ((everywhere_object.mp inside).2 _ hf)
    | item hp => exact below (Value.size_lt_of_mem hp) (everywhere_list.mp inside).2

open Classical in
/-- A check that does not go round in circles has a verdict, over any registry. -/
theorem check_isSome_of_not_circles (straight : ¬Circles context schema value) :
    (schema.check context value).isSome := by
  let listed := schema.nodes ++ context.registry.entries.flatMap (·.2.nodes)
  have few : listed.toFinset.card ≤ schema.size + context.registry.size := by
    refine (List.toFinset_card_le _).trans (Nat.le_of_eq ?_)
    rw [List.length_append, length_nodes, length_registryNodes]
  have inside : schema.Everywhere (· ∈ listed.toFinset) :=
    fun node hn => List.mem_toFinset.mpr (List.mem_append_left _ hn)
  have registered : context.registry.Everywhere (· ∈ listed.toFinset) := fun entry he node hn =>
    List.mem_toFinset.mpr (List.mem_append_right _ (List.mem_flatMap.mpr ⟨entry, he, hn⟩))
  refine checkWithin_isSome_of_not_circles few registered inside [] List.not_mem_nil
    nofun straight ?_
  have all :=
    Finset.card_le_card (Finset.sdiff_subset (s := listed.toFinset) (t := List.toFinset []))
  rw [checkBudget, Nat.succ_mul]
  omega

/-- A verdict in any number of steps is the verdict within the budget, since both agree with a run
that is as long as either. -/
theorem check_eq_of_checkWithin {verdict : Verdict}
    (h : checkWithin context fuel schema value = some verdict) :
    schema.check context value = some verdict := by
  have straight : ¬Circles context schema value := by
    intro circles
    cases (circles.checkWithin_eq_none fuel).symm.trans h
  obtain ⟨found, hf⟩ := Option.isSome_iff_exists.mp (check_isSome_of_not_circles straight)
  obtain ⟨_, long, rfl⟩ := checkWithin_carriesOver_of_le
    (Nat.le_max_left fuel (schema.checkBudget context value)) verdict h
  obtain ⟨_, long', rfl⟩ := checkWithin_carriesOver_of_le
    (Nat.le_max_right fuel (schema.checkBudget context value)) found hf
  exact hf.trans (long'.symm.trans long)

/-- There is a verdict when there is one for all the checks that a check makes. -/
theorem check_isSome_iff :
    (schema.check context value).isSome ↔
      ∀ next part, Consults context (schema, value) (next, part) →
        (next.check context part).isSome := by
  constructor
  · intro checked next part step
    obtain ⟨fuel, steps⟩ := exists_check_eq context schema value
    rw [steps] at checked
    obtain ⟨verdict, hv⟩ :=
      Option.isSome_iff_exists.mp (checkWithin_succ_isSome_iff.mp checked next part step)
    exact Option.isSome_of_eq_some (check_eq_of_checkWithin hv)
  · intro all
    refine check_isSome_of_not_circles ?_
    have straight {next : Schema} {part : Value}
        (step : Consults context (schema, value) (next, part)) :
        ¬Circles context next part := by
      intro circles
      have checked := all next part step
      rw [check, circles.checkWithin_eq_none] at checked
      cases checked
    rintro ⟨node, part, reached, round⟩
    rcases reached.cases_head with same | ⟨⟨next, content⟩, step, onward⟩
    · cases same
      obtain ⟨next, step, back⟩ := Relation.TransGen.head'_iff.mp round
      exact straight (.whole step) ⟨next, value, .refl, .tail' back step⟩
    · exact straight step ⟨node, part, onward, round⟩

/-! ## 3. Checks end -/

/-- Over a guarded registry every check has a verdict. In any registry the budget of steps settles a
check: more steps change nothing, and there is no verdict exactly where the check comes back, along
nothing but references and unions, to a schema that has had the value already. -/
theorem check_ends (context : Context) (schema : Schema) (value : Value) :
    (context.registry.Guarded → ∃ verdict, schema.check context value = some verdict) ∧
    (∀ fuel, schema.checkBudget context value ≤ fuel →
      checkWithin context fuel schema value = schema.check context value) ∧
    (schema.check context value = none ↔ Circles context schema value) := by
  have circles : schema.check context value = none ↔ Circles context schema value := by
    refine ⟨fun none => ?_, fun circles => circles.checkWithin_eq_none _⟩
    by_contra straight
    have some := check_isSome_of_not_circles straight
    rw [none] at some
    cases some
  refine ⟨fun guarded => Option.isSome_iff_exists.mp (check_isSome guarded schema value),
    fun fuel more => ?_, circles⟩
  cases hv : schema.check context value with
  | none => exact (circles.mp hv).checkWithin_eq_none fuel
  | some verdict =>
    obtain ⟨_, checked, rfl⟩ := checkWithin_carriesOver_of_le more verdict hv
    exact checked

end Schema

/-- Nothing, something with a way on, or the way itself. -/
def detours : Registry :=
  .register "Way" (.union [.null, .object [("on", .named "Way")] none, .named "Way"] none none none)
    .initial

/-- A node with a broken node behind it gets its verdict. Of two ways over a registry that is not
guarded, the one that ends in nothing gets one as well, and the other goes round in circles: nothing
in the union takes a number, so it is asked again. -/
theorem check_ends_detours :
    linkedNodes.Guarded ∧
    (∃ verdict, (Schema.named "Node").check (.ofRegistry linkedNodes)
      (.object [("value", .integer 1), ("next", .object [("value", .string "x")])]) =
        some verdict) ∧
    ¬detours.Guarded ∧
    ¬Schema.Circles (.ofRegistry detours) (.named "Way") (.object [("on", .null)]) ∧
    Schema.Circles (.ofRegistry detours) (.named "Way") (.object [("on", .integer 7)]) := by
  have ends := (Schema.check_ends (.ofRegistry linkedNodes) (.named "Node")
    (.object [("value", .integer 1), ("next", .object [("value", .string "x")])])).1
      guarded_linkedNodes
  have straight := (Schema.check_ends (.ofRegistry detours) (.named "Way")
    (.object [("on", .null)])).2.2
  have round := (Schema.check_ends (.ofRegistry detours) (.named "Way")
    (.object [("on", .integer 7)])).2.2
  refine ⟨guarded_linkedNodes, ends, fun guarded => ?_,
    fun circles => ?_, round.mp (by decide +kernel)⟩
  · exact guarded "(Way)" (.single ⟨_, rfl, by decide +kernel⟩)
  · exact absurd (straight.mpr circles) (by decide +kernel)

end DataContract
