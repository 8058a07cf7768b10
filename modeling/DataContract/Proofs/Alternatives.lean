import Mathlib
import DataContract.Proofs.Capping
import DataContract.Proofs.Locality

/-!
# What the alternatives of a union give

A union works its alternatives out one after the other and sets errors aside on the way, so that
what it lists depends on all that its alternatives list. Each alternative is derived in a place of
its own, with the budget of a derivation from there, and not with what the union has left of its
steps: that makes no difference, in no registry.

1. `Enumeration.toList_settle_of_success`, `Enumeration.toList_settle_of_errors`: settled errors,
   with and without a result among them.
2. `Schema.alternativeVariants`: what the alternatives give, each derived as a schema of its own.
   `Schema.variants_union`: a union settles that.
3. `Schema.toList_variants_union`: so it lists the results of its alternatives, or all their errors
   as one.
-/

namespace DataContract

/-! ## 1. Settled errors -/

section Items

variable {α : Type}

/-- The results are among the items that are not errors. -/
theorem filterMap_toOption_successes (items : List (Attempt α)) :
    (successes items).filterMap Except.toOption = items.filterMap Except.toOption := by
  rw [successes, List.filterMap_filter]
  refine List.filterMap_congr fun item _ => ?_
  rcases item with (cause | _) | result <;> rfl

end Items

namespace Enumeration

variable {α : Type} {headline : String} {items : Enumeration (Attempt α)}

/-- Where there is a result, errors are set aside. -/
theorem toList_settle_of_success (produced : successes items.toList ≠ []) :
    (items.settle headline).toList = successes items.toList := by
  rw [toList_settle, if_pos ((any_success_iff _).mpr produced), successes]

/-- Where there is none, all errors come as one. -/
theorem toList_settle_of_errors (failed : successes items.toList = []) :
    (items.settle headline).toList =
      (closing headline (items.toList.filterMap Attempt.error?)).toList := by
  rw [toList_settle, if_neg fun produced => (any_success_iff _).mp produced failed]

/-- No result is lost or added, and their order is kept. -/
theorem filterMap_toOption_settle :
    (items.settle headline).toList.filterMap Except.toOption =
      items.toList.filterMap Except.toOption := by
  by_cases failed : successes items.toList = []
  · rw [toList_settle_of_errors failed, ← filterMap_toOption_successes items.toList, failed]
    cases items.toList.filterMap Attempt.error? <;> rfl
  · rw [toList_settle_of_success failed, filterMap_toOption_successes]

end Enumeration

/-! ## 2. Alternatives on their own -/

namespace Schema

variable {context : Context} {row : Row} {members : List Schema} {key title sample : Option String}

/-- What the alternatives of a union give, null last: each is derived as a schema of its own, under
cycle prevention. Where null is an alternative, cycle errors count for nothing. -/
def alternativeVariants (context : Context) (row : Row) (members : List Schema) :
    List (Attempt Schema) :=
  ((nullsLast members).flatMap fun schema =>
    match context.enter schema (listsNull members) with
    | .ok (some child) => (schema.variants child row).toList
    | .ok none => []
    | .error cause => [.error (.error cause)]).filter fun item =>
      !(listsNull members && item.isCycle)

theorem toList_unionStream_variants :
    (unionStream (fun child schema => schema.variants child row) context members).toList =
      alternativeVariants context row members := by
  rw [unionStream, Enumeration.toList_filter, toList_alternativeStream, alternativeLists,
    ← List.flatMap_def]
  rfl

/-- An example of a union is read where examples are preferred. -/
theorem exampleOfAny_eq_none (unread : sample = none ∨ context.mode = .synthesize) :
    exampleOfAny context sample members = .ok none := by
  rcases unread with rfl | synthesize
  · rfl
  · unfold exampleOfAny
    rw [synthesize]
    cases sample <;> rfl

/-- A smaller schema has a smaller budget. -/
theorem expansionBudget_lt (registry : Registry) {part schema : Schema}
    (smaller : part.size < schema.size) :
    part.expansionBudget registry < schema.expansionBudget registry := by
  unfold expansionBudget
  exact Nat.mul_lt_mul'' (by omega) (by omega)

/-- Without an example to read, a union settles what its alternatives give on their own. -/
theorem variants_union (unread : sample = none ∨ context.mode = .synthesize) :
    (union members key title sample).variants context row =
      (unionStream (fun child schema => schema.variants child row) context members).settle
        "Could not generate new tests" := by
  have fewer {schema : Schema} (hm : schema ∈ members) :
      schema.expansionBudget context.registry <
        (union members key title sample).expansionBudget context.registry :=
    expansionBudget_lt context.registry (Nat.lt_succ_of_le (size_le_of_mem hm))
  unfold variants
  obtain ⟨fuel, steps⟩ := Nat.exists_eq_succ_of_ne_zero
    (n := (union members key title sample).expansionBudget context.registry)
      (by simp [expansionBudget])
  rw [steps] at fewer ⊢
  simp only [variantsWithin, exampleOfAny_eq_none unread, unionStream]
  rw [alternativeStream_congr fun schema hm child entered => ?_]
  obtain ⟨stack, rfl⟩ := Context.expanding_of_enter entered
  exact variantsWithin_eq_of_budget_le row (Nat.le_of_lt_succ (fewer hm))

/-! ## 3. What a union lists -/

/-- Without an example to read, a union lists what its alternatives list and is not an error, in
order; references without end are no error and stay in their place. Where that is nothing, it lists
one error: the first one if all are cycles, and otherwise the failures of all of them under a
headline. Where there is no error either, it lists nothing. In each case its results are those of
its alternatives. -/
theorem toList_variants_union (context : Context) (row : Row) (members : List Schema)
    (key title sample : Option String) (unread : sample = none ∨ context.mode = .synthesize) :
    let items := alternativeVariants context row members
    let listed := ((union members key title sample).variants context row).toList
    listed.filterMap Except.toOption = items.filterMap Except.toOption ∧
      (successes items ≠ [] → listed = successes items) ∧
      (successes items = [] → listed = match items.filterMap Attempt.error? with
        | [] => []
        | first :: rest => [.error (.error (if (first :: rest).all SchemaError.isCycle then first
            else .aggregate "Could not generate new tests"
              ((first :: rest).map SchemaError.failure)))]) := by
  intro items listed
  have settled : listed = _ := congrArg Enumeration.toList (variants_union unread)
  have given : items = _ := toList_unionStream_variants.symm
  rw [settled, given]
  refine ⟨Enumeration.filterMap_toOption_settle, Enumeration.toList_settle_of_success,
    fun failed => (Enumeration.toList_settle_of_errors failed).trans ?_⟩
  split
  · next none => rw [none]; rfl
  · next some => rw [some]; rfl

end Schema

/-- Each node is followed by another one, and a node is under expansion. -/
def unfolding : Context :=
  { Context.ofRegistry
    (Registry.initial.register "Node" (.object [("next", .named "Node")] none)) with
    expanding := [⟨"(Node)", false⟩] }

/-- What leads to the node that is under expansion. -/
def leading : Schema := .object [("next", .named "Node")] none

/-- Beside a text and null a name that is not registered and a cycle are set aside, and null comes
last. Where nothing else is there they are reported together, and a cycle on its own stays one. -/
theorem toList_variants_union_unfolding :
    ((Schema.union [.null, .named "Missing", leading, .text] none none none).variants
        unfolding .empty).toList = [.ok .text, .ok .null] ∧
      ((Schema.union [.named "Missing", leading] none none none).variants unfolding .empty).toList =
        [.error (.error (.aggregate "Could not generate new tests"
          [.plain "Type (Missing) is not defined",
            .plain "Invalid pattern cycle: (Node) -> (Node)"]))] ∧
      ((Schema.union [leading, leading] none none none).variants unfolding .empty).toList =
        [.error (.error (.cycle ["(Node)", "(Node)"]))] := by
  refine ⟨?_, ?_, ?_⟩
  · obtain ⟨_, produced, _⟩ := Schema.toList_variants_union unfolding .empty
      [.null, .named "Missing", leading, .text] none none none (.inl rfl)
    exact produced (List.cons_ne_nil _ _)
  · obtain ⟨_, _, failed⟩ := Schema.toList_variants_union unfolding .empty
      [.named "Missing", leading] none none none (.inl rfl)
    exact failed rfl
  · obtain ⟨_, _, failed⟩ := Schema.toList_variants_union unfolding .empty
      [leading, leading] none none none (.inl rfl)
    exact failed rfl

end DataContract
