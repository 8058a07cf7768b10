import Mathlib
import DataContract.Proofs.Divergence
import DataContract.Proofs.QueryVerdict
import DataContract.Proofs.ReadingBack

/-!
# The order of parameters

A query is checked in the order in which its parameters come: the values of a key are gone through
one by one, each declaration settles some of them, and what is left goes on to the next one. Two
runs on the same parameters in another order are compared step by step here. They try the same
values against the same declarations and settle the same ones, so they differ in their reports only.
The values of a key that is declared as a list make one array, whose items are in another order, and
to be accepted they are looked at one by one.

1. `Query.attempts_carriesOver`, `Query.readAll_carriesOver`: values in another order are tried and
   read alike.
2. `Query.settleValues_carriesOver`: a pass over the declarations of a key leaves the same values.
   `Query.checkGroup_carriesOver`: the values of one key.
3. `Query.check_perm`: the verdict on a query, over any registry. Where one of the two runs does not
   end, the other does not end either.
-/

namespace DataContract
namespace Query

variable {context : Context} {schema : Schema}

/-! ## 1. Values in another order -/

/-- Values in another order meet the same verdicts, in that order. -/
theorem attempts_carriesOver {values values' : List Unsettled} (perm : values.Perm values') :
    CarriesOver List.Perm (attempts context schema values) (attempts context schema values') := by
  intro tried h
  obtain ⟨tried', each, perm'⟩ :=
    List.perm_comp_forall₂ perm.symm (attempts_eq_some_iff.mp h)
  exact ⟨tried', attempts_eq_some_iff.mpr each, perm'.symm⟩

/-- Values in another order are read alike, in that order. -/
theorem readAll_carriesOver {registry : Registry} {values values' : List String}
    (perm : values.Perm values') :
    CarriesOver List.Perm (readAll registry schema values) (readAll registry schema values') := by
  intro items h
  obtain ⟨items', each, perm'⟩ := List.perm_comp_forall₂ perm.symm (readAll_eq_some_iff.mp h)
  exact ⟨items', readAll_eq_some_iff.mpr each, perm'.symm⟩

/-- A list that is reached along references has its verdict on items in any order. -/
theorem check_array_isSome {last : Schema} {items items' : List Value}
    (chain : context.registry.Follows schema last)
    (ends : ∃ item title sample, last = .list item title sample) (perm : items.Perm items')
    (checked : (schema.check context (.array items)).isSome) :
    (schema.check context (.array items')).isSome := by
  induction chain with
  | here =>
    obtain ⟨item, title, sample, rfl⟩ := ends
    rw [Schema.check_isSome_iff] at checked ⊢
    intro next part step
    cases step with
    | whole step => cases step
    | item hp => exact checked _ _ (.item (perm.mem_iff.mpr hp))
  | step found _ ih =>
    rw [Schema.check_isSome_iff] at checked ⊢
    intro next part step
    cases step with
    | whole step =>
      cases step with
      | target found' =>
        cases found.symm.trans found'
        exact ih ends (checked _ _ (.whole (.target found)))

theorem check_array_carriesOver {item : Schema} {title sample : Option String}
    {items items' : List Value} (chain : context.registry.Follows schema (.list item title sample))
    (perm : items.Perm items') :
    CarriesOver Verdict.Agrees (schema.check context (.array items))
      (schema.check context (.array items')) := by
  intro verdict h
  obtain ⟨verdict', h'⟩ := Option.isSome_iff_exists.mp
    (check_array_isSome chain ⟨_, _, _, rfl⟩ perm (Option.isSome_of_eq_some h))
  refine ⟨verdict', h', ?_⟩
  have each (items : List Value) :
      Schema.Accepts context.registry context.keyPolicy (.list item title sample) (.array items) ↔
        ∀ part ∈ items, Schema.Accepts context.registry context.keyPolicy item part :=
    ⟨fun | .list each => each, .list⟩
  rw [Verdict.Agrees, Bool.eq_iff_iff, Schema.isAccepted_checkWithin_iff h,
    Schema.isAccepted_checkWithin_iff h', chain.accepts_iff, chain.accepts_iff, each, each]
  simp only [perm.mem_iff]

/-! ## 2. The values of one key -/

/-- Declarations that go through the same values agree on them one by one, and leave the same
values: the verdict on a value tells whether it goes on. -/
theorem settleValues_carriesOver {schemas : List Schema} {values values' : List Unsettled}
    (perm : values.Perm values') :
    CarriesOver (fun settled settled' => List.Forall₂ Verdict.Agrees settled.1 settled'.1 ∧
      settled.2.Perm settled'.2) (settleValues context schemas values)
      (settleValues context schemas values') := by
  induction schemas generalizing values values' with
  | nil => exact .some ⟨.nil, perm⟩
  | cons schema rest ih =>
    simp only [settleValues, Option.bind_eq_bind]
    refine (attempts_carriesOver perm).bind fun tried tried' perm' => ?_
    rw [perm'.any_eq]
    split
    · refine (ih (perm'.filterMap stillUnsettled)).bind ?_
      rintro ⟨verdicts, left⟩ ⟨verdicts', left'⟩ ⟨below, remaining⟩
      exact .some ⟨.cons rfl below, remaining⟩
    · refine (ih perm).bind ?_
      rintro ⟨verdicts, left⟩ ⟨verdicts', left'⟩ ⟨below, remaining⟩
      refine .some ⟨.cons ?_ below, remaining⟩
      rw [Verdict.Agrees, Verdict.isAccepted_all, Verdict.isAccepted_all]
      exact (perm'.map _).all_eq

theorem checkRepeated_carriesOver {schemas : List Schema} {values values' : List String}
    (perm : values.Perm values') :
    CarriesOver Verdict.Agrees (checkRepeated context schemas values)
      (checkRepeated context schemas values') := by
  unfold checkRepeated
  refine (settleValues_carriesOver (perm.map _)).bind ?_
  rintro ⟨verdicts, left⟩ ⟨verdicts', left'⟩ ⟨each, remaining⟩
  refine .some ?_
  have failures := (remaining.flatMap_right (·.history)).map Verdict.rejected
  rw [Verdict.Agrees, Verdict.isAccepted_all, Verdict.isAccepted_all, List.all_cons, List.all_cons,
    Verdict.isAccepted_all, Verdict.isAccepted_all, Verdict.all_isAccepted_congr each,
      failures.all_eq]

theorem checkGroup_carriesOver {schemas : List Schema} {values values' : List String}
    (perm : values.Perm values') :
    CarriesOver Verdict.Agrees (checkGroup context schemas values)
      (checkGroup context schemas values') := by
  unfold checkGroup
  split
  · next first _ =>
    split
    · next item title sample resolved =>
      have chain : context.registry.Follows first (.list item title sample) :=
        resolved ▸ Registry.follows_resolve first
      exact (readAll_carriesOver perm).bind fun _ _ => check_array_carriesOver chain
    · exact checkRepeated_carriesOver perm
  · exact checkRepeated_carriesOver perm

/-! ## 3. The whole query -/

variable {raw raw' : List (String × String)}

/-- Every key gets the same values, in another order. -/
theorem checkGroups_carriesOver (perm : raw.Perm raw') (groups : List (String × List Schema)) :
    CarriesOver (List.Forall₂ Verdict.Agrees) (checkGroups context raw groups)
      (checkGroups context raw' groups) := by
  induction groups with
  | nil => exact .some .nil
  | cons group rest ih =>
    obtain ⟨key, schemas⟩ := group
    simp only [checkGroups, Option.bind_eq_bind]
    refine (checkGroup_carriesOver ((perm.filter _).map _)).bind fun first second own => ?_
    refine ih.bind fun _ _ below => .some (.cons ?_ below)
    rw [Verdict.Agrees, Verdict.isAccepted_under, Verdict.isAccepted_under, own]

theorem check_carriesOver (query : Query) (perm : raw.Perm raw') :
    CarriesOver Verdict.Agrees (query.check context raw) (query.check context raw') := by
  unfold check
  refine (checkGroups_carriesOver perm query.groups).bind fun verdicts verdicts' each => .some ?_
  have names (name : String) :
      name ∈ distinctNames [] (raw.map (·.1)) ↔ name ∈ distinctNames [] (raw'.map (·.1)) := by
    rw [mem_distinctNames, mem_distinctNames, (perm.map _).mem_iff]
  rw [Verdict.Agrees, Verdict.isAccepted_under, Verdict.isAccepted_under, Verdict.isAccepted_all,
    Verdict.isAccepted_all, List.all_append, List.all_append, Verdict.all_isAccepted_congr each]
  congr 1
  rw [Bool.eq_iff_iff, Schema.all_keyProblems_iff, Schema.all_keyProblems_iff]
  exact allows_congr (fun _ => .rfl) names

/-- The order of parameters makes no difference to whether a query is accepted, rejected, or left
without a verdict. -/
theorem check_perm (context : Context) (query : Query) (perm : raw.Perm raw') :
    (query.check context raw).map Verdict.isAccepted =
      (query.check context raw').map Verdict.isAccepted := by
  cases h : query.check context raw with
  | none =>
    cases h' : query.check context raw' with
    | none => rfl
    | some verdict' =>
      obtain ⟨_, found, _⟩ := check_carriesOver query perm.symm verdict' h'
      cases h.symm.trans found
  | some verdict =>
    obtain ⟨verdict', h', agrees⟩ := check_carriesOver query perm verdict h
    rw [h', Option.map_some, Option.map_some, agrees]

end Query

/-- Limits and tags that come in another order are accepted as before. With a limit that is too
large and a tag that is no number they are rejected as before. -/
theorem check_perm_limitQuery :
    [("limit", "none"), ("tag", "1"), ("limit", "7"), ("tag", "2")].Perm
      [("tag", "2"), ("limit", "7"), ("tag", "1"), ("limit", "none")] ∧
    (limitQuery.check (.ofRegistry linkedNodes)
      [("limit", "none"), ("tag", "1"), ("limit", "7"), ("tag", "2")]).map Verdict.isAccepted =
        some true ∧
    (limitQuery.check (.ofRegistry linkedNodes)
      [("tag", "2"), ("limit", "7"), ("tag", "1"), ("limit", "none")]).map Verdict.isAccepted =
        some true ∧
    [("limit", "none"), ("tag", "x"), ("limit", "11"), ("tag", "2")].Perm
      [("tag", "2"), ("limit", "11"), ("tag", "x"), ("limit", "none")] ∧
    (limitQuery.check (.ofRegistry linkedNodes)
      [("limit", "none"), ("tag", "x"), ("limit", "11"), ("tag", "2")]).map Verdict.isAccepted =
        some false ∧
    (limitQuery.check (.ofRegistry linkedNodes)
      [("tag", "2"), ("limit", "11"), ("tag", "x"), ("limit", "none")]).map Verdict.isAccepted =
        some false := by
  have perm : [("limit", "none"), ("tag", "1"), ("limit", "7"), ("tag", "2")].Perm
      [("tag", "2"), ("limit", "7"), ("tag", "1"), ("limit", "none")] := by decide
  have perm' : [("limit", "none"), ("tag", "x"), ("limit", "11"), ("tag", "2")].Perm
      [("tag", "2"), ("limit", "11"), ("tag", "x"), ("limit", "none")] := by decide
  have run : (limitQuery.check (.ofRegistry linkedNodes)
      [("limit", "none"), ("tag", "1"), ("limit", "7"), ("tag", "2")]).map Verdict.isAccepted =
        some true := by decide +kernel
  have run' : (limitQuery.check (.ofRegistry linkedNodes)
      [("limit", "none"), ("tag", "x"), ("limit", "11"), ("tag", "2")]).map Verdict.isAccepted =
        some false := by decide +kernel
  exact ⟨perm, run, (limitQuery.check_perm (.ofRegistry linkedNodes) perm).symm.trans run,
    perm', run', (limitQuery.check_perm (.ofRegistry linkedNodes) perm').symm.trans run'⟩

end DataContract
