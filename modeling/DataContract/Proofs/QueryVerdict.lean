import Mathlib
import DataContract.Proofs.RoundTrip
import DataContract.Query.Check

/-!
# The verdict on a query

A query is accepted or rejected by going through the declarations of each key, with the values that
are left. Here the verdict is said without an order and without reports.

1. `Schema.read_ne_endless`: over a guarded registry every raw value can be read or refused.
2. `Query.Takes`: a declaration takes a raw value. `Query.SharedOut`: the values of a key are shared
   out among its declarations; `settleValues_spec` keeps track of the values that are left.
3. `Query.Fits`: the keys suit the declaration, and so do the values of each key. A verdict accepts
   just what fits (`Query.isAccepted_check_iff`).
4. `Query.check_isSome`: over a guarded registry there is a verdict.
-/

namespace DataContract

/-! ## 1. Reading -/

theorem Attempt.ofReading_ne_endless (literal expected : String) (value? : Option Value) :
    Attempt.ofReading literal expected value? ≠ .error .endless := by
  cases value? <;> exact nofun

theorem Value.readAlike_ne_endless (model : Value) (literal : String) :
    model.readAlike literal ≠ .error .endless := by
  cases model with
  | string _ => exact nofun
  | _ => exact Attempt.ofReading_ne_endless _ _ _

theorem firstReading_ne_endless {read : Schema → Attempt Value} {schemas : List Schema}
    (h : ∀ schema ∈ schemas, read schema ≠ .error .endless) :
    firstReading read schemas ≠ .error .endless := by
  induction schemas with
  | nil => exact nofun
  | cons schema rest ih =>
    obtain ⟨own, others⟩ := List.forall_mem_cons.mp h
    unfold firstReading
    split
    · exact nofun
    · exact ih others
    · next endless => exact absurd endless own

namespace Schema

/-- A reading ends when its steps cover the front of the schema and the front that the walk has not
used up. -/
theorem readWithin_ne_endless {registry : Registry} (guarded : registry.Guarded) (raw : String)
    {fuel : Nat} {schema : Schema} (seen : List String) (behind : registry.Behind seen schema)
    (enough : schema.frontSize + registry.frontOutside seen ≤ fuel) :
    readWithin registry fuel schema raw ≠ .error .endless := by
  induction fuel generalizing schema seen with
  | zero =>
    have := schema.frontSize_pos
    omega
  | succ fuel ih =>
    unfold readWithin
    cases schema with
    | string _ _ => exact nofun
    | number _ _ _ => exact Attempt.ofReading_ne_endless _ _ _
    | boolean _ => exact Attempt.ofReading_ne_endless _ _ _
    | null => exact Attempt.ofReading_ne_endless _ _ _
    | literal value _ => exact value.readAlike_ne_endless raw
    | reference name =>
      show (Attempt.ofExcept (registry.lookup name) >>= fun target =>
        readWithin registry fuel target raw) ≠ _
      unfold Registry.lookup
      cases found : registry.find? name with
      | none => exact nofun
      | some target =>
        obtain ⟨_, onward, used⟩ := behind.follow guarded found
        simp only [frontSize] at enough
        exact ih _ onward (by omega)
    | object _ _ => exact Attempt.ofReading_ne_endless _ _ _
    | list _ _ _ => exact Attempt.ofReading_ne_endless _ _ _
    | union members key title sample =>
      rw [frontSize] at enough
      have first : firstReading (readWithin registry fuel · raw)
          (nullsLast (members.map registry.resolve)) ≠ .error .endless := by
        refine firstReading_ne_endless fun resolved hr => ?_
        obtain ⟨schema, hm, rfl⟩ := List.mem_map.mp
          ((List.mem_append.mp hr).elim (fun h => (List.mem_filter.mp h).1)
            fun h => (List.mem_filter.mp h).1)
        obtain ⟨seen', onward, less⟩ :=
          (behind.member hm).resolveWithin guarded (registry.entries.length + 1) []
        have := frontSize_le_of_mem hm
        exact ih seen' onward (by unfold Registry.resolve; omega)
      simp only
      revert first
      cases firstReading (readWithin registry fuel · raw)
          (nullsLast (members.map registry.resolve)) with
      | error halt =>
        intro first same
        cases same
        exact first rfl
      | ok value? => cases value? <;> exact fun _ => nofun

theorem read_ne_endless {registry : Registry} (guarded : registry.Guarded) (schema : Schema)
    (raw : String) : schema.read registry raw ≠ .error .endless := by
  have own := schema.front_add_inner_le_size
  have others := registry.frontOutside_nil_le_size
  refine readWithin_ne_endless guarded raw [] (registry.behind_nil schema) ?_
  unfold chainBudget
  omega

end Schema

/-! ## 2. The values of one key -/

namespace Query

theorem readOrText_isSome {registry : Registry} (guarded : registry.Guarded) (schema : Schema)
    (raw : String) : (readOrText registry schema raw).isSome := by
  have ends := schema.read_ne_endless guarded raw
  unfold readOrText
  split
  · rfl
  · rfl
  · next endless => exact absurd endless ends

/-- A declaration takes a raw value when it accepts what it reads, or the text itself where it
cannot read it. -/
def Takes (context : Context) (schema : Schema) (raw : String) : Prop :=
  ∃ value, readOrText context.registry schema raw = some value ∧
    Schema.Accepts context.registry context.keyPolicy schema value

/-- Every value is taken by some declaration, and every declaration takes one of the values that
none behind it takes, if there are any. -/
structure SharedOut (takes : Schema → String → Prop) (schemas : List Schema)
    (values : List String) : Prop where
  taken : ∀ raw ∈ values, ∃ schema ∈ schemas, takes schema raw
  used : ∀ before schema behind, schemas = before ++ schema :: behind →
    (∃ raw ∈ values, ∀ other ∈ behind, ¬takes other raw) →
      ∃ raw ∈ values, (∀ other ∈ behind, ¬takes other raw) ∧ takes schema raw

variable {context : Context} {schema : Schema}

theorem isAccepted_checkRaw_iff {raw : String} {verdict : Verdict}
    (h : checkRaw context schema raw = some verdict) :
    verdict.isAccepted = true ↔ Takes context schema raw := by
  unfold checkRaw at h
  simp only [Option.bind_eq_bind, Option.bind_eq_some_iff] at h
  obtain ⟨value, hv, checked⟩ := h
  rw [Schema.isAccepted_checkWithin_iff checked]
  refine ⟨fun fits => ⟨value, hv, fits⟩, fun ⟨other, ho, fits⟩ => ?_⟩
  rw [hv, Option.some.injEq] at ho
  exact ho ▸ fits

theorem attempts_eq_some_iff {values : List Unsettled} {tried : List (Unsettled × Verdict)} :
    attempts context schema values = some tried ↔
      List.Forall₂ (fun value attempt => checkRaw context schema value.raw = some attempt.2 ∧
        attempt.1 = value) values tried := by
  induction values generalizing tried with
  | nil =>
    rw [attempts, Option.some.injEq, eq_comm, List.forall₂_nil_left_iff]
  | cons value rest ih =>
    simp only [attempts, Option.bind_eq_bind, Option.bind_eq_some_iff, Option.pure_def,
      Option.some.injEq, List.forall₂_cons_left_iff, ih]
    constructor
    · rintro ⟨verdict, hv, others, ho, rfl⟩
      exact ⟨(value, verdict), others, ⟨hv, rfl⟩, ho, rfl⟩
    · rintro ⟨⟨_, verdict⟩, others, ⟨hv, rfl⟩, ho, rfl⟩
      exact ⟨verdict, hv, others, ho, rfl⟩

/-- A verdict on each value tells whether it is taken. -/
def Tried (context : Context) (schema : Schema) (values : List Unsettled)
    (tried : List (Unsettled × Verdict)) : Prop :=
  List.Forall₂ (fun value attempt => attempt.1 = value ∧
    (attempt.2.isAccepted = true ↔ Takes context schema value.raw)) values tried

theorem attempts_tried {values : List Unsettled} {tried : List (Unsettled × Verdict)}
    (h : attempts context schema values = some tried) : Tried context schema values tried :=
  (attempts_eq_some_iff.mp h).imp fun _ _ ⟨checked, same⟩ => ⟨same, isAccepted_checkRaw_iff checked⟩

/-- Some attempt succeeded when some value is taken. -/
theorem any_isAccepted_iff {values : List Unsettled} {tried : List (Unsettled × Verdict)}
    (h : Tried context schema values tried) :
    (tried.any fun attempt => attempt.2.isAccepted) = true ↔
      ∃ value ∈ values, Takes context schema value.raw := by
  induction h with
  | nil => simp
  | @cons value attempt values tried own _ ih =>
    rw [List.any_cons, Bool.or_eq_true, ih, own.2, List.exists_mem_cons_iff]

/-- What stays unsettled was not taken, and remembers why. -/
theorem mem_stillUnsettled {values : List Unsettled} {tried : List (Unsettled × Verdict)}
    (h : Tried context schema values tried) {raw : String} :
    (∃ left ∈ tried.filterMap stillUnsettled, left.raw = raw) ↔
      (∃ value ∈ values, value.raw = raw) ∧ ¬Takes context schema raw := by
  induction h with
  | nil => simp
  | @cons value attempt values tried own _ ih =>
    obtain ⟨value', verdict⟩ := attempt
    obtain ⟨rfl, taken⟩ := own
    rw [List.exists_mem_cons_iff, or_and_right, ← ih]
    cases verdict with
    | accepted captured =>
      have takes : Takes context schema value'.raw := taken.mp rfl
      rw [List.filterMap_cons]
      simp only [stillUnsettled]
      refine ⟨.inr, fun h => h.resolve_left ?_⟩
      rintro ⟨rfl, refused⟩
      exact refused takes
    | rejected failure =>
      have refused : ¬Takes context schema value'.raw := fun takes => nomatch taken.mpr takes
      rw [List.filterMap_cons]
      simp only [stillUnsettled]
      rw [List.exists_mem_cons_iff]
      refine or_congr_left ⟨?_, And.left⟩
      rintro rfl
      exact ⟨rfl, refused⟩

theorem history_of_stillUnsettled {tried : List (Unsettled × Verdict)} :
    ∀ left ∈ tried.filterMap stillUnsettled, left.history ≠ [] := by
  intro left hl
  obtain ⟨⟨value, verdict⟩, _, same⟩ := List.mem_filterMap.mp hl
  cases verdict with
  | accepted captured => cases same
  | rejected failure =>
    cases same
    exact List.append_ne_nil_of_right_ne_nil _ (List.cons_ne_nil _ _)

/-- Declarations gone through one after the other, each with the values that none before it takes:
it takes one of these, if there are any. -/
def EachTakes (takes : Schema → String → Prop) (schemas : List Schema) (pool : String → Prop) :
    Prop :=
  ∀ before schema rest, schemas = before ++ schema :: rest →
    (∃ raw, pool raw ∧ ∀ other ∈ before, ¬takes other raw) →
      ∃ raw, (pool raw ∧ ∀ other ∈ before, ¬takes other raw) ∧ takes schema raw

theorem eachTakes_cons {takes : Schema → String → Prop} {rest : List Schema}
    {pool : String → Prop} :
    EachTakes takes (schema :: rest) pool ↔
      ((∃ raw, pool raw) → ∃ raw, pool raw ∧ takes schema raw) ∧
        EachTakes takes rest fun raw => pool raw ∧ ¬takes schema raw := by
  constructor
  · intro each
    refine ⟨fun some => ?_, fun before other rest' split some => ?_⟩
    · obtain ⟨raw, ⟨inside, _⟩, taken⟩ := each [] schema rest rfl (by simpa using some)
      exact ⟨raw, inside, taken⟩
    · have step := each (schema :: before) other rest' (by rw [split, List.cons_append])
      simp only [List.forall_mem_cons, ← and_assoc] at step
      exact step some
  · rintro ⟨own, others⟩ before other rest' split some
    cases before with
    | nil =>
      rw [List.nil_append, List.cons.injEq] at split
      obtain ⟨rfl, rfl⟩ := split
      simpa using own (by simpa using some)
    | cons first before =>
      rw [List.cons_append, List.cons.injEq] at split
      obtain ⟨rfl, rfl⟩ := split
      simp only [List.forall_mem_cons, ← and_assoc] at some ⊢
      exact others before other rest' rfl some

/-- What going through declarations tells. All verdicts accept exactly when each declaration takes
one of the values left to it. Then the values that are left are those which none takes, and each of
them was refused by some declaration, if there is one. -/
theorem settleValues_spec {schemas : List Schema} {values left : List Unsettled}
    {verdicts : List Verdict} (h : settleValues context schemas values = some (verdicts, left)) :
    (verdicts.all Verdict.isAccepted = true ↔
      EachTakes (Takes context) schemas fun raw => ∃ value ∈ values, value.raw = raw) ∧
    (verdicts.all Verdict.isAccepted = true →
      (∀ raw, (∃ value ∈ left, value.raw = raw) ↔
        (∃ value ∈ values, value.raw = raw) ∧ ∀ schema ∈ schemas, ¬Takes context schema raw) ∧
      ((schemas ≠ [] ∨ ∀ value ∈ values, value.history ≠ []) → ∀ value ∈ left,
          value.history ≠ [])) := by
  induction schemas generalizing values left verdicts with
  | nil =>
    cases h
    refine ⟨⟨fun _ before schema rest split => ?_, fun _ => rfl⟩, fun _ => ⟨fun raw => ?_, ?_⟩⟩
    · exact absurd split (by simp)
    · simp
    · exact fun told => told.resolve_left fun nonempty => nonempty rfl
  | cons schema rest ih =>
    simp only [settleValues, Option.bind_eq_bind, Option.bind_eq_some_iff] at h
    obtain ⟨tried, ht, h⟩ := h
    have ht := attempts_tried ht
    have own : (tried.any fun attempt => attempt.2.isAccepted) = true ↔
        ∃ raw, (∃ value ∈ values, value.raw = raw) ∧ Takes context schema raw := by
      rw [any_isAccepted_iff ht]
      exact ⟨fun ⟨value, hv, taken⟩ => ⟨value.raw, ⟨value, hv, rfl⟩, taken⟩,
        fun ⟨_, ⟨value, hv, same⟩, taken⟩ => ⟨value, hv, same ▸ taken⟩⟩
    have both {raw : String} (p : Prop) :
        ((p ∧ ¬Takes context schema raw) ∧ ∀ other ∈ rest, ¬Takes context other raw) ↔
          p ∧ ∀ other ∈ schema :: rest, ¬Takes context other raw := by
      rw [List.forall_mem_cons, and_assoc]
    rw [eachTakes_cons, ← own]
    split at h
    · next some =>
      obtain ⟨⟨verdicts, left⟩, hs, same⟩ := Option.bind_eq_some_iff.mp h
      cases same
      obtain ⟨told, after⟩ := ih hs
      simp only [mem_stillUnsettled ht] at told after
      rw [List.all_cons, ← told]
      refine ⟨⟨fun all => ⟨fun _ => some, all⟩, And.right⟩, fun all => ?_⟩
      obtain ⟨remaining, remember⟩ := after all
      refine ⟨fun raw => (remaining raw).trans (both _), fun _ => ?_⟩
      exact remember (.inr history_of_stillUnsettled)
    · next none =>
      obtain ⟨⟨verdicts, left⟩, hs, same⟩ := Option.bind_eq_some_iff.mp h
      cases same
      obtain ⟨told, after⟩ := ih hs
      have refused {raw : String} (inside : ∃ value ∈ values, value.raw = raw) :
          ¬Takes context schema raw := fun taken => none (own.mpr ⟨raw, inside, taken⟩)
      have still {raw : String} :
          ((∃ value ∈ values, value.raw = raw) ∧ ¬Takes context schema raw) ↔
          ∃ value ∈ values, value.raw = raw := and_iff_left_of_imp refused
      have nothing : (Verdict.all (tried.map (·.2))).isAccepted = true ↔
          ¬∃ raw, ∃ value ∈ values, value.raw = raw := by
        rw [Verdict.isAccepted_all]
        cases ht with
        | nil => simp
        | @cons value attempt values tried _ _ =>
          have rejected : attempt.2.isAccepted = false := by
            rw [List.any_cons, Bool.or_eq_true, not_or, Bool.not_eq_true] at none
            exact none.1
          rw [List.map_cons, List.all_cons, rejected]
          refine ⟨nofun, fun empty => (empty ⟨_, value, List.mem_cons_self, rfl⟩).elim⟩
      simp only [still]
      rw [List.all_cons, Bool.and_eq_true, nothing, told]
      refine ⟨and_congr_left fun _ => ⟨fun empty some => absurd some empty,
        fun some inside => none (some inside)⟩, ?_⟩
      rintro ⟨empty, all⟩
      obtain ⟨remaining, remember⟩ := after (told.mpr all)
      refine ⟨fun raw => ?_, fun _ => ?_⟩
      · rw [← both, still]
        exact remaining raw
      · exact remember (.inr fun value hv => (empty ⟨_, value, hv, rfl⟩).elim)

theorem eachTakes_reverse_iff {takes : Schema → String → Prop} {schemas : List Schema}
    {values : List String} :
    EachTakes takes schemas.reverse (· ∈ values) ↔
      ∀ before schema behind, schemas = before ++ schema :: behind →
        (∃ raw ∈ values, ∀ other ∈ behind, ¬takes other raw) →
          ∃ raw ∈ values, (∀ other ∈ behind, ¬takes other raw) ∧ takes schema raw := by
  constructor
  · intro each before schema behind split some
    have step := each behind.reverse schema before.reverse (by rw [split]; simp)
    simp only [List.mem_reverse, and_assoc] at step
    exact step some
  · intro each before schema rest split some
    have step := each rest.reverse schema before.reverse
      (by rw [← List.reverse_reverse schemas, split]; simp)
    simp only [List.mem_reverse, ← and_assoc] at step
    exact step some

/-- Going through the declarations accepts exactly the values that are shared out among them. One
that none of them takes is left, and remembers a failure. -/
theorem isAccepted_checkRepeated_iff {schemas : List Schema} {values : List String}
    {verdict : Verdict} (declared : schemas ≠ [])
    (h : checkRepeated context schemas values = some verdict) :
    verdict.isAccepted = true ↔ SharedOut (Takes context) schemas values := by
  unfold checkRepeated at h
  simp only [Option.bind_eq_bind, Option.bind_eq_some_iff] at h
  obtain ⟨⟨verdicts, left⟩, hs, same⟩ := h
  cases same
  obtain ⟨told, after⟩ := settleValues_spec hs
  have pool : (fun raw => ∃ value ∈ values.map fun raw => (⟨raw, []⟩ : Unsettled),
      value.raw = raw) = (· ∈ values) := by
    funext raw
    simp
  rw [pool, eachTakes_reverse_iff] at told
  rw [Verdict.isAccepted_all, List.all_cons, Bool.and_eq_true, Verdict.isAccepted_all, told]
  have empty : ((left.flatMap (·.history)).map Verdict.rejected).all Verdict.isAccepted = true ↔
      left.flatMap (·.history) = [] := by
    cases left.flatMap (·.history) <;> simp [Verdict.isAccepted]
  rw [empty, List.flatMap_eq_nil_iff]
  constructor
  · rintro ⟨used, settled⟩
    obtain ⟨remaining, remember⟩ := after (told.mpr used)
    refine ⟨fun raw hr => ?_, used⟩
    by_contra none
    push Not at none
    obtain ⟨value, hv, _⟩ := (remaining raw).mpr
      ⟨by simpa using hr, fun schema hs => none schema (List.mem_reverse.mp hs)⟩
    exact remember (.inl (by simpa using declared)) value hv (settled value hv)
  · rintro ⟨taken, used⟩
    obtain ⟨remaining, _⟩ := after (told.mpr used)
    refine ⟨used, fun value hv => ?_⟩
    obtain ⟨inside, refused⟩ := (remaining value.raw).mp ⟨value, hv, rfl⟩
    obtain ⟨schema, hs, takes⟩ := taken value.raw (by simpa using inside)
    exact absurd takes (refused schema (List.mem_reverse.mpr hs))

/-- The values of a key suit its declarations: as one array where the first declaration is a list,
and otherwise shared out among them. -/
inductive ValuesFit (context : Context) : List Schema → List String → Prop
  | list {first item : Schema} {rest : List Schema} {title sample : Option String}
      {values : List String} {items : List Value} :
      context.registry.resolve first = .list item title sample →
      List.Forall₂ (fun raw value => readOrText context.registry item raw = some value)
        values items →
      Schema.Accepts context.registry context.keyPolicy first (.array items) →
      ValuesFit context (first :: rest) values
  | shared {first : Schema} {rest : List Schema} {values : List String} :
      (∀ item title sample, context.registry.resolve first ≠ .list item title sample) →
      SharedOut (Takes context) (first :: rest) values → ValuesFit context (first :: rest) values

theorem readAll_eq_some_iff {registry : Registry} {values : List String} {items : List Value} :
    readAll registry schema values = some items ↔
      List.Forall₂ (fun raw value => readOrText registry schema raw = some value) values items := by
  induction values generalizing items with
  | nil =>
    rw [readAll, Option.some.injEq, eq_comm, List.forall₂_nil_left_iff]
  | cons raw rest ih =>
    simp only [readAll, Option.bind_eq_bind, Option.bind_eq_some_iff, Option.pure_def,
      Option.some.injEq, List.forall₂_cons_left_iff, ih]
    constructor
    · rintro ⟨value, hv, others, ho, rfl⟩
      exact ⟨value, others, hv, ho, rfl⟩
    · rintro ⟨value, others, hv, ho, rfl⟩
      exact ⟨value, hv, others, ho, rfl⟩

theorem isAccepted_checkGroup_iff {schemas : List Schema} {values : List String} {verdict : Verdict}
    (declared : schemas ≠ []) (h : checkGroup context schemas values = some verdict) :
    verdict.isAccepted = true ↔ ValuesFit context schemas values := by
  cases schemas with
  | nil => exact absurd rfl declared
  | cons first rest =>
    unfold checkGroup at h
    simp only [List.head?_cons] at h
    split at h
    · next item title sample resolved =>
      unfold checkAsList at h
      simp only [Option.bind_eq_bind, Option.bind_eq_some_iff, readAll_eq_some_iff] at h
      obtain ⟨items, hi, checked⟩ := h
      rw [Schema.isAccepted_checkWithin_iff checked]
      refine ⟨.list resolved hi, fun fit => ?_⟩
      cases fit with
      | list resolved' hi' fits =>
        rw [resolved, Schema.list.injEq] at resolved'
        obtain ⟨rfl, _, _⟩ := resolved'
        rw [← readAll_eq_some_iff] at hi hi'
        rw [hi, Option.some.injEq] at hi'
        exact hi' ▸ fits
      | shared other _ => exact absurd resolved (other _ _ _)
    · next other =>
      rw [isAccepted_checkRepeated_iff declared h]
      refine ⟨.shared other, fun fit => ?_⟩
      cases fit with
      | list resolved _ _ => exact absurd resolved (other _ _ _)
      | shared _ shared => exact shared

/-! ## 3. All keys -/

theorem mem_distinctNames {seen names : List String} {name : String} :
    name ∈ distinctNames seen names ↔ name ∈ names ∧ name ∉ seen := by
  induction names generalizing seen with
  | nil => simp [distinctNames]
  | cons first rest ih =>
    unfold distinctNames
    split
    · next known =>
      rw [ih, List.mem_cons]
      have known : first ∈ seen := List.contains_iff_mem.mp known
      grind
    · rw [List.mem_cons, ih, List.mem_cons, List.mem_cons]
      grind

/-- The raw parameters suit the declaration: the keys as far as the policy reports problems, and the
values of each declared key. -/
structure Fits (context : Context) (query : Query) (raw : List (String × String)) : Prop where
  keys : context.keyPolicy.Allows (query.pairs.map (·.1)) (raw.map (·.1))
  values : ∀ key ∈ query.pairs.map (·.1),
    ValuesFit context ((query.pairs.filter (·.1 == key)).map (·.2))
      ((raw.filter (·.1 == Key.name key)).map (·.2))

theorem all_checkGroups_iff {raw : List (String × String)} {groups : List (String × List Schema)}
    (declared : ∀ group ∈ groups, group.2 ≠ []) {verdicts : List Verdict}
    (h : checkGroups context raw groups = some verdicts) :
    verdicts.all Verdict.isAccepted = true ↔ ∀ group ∈ groups,
      ValuesFit context group.2 ((raw.filter (·.1 == Key.name group.1)).map (·.2)) := by
  induction groups generalizing verdicts with
  | nil =>
    cases h
    simp
  | cons group rest ih =>
    obtain ⟨key, schemas⟩ := group
    obtain ⟨own, others⟩ := List.forall_mem_cons.mp declared
    simp only [checkGroups, Option.bind_eq_bind, Option.bind_eq_some_iff, Option.pure_def,
      Option.some.injEq] at h
    obtain ⟨verdict, hv, below, hb, rfl⟩ := h
    rw [List.all_cons, Bool.and_eq_true, Verdict.isAccepted_under, List.forall_mem_cons,
      isAccepted_checkGroup_iff own hv, ih others hb]

theorem mem_groups {query : Query} {group : String × List Schema} :
    group ∈ query.groups ↔ ∃ key ∈ query.pairs.map (·.1),
      (key, (query.pairs.filter (·.1 == key)).map (·.2)) = group := by
  unfold groups
  rw [List.mem_map]
  simp only [mem_distinctNames, List.not_mem_nil, not_false_eq_true, and_true]

theorem groups_declared (query : Query) : ∀ group ∈ query.groups, group.2 ≠ [] := by
  intro group hg
  obtain ⟨key, hk, rfl⟩ := mem_groups.mp hg
  obtain ⟨pair, hp, rfl⟩ := List.mem_map.mp hk
  intro none
  rw [List.map_eq_nil_iff, List.filter_eq_nil_iff] at none
  exact none pair hp (beq_self_eq_true _)

/-- A policy looks at keys and names one by one, so their order and repeats make no difference. -/
theorem allows_congr {policy : KeyPolicy} {declared declared' actual actual' : List String}
    (keys : ∀ key, key ∈ declared ↔ key ∈ declared')
    (names : ∀ name, name ∈ actual ↔ name ∈ actual') :
    policy.Allows declared actual ↔ policy.Allows declared' actual' := by
  constructor
  · rintro ⟨present, expected⟩
    refine ⟨fun hp key hk required => ?_, fun hp name hn => ?_⟩
    · exact (names key).mp (present hp key ((keys key).mpr hk) required)
    · obtain ⟨key, hk, same⟩ := expected hp name ((names name).mpr hn)
      exact ⟨key, (keys key).mp hk, same⟩
  · rintro ⟨present, expected⟩
    refine ⟨fun hp key hk required => ?_, fun hp name hn => ?_⟩
    · exact (names key).mpr (present hp key ((keys key).mp hk) required)
    · obtain ⟨key, hk, same⟩ := expected hp name ((names name).mp hn)
      exact ⟨key, (keys key).mpr hk, same⟩

theorem isAccepted_check_iff {query : Query} {raw : List (String × String)} {verdict : Verdict}
    (h : query.check context raw = some verdict) :
    verdict.isAccepted = true ↔ query.Fits context raw := by
  unfold check at h
  simp only [Option.bind_eq_bind, Option.bind_eq_some_iff] at h
  obtain ⟨verdicts, hv, same⟩ := h
  cases same
  have problems : ((context.keyProblems (Fields.names query.declared)
      (distinctNames [] (raw.map (·.1)))).map fun problem =>
        Verdict.rejected (problem.failure "query param" context.phrasing)).all Verdict.isAccepted =
          true ↔ context.keyPolicy.Allows (query.pairs.map (·.1)) (raw.map (·.1)) := by
    rw [Schema.all_keyProblems_iff]
    refine allows_congr (fun key => Fields.mem_names_ofList) fun name => ?_
    rw [mem_distinctNames]
    exact and_iff_left List.not_mem_nil
  rw [Verdict.isAccepted_under, Verdict.isAccepted_all, List.all_append, Bool.and_eq_true, problems,
    all_checkGroups_iff query.groups_declared hv]
  constructor
  · rintro ⟨allowed, groups⟩
    exact ⟨allowed, fun key hk => groups _ (mem_groups.mpr ⟨key, hk, rfl⟩)⟩
  · rintro ⟨allowed, values⟩
    refine ⟨allowed, fun group hg => ?_⟩
    obtain ⟨key, hk, rfl⟩ := mem_groups.mp hg
    exact values key hk

/-! ## 4. There is a verdict -/

theorem checkRaw_isSome (guarded : context.registry.Guarded) (schema : Schema) (raw : String) :
    (checkRaw context schema raw).isSome := by
  obtain ⟨value, hv⟩ := Option.isSome_iff_exists.mp (readOrText_isSome guarded schema raw)
  unfold checkRaw
  rw [hv]
  exact Schema.check_isSome guarded schema value

theorem attempts_isSome {schema : Schema} (checked : ∀ raw, (checkRaw context schema raw).isSome)
    (values : List Unsettled) : (attempts context schema values).isSome := by
  induction values with
  | nil => rfl
  | cons value rest ih =>
    obtain ⟨verdict, hv⟩ := Option.isSome_iff_exists.mp (checked value.raw)
    obtain ⟨tried, ht⟩ := Option.isSome_iff_exists.mp ih
    simp [attempts, hv, ht]

theorem settleValues_isSome {schemas : List Schema}
    (checked : ∀ schema ∈ schemas, ∀ raw, (checkRaw context schema raw).isSome)
    (values : List Unsettled) : (settleValues context schemas values).isSome := by
  induction schemas generalizing values with
  | nil => rfl
  | cons schema rest ih =>
    obtain ⟨own, others⟩ := List.forall_mem_cons.mp checked
    obtain ⟨tried, ht⟩ := Option.isSome_iff_exists.mp (attempts_isSome own values)
    obtain ⟨settled, hs⟩ := Option.isSome_iff_exists.mp (ih others (tried.filterMap stillUnsettled))
    obtain ⟨same, hk⟩ := Option.isSome_iff_exists.mp (ih others values)
    simp only [settleValues, ht, Option.bind_eq_bind, Option.bind_some]
    split
    · rw [hs]
      rfl
    · rw [hk]
      rfl

theorem checkRepeated_isSome {schemas : List Schema}
    (checked : ∀ schema ∈ schemas, ∀ raw, (checkRaw context schema raw).isSome)
    (values : List String) : (checkRepeated context schemas values).isSome := by
  obtain ⟨settled, hs⟩ := Option.isSome_iff_exists.mp (settleValues_isSome
    (fun schema hm => checked schema (List.mem_reverse.mp hm)) (values.map (⟨·, []⟩)))
  unfold checkRepeated
  rw [hs]
  rfl

theorem readAll_isSome {registry : Registry} (guarded : registry.Guarded) (schema : Schema)
    (values : List String) : (readAll registry schema values).isSome := by
  induction values with
  | nil => rfl
  | cons raw rest ih =>
    obtain ⟨value, hv⟩ := Option.isSome_iff_exists.mp (readOrText_isSome guarded schema raw)
    obtain ⟨items, hi⟩ := Option.isSome_iff_exists.mp ih
    simp [readAll, hv, hi]

theorem checkGroup_isSome (guarded : context.registry.Guarded) (schemas : List Schema)
    (values : List String) : (checkGroup context schemas values).isSome := by
  have repeated : (checkRepeated context schemas values).isSome :=
    checkRepeated_isSome (fun schema _ => checkRaw_isSome guarded schema) values
  unfold checkGroup
  split
  · next first _ =>
    split
    · next item _ _ _ =>
      obtain ⟨items, hi⟩ := Option.isSome_iff_exists.mp (readAll_isSome guarded item values)
      unfold checkAsList
      rw [hi]
      exact Schema.check_isSome guarded first (.array items)
    · exact repeated
  · exact repeated

theorem check_isSome_of_groups {query : Query}
    (checked : ∀ group ∈ query.groups, ∀ values, (checkGroup context group.2 values).isSome)
    (raw : List (String × String)) : (query.check context raw).isSome := by
  have all : ∀ groups, (∀ group ∈ groups, ∀ values, (checkGroup context group.2 values).isSome) →
      (checkGroups context raw groups).isSome := by
    intro groups checked
    induction groups with
    | nil => rfl
    | cons group rest ih =>
      obtain ⟨key, schemas⟩ := group
      obtain ⟨own, others⟩ := List.forall_mem_cons.mp checked
      obtain ⟨verdict, hv⟩ := Option.isSome_iff_exists.mp
        (own ((raw.filter (·.1 == Key.name key)).map (·.2)))
      obtain ⟨verdicts, ho⟩ := Option.isSome_iff_exists.mp (ih others)
      simp [checkGroups, hv, ho]
  obtain ⟨verdicts, hv⟩ := Option.isSome_iff_exists.mp (all query.groups checked)
  unfold check
  rw [hv]
  rfl

theorem check_isSome (guarded : context.registry.Guarded) (query : Query)
    (raw : List (String × String)) : (query.check context raw).isSome :=
  check_isSome_of_groups (fun group _ => checkGroup_isSome guarded group.2) raw

/-- Whenever there is a verdict on a query, it accepts exactly the parameters that fit; and over a
guarded registry there always is one. -/
theorem check_verdict (context : Context) (query : Query) (raw : List (String × String)) :
    (context.registry.Guarded → (query.check context raw).isSome) ∧
      ∀ verdict, query.check context raw = some verdict →
        (verdict.isAccepted = true ↔ query.Fits context raw) :=
  ⟨fun guarded => check_isSome guarded query raw, fun _ => isAccepted_check_iff⟩

end Query

/-- A limit that is declared twice, as a number up to 10 and as the word "none", and tags. -/
def limitQuery : Query :=
  ⟨[("limit", .number ⟨none, some (.ofInt 10)⟩ false none), ("limit", .exactly (.string "none")),
    ("tag?", .list .numeric none none)]⟩

/-- Both declarations of the limit take one of its values, and the tags are numbers. -/
theorem fits_limitQuery :
    (Context.ofRegistry linkedNodes).registry.Guarded ∧ ∃ verdict,
      limitQuery.check (.ofRegistry linkedNodes)
        [("limit", "none"), ("tag", "1"), ("limit", "7"), ("tag", "2")] = some verdict ∧
      verdict.isAccepted = true ∧
      limitQuery.Fits (.ofRegistry linkedNodes)
        [("limit", "none"), ("tag", "1"), ("limit", "7"), ("tag", "2")] := by
  obtain ⟨some, told⟩ := limitQuery.check_verdict (.ofRegistry linkedNodes)
    [("limit", "none"), ("tag", "1"), ("limit", "7"), ("tag", "2")]
  obtain ⟨verdict, checked⟩ := Option.isSome_iff_exists.mp (some guarded_linkedNodes)
  have accepted : verdict.isAccepted = true := by
    have run : (limitQuery.check (.ofRegistry linkedNodes)
        [("limit", "none"), ("tag", "1"), ("limit", "7"), ("tag", "2")]).map Verdict.isAccepted =
          .some true := by decide +kernel
    rw [checked] at run
    exact Option.some.inj run
  exact ⟨guarded_linkedNodes, verdict, checked, accepted, (told verdict checked).mp accepted⟩

end DataContract
