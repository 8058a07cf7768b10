import Mathlib
import DataContract.Proofs.Comparison
import DataContract.Proofs.OneField

/-!
# Fewer combinations

A bound on the combinations of an object holds for the objects inside as well. That does no harm to
the first items: a choice that is among the first `n` is made of parts that are among the first `n`.
But a union sets errors aside, and where errors take all the places that a bound leaves to an
alternative, its results are lost with the rest.

1. `CutShort`: a list that begins like another one, for `n` items. `CutShort.choices`: choices from
   such lists begin like choices from the others.
2. `Schema.exampleOfAny_bounded`, `rowLiteral_bounded`: a bound makes no difference to checks and
   examples.
3. `suppliesFirst`: lists that together have so many successes before the cut.
   `SettlesAlike.flatten`: then errors can be set aside after it.
4. `Schema.capsCleanly`: so it is at every union that a derivation comes to.
   `Schema.toList_variants_bounded`: then a bound cuts off what is behind the first `n` items.
-/

namespace DataContract

/-! ## 1. Lists cut short -/

/-- The first list begins like the second, for `n` items, and has nothing that the second has
not. -/
structure CutShort {α : Type} (n : Nat) (short long : List α) : Prop where
  first : short.take n = long.take n
  within : short.Sublist long

namespace CutShort

variable {α β : Type} {n : Nat} {short long short' long' : List α}

theorem refl (items : List α) : CutShort n items items := ⟨rfl, .refl items⟩

theorem trans {middle : List α} (h : CutShort n short middle) (h' : CutShort n middle long) :
    CutShort n short long := ⟨h.first.trans h'.first, h.within.trans h'.within⟩

/-- A list that is shorter than the cut is not cut. -/
theorem eq_or_le_length (h : CutShort n short long) : short = long ∨ n ≤ short.length := by
  rcases Nat.lt_or_ge short.length n with less | enough
  · have first := h.first
    rw [List.take_of_length_le less.le] at first
    have few : long.length < n := by
      have := congrArg List.length first
      rw [List.length_take] at this
      omega
    rw [List.take_of_length_le few.le] at first
    exact .inl first
  · exact .inr enough

/-- Nor is one that was not longer in the first place. -/
theorem eq_of_length_le (h : CutShort n short long) (few : long.length ≤ n) : short = long := by
  have first := h.first
  rwa [List.take_of_length_le few, List.take_of_length_le (h.within.length_le.trans few)] at first

theorem map (f : α → β) (h : CutShort n short long) : CutShort n (short.map f) (long.map f) :=
  ⟨by rw [← List.map_take, h.first, List.map_take], h.within.map f⟩

/-- What follows a list counts as far as the list leaves room for it. -/
theorem append (h : CutShort n short long) (h' : CutShort n short' long') :
    CutShort n (short ++ short') (long ++ long') := by
  refine ⟨?_, h.within.append h'.within⟩
  rcases h.eq_or_le_length with rfl | enough
  · rw [List.take_append, List.take_append]
    congr 1
    have room := congrArg (List.take (n - short.length)) h'.first
    rwa [List.take_take, List.take_take, Nat.min_eq_left (Nat.sub_le _ _)] at room
  · rw [List.take_append_of_le_length enough,
      List.take_append_of_le_length (enough.trans h.within.length_le), h.first]

/-- Where the same stands in front, what follows counts as far as there is room for it. -/
theorem append_left {front : List α} (h : CutShort (n - front.length) short long) :
    CutShort n (front ++ short) (front ++ long) :=
  ⟨by rw [List.take_append, List.take_append, h.first], h.within.append_left front⟩

theorem flatMap {f g : α → List β} (items : List α) (each : ∀ a ∈ items, CutShort n (f a) (g a)) :
    CutShort n (items.flatMap f) (items.flatMap g) := by
  induction items with
  | nil => exact refl []
  | cons a rest ih =>
    obtain ⟨own, others⟩ := List.forall_mem_cons.mp each
    exact own.append (ih others)

theorem sublist_flatten {shorts longs : List (List α)}
    (each : List.Forall₂ (CutShort n) shorts longs) : shorts.flatten.Sublist longs.flatten := by
  induction each with
  | nil => exact .refl _
  | cons own _ ih => exact own.within.append ih

/-- Where every item gives something, enough is left of what the items give. -/
theorem flatMap_left {f : α → List β} (h : CutShort n short long) (some : ∀ a, f a ≠ []) :
    CutShort n (short.flatMap f) (long.flatMap f) := by
  refine ⟨?_, h.within.flatMap f⟩
  rcases h.eq_or_le_length with rfl | enough
  · rfl
  · have full : n ≤ ((short.take n).flatMap f).length := by
      rw [List.length_flatMap]
      have each : ∀ length ∈ (short.take n).map (fun a => (f a).length), 1 ≤ length := by
        intro length hl
        obtain ⟨a, _, rfl⟩ := List.mem_map.mp hl
        exact List.length_pos_iff.mpr (some a)
      have count := List.length_le_sum_of_one_le _ each
      rwa [List.length_map, List.length_take, Nat.min_eq_left enough] at count
    have split (items : List α) : items.flatMap f =
        (items.take n).flatMap f ++ (items.drop n).flatMap f := by
      rw [← List.flatMap_append, List.take_append_drop]
    rw [split short, split long, ← h.first, List.take_append_of_le_length full,
      List.take_append_of_le_length full]

/-- A part of the whole that is cut again at the same place. -/
theorem take (h : CutShort n short long) : CutShort n (short.take n) long :=
  ⟨by rw [List.take_take, Nat.min_self, h.first], (List.take_sublist n short).trans h.within⟩

/-- Choices from lists that are cut short. If the later lists leave no choice there is none at all;
otherwise every item of the first list begins some choice. -/
theorem choices (parts : List (List α × List α)) (each : ∀ part ∈ parts, CutShort n part.1 part.2) :
    CutShort n (DataContract.choices (parts.map (·.1)))
      (DataContract.choices (parts.map (·.2))) := by
  induction parts with
  | nil => exact refl _
  | cons part rest ih =>
    obtain ⟨own, others⟩ := List.forall_mem_cons.mp each
    simp only [List.map_cons, DataContract.choices]
    have inner : CutShort n
        (part.1.flatMap fun a => (DataContract.choices (rest.map (·.1))).map (a :: ·))
        (part.1.flatMap fun a => (DataContract.choices (rest.map (·.2))).map (a :: ·)) :=
      flatMap part.1 fun a _ => (ih others).map (a :: ·)
    refine inner.trans ?_
    by_cases none : DataContract.choices (rest.map (·.2)) = []
    · simp only [none, List.map_nil, List.flatMap_eq_nil_iff.mpr fun _ _ => rfl]
      exact refl []
    · exact flatMap_left own fun a => by simpa using none

end CutShort

/-! ## 2. What a bound leaves alone -/

namespace Context

/-- The context with a bound on combinations, or without one. -/
def bounded (bound : Option Nat) (context : Context) : Context :=
  { context with maxCombinations := bound }

variable {bound : Option Nat} {context : Context}

@[simp] theorem maxCombinations_bounded : (context.bounded bound).maxCombinations = bound := rfl

@[simp] theorem mode_bounded : (context.bounded bound).mode = context.mode := rfl

@[simp] theorem registry_bounded : (context.bounded bound).registry = context.registry := rfl

theorem enter_bounded (schema : Schema) (nullable : Bool) :
    (context.bounded bound).enter schema nullable =
      (context.enter schema nullable).map (Option.map (bounded bound)) := by
  unfold enter
  cases schema.identity with
  | none => rfl
  | some identity =>
    by_cases known : context.expanding.contains ⟨identity, nullable⟩ = true
    · simp only [bounded, known, if_true]
      cases nullable <;> rfl
    · simp only [bounded, known]
      rfl

/-- A condition on the context in which a schema is expanded, if it is. -/
def onEntering (context : Context) (schema : Schema) (nullable : Bool) (holds : Context → Bool) :
    Bool :=
  match context.enter schema nullable with
  | .ok (some child) => holds child
  | _ => true

theorem onEntering_bounded {schema : Schema} {nullable : Bool} {holds : Context → Bool} :
    (context.bounded bound).onEntering schema nullable holds = true ↔
      ∀ child, context.enter schema nullable = .ok (some child) →
      holds (child.bounded bound) = true := by
  unfold onEntering
  rw [enter_bounded]
  rcases context.enter schema nullable with cause | (_ | child)
  · exact ⟨fun _ => nofun, fun _ => rfl⟩
  · exact ⟨fun _ => nofun, fun _ => rfl⟩
  · refine ⟨fun own other same => ?_, fun each => each child rfl⟩
    cases same
    exact own

end Context

namespace Schema

variable {bound : Option Nat} {context : Context}

theorem checkWithin_bounded (fuel : Nat) (schema : Schema) (value : Value) :
    checkWithin (context.bounded bound) fuel schema value =
      checkWithin context fuel schema value := by
  induction fuel generalizing schema value with
  | zero => rfl
  | succ fuel ih =>
    have same : checkWithin (context.bounded bound) fuel = checkWithin context fuel :=
      funext fun schema => funext (ih schema)
    simp only [checkWithin, same]
    rfl

theorem check_bounded (schema : Schema) (value : Value) :
    schema.check (context.bounded bound) value = schema.check context value :=
  checkWithin_bounded _ schema value

theorem exampleValue_bounded (sample : Option String) (schema : Schema) :
    exampleValue (context.bounded bound) sample schema = exampleValue context sample schema := by
  simp only [exampleValue, check_bounded]
  rfl

theorem firstExample_bounded (sample : String) (members : List Schema) :
    firstExample (context.bounded bound) sample members = firstExample context sample members := by
  induction members with
  | nil => rfl
  | cons schema rest ih => simp only [firstExample, exampleValue_bounded, ih]

theorem exampleOfAny_bounded (sample : Option String) (members : List Schema) :
    exampleOfAny (context.bounded bound) sample members = exampleOfAny context sample members := by
  simp only [exampleOfAny, firstExample_bounded]
  rfl

end Schema

theorem rowLiteral_bounded {bound : Option Nat} {context : Context} (literal : String)
    (schema : Schema) :
    rowLiteral (context.bounded bound) literal schema = rowLiteral context literal schema := by
  simp only [rowLiteral, Schema.check_bounded]
  rfl

theorem exampleOrSelf_bounded {bound : Option Nat} {context : Context} (schema : Schema) :
    exampleOrSelf (context.bounded bound) schema = exampleOrSelf context schema := by
  simp only [exampleOrSelf, Schema.exampleValue_bounded]

/-! ## 3. Unions -/

section Settle

variable {α : Type} {n : Nat}

/-- The items that are not errors. -/
def successes (items : List (Attempt α)) : List (Attempt α) :=
  items.filter fun item => (Attempt.error? item).isNone

theorem any_success_iff (items : List (Attempt α)) :
    items.any (fun item => (Attempt.error? item).isNone) = true ↔ successes items ≠ [] := by
  rw [successes, Ne, List.filter_eq_nil_iff, List.any_eq_true]
  push Not
  rfl

theorem successes_append (items others : List (Attempt α)) :
    successes (items ++ others) = successes items ++ successes others :=
  List.filter_append items others

/-- The lists have so many successes among their first `n` items each, in the order of the lists.
One with fewer has no more than `n` items, so that the next has to supply the others; what is behind
the last of them does not count. -/
def suppliesFirst (n : Nat) : Nat → List (List (Attempt α)) → Bool
  | _, [] => true
  | wanted, items :: rest =>
    wanted ≤ (successes (items.take n)).length ||
      (items.length ≤ n && suppliesFirst n (wanted - (successes items).length) rest)

/-- What is left of a list that was cut short does as well as the list when errors are set aside: it
has the first successes, as many as are wanted, and where it has none it was not cut. -/
structure SettlesAlike (wanted : Nat) (short long : List (Attempt α)) : Prop where
  fits : CutShort wanted (successes short) (successes long)
  errors : 0 < wanted → successes short = [] → short = long

namespace SettlesAlike

variable {wanted : Nat} {short long : List (Attempt α)} {shorts longs : List (List (Attempt α))}

/-- Errors of some kind are dropped beforehand. -/
theorem filter {p : Attempt α → Bool}
    (kept : ∀ item : Attempt α, (Attempt.error? item).isNone = true → p item = true)
    (h : SettlesAlike wanted short long) :
    SettlesAlike wanted (short.filter p) (long.filter p) := by
  have same (items : List (Attempt α)) : successes (items.filter p) = successes items := by
    rw [successes, List.filter_filter]
    refine List.filter_congr fun item _ => ?_
    cases success : (Attempt.error? item).isNone with
    | true => rw [kept item success]; rfl
    | false => rfl
  refine ⟨by rw [same, same]; exact h.fits, fun some none => ?_⟩
  rw [h.errors some ((same short).symm.trans none)]

/-- The successes among the first items are the first successes. -/
theorem take_successes {items : List (Attempt α)}
    (enough : wanted ≤ (successes (items.take n)).length) :
    (successes items).take wanted = (successes (items.take n)).take wanted := by
  conv_lhs => rw [← List.take_append_drop n items]
  rw [successes_append, List.take_append_of_le_length enough]

/-- The first list alone supplies what is wanted, so that it does not matter what follows. -/
theorem append_of_enough (h : CutShort n short long)
    (within : (successes shorts.flatten).Sublist (successes longs.flatten))
    (enough : wanted ≤ (successes (long.take n)).length) :
    SettlesAlike wanted (short ++ shorts.flatten) (long ++ longs.flatten) := by
  have few : wanted ≤ (successes (short.take n)).length := h.first ▸ enough
  have first : (successes short).take wanted = (successes long).take wanted := by
    rw [take_successes few, take_successes enough, h.first]
  have count {items : List (Attempt α)} (few : wanted ≤ (successes (items.take n)).length) :
      wanted ≤ (successes items).length :=
    few.trans ((List.take_sublist n items).filter _).length_le
  refine ⟨⟨?_, ?_⟩, fun some none => ?_⟩
  · rw [successes_append, successes_append, List.take_append_of_le_length (count few),
      List.take_append_of_le_length (count enough), first]
  · rw [successes_append, successes_append]
    exact (h.within.filter _).append within
  · rw [successes_append, List.append_eq_nil_iff] at none
    have := count few
    rw [none.1, List.length_nil] at this
    omega

/-- Lists that are cut short do as well as the lists together, where these supply what is wanted.
The induction is on the lists; what one of them supplies is not wanted of the next ones. -/
theorem flatten (each : List.Forall₂ (CutShort n) shorts longs)
    (supplied : suppliesFirst n wanted longs = true) :
    SettlesAlike wanted shorts.flatten longs.flatten := by
  induction each generalizing wanted with
  | nil => exact ⟨.refl _, fun _ _ => rfl⟩
  | @cons short long shorts longs own others ih =>
    rw [suppliesFirst, Bool.or_eq_true, decide_eq_true_iff, Bool.and_eq_true, decide_eq_true_iff]
      at supplied
    rw [List.flatten_cons, List.flatten_cons]
    rcases supplied with enough | ⟨few, supplied⟩
    · exact append_of_enough own ((CutShort.sublist_flatten others).filter _) enough
    · obtain rfl := own.eq_of_length_le few
      have rest := ih supplied
      refine ⟨?_, fun some none => ?_⟩
      · rw [successes_append, successes_append]
        exact rest.fits.append_left
      · rw [successes_append, List.append_eq_nil_iff] at none
        rw [none.1, List.length_nil, Nat.sub_zero] at rest
        rw [rest.errors some none.2]

/-- Settled errors: the successes if there are any, and otherwise nothing was cut. -/
theorem settle (headline : String) (pos : 0 < wanted) {short long : Enumeration (Attempt α)}
    (h : SettlesAlike wanted short.toList long.toList) :
    CutShort wanted (short.settle headline).toList (long.settle headline).toList := by
  by_cases none : successes short.toList = []
  · have same := h.errors pos none
    rw [Enumeration.toList_settle, Enumeration.toList_settle, same]
    exact .refl _
  · have some : successes long.toList ≠ [] := fun none' =>
      none (List.sublist_nil.mp (none' ▸ h.fits.within))
    rw [Enumeration.toList_settle, Enumeration.toList_settle, if_pos ((any_success_iff _).mpr none),
      if_pos ((any_success_iff _).mpr some)]
    exact h.fits

end SettlesAlike

end Settle

/-! ## 4. Whole derivations -/

section Derive

variable {context : Context} {row : Row} {n : Nat}
  {derive : Context → Schema → Enumeration (Attempt Schema)}

/-- The variants of a field are cut short where those of its schema are. -/
theorem fieldVariants_cut {key : String} {schema : Schema}
    (below : row.literal? (Key.name key) = none → ∀ child,
      context.enter schema (Key.isOptional key) = .ok (some child) →
        CutShort n (derive (child.bounded (some n)) schema).toList
          (derive (child.bounded none) schema).toList) :
    CutShort n (fieldVariants derive (context.bounded (some n)) row key schema).toList
      (fieldVariants derive (context.bounded none) row key schema).toList := by
  unfold fieldVariants
  cases bound : row.literal? (Key.name key) with
  | some literal =>
    simp only [rowLiteral_bounded]
    exact .refl _
  | none =>
    simp only [Context.enter_bounded]
    rcases entered : context.enter schema (Key.isOptional key) with cause | (_ | child)
    · exact .refl _
    · exact .refl _
    · simp only [Except.map, Option.map, Enumeration.toList_map]
      exact (below bound child entered).map _

/-- The choices of variants are cut short where the variants of the fields are. -/
theorem combinationVariants_cut
    {positives positives' : String → Schema → Enumeration (Attempt (Option Schema))}
    {entries : Fields Schema}
    (below : ∀ entry ∈ row.kept entries,
      CutShort n (positives entry.1 entry.2).toList (positives' entry.1 entry.2).toList) :
    CutShort n (combinationVariants positives row entries).toList
      (combinationVariants positives' row entries).toList := by
  unfold combinationVariants
  simp only [Enumeration.toList_flatMap]
  refine CutShort.flatMap _ fun keys _ => ?_
  simp only [fieldsVariants, Enumeration.toList_map, Enumeration.toList_product, List.map_map]
  refine CutShort.map _ ?_
  have parts := CutShort.choices
    ((List.filter (fun entry => keys.contains entry.1) (row.kept entries)).map fun entry =>
      ((positives entry.1 entry.2).toList.map (entry.1, ·),
        (positives' entry.1 entry.2).toList.map (entry.1, ·)))
    (List.forall_mem_map.mpr fun entry he => (below entry (List.mem_of_mem_filter he)).map _)
  simp only [List.map_map] at parts
  simpa only [Function.comp_def, Enumeration.toList_map] using parts

/-- What the alternatives of a union give, in the order in which they are tried. -/
def alternativeLists (derive : Context → Schema → Enumeration (Attempt Schema)) (context : Context)
    (members : List Schema) : List (List (Attempt Schema)) :=
  (Schema.nullsLast members).map fun schema =>
    match context.enter schema (Schema.listsNull members) with
    | .ok (some child) => (derive child schema).toList
    | .ok none => []
    | .error cause => [.error (.error cause)]

theorem toList_alternativeStream (members : List Schema) :
    (alternativeStream derive context members).toList =
      (alternativeLists derive context members).flatten := by
  rw [alternativeStream, Enumeration.toList_flatMap, Enumeration.toList_ofList, alternativeLists,
    List.flatMap_def]
  congr 2
  funext schema
  rcases context.enter schema (Schema.listsNull members) with cause | (_ | child)
  · exact Enumeration.toList_single _
  · rfl
  · rfl

/-- The variants of a union are cut short where those of its alternatives are, if these supply
enough of them before the cut. -/
theorem unionStream_cut {members : List Schema}
    (below : ∀ schema ∈ members, ∀ child,
      context.enter schema (Schema.listsNull members) = .ok (some child) →
        CutShort n (derive (child.bounded (some n)) schema).toList
          (derive (child.bounded none) schema).toList)
    (supplied : suppliesFirst n n (alternativeLists derive (context.bounded none) members) = true) :
    SettlesAlike n (unionStream derive (context.bounded (some n)) members).toList
      (unionStream derive (context.bounded none) members).toList := by
  unfold unionStream
  simp only [Enumeration.toList_filter, toList_alternativeStream]
  refine SettlesAlike.filter (fun item success => ?_) (SettlesAlike.flatten ?_ supplied)
  · rcases item with (cause | _) | schema
    · cases success
    · simp [Attempt.isCycle]
    · simp [Attempt.isCycle]
  · unfold alternativeLists
    rw [List.forall₂_map_left_iff, List.forall₂_map_right_iff, List.forall₂_same]
    intro schema hs
    simp only [Context.enter_bounded]
    rcases entered : context.enter schema (Schema.listsNull members) with cause | (_ | child)
    · exact .refl _
    · exact .refl _
    · exact below schema (Schema.mem_of_mem_nullsLast hs) child entered

end Derive

namespace Schema

/-- At each union that a derivation comes to, the alternatives supply the first `n` results before
the cut, in so many steps. -/
def capsCleanlyWithin (n : Nat) : Nat → Context → Row → Schema → Bool
  | 0, _, _, _ => true
  | fuel + 1, context, row, schema =>
    match schema with
    | reference name =>
      match context.registry.lookup name with
      | .ok target => capsCleanlyWithin n fuel context row target
      | .error _ => true
    | object fields _ => (row.kept fields).all fun field =>
        (row.literal? (Key.name field.1)).isSome ||
          context.onEntering field.2 (Key.isOptional field.1) fun child =>
            capsCleanlyWithin n fuel child row field.2
    | list item _ sample =>
      decide (context.mode = .preferExamples ∧ sample.isSome) ||
        context.onEntering item true fun child => capsCleanlyWithin n fuel child row item
    | union members _ _ sample =>
      match exampleOfAny context sample members with
      | .ok none =>
        (members.all fun schema => context.onEntering schema (listsNull members) fun child =>
          capsCleanlyWithin n fuel child row schema) &&
        suppliesFirst n n (alternativeLists
          (fun child schema => variantsWithin fuel child row schema) context members)
      | _ => true
    | _ => true

/-- At each union that the derivation comes to when combinations are not bounded, the alternatives
supply the first `n` results one after another, each with what is among its first `n` items: one
that leaves some of the results to those behind it has no more than `n` items. -/
def capsCleanly (n : Nat) (context : Context) (row : Row) (schema : Schema) : Bool :=
  capsCleanlyWithin n (schema.expansionBudget context.registry) (context.bounded none) row schema

/-- A bound cuts the variants short. The induction is on the steps; a bound that holds for the
objects inside leaves enough for the first items outside. -/
theorem variantsWithin_cut {n : Nat} (pos : 0 < n) {fuel : Nat} {context : Context} {row : Row}
    {schema : Schema} (clean : capsCleanlyWithin n fuel (context.bounded none) row schema = true) :
    CutShort n (variantsWithin fuel (context.bounded (some n)) row schema).toList
      (variantsWithin fuel (context.bounded none) row schema).toList := by
  induction fuel generalizing context schema with
  | zero => exact .refl _
  | succ fuel ih =>
    unfold capsCleanlyWithin at clean
    unfold variantsWithin
    cases schema with
    | null | literal => exact .refl _
    | string | number | boolean =>
      simp only [exampleOrSelf_bounded]
      exact .refl _
    | reference name =>
      simp only [Context.registry_bounded] at clean ⊢
      cases found : context.registry.lookup name with
      | ok target =>
        simp only [found] at clean ⊢
        exact ih clean
      | error cause => exact .refl _
    | object fields title =>
      rw [List.all_eq_true] at clean
      simp only [Context.maxCombinations_bounded, Enumeration.capped, Enumeration.toList_take,
        Enumeration.toList_map]
      refine CutShort.take (CutShort.map _ (combinationVariants_cut fun field hf => ?_))
      refine fieldVariants_cut fun free child entered => ih ?_
      have own := clean field hf
      rw [free] at own
      exact Context.onEntering_bounded.mp own child entered
    | list item title sample =>
      dsimp only at clean
      rw [Bool.or_eq_true, decide_eq_true_iff, Context.onEntering_bounded] at clean
      simp only [Context.mode_bounded, Context.enter_bounded, exampleOrSelf_bounded]
      split
      · exact .refl _
      · next made =>
        have clean := clean.resolve_left made
        rcases entered : context.enter item true with cause | (_ | child)
        · exact .refl _
        · exact .refl _
        · simp only [Except.map, Option.map, Enumeration.toList_map]
          exact (ih (clean child entered)).map _
    | union members key title sample =>
      simp only [exampleOfAny_bounded] at clean ⊢
      cases example? : exampleOfAny context sample members with
      | error halt => exact .refl _
      | ok value? =>
        cases value? with
        | some value => exact .refl _
        | none =>
          simp only [example?, List.all_eq_true, Context.onEntering_bounded,
            Bool.and_eq_true] at clean
          obtain ⟨clean, supplied⟩ := clean
          refine SettlesAlike.settle _ pos
            (unionStream_cut (fun schema hm child entered => ?_) supplied)
          exact ih (clean schema hm child entered)

theorem length_variantsWithin_object_le {n fuel : Nat} {context : Context} {row : Row}
    {fields : List (String × Schema)} {title : Option String} :
    (variantsWithin (fuel + 1) (context.bounded (some n)) row (object fields title)).toList.length ≤
      n := by
  simp only [variantsWithin, Context.maxCombinations_bounded, Enumeration.capped,
    Enumeration.toList_take]
  exact List.length_take_le _ _

/-- A bound cuts off the variants of an object behind the first `n`. -/
theorem toList_variants_bounded {n : Nat} {context : Context} {row : Row}
    {fields : List (String × Schema)} {title : Option String}
    (clean : (object fields title).capsCleanly n context row = true) :
    ((object fields title).variants (context.bounded (some n)) row).toList =
      ((object fields title).variants (context.bounded none) row).toList.take n := by
  have few : ((object fields title).variants (context.bounded (some n)) row).toList.length ≤ n := by
    have steps : 0 < (object fields title).expansionBudget context.registry := by
      simp only [expansionBudget]
      positivity
    obtain ⟨fuel, steps⟩ := Nat.exists_eq_succ_of_ne_zero steps.ne'
    rw [variants, Context.registry_bounded, steps]
    exact length_variantsWithin_object_le
  rcases Nat.eq_zero_or_pos n with rfl | pos
  · rw [List.take_zero, List.eq_nil_of_length_eq_zero (Nat.le_zero.mp few)]
  · exact (List.take_of_length_le few).symm.trans (variantsWithin_cut pos clean).first

end Schema

/-- An optional number, and a boolean or an object with two optional texts. -/
def flaggedOption : Schema :=
  .object [("id?", .numeric),
    ("u", .union [.object [("a?", .text), ("b?", .text)] none, .flag] none none none)] none

/-- With at most four combinations the first four are left of six. -/
theorem toList_variants_bounded_flaggedOption :
    flaggedOption.capsCleanly 4 (.ofRegistry .initial) .empty = true ∧
      (flaggedOption.variants ((Context.ofRegistry .initial).bounded (some 4)) .empty).toList =
        (flaggedOption.variants ((Context.ofRegistry .initial).bounded none)
          .empty).toList.take 4 :=
  have clean : flaggedOption.capsCleanly 4 (.ofRegistry .initial) .empty = true := by decide +kernel
  ⟨clean, Schema.toList_variants_bounded clean⟩

/-- A field with one alternative: an object whose only key is optional and refers to nothing. -/
def danglingOption : Schema :=
  .object [("u", .union [.object [("a?", .named "Missing")] none] none none none)] none

/-- Of two combinations of the alternative the first is an error. With at most one combination
nothing else is left, so that the union has no item but its error; without a bound the error is set
aside. -/
theorem not_cut_danglingOption :
    (danglingOption.variants ((Context.ofRegistry .initial).bounded (some 1)) .empty).toList ≠
      (danglingOption.variants ((Context.ofRegistry .initial).bounded none) .empty).toList.take
        1 := by
  intro same
  have told := congrArg (List.map fun item => (Attempt.error? item).isNone) same
  revert told
  decide +kernel

end DataContract
