import Mathlib
import DataContract.Proofs.Acceptance

/-!
# Two runs of a check

Runs of a check are compared pairwise: with more steps, or on the same data in another order. A run
carries over to another one when that has a verdict wherever it has one, and the two are related.
Which relation it is makes no difference to fields and items, as long as verdicts stay related when
they are seen from one level up. A union asks for more: which alternative it ends at depends on
which ones accept.

1. `CarriesOver`: from one run to another, through `map` and `bind`.
2. `Verdict.Agrees`: both accept or both reject. `checkFields_carriesOver`,
   `checkItems_carriesOver`, `firstAccepted_carriesOver`: the parts of a check.
3. `Schema.checkWithin_carriesOver_of_le`: more steps change no verdict.
-/

namespace DataContract

/-! ## 1. From one run to another -/

/-- Where the first run has a result, the second has one that is related to it. -/
def CarriesOver {α β : Type} (related : α → β → Prop) (first : Option α) (second : Option β) :
    Prop :=
  ∀ a, first = some a → ∃ b, second = some b ∧ related a b

namespace CarriesOver

variable {α β γ δ : Type} {related : α → β → Prop} {related' : γ → δ → Prop} {first : Option α}
  {second : Option β}

theorem refl (result : Option α) : CarriesOver (· = ·) result result := fun a ha => ⟨a, ha, rfl⟩

theorem some {a : α} {b : β} (h : related a b) : CarriesOver related (some a) (some b) := by
  intro a' same
  cases same
  exact ⟨b, rfl, h⟩

theorem bind {next : α → Option γ} {next' : β → Option δ} (h : CarriesOver related first second)
    (onward : ∀ a b, related a b → CarriesOver related' (next a) (next' b)) :
    CarriesOver related' (first.bind next) (second.bind next') := by
  intro c hc
  obtain ⟨a, ha, hc⟩ := Option.bind_eq_some_iff.mp hc
  obtain ⟨b, hb, near⟩ := h a ha
  obtain ⟨d, hd, near⟩ := onward a b near c hc
  exact ⟨d, Option.bind_eq_some_iff.mpr ⟨b, hb, hd⟩, near⟩

theorem map {f : α → γ} {g : β → δ} (h : CarriesOver related first second)
    (onward : ∀ a b, related a b → related' (f a) (g b)) :
    CarriesOver related' (first.map f) (second.map g) := by
  rw [Option.map_eq_bind, Option.map_eq_bind]
  exact h.bind fun a b near => .some (onward a b near)

end CarriesOver

/-! ## 2. The parts of a check -/

/-- Both accept or both reject. -/
def Verdict.Agrees (first second : Verdict) : Prop := first.isAccepted = second.isAccepted

/-- Merged verdicts agree when their parts do, one by one. -/
theorem Verdict.all_isAccepted_congr {verdicts verdicts' : List Verdict}
    (each : List.Forall₂ Agrees verdicts verdicts') :
    verdicts.all isAccepted = verdicts'.all isAccepted := by
  induction each with
  | nil => rfl
  | cons own _ ih => rw [List.all_cons, List.all_cons, own, ih]

section Parts

variable {related : Verdict → Verdict → Prop}

/-- Fields carry over when those that are present on one side are present on the other. -/
theorem checkFields_carriesOver
    (under : ∀ segment first second, related first second →
      related (first.under segment) (second.under segment))
    {check check' : Schema → Value → Option Verdict} {entries entries' : Fields Value}
    {fields : List (String × Schema)}
    (each : ∀ field ∈ fields, Option.Rel
      (fun part part' => CarriesOver related (check field.2 part) (check' field.2 part'))
      (Fields.find? (Key.name field.1) entries) (Fields.find? (Key.name field.1) entries')) :
    CarriesOver (List.Forall₂ related) (checkFields check entries fields)
      (checkFields check' entries' fields) := by
  induction fields with
  | nil => exact .some .nil
  | cons field rest ih =>
    obtain ⟨key, schema⟩ := field
    obtain ⟨own, others⟩ := List.forall_mem_cons.mp each
    cases found : Fields.find? (Key.name key) entries with
    | none =>
      cases found' : Fields.find? (Key.name key) entries' with
      | none =>
        rw [checkFields_cons_of_none check schema rest found,
          checkFields_cons_of_none check' schema rest found']
        exact ih others
      | some part' =>
        rw [found, found'] at own
        cases own
    | some part =>
      cases found' : Fields.find? (Key.name key) entries' with
      | none =>
        rw [found, found'] at own
        cases own
      | some part' =>
        rw [found, found'] at own
        obtain ⟨own⟩ := own
        rw [checkFields_cons_of_some check schema rest found,
          checkFields_cons_of_some check' schema rest found']
        exact own.bind fun first second near => (ih others).map fun _ _ below =>
          .cons (under _ first second near) below

/-- Items carry over one by one. -/
theorem checkItems_carriesOver
    (under : ∀ segment first second, related first second →
      related (first.under segment) (second.under segment))
    {check check' : Value → Option Verdict} {items items' : List Value}
    (each : List.Forall₂
      (fun part part' => CarriesOver related (check part) (check' part')) items items')
    (place : Nat) :
    CarriesOver (List.Forall₂ related) (checkItems check place items)
      (checkItems check' place items') := by
  induction each generalizing place with
  | nil => exact .some .nil
  | cons own _ ih =>
    rw [checkItems_cons, checkItems_cons]
    exact own.bind fun first second near => (ih (place + 1)).map fun _ _ below =>
      .cons (under _ first second near) below

/-- What two unions come to: both accept, or their failures are related one by one. -/
inductive TriedAlike (related : Verdict → Verdict → Prop) :
    Except (List Failure) (Fields String) → Except (List Failure) (Fields String) → Prop
  | ok {captured captured' : Fields String} :
      related (.accepted captured) (.accepted captured') →
      TriedAlike related (.ok captured) (.ok captured')
  | error {failures failures' : List Failure} :
      List.Forall₂ (fun failure failure' => related (.rejected failure) (.rejected failure'))
        failures failures' →
      TriedAlike related (.error failures) (.error failures')

/-- Alternatives carry over when related verdicts agree, so that both runs end at the same
alternative. -/
theorem firstAccepted_carriesOver
    (told : ∀ first second, related first second → first.Agrees second)
    {check check' : Schema → Option Verdict} {members : List Schema}
    (each : ∀ schema ∈ members, CarriesOver related (check schema) (check' schema)) :
    CarriesOver (TriedAlike related) (firstAccepted check members)
      (firstAccepted check' members) := by
  induction members with
  | nil => exact .some (.error .nil)
  | cons schema rest ih =>
    obtain ⟨own, others⟩ := List.forall_mem_cons.mp each
    rw [firstAccepted_cons, firstAccepted_cons]
    refine own.bind fun first second near => ?_
    have same := told first second near
    cases first with
    | accepted captured =>
      cases second with
      | accepted captured' => exact .some (.ok near)
      | rejected failure' => cases same
    | rejected failure =>
      cases second with
      | accepted captured' => cases same
      | rejected failure' =>
        refine (ih others).map fun result result' below => ?_
        cases below with
        | ok near => exact .ok near
        | error below => exact .error (.cons near below)

end Parts

/-! ## 3. More steps -/

namespace Schema

variable {context : Context} {fuel fuel' : Nat} {schema : Schema} {value : Value}

/-- More steps change no verdict. -/
theorem checkWithin_carriesOver_of_le (more : fuel ≤ fuel') :
    CarriesOver (· = ·) (checkWithin context fuel schema value)
      (checkWithin context fuel' schema value) := by
  induction fuel generalizing fuel' schema value with
  | zero => exact nofun
  | succ fuel ih =>
    cases fuel' with
    | zero => exact absurd more (Nat.not_succ_le_zero fuel)
    | succ fuel' =>
      have below (schema : Schema) (value : Value) :=
        @ih fuel' schema value (Nat.le_of_succ_le_succ more)
      cases schema with
      | reference name =>
        simp only [checkWithin]
        split
        · exact below _ value
        · exact .refl _
      | object fields title =>
        cases value with
        | object entries =>
          simp only [checkWithin, Option.bind_eq_bind]
          refine (checkFields_carriesOver (fun _ _ _ same => congrArg _ same)
            fun field _ => ?_).bind fun verdicts verdicts' same => ?_
          · cases Fields.find? (Key.name field.1) entries with
            | none => exact .none
            | some part => exact .some (below field.2 part)
          · rw [List.forall₂_eq_eq_eq] at same
            exact same ▸ .refl _
        | _ => exact .refl _
      | list item title sample =>
        cases value with
        | array items =>
          have each : List.Forall₂ (fun part part' => CarriesOver (· = ·)
              (checkWithin context fuel item part) (checkWithin context fuel' item part'))
                items items :=
            List.forall₂_same.mpr fun part _ => below item part
          simp only [checkWithin]
          refine (checkItems_carriesOver (fun _ _ _ same => congrArg _ same) each 0).map
            fun verdicts verdicts' same => ?_
          rw [List.forall₂_eq_eq_eq] at same
          exact congrArg _ same
        | _ => exact .refl _
      | union members key title sample =>
        simp only [checkWithin, Option.bind_eq_bind]
        refine (firstAccepted_carriesOver (fun _ _ same => congrArg _ same) fun schema _ =>
          below schema value).bind fun result result' near => ?_
        cases near with
        | ok same =>
          cases same
          exact .refl _
        | error same =>
          simp only [Verdict.rejected.injEq] at same
          rw [List.forall₂_eq_eq_eq] at same
          exact same ▸ .refl _
      | _ => exact .refl _

end Schema
end DataContract
