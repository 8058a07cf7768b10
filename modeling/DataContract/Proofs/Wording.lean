import Mathlib
import DataContract.Derivation.Variant
import DataContract.Proofs.Drawing

/-!
# What failures say

An error that was recovered from stands in a failure with its own words, so the words tell where a
failure comes from. A report of a cycle begins with a letter that begins no other message of a
check, a reading or an example.

1. `Failure.Messages`: a condition on every message of a failure, and what keeps it. It holds of the
   messages that are reported (`Failure.Messages.leaves`).
2. `Unrelated`: the first letter of a message is not that of a report of a cycle.
3. `Schema.checkWithin_unrelated`, `Schema.readWithin_unrelated`: what checks and readings say.
4. `Schema.ownExample_unrelated`, `mem_settle_unrelated`: what examples and settled errors say.
-/

namespace DataContract

/-! ## 1. Every message -/

/-- A condition on every message of a failure. -/
inductive Failure.Messages (p : String → Prop) : Failure → Prop
  | tree {message : String} {path : List String} {causes : List Failure} :
      p message → (∀ cause ∈ causes, Messages p cause) → Messages p ⟨message, path, causes⟩

namespace Failure

variable {p : String → Prop} {failure : Failure} {failures : List Failure}

theorem Messages.plain {message : String} (h : p message) :
    (plain message).Messages p := .tree h nofun

theorem Messages.because {message : String} (h : p message) (cause : failure.Messages p) :
    (because message failure).Messages p :=
  .tree h (List.forall_mem_singleton.mpr cause)

theorem Messages.under (segment : String) (h : failure.Messages p) :
    (failure.under segment).Messages p := by
  unfold Failure.under
  split
  · exact h
  · cases h with
    | tree own below => exact .tree own below

theorem Messages.all (silent : p "") (h : ∀ failure ∈ failures, failure.Messages p) :
    (all failures).Messages p := by
  unfold Failure.all
  split
  · exact h _ List.mem_cons_self
  · exact .tree silent h

mutual

theorem leavesBelow_messages (path : List String) {messages : List String}
    (above : ∀ m ∈ messages, p m) :
    (failure : Failure) → failure.Messages p → ∀ leaf ∈ leavesBelow path messages failure,
      ∀ m ∈ leaf.messages, p m
  | ⟨message, own, causes⟩, .tree said below => by
    have more : ∀ m ∈ (if message = "" then messages else messages ++ [message]), p m := by
      split
      · exact above
      · exact List.forall_mem_append.mpr ⟨above, List.forall_mem_singleton.mpr said⟩
    match causes, below with
    | [], _ =>
      rw [leavesBelow]
      exact List.forall_mem_singleton.mpr more
    | first :: rest, below =>
      obtain ⟨head, tail⟩ := List.forall_mem_cons.mp below
      rw [leavesBelow]
      exact List.forall_mem_append.mpr ⟨leavesBelow_messages _ more first head,
        leavesOfAll_messages _ more rest tail⟩

theorem leavesOfAll_messages (path : List String) {messages : List String}
    (above : ∀ m ∈ messages, p m) :
    (failures : List Failure) → (∀ failure ∈ failures, failure.Messages p) →
      ∀ leaf ∈ leavesOfAll path messages failures, ∀ m ∈ leaf.messages, p m
  | [], _ => nofun
  | first :: rest, each => by
    obtain ⟨head, tail⟩ := List.forall_mem_cons.mp each
    rw [leavesOfAll]
    exact List.forall_mem_append.mpr ⟨leavesBelow_messages path above first head,
      leavesOfAll_messages path above rest tail⟩

end

/-- What holds of every message holds of those that are reported. -/
theorem Messages.leaves (h : failure.Messages p) :
    ∀ leaf ∈ failure.leaves, ∀ m ∈ leaf.messages, p m :=
  leavesBelow_messages [] nofun failure h

end Failure

/-- A condition on every message of a verdict. -/
def Verdict.Messages (p : String → Prop) : Verdict → Prop
  | accepted _ => True
  | rejected failure => failure.Messages p

namespace Verdict

variable {p : String → Prop}

theorem Messages.under (segment : String) {verdict : Verdict} (h : verdict.Messages p) :
    (verdict.under segment).Messages p := by
  cases verdict with
  | accepted _ => trivial
  | rejected failure => exact Failure.Messages.under segment h

theorem Messages.all (silent : p "") {verdicts : List Verdict}
    (h : ∀ verdict ∈ verdicts, verdict.Messages p) :
    (Verdict.all verdicts).Messages p := by
  unfold Verdict.all
  split
  · trivial
  · next failures _ =>
    refine Failure.Messages.all silent fun failure hm => ?_
    obtain ⟨verdict, hv, same⟩ := List.mem_filterMap.mp hm
    cases verdict with
    | accepted _ => cases same
    | rejected _ =>
      cases same
      exact h _ hv

end Verdict

/-- A condition on every message of the failure that an error becomes. -/
def Halt.Messages (p : String → Prop) : Halt → Prop
  | .error cause => cause.failure.Messages p
  | .endless => True

theorem Halt.Messages.under {p : String → Prop} (segment : String) {halt : Halt}
    (h : halt.Messages p) :
    (halt.under segment).Messages p := by
  rcases halt with (_ | _ | _ | _ | _) | _
  · exact Failure.Messages.under segment h
  · exact Failure.Messages.under segment h
  · exact h
  · exact Failure.Messages.under segment h
  · exact Failure.Messages.under segment h
  · trivial

/-! ## 2. Reports of a cycle -/

/-- The text begins with this letter. -/
def Opens (letter : Char) (text : String) : Prop := text.toList.head? = some letter

instance (letter : Char) (text : String) : Decidable (Opens letter text) :=
  inferInstanceAs (Decidable (_ = _))

theorem Opens.append {letter : Char} {text : String} (h : Opens letter text) (rest : String) :
    Opens letter (text ++ rest) := by
  unfold Opens at h ⊢
  rw [String.toList_append, List.head?_append, h]
  rfl

/-- The text does not begin as a report of a cycle. -/
def Unrelated (text : String) : Prop := ¬Opens 'I' text

instance (text : String) : Decidable (Unrelated text) := inferInstanceAs (Decidable ¬_)

theorem Opens.unrelated {letter : Char} {text : String} (h : Opens letter text)
    (other : letter ≠ 'I') : Unrelated text := by
  intro same
  rw [Opens] at h same
  rw [h, Option.some.injEq] at same
  exact other same

theorem unrelated_empty : Unrelated "" := by decide +kernel

theorem SchemaError.opens_cycle (stack : List String) : Opens 'I' (cycle stack).message := by
  have lead : Opens 'I' "Invalid pattern cycle: " := by decide +kernel
  exact lead.append _

/-- A message that begins otherwise is no report of a cycle. -/
theorem Unrelated.ne_cycle {text : String} (h : Unrelated text) (stack : List String) :
    text ≠ (SchemaError.cycle stack).message :=
  fun same => h (same ▸ SchemaError.opens_cycle stack)

theorem SchemaError.not_isCycle_of_unrelated {cause : SchemaError}
    (h : cause.failure.Messages Unrelated) :
    cause.isCycle = false := by
  cases cause with
  | cycle stack =>
    cases h with
    | tree own _ => exact absurd (SchemaError.opens_cycle stack) own
  | _ => rfl

theorem SchemaError.unknown_unrelated (name : String) :
    (SchemaError.unknown name).failure.Messages Unrelated := by
  have lead : Opens 'T' "Type " := by decide +kernel
  exact .plain (((lead.append name).append _).unrelated (by decide))

theorem SchemaError.unreadable_unrelated (literal : String) (expected : List String) :
    (SchemaError.unreadable literal expected).failure.Messages Unrelated := by
  have lead : Opens 'F' "Failed to parse value \"" := by decide +kernel
  exact .plain (((((lead.append literal).append _).append _).append _).unrelated (by decide))

theorem Registry.lookup_unrelated {registry : Registry} {name : String} {cause : SchemaError}
    (h : registry.lookup name = .error cause) : cause.failure.Messages Unrelated := by
  unfold Registry.lookup at h
  split at h
  · cases h
  · cases h
    exact SchemaError.unknown_unrelated _

namespace Phrasing

theorem mismatch_unrelated (phrasing : Phrasing) (expected actual : String) :
    Unrelated (phrasing.mismatch expected actual) := by
  cases phrasing with
  | request =>
    have lead : Opens 'E' "Expected " := by decide +kernel
    exact (((lead.append expected).append _).append actual).unrelated (by decide)
  | response =>
    have lead : Opens 'C' "Contract expected " := by decide +kernel
    exact (((lead.append expected).append _).append actual).unrelated (by decide)

theorem valueMismatch_unrelated (phrasing : Phrasing) (expected : String) (actual : Option Value) :
    (phrasing.valueMismatch expected actual).Messages Unrelated :=
  .plain (phrasing.mismatch_unrelated _ _)

end Phrasing

theorem KeyProblem.failure_unrelated (problem : KeyProblem) (phrasing : Phrasing) :
    (problem.failure "key" phrasing).Messages Unrelated := by
  refine Failure.Messages.under _ (.plain ?_)
  have key : Opens 'K' (capitalize "key") := by decide +kernel
  have expected : Opens 'E' "Expected " := by decide +kernel
  split
  · cases phrasing with
    | request =>
      exact ((((expected.append _).append _).append _).append _).unrelated (by decide)
    | response => exact (((key.append _).append _).append _).unrelated (by decide)
  · cases phrasing with
    | request => exact (((key.append _).append _).append _).unrelated (by decide)
    | response => exact (((key.append _).append _).append _).unrelated (by decide)

/-! ## 3. Checks and readings -/

theorem LengthRange.check_unrelated (phrasing : Phrasing) (range : LengthRange) (text : String) :
    (range.check phrasing text).Messages Unrelated := by
  unfold check
  simp only
  split
  · exact phrasing.valueMismatch_unrelated _ _
  · split
    · exact phrasing.valueMismatch_unrelated _ _
    · trivial

theorem NumberRange.check_unrelated (phrasing : Phrasing) (range : NumberRange) (n : Number) :
    (range.check phrasing n).Messages Unrelated := by
  unfold check
  simp only
  split
  · exact phrasing.valueMismatch_unrelated _ _
  · split
    · exact phrasing.valueMismatch_unrelated _ _
    · trivial

section Parts

variable {p : String → Prop}

theorem checkFields_messages {check : Schema → Value → Option Verdict}
    (h : ∀ schema value verdict, check schema value = some verdict → verdict.Messages p)
    {entries : Fields Value} {fields : List (String × Schema)} {verdicts : List Verdict}
    (hv : checkFields check entries fields = some verdicts) :
    ∀ verdict ∈ verdicts, verdict.Messages p := by
  induction fields generalizing verdicts with
  | nil =>
    cases hv
    exact nofun
  | cons field rest ih =>
    obtain ⟨key, schema⟩ := field
    cases hf : Fields.find? (Key.name key) entries with
    | none =>
      rw [checkFields_cons_of_none check schema rest hf] at hv
      exact ih hv
    | some value =>
      rw [checkFields_cons_of_some check schema rest hf] at hv
      simp only [Option.bind_eq_some_iff, Option.map_eq_some_iff] at hv
      obtain ⟨own, ho, others, hr, rfl⟩ := hv
      exact List.forall_mem_cons.mpr ⟨Verdict.Messages.under _ (h _ _ _ ho), ih hr⟩

theorem checkItems_messages {check : Value → Option Verdict}
    (h : ∀ value verdict, check value = some verdict → verdict.Messages p)
    {place : Nat} {items : List Value} {verdicts : List Verdict}
    (hv : checkItems check place items = some verdicts) :
    ∀ verdict ∈ verdicts, verdict.Messages p := by
  induction items generalizing place verdicts with
  | nil =>
    cases hv
    exact nofun
  | cons item rest ih =>
    rw [checkItems_cons] at hv
    simp only [Option.bind_eq_some_iff, Option.map_eq_some_iff] at hv
    obtain ⟨own, ho, others, hr, rfl⟩ := hv
    exact List.forall_mem_cons.mpr ⟨Verdict.Messages.under _ (h _ _ ho), ih hr⟩

theorem firstAccepted_messages {check : Schema → Option Verdict}
    (h : ∀ schema verdict, check schema = some verdict → verdict.Messages p)
    {members : List Schema} {failures : List Failure}
    (hr : firstAccepted check members = some (.error failures)) :
    ∀ failure ∈ failures, failure.Messages p := by
  induction members generalizing failures with
  | nil =>
    cases hr
    exact nofun
  | cons schema rest ih =>
    rw [firstAccepted_cons] at hr
    simp only [Option.bind_eq_some_iff] at hr
    obtain ⟨verdict, hv, hr⟩ := hr
    cases verdict with
    | accepted captured => cases hr
    | rejected failure =>
      simp only [Option.map_eq_some_iff] at hr
      obtain ⟨others, ho, hr⟩ := hr
      cases others with
      | ok captured => cases hr
      | error others =>
        cases hr
        exact List.forall_mem_cons.mpr ⟨h _ _ hv, ih ho⟩

theorem markFailures_messages {members : List Schema} {failures : List Failure}
    (h : ∀ failure ∈ failures, failure.Messages p) :
    ∀ failure ∈ markFailures members failures, failure.Messages p := by
  intro failure hm
  obtain ⟨⟨⟨own, schema⟩, place⟩, hp, rfl⟩ := List.mem_map.mp hm
  exact Failure.Messages.under _ (h own (List.of_mem_zip (List.fst_mem_of_mem_zipIdx hp)).1)

theorem unionFailure_unrelated {phrasing : Phrasing} {whole : Schema} {members : List Schema}
    {failures : List Failure} {value : Value}
    (h : ∀ failure ∈ failures, failure.Messages Unrelated) :
    (unionFailure phrasing whole members failures value).Messages Unrelated := by
  unfold unionFailure
  simp only
  split
  · next failure own =>
    split at own
    · split at own
      · next found =>
        cases own
        exact h _ (List.of_mem_zip (List.mem_of_find?_eq_some found)).1
      · exact h _ (own ▸ List.mem_cons_self)
    · exact h _ (own ▸ List.mem_cons_self)
  · exact phrasing.valueMismatch_unrelated _ _

end Parts

namespace Schema

/-- No check says that there is a cycle. -/
theorem checkWithin_unrelated {context : Context} {fuel : Nat} {schema : Schema} {value : Value}
    {verdict : Verdict} (h : checkWithin context fuel schema value = some verdict) :
    verdict.Messages Unrelated := by
  induction fuel generalizing schema value verdict with
  | zero => cases h
  | succ fuel ih =>
    have mismatch (expected : String) :
        (Verdict.rejected (context.phrasing.valueMismatch expected (some value))).Messages
          Unrelated :=
      context.phrasing.valueMismatch_unrelated _ _
    unfold checkWithin at h
    cases schema with
    | string range sample =>
      simp only at h
      split at h <;> cases h
      · exact range.check_unrelated _ _
      · exact mismatch _
    | number range fractional sample =>
      simp only at h
      split at h <;> cases h
      · exact range.check_unrelated _ _
      · exact mismatch _
    | boolean sample =>
      simp only at h
      split at h <;> cases h
      · trivial
      · exact mismatch _
    | null =>
      simp only at h
      split at h <;> cases h
      · trivial
      · exact mismatch _
    | literal expected title =>
      simp only at h
      split at h <;> cases h
      · trivial
      · exact mismatch _
    | reference name =>
      simp only at h
      split at h
      · exact ih h
      · next refused =>
        cases h
        exact Registry.lookup_unrelated refused
    | object fields title =>
      simp only at h
      split at h
      · simp only [Option.bind_eq_bind, Option.bind_eq_some_iff] at h
        obtain ⟨verdicts, hv, h⟩ := h
        cases h
        refine Verdict.Messages.all unrelated_empty (List.forall_mem_append.mpr ⟨?_, ?_⟩)
        · intro verdict hm
          obtain ⟨problem, _, rfl⟩ := List.mem_map.mp hm
          exact problem.failure_unrelated _
        · exact checkFields_messages (fun _ _ _ => ih) hv
      · cases h
        exact mismatch _
    | list item title sample =>
      simp only at h
      split at h
      · rw [Option.map_eq_some_iff] at h
        obtain ⟨verdicts, hv, rfl⟩ := h
        exact Verdict.Messages.all unrelated_empty (checkItems_messages (fun _ _ => ih) hv)
      · cases h
        exact mismatch _
    | union members key title sample =>
      simp only [Option.bind_eq_bind, Option.bind_eq_some_iff] at h
      obtain ⟨result, hr, h⟩ := h
      cases result with
      | ok captured =>
        cases h
        trivial
      | error failures =>
        have say := firstAccepted_messages (fun _ _ => ih) hr
        simp only at h
        split at h <;> cases h
        · exact unionFailure_unrelated say
        · exact Failure.Messages.all unrelated_empty (markFailures_messages say)

theorem check_unrelated {context : Context} {schema : Schema} {value : Value} {failure : Failure}
    (h : schema.check context value = some (.rejected failure)) : failure.Messages Unrelated :=
  checkWithin_unrelated h

end Schema

namespace Attempt

variable {α β : Type}

/-- An attempt whose halt, if it ends in one, does not say that there is a cycle. -/
def Messages (p : String → Prop) (attempt : Attempt α) : Prop :=
  attempt.Ends (fun _ => True) (Halt.Messages p)

theorem Messages.ends {p : String → Prop} {attempt : Attempt α} {value : α → Prop}
    (h : attempt.Messages p) (hv : ∀ a, attempt = .ok a → value a) :
    attempt.Ends value (Halt.Messages p) := by
  cases attempt with
  | ok a => exact hv a rfl
  | error cause => exact h

theorem ofOption_unrelated (p : String → Prop) (result : Option α) :
    (ofOption result).Messages p := by
  cases result <;> trivial

theorem ofReading_unrelated (literal expected : String) (value? : Option Value) :
    (ofReading literal expected value?).Messages Unrelated := by
  cases value? with
  | some value => trivial
  | none => exact SchemaError.unreadable_unrelated _ _

end Attempt

theorem Value.readAlike_unrelated (model : Value) (literal : String) :
    (model.readAlike literal).Messages Unrelated := by
  cases model with
  | string _ => trivial
  | _ => exact Attempt.ofReading_unrelated _ _ _

namespace Schema

/-- No reading says that there is a cycle: the errors of single alternatives are passed over. -/
theorem readWithin_unrelated (registry : Registry) (fuel : Nat) (schema : Schema) (raw : String) :
    (readWithin registry fuel schema raw).Messages Unrelated := by
  induction fuel generalizing schema with
  | zero => trivial
  | succ fuel ih =>
    unfold readWithin
    cases schema with
    | string _ _ => trivial
    | number _ _ _ => exact Attempt.ofReading_unrelated _ _ _
    | boolean _ => exact Attempt.ofReading_unrelated _ _ _
    | null => exact Attempt.ofReading_unrelated _ _ _
    | literal value _ => exact value.readAlike_unrelated raw
    | reference name =>
      refine Attempt.ends_bind ?_
      cases found : registry.lookup name with
      | ok target => exact ih target
      | error cause => exact Registry.lookup_unrelated found
    | object _ _ => exact Attempt.ofReading_unrelated _ _ _
    | list _ _ _ => exact Attempt.ofReading_unrelated _ _ _
    | union members key title sample =>
      have some (schemas : List Schema) :
          (firstReading (readWithin registry fuel · raw) schemas).Messages Unrelated := by
        induction schemas with
        | nil => trivial
        | cons first rest more =>
          unfold firstReading
          split
          · trivial
          · exact more
          · trivial
      refine Attempt.ends_bind ((some _).ends fun value? _ => ?_)
      cases value? with
      | some value => trivial
      | none => exact SchemaError.unreadable_unrelated _ _

/-! ## 4. Examples and settled errors -/

theorem exampleValue_unrelated (context : Context) (sample : Option String) (schema : Schema) :
    (exampleValue context sample schema).Messages Unrelated := by
  unfold exampleValue
  split
  · next sample _ =>
    refine Attempt.ends_bind ((readWithin_unrelated _ _ _ _).ends fun value _ => ?_)
    refine Attempt.ends_bind ((Attempt.ofOption_unrelated _ _).ends fun verdict checked => ?_)
    cases verdict with
    | accepted captured => trivial
    | rejected failure =>
      have lead : Opens 'E' "Example \"" := by decide +kernel
      refine Failure.Messages.because ?_ (check_unrelated (Attempt.ofOption_eq_ok.mp checked))
      exact ((((lead.append sample).append _).append _).append _).unrelated (by decide)
  · trivial

theorem firstExample_unrelated (context : Context) (sample : String) (members : List Schema) :
    (firstExample context sample members).Ends
      (fun result => ∀ failures, result = .error failures → ∀ failure ∈ failures,
        failure.Messages Unrelated) (Halt.Messages Unrelated) := by
  induction members with
  | nil =>
    intro failures same
    cases same
    exact nofun
  | cons schema rest ih =>
    unfold firstExample
    split
    · exact nofun
    · trivial
    · next cause own =>
      have said : Halt.Messages Unrelated (.error cause) := by
        have := exampleValue_unrelated context (some sample) schema
        rwa [own] at this
      refine Attempt.ends_bind ?_
      revert ih
      cases firstExample context sample rest with
      | error halt => exact id
      | ok result =>
        intro ih
        cases result with
        | ok value? => exact nofun
        | error failures =>
          intro all same
          cases same
          exact List.forall_mem_cons.mpr ⟨said, ih failures rfl⟩

theorem exampleOfAny_unrelated (context : Context) (sample : Option String)
    (members : List Schema) :
    (exampleOfAny context sample members).Messages Unrelated := by
  unfold exampleOfAny
  split
  · next sample _ =>
    refine Attempt.ends_bind ?_
    have first := firstExample_unrelated context sample members
    revert first
    cases firstExample context sample members with
    | error halt => exact id
    | ok result =>
      intro say
      cases result with
      | ok value? => trivial
      | error failures =>
        have lead : Opens 'E' "Example \"" := by decide +kernel
        exact .tree (((lead.append sample).append _).unrelated (by decide)) (say failures rfl)
  · trivial

theorem ownExample_unrelated (context : Context) (schema : Schema) :
    (schema.ownExample context).Messages Unrelated := by
  unfold ownExample
  split
  · exact exampleOfAny_unrelated _ _ _
  · exact exampleValue_unrelated _ _ _

end Schema

theorem exampleOrSelf_unrelated (context : Context) (schema : Schema) :
    (exampleOrSelf context schema).Messages Unrelated := by
  have said := Schema.exampleValue_unrelated context schema.sample? schema
  unfold exampleOrSelf
  revert said
  cases Schema.exampleValue context schema.sample? schema with
  | ok example? => exact id
  | error halt => exact id

/-- Errors that are settled say what they said before, below a headline. -/
theorem mem_settle_unrelated {α : Type} {headline : String} {items : Enumeration (Attempt α)}
    (lead : Unrelated headline) (h : ∀ item ∈ items.toList, item.Messages Unrelated) :
    ∀ item ∈ (items.settle headline).toList, item.Messages Unrelated := by
  rw [Enumeration.toList_settle]
  split
  · intro item hm
    exact h item (List.mem_filter.mp hm).1
  · have errors : ∀ cause ∈ items.toList.filterMap Attempt.error?,
        cause.failure.Messages Unrelated := by
      intro cause hm
      obtain ⟨item, hi, same⟩ := List.mem_filterMap.mp hm
      have said := h item hi
      rcases item with (own | _) | _
      · cases same
        exact said
      · cases same
      · cases same
    revert errors
    cases items.toList.filterMap Attempt.error? with
    | nil => exact fun _ => nofun
    | cons first rest =>
      intro errors
      refine List.forall_mem_singleton.mpr ?_
      show (SchemaError.exhausted headline first rest).failure.Messages Unrelated
      unfold SchemaError.exhausted
      split
      · exact errors first List.mem_cons_self
      · exact .tree lead (List.forall_mem_map.mpr errors)

end DataContract
