import Mathlib
import DataContract.Proofs.Acceptance
import DataContract.Proofs.WellPosed
import DataContract.Schema.Generation

/-!
# What a generation can end in

A generation ends in a value or in a halt, and which one depends on the numbers drawn. `Gen.Ends`
says of all of them at once what the value and the halt are like.

1. `Gen.Ends` with one rule for each way to put generations together; `Gen.Yields` speaks of the
   value alone.
2. `LengthRange.generate_yields`, `NumberRange.generate_yields`: texts and numbers that are made
   lie in their ranges.
3. `Context.ends_protect`: a computation under expansion ends like its body, or in nothing at a
   place that can end the recursion.
-/

namespace DataContract

/-- What the value of an attempt is like, and what its halt is like. -/
def Attempt.Ends {α : Type} (value : α → Prop) (halt : Halt → Prop) : Attempt α → Prop
  | .ok content => value content
  | .error cause => halt cause

namespace Attempt

variable {α β : Type} {value value' : α → Prop} {halt halt' : Halt → Prop}

theorem ends_mono {attempt : Attempt α} (h : attempt.Ends value halt)
    (hv : ∀ a, value a → value' a) (hh : ∀ cause, halt cause → halt' cause) :
    attempt.Ends value' halt' := by
  cases attempt with
  | ok a => exact hv a h
  | error cause => exact hh cause h

theorem ends_bind {first : Attempt α} {next : α → Attempt β} {last : β → Prop}
    (h : first.Ends (fun a => (next a).Ends last halt) halt) : (first >>= next).Ends last halt := by
  cases first <;> exact h

theorem ends_ofOption {result : Option α} (h : result.isSome) :
    (ofOption result).Ends (fun _ => True) halt := by
  cases result with
  | none => cases h
  | some a => trivial

end Attempt

namespace Gen

variable {α β : Type} {value : α → Prop} {halt : Halt → Prop}

/-- Whatever numbers are drawn, the value is as said if there is one, and else the halt. -/
def Ends (body : Gen α) (value : α → Prop) (halt : Halt → Prop) : Prop :=
  ∀ rng, ((body.runFrom rng).1).Ends value halt

/-- Whatever numbers are drawn, the value is as said if there is one. -/
def Yields (body : Gen α) (value : α → Prop) : Prop := body.Ends value fun _ => True

/-! ## 1. Putting generations together -/

theorem runFrom_bind (body : Gen α) (next : α → Gen β) (rng : Rng) :
    (body >>= next).runFrom rng =
      match body.runFrom rng with
      | (.ok a, rng') => (next a).runFrom rng'
      | (.error cause, rng') => (.error cause, rng') := by
  show (match body.run.run rng with
    | (result, rng') => (ExceptT.bindCont next result).run rng') = _
  unfold runFrom
  rcases body.run.run rng with ⟨_ | _, _⟩ <;> rfl

theorem runFrom_tryCatch (body : Gen α) (handle : Halt → Gen α) (rng : Rng) :
    (tryCatch body handle).runFrom rng =
      match body.runFrom rng with
      | (.ok a, rng') => (.ok a, rng')
      | (.error cause, rng') => (handle cause).runFrom rng' := by
  unfold runFrom ExceptT.run StateT.run
  simp only [tryCatch, tryCatchThe, MonadExceptOf.tryCatch, ExceptT.tryCatch, ExceptT.mk, bind,
    StateT.bind]
  rcases body rng with ⟨_ | _, _⟩ <;> rfl

theorem ends_mono {value' : α → Prop} {halt' : Halt → Prop} {body : Gen α}
    (h : body.Ends value halt) (hv : ∀ a, value a → value' a)
    (hh : ∀ cause, halt cause → halt' cause) :
    body.Ends value' halt' :=
  fun rng => Attempt.ends_mono (h rng) hv hh

theorem ends_pure {a : α} (h : value a) : (pure a : Gen α).Ends value halt := fun _ => h

theorem ends_throw {cause : Halt} (h : halt cause) : (throw cause : Gen α).Ends value halt :=
  fun _ => h

theorem ends_bind {body : Gen α} {next : α → Gen β} {last : β → Prop}
    (h : body.Ends (fun a => (next a).Ends last halt) halt) : (body >>= next).Ends last halt := by
  intro rng
  have first := h rng
  rw [runFrom_bind]
  revert first
  rcases body.runFrom rng with ⟨_ | a, rng'⟩
  · exact id
  · exact fun next => next rng'

theorem ends_map {body : Gen α} {f : α → β} {last : β → Prop}
    (h : body.Ends (fun a => last (f a)) halt) : (f <$> body).Ends last halt := by
  show (body >>= fun a => pure (f a)).Ends last halt
  exact ends_bind (ends_mono h (fun _ => ends_pure) fun _ => id)

theorem ends_draw {source : Draw α} (h : ∀ rng, value (source rng).1) :
    (draw source).Ends value halt := h

theorem ends_attempt {result : Attempt α} (h : result.Ends value halt) :
    (attempt result).Ends value halt := by
  cases result with
  | ok a => exact ends_pure h
  | error cause => exact ends_throw h

theorem ends_tryCatch {body : Gen α} {handle : Halt → Gen α}
    (h : body.Ends value fun cause => (handle cause).Ends value halt) :
    (tryCatch body handle).Ends value halt := by
  intro rng
  have first := h rng
  rw [runFrom_tryCatch]
  revert first
  rcases body.runFrom rng with ⟨cause | a, rng'⟩
  · exact fun handled => handled rng'
  · exact id

theorem ends_under (segment : String) {body : Gen α}
    (h : body.Ends value fun cause => halt (cause.under segment)) :
    (body.under segment).Ends value halt :=
  ends_tryCatch (ends_mono h (fun _ => id) fun _ => ends_throw)

theorem yields_bind {body : Gen α} {next : α → Gen β} {last : β → Prop}
    (h : body.Yields fun a => (next a).Yields last) : (body >>= next).Yields last :=
  ends_bind h

theorem yields_under (segment : String) {body : Gen α} (h : body.Yields value) :
    (body.under segment).Yields value :=
  ends_under segment h

theorem yields_throw {cause : Halt} : (throw cause : Gen α).Yields value := ends_throw trivial

theorem yields_trivial (body : Gen α) : body.Yields fun _ => True := by
  intro rng
  cases (body.runFrom rng).1 <;> trivial

theorem Yields.mono {value' : α → Prop} {body : Gen α} (h : body.Yields value)
    (hv : ∀ a, value a → value' a) : body.Yields value' :=
  ends_mono h hv fun _ => id

end Gen

/-- An error that is no cycle. -/
def Halt.Plain : Halt → Prop
  | .error cause => cause.isCycle = false
  | .endless => False

open Gen

/-! ## 2. Texts and numbers -/

namespace Draw

/-- A double is drawn between its ends. -/
theorem double_mem {low high : Double} (h : low ≤ high) (g : Rng) :
    low ≤ (double low high g).1 ∧ (double low high g).1 ≤ high := by
  obtain ⟨drawn, shape⟩ : ∃ drawn : Double, (double low high g).1 =
      if drawn < low then low else if high < drawn then high else drawn := ⟨_, rfl⟩
  rw [shape]
  simp only [Double.le_iff, Double.lt_iff] at h ⊢
  split
  · omega
  · split <;> omega

end Draw

theorem drawInteger_mem {least most : Int} (h : least ≤ most) (declared : Bool) (g : Rng) :
    least ≤ (drawInteger declared least most g).1 ∧
    (drawInteger declared least most g).1 ≤ most := by
  cases declared with
  | false => exact Draw.int_mem h g
  | true =>
    unfold drawInteger
    simp only [bind, StateT.bind, if_true]
    split
    · next atEnd _ _ =>
      cases atEnd with
      | false => exact Draw.int_mem h _
      | true =>
        show least ≤ (if _ then least else most) ∧ (if _ then least else most) ≤ most
        split
        · exact ⟨Int.le_refl _, h⟩
        · exact ⟨h, Int.le_refl _⟩

/-- A computation that may stop first goes on where it does not. -/
theorem Gen.ends_guard {α : Type} {value : α → Prop} {halt : Halt → Prop} {stop : Prop}
    [Decidable stop] {cause : Halt} {next : Unit → Gen α} (stopped : stop → halt cause)
    (goes : ¬stop → (next ()).Ends value halt) :
    (if stop then (throw cause : Gen Unit) >>= next else next ()).Ends value halt := by
  split
  · next h => exact ends_bind (ends_throw (stopped h))
  · next h => exact goes h

/-- A text that is made has a length in the range; else the range is refused. -/
theorem LengthRange.ends_generate (range : LengthRange) :
    range.generate.Ends (fun value => ∃ text, value = .string text ∧ range.Admits text)
      Halt.Plain := by
  obtain ⟨least, most⟩ := range
  unfold generate
  refine ends_guard (fun _ => rfl) fun small => ?_
  cases most with
  | none =>
    refine ends_bind (ends_draw fun rng => ends_pure ⟨_, rfl, ?_, nofun⟩)
    rintro declared rfl
    have := (Draw.alphanumeric_length (Nat.min_le_right declared (max declared 20)) rng).1
    simp only [Option.getD_some]
    omega
  | some most =>
    refine ends_guard (fun _ => rfl) fun ordered => ?_
    refine ends_bind (ends_draw fun rng => ends_pure ⟨_, rfl, ?_⟩)
    simp only
    have drawn := Draw.alphanumeric_length
      (Nat.min_le_right (least.getD 1) (min most maxTextLength)) rng
    constructor
    · rintro declared rfl
      simp only [Option.any_some, decide_eq_true_eq, Nat.not_lt] at small ordered
      simp only [Option.getD_some] at drawn ⊢
      omega
    · rintro _ ⟨⟩
      omega

namespace NumberRange

theorem clampSigned_of_mem {n : Int} (h : Number.minSigned ≤ n ∧ n ≤ Number.maxSigned) :
    Number.clampSigned n = n := by
  unfold Number.clampSigned
  omega

/-- The ends between which integers are drawn are the bounds rounded inwards. -/
theorem integers_of_signed {range : NumberRange} (h : range.Signed) :
    (∀ least, range.least = some least → range.integers.1 = least.ceil) ∧
      ∀ most, range.most = some most → range.integers.2 = most.floor := by
  obtain ⟨least, most⟩ := range
  unfold integers
  constructor
  · rintro least rfl
    have := clampSigned_of_mem (h.1 least rfl).ceil_mem
    cases most <;> exact this
  · rintro most rfl
    have := clampSigned_of_mem (h.2 most rfl).floor_mem
    cases least <;> exact this

theorem span_nonneg : 0 ≤ (Double.ofInt defaultSpan).scaled := by
  have zero : (Double.zero false).scaled = 0 := rfl
  rw [Double.ofInt, ← zero]
  refine Double.le_ofScaled false ?_
  rw [zero]
  exact Int.mul_nonneg (by decide) (Int.natCast_nonneg Double.one)

/-- The ends between which doubles are drawn are in order and keep the bounds. -/
theorem doubles_ordered {range : NumberRange}
    (h : ∀ least most, range.least = some least → range.most = some most → least ≤ most) :
    range.doubles.1 ≤ range.doubles.2 ∧
      (∀ least, range.least = some least → range.doubles.1 = least) ∧
      ∀ most, range.most = some most → range.doubles.2 = most := by
  obtain ⟨least, most⟩ := range
  have nonneg := span_nonneg
  unfold doubles
  generalize Double.ofInt defaultSpan = span at nonneg ⊢
  rcases least with _ | least <;> rcases most with _ | most <;> dsimp only
  · exact ⟨nonneg, by simp, by simp⟩
  · exact ⟨Double.sub_le nonneg, by simp, by simp⟩
  · exact ⟨Double.le_add nonneg, by simp, by simp⟩
  · exact ⟨h least most rfl rfl, by simp, by simp⟩

/-- A number that is made lies in the range where its bounds are signed; else the range is
refused. -/
theorem ends_generate (range : NumberRange) (fractional : Bool) :
    (range.generate fractional).Ends
      (fun value => ∃ n, value = .number n ∧ (range.Signed → range.Admits n)) Halt.Plain := by
  unfold generate
  extract_lets drawn
  have right (ordered : ∀ least most, range.least = some least → range.most = some most →
      least ≤ most) : (drawn ()).Ends
        (fun value => ∃ n, value = .number n ∧ (range.Signed → range.Admits n)) Halt.Plain := by
    simp only [drawn]
    cases fractional with
    | true =>
      obtain ⟨le, least, most⟩ := doubles_ordered ordered
      refine ends_bind (ends_draw fun rng => ends_pure ⟨_, rfl, fun _ => ?_⟩)
      have inside := Draw.double_mem le rng
      exact ⟨fun x hx => least x hx ▸ inside.1, fun x hx => most x hx ▸ inside.2⟩
    | false =>
      simp only [Bool.false_eq_true, if_false]
      refine ends_guard (fun _ => rfl) fun le => ?_
      refine ends_bind (ends_draw fun rng => ends_pure ⟨_, rfl, fun signed => ?_⟩)
      obtain ⟨least, most⟩ := integers_of_signed signed
      have inside :=
        drawInteger_mem (Int.not_lt.mp le) (range.least.isSome && range.most.isSome) rng
      exact ⟨fun x hx => Double.le_toDouble_of_ceil_le (least x hx ▸ inside.1),
        fun x hx => Double.toDouble_le_of_le_floor (most x hx ▸ inside.2)⟩
  split
  · next least most hl hm =>
    refine ends_guard (fun _ => rfl) fun le => right fun x y hx hy => ?_
    rw [hl] at hx
    rw [hm] at hy
    cases hx
    cases hy
    exact Int.not_lt.mp le
  · next other => exact right fun x y hx hy => (other x y hx hy).elim

end NumberRange

/-! ## 3. Named schemas under expansion -/

/-- Whether a halt is a cycle error. -/
def Halt.isCycle : Halt → Bool
  | .error cause => cause.isCycle
  | .endless => false

namespace Context

variable {context child : Context} {schema : Schema} {nullable : Bool}

/-- Entering a schema changes nothing but what is under expansion. -/
theorem expanding_of_enter (h : context.enter schema nullable = .ok (some child)) :
    ∃ expanding, child = { context with expanding := expanding } := by
  unfold enter at h
  split at h
  · cases h
    exact ⟨context.expanding, rfl⟩
  · split at h
    · split at h <;> cases h
    · cases h
      exact ⟨_, rfl⟩

theorem nullable_of_enter_none (h : context.enter schema nullable = .ok none) :
    nullable = true := by
  unfold enter at h
  split at h
  · cases h
  · split at h
    · split at h
      · assumption
      · cases h
    · cases h

/-- Where the recursion can end, no schema is refused. -/
theorem enter_nullable_ne_error {cause : SchemaError} :
    context.enter schema true ≠ .error cause := by
  unfold enter
  split
  · exact nofun
  · split <;> exact nofun

/-- A computation under expansion ends like its body. Where the recursion can end, a cycle inside
or a schema that is re-entered gives nothing; elsewhere both are errors. -/
theorem ends_protect {α : Type} {body : Context → Gen α} {value : Option α → Prop}
    {halt : Halt → Prop}
    (refused : ∀ cause, context.enter schema nullable = .error cause → halt (.error cause))
    (left : nullable = true → value none)
    (entered : ∀ child, context.enter schema nullable = .ok (some child) →
      (body child).Ends (fun a => value (some a))
        fun cause => (cause.isCycle = true → nullable = false) → halt cause) :
    (context.protect schema nullable body : Gen (Option α)).Ends value halt := by
  unfold protect
  cases he : context.enter schema nullable with
  | error cause => exact ends_throw (refused cause he)
  | ok child? =>
    cases child? with
    | none => exact ends_pure (left (nullable_of_enter_none he))
    | some child =>
      refine ends_tryCatch
        (ends_map (ends_mono (entered child he) (fun _ => id) fun cause hc => ?_))
      rcases cause with (_ | _ | stack | _ | _) | _ <;> simp only
      case error.cycle =>
        split
        · next h => exact ends_pure (left h)
        · next h => exact ends_throw (hc fun _ => Bool.eq_false_iff.mpr h)
      all_goals exact ends_throw (hc nofun)

theorem yields_protect {α : Type} {body : Context → Gen α} {value : Option α → Prop}
    (left : nullable = true → value none)
    (entered : ∀ child, context.enter schema nullable = .ok (some child) →
      (body child).Yields fun a => value (some a)) :
    (context.protect schema nullable body : Gen (Option α)).Yields value :=
  ends_protect (fun _ _ => trivial) left fun child he =>
    ends_mono (entered child he) (fun _ => id) fun _ _ _ => trivial

end Context
end DataContract
