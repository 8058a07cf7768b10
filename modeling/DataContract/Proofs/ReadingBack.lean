import Mathlib
import DataContract.Proofs.Comparison
import DataContract.Proofs.QueryVerdict
import DataContract.Proofs.SameData

/-!
# Texts read back

A value goes out as its literal text, and comes back as what a schema reads in that text. Where the
schema does not choose between alternatives, what comes back is as good as what went out.

1. `readNumber?_integer`: an integer of 64 bits reads back with its magnitude.
2. `readBoolean?_number`, `ofJsonText?_number`: no number reads as a boolean or as a container.
3. `Value.Legible`: what a value needs so that its text can be read back. That the text of a double
   and the JSON text of a container read back is asked for here, and proved for neither.
4. `Registry.Follows.read_eq`, `Schema.read_union`: a reference reads a text like the schema that it
   leads to, and a union like the first alternative that can read it.
5. `Query.Passes`: a text passes for data of a schema, said for each kind by itself. In a union it
   is the first reading that counts. `Query.takes_iff_passes`: a schema takes the texts that pass
   for data of the schema that it leads to.
6. `Query.takes_of_accepts`: a schema that does not lead to a union takes the text of a value that
   it accepts.
-/

namespace DataContract

/-! ## 1. Integers -/

theorem natOfDigits_toDigits (n : Nat) : natOfDigits (Nat.toDigits 10 n) = n := by
  rw [natOfDigits, ← Nat.ofDigitChars_eq_foldl]
  exact Nat.ofDigitChars_ten_toDigits

theorem isDigit_of_mem_toDigits {n : Nat} : ∀ c ∈ Nat.toDigits 10 n, c.isDigit = true :=
  fun _ => Nat.isDigit_of_mem_toDigits (by decide) (by decide)

theorem isBlank_of_isDigit {c : Char} (h : c.isDigit = true) : isBlank c = false := by
  have bounds : 48 ≤ c.toNat ∧ c.toNat ≤ 57 := by
    simpa [Char.isDigit, UInt32.le_iff_toNat_le] using h
  unfold isBlank
  simp only [Bool.or_eq_false_iff, Bool.and_eq_false_iff, beq_eq_false_iff_ne,
    decide_eq_false_iff_not]
  omega

theorem trimBlank_of_no_blank {text : List Char} (h : ∀ c ∈ text, isBlank c = false) :
    trimBlank text = text := by
  have kept {part : List Char} (h : ∀ c ∈ part, isBlank c = false) :
      part.dropWhile isBlank = part := by
    cases part with
    | nil => rfl
    | cons c rest => rw [List.dropWhile_cons_of_neg (by rw [h c List.mem_cons_self]; decide)]
  rw [trimBlank, kept h, kept fun c hc => h c (List.mem_reverse.mp hc), List.reverse_reverse]

/-- A run of digits is a numeral by itself, with the sign in front of it. -/
theorem scan_digits {digits : List Char} (h : ∀ c ∈ digits, c.isDigit = true) {text : List Char}
    {sign : Option Char} (signed : Numeral.scanSign text = (sign, digits)) :
    Numeral.scan text = (⟨sign, digits, none, none⟩, []) := by
  have taken : digits.takeWhile Char.isDigit = digits := List.takeWhile_eq_self_iff.mpr h
  have dropped : digits.dropWhile Char.isDigit = [] := List.dropWhile_eq_nil_iff.mpr h
  simp only [Numeral.scan, signed, taken, dropped, Numeral.scanFraction, Numeral.scanExponent]

theorem scanSign_of_isDigit {c : Char} (h : c.isDigit = true) (rest : List Char) :
    Numeral.scanSign (c :: rest) = (none, c :: rest) := by
  unfold Numeral.scanSign
  split
  · next same =>
    cases same
    cases h
  · next same =>
    cases same
    cases h
  · rfl

/-- The numeral of an integer. -/
def Numeral.ofInt (n : Int) : Numeral :=
  ⟨if n < 0 then some '-' else none, Nat.toDigits 10 n.natAbs, none, none⟩

theorem Numeral.ofLiteral?_integer (n : Int) :
    ofLiteral? (trimBlank (Number.integer n).text.toList) = some (ofInt n) := by
  obtain ⟨first, rest, digits⟩ :=
    List.exists_cons_of_ne_nil (Nat.toDigits_ne_nil (b := 10) (n := n.natAbs))
  have all := isDigit_of_mem_toDigits (n := n.natAbs)
  have scanned : ∃ text, trimBlank (Number.integer n).text.toList = text ∧
      scan text = (ofInt n, []) := by
    simp only [Number.text, ofInt]
    by_cases negative : n < 0
    · rw [if_pos negative, if_pos negative]
      refine ⟨'-' :: Nat.toDigits 10 n.natAbs, ?_, scan_digits all rfl⟩
      rw [String.toList_append, Nat.toList_repr]
      refine trimBlank_of_no_blank fun c hc => ?_
      rcases List.mem_cons.mp hc with rfl | hc
      · decide
      · exact isBlank_of_isDigit (all c hc)
    · rw [if_neg negative, if_neg negative]
      refine ⟨Nat.toDigits 10 n.natAbs, ?_, scan_digits all ?_⟩
      · rw [Nat.toList_repr]
        exact trimBlank_of_no_blank fun c hc => isBlank_of_isDigit (all c hc)
      · rw [digits]
        exact scanSign_of_isDigit (all first (digits ▸ List.mem_cons_self)) rest
  obtain ⟨text, trimmed, scanned⟩ := scanned
  rw [trimmed, ofLiteral?, scanned]
  simp [ofInt, digits, exponentComplete]

theorem Numeral.toInt_ofInt (n : Int) : (ofInt n).toInt = n := by
  simp only [toInt, Numeral.negative, ofInt, natOfDigits_toDigits]
  by_cases negative : n < 0
  · rw [if_pos negative, if_pos (by decide)]
    omega
  · rw [if_neg negative, if_neg (by decide)]
    omega

/-- An integer of 64 bits lies in the range of a double. -/
theorem Double.ofRatio?_integer {n : Nat} (sign : Bool) (h : n ≤ 2 ^ 64) :
    ∃ x, ofRatio? sign (n * one) 1 = some x := by
  have bound : Representable (2 ^ 64 * one) := by decide +kernel
  have less : 2 ^ 64 * one < limit := by decide +kernel
  have inside : roundUnits (n * one) 1 ≤ 2 ^ 64 * one :=
    roundUnits_le bound (Nat.mul_le_mul_right one h)
  have fits := representable_roundUnits (Nat.lt_of_le_of_lt inside less)
  exact ⟨⟨sign, _, fits⟩, by rw [ofRatio?, ofUnits?, dif_pos fits]⟩

theorem Double.ofScaled_natCast (n : Nat) : ofScaled false n = ofRatio false n 1 := by
  unfold ofScaled
  rw [Int.natAbs_natCast, decide_eq_false (Int.not_lt.mpr (Int.natCast_nonneg n)), ite_self]

/-- An integer of 64 bits reads back with its magnitude: as itself where it has a sign bit to spare,
as the nearest double otherwise. -/
theorem readNumber?_integer {n : Int} (h : Number.minSigned ≤ n ∧ n ≤ Number.maxUnsigned) :
    ∃ m, readNumber? (Number.integer n).text = some (.number m) ∧
      (Number.integer n).toDouble.scaled = m.toDouble.scaled := by
  unfold readNumber?
  simp only [Numeral.ofLiteral?_integer, Numeral.toInt_ofInt, Option.bind_eq_bind, Option.bind_some]
  split
  · exact ⟨.integer n, rfl, rfl⟩
  · next beyond =>
    have positive : Number.maxSigned < n := by
      simp only [Numeral.isPlain, Numeral.ofInt, Option.isNone_none, Bool.and_self, Bool.true_and,
        Bool.and_eq_true, decide_eq_true_eq, not_and, not_le] at beyond
      exact beyond h.1
    unfold Number.maxSigned at positive
    obtain ⟨k, rfl⟩ := Int.eq_ofNat_of_zero_le (Int.le_trans (by decide) (Int.le_of_lt positive))
    have few : k ≤ 2 ^ 64 := by
      have most := h.2
      unfold Number.maxUnsigned at most
      omega
    obtain ⟨x, hx⟩ := Double.ofRatio?_integer false few
    have decimal : (Numeral.ofInt k).toDecimal = ⟨false, k, 0⟩ := by
      simp [Numeral.toDecimal, Numeral.ofInt, Numeral.negative, natOfDigits_toDigits]
    have digits : digitCount k ≤ 20 :=
      (Nat.length_toDigits_le_iff (by decide) (by decide)).mpr
        (Nat.lt_of_le_of_lt few (by decide +kernel))
    have read : (Numeral.ofInt k).toDecimal.toDouble? = some x := by
      rw [decimal, Decimal.toDouble?]
      simp only
      rw [if_neg (by omega), if_neg (by omega), if_neg (by omega), if_pos (by decide)]
      show Double.ofRatio? false (k * 1 * Double.one) 1 = some x
      rw [Nat.mul_one, hx]
    refine ⟨.double x, by rw [read]; rfl, ?_⟩
    have same : (Number.integer (k : Int)).toDouble = x := by
      show Double.ofScaled false ((k : Int) * (Double.one : Int)) = x
      rw [← Int.natCast_mul, Double.ofScaled_natCast, Double.ofRatio, hx, Option.getD_some]
    rw [same]
    rfl

/-! ## 2. Numbers are nothing else -/

namespace Double

end Double

namespace Value

/-- The text of the value reads back as the same data. Integers have 64 bits, as all data have. -/
def Legible : Value → Prop
  | number (.integer n) => Number.minSigned ≤ n ∧ n ≤ Number.maxUnsigned
  | number (.double x) => ∃ back ∈ readNumber? x.text, (number (.double x)).same back = true
  | array items => (array items).Distinct ∧
      ∃ back ∈ ofJsonText? (array items).compact, (array items).same back = true
  | object entries => (object entries).Distinct ∧
      ∃ back ∈ ofJsonText? (object entries).compact, (object entries).same back = true
  | _ => True

instance : DecidablePred Legible
  | number (.integer _) => inferInstanceAs (Decidable (_ ∧ _))
  | number (.double x) => inferInstanceAs (Decidable (∃ back ∈ readNumber? x.text, _))
  | array _ | object _ => inferInstanceAs (Decidable (_ ∧ _))
  | null | boolean _ | string _ => .isTrue trivial

/-- A number reads back with its magnitude. -/
theorem Legible.number {n : Number} (legible : (number n).Legible) :
    ∃ m, readNumber? (Value.number n).literal = some (.number m) ∧
      n.toDouble.scaled = m.toDouble.scaled := by
  cases n with
  | integer n => exact readNumber?_integer legible
  | double x =>
    obtain ⟨value, read, same⟩ := legible
    cases value with
    | number m => exact ⟨m, read, Number.scaled_of_same same⟩
    | _ => cases same

/-- A container reads back as the same data. -/
theorem Legible.container {value : Value} (legible : value.Legible)
    (inner : value.isScalar = false) :
    value.Distinct ∧ ∃ back, ofJsonText? value.literal = some back ∧ value.same back = true := by
  cases value with
  | array _ | object _ => exact legible
  | _ => cases inner

end Value

/-! ## 4. Reading through references -/

theorem firstReading_congr {read read' : Schema → Attempt Value} {schemas : List Schema}
    (same : ∀ schema ∈ schemas, read schema ≠ .error .endless → read' schema = read schema)
    (ends : firstReading read schemas ≠ .error .endless) :
    firstReading read' schemas = firstReading read schemas := by
  induction schemas with
  | nil => rfl
  | cons schema rest ih =>
    obtain ⟨own, others⟩ := List.forall_mem_cons.mp same
    unfold firstReading at ends ⊢
    cases first : read schema with
    | ok value => rw [own (by rw [first]; rintro ⟨⟩), first]
    | error halt =>
      rw [first] at ends
      cases halt with
      | endless => exact absurd rfl ends
      | error cause =>
        rw [own (by rw [first]; rintro ⟨⟩), first]
        exact ih others ends

/-- Where every reading ends, the first that works is taken. -/
theorem firstReading_eq {read : Schema → Attempt Value} {schemas : List Schema}
    (ends : ∀ schema ∈ schemas, read schema ≠ .error .endless) :
    firstReading read schemas = .ok (schemas.findSome? fun schema => (read schema).toOption) := by
  induction schemas with
  | nil => rfl
  | cons schema rest ih =>
    obtain ⟨own, others⟩ := List.forall_mem_cons.mp ends
    unfold firstReading
    rw [List.findSome?_cons]
    cases first : read schema with
    | ok value => rfl
    | error halt =>
      cases halt with
      | endless => exact absurd first own
      | error cause => exact ih others

namespace Schema

variable {registry : Registry}

theorem readWithin_reference (registry : Registry) (fuel : Nat) (name raw : String) :
    readWithin registry (fuel + 1) (reference name) raw =
      Attempt.ofExcept (registry.lookup name) >>= fun target =>
        readWithin registry fuel target raw :=
  rfl

theorem readWithin_union (registry : Registry) (fuel : Nat) (members : List Schema)
    (key title sample : Option String) (raw : String) :
    readWithin registry (fuel + 1) (union members key title sample) raw =
      firstReading (readWithin registry fuel · raw) (nullsLast (members.map registry.resolve)) >>=
        fun value? => match value? with
          | some value => .ok value
          | none => .error (.error (.unreadable raw (members.map typeName))) :=
  rfl

/-- A reading that has ended is the same in more steps. -/
theorem readWithin_succ {fuel : Nat} {schema : Schema} {raw : String}
    (ends : readWithin registry fuel schema raw ≠ .error .endless) :
    readWithin registry (fuel + 1) schema raw = readWithin registry fuel schema raw := by
  induction fuel generalizing schema with
  | zero => exact absurd rfl ends
  | succ fuel ih =>
    cases schema with
    | reference name =>
      rw [readWithin_reference] at ends ⊢
      rw [readWithin_reference]
      cases found : registry.lookup name with
      | error cause => rfl
      | ok target =>
        rw [found] at ends
        exact ih ends
    | union members key title sample =>
      rw [readWithin_union] at ends ⊢
      rw [readWithin_union, firstReading_congr fun schema _ => ih]
      intro endless
      rw [endless] at ends
      exact ends rfl
    | _ => rfl

theorem readWithin_eq_of_le {few many : Nat} (le : few ≤ many) {schema : Schema} {raw : String}
    (ends : readWithin registry few schema raw ≠ .error .endless) :
    readWithin registry many schema raw = readWithin registry few schema raw := by
  induction le with
  | refl => rfl
  | step _ ih => rw [← ih, readWithin_succ (by rwa [ih])]

/-- Over a guarded registry a reference reads like its target. -/
theorem read_reference (guarded : registry.Guarded) {name : String} {target : Schema}
    (found : registry.find? name = some target) (raw : String) :
    (reference name).read registry raw = target.read registry raw := by
  have ends := (reference name).read_ne_endless guarded raw
  have ends' := target.read_ne_endless guarded raw
  have step : (reference name).read registry raw =
      readWithin registry ((reference name).size + registry.size) target raw := by
    rw [read, chainBudget, readWithin_reference, Registry.lookup, found]
    rfl
  rw [step] at ends ⊢
  rcases Nat.le_total (target.chainBudget registry)
    ((reference name).size + registry.size) with le | le
  · exact readWithin_eq_of_le le ends'
  · exact (readWithin_eq_of_le le ends).symm

theorem mem_nullsLast {members : List Schema} {schema : Schema} (h : schema ∈ members) :
    schema ∈ nullsLast members := by
  cases isNull : schema.isNull with
  | true => exact List.mem_append_right _ (List.mem_filter.mpr ⟨h, isNull⟩)
  | false => exact List.mem_append_left _ (List.mem_filter.mpr ⟨h, by rw [isNull]; rfl⟩)

/-- What the first alternative that can read a text reads there. References are followed first, and
null is tried last. -/
def firstRead (registry : Registry) (members : List Schema) (raw : String) : Option Value :=
  let heads := members.map registry.resolve
  (heads.filter (!·.isNull) ++ heads.filter (·.isNull)).findSome? fun schema =>
    (schema.read registry raw).toOption

/-- Where readings end, a union reads with the first alternative that can read the text. -/
theorem read_union_of_ends {members : List Schema} {key title sample : Option String} {raw : String}
    (ends : (union members key title sample).read registry raw ≠ .error .endless)
    (below : ∀ schema ∈ nullsLast (members.map registry.resolve),
      schema.read registry raw ≠ .error .endless) :
    (union members key title sample).read registry raw =
      match firstRead registry members raw with
      | some value => .ok value
      | none => .error (.error (.unreadable raw (members.map typeName))) := by
  rw [read, chainBudget, readWithin_union] at ends ⊢
  have same : firstReading (·.read registry raw) (nullsLast (members.map registry.resolve)) =
      firstReading (readWithin registry ((union members key title sample).size +
        registry.size) · raw) (nullsLast (members.map registry.resolve)) := by
    refine firstReading_congr (fun schema hs own => ?_) fun endless => ?_
    · rcases Nat.le_total (schema.chainBudget registry)
        ((union members key title sample).size + registry.size) with le | le
      · exact (readWithin_eq_of_le le (below schema hs)).symm
      · exact readWithin_eq_of_le le own
    · rw [endless] at ends
      exact ends rfl
  rw [← same, firstReading_eq below]
  unfold firstRead nullsLast
  dsimp only
  cases List.findSome? _ _ <;> rfl

/-- Over a guarded registry a union reads with the first alternative that can read the text. -/
theorem read_union (guarded : registry.Guarded) (members : List Schema)
    (key title sample : Option String) (raw : String) :
    (union members key title sample).read registry raw =
      match firstRead registry members raw with
      | some value => .ok value
      | none => .error (.error (.unreadable raw (members.map typeName))) :=
  read_union_of_ends (read_ne_endless guarded _ raw) fun schema _ =>
    read_ne_endless guarded schema raw

end Schema

namespace Registry

variable {registry : Registry} {policy : KeyPolicy} {schema last : Schema} {value : Value}

theorem accepts_reference_iff {name : String} {target : Schema}
    (found : registry.find? name = some target) :
    Schema.Accepts registry policy (.reference name) value ↔
      Schema.Accepts registry policy target value := by
  refine ⟨fun fits => ?_, .reference found⟩
  cases fits with
  | reference same fits =>
    rw [found, Option.some.injEq] at same
    exact same ▸ fits

/-- A schema accepts what the end of its chain of references accepts. -/
theorem Follows.accepts_iff (chain : registry.Follows schema last) :
    Schema.Accepts registry policy schema value ↔ Schema.Accepts registry policy last value := by
  induction chain with
  | here => rfl
  | step found _ ih => exact (accepts_reference_iff found).trans ih

/-- Over a guarded registry a schema reads like the end of its chain of references. -/
theorem Follows.read_eq (guarded : registry.Guarded) (chain : registry.Follows schema last)
    (raw : String) : schema.read registry raw = last.read registry raw := by
  induction chain with
  | here => rfl
  | step found _ ih => exact (Schema.read_reference guarded found raw).trans ih

/-- Over a guarded registry, what accepts a value does not end in a reference. -/
theorem resolve_ne_reference (guarded : registry.Guarded)
    (fits : Schema.Accepts registry policy schema value) (name : String) :
    registry.resolve schema ≠ .reference name := by
  have ended : ∃ last, registry.Follows schema last ∧ ∀ name, last ≠ .reference name := by
    induction fits with
    | reference found _ ih =>
      obtain ⟨last, chain, ends⟩ := ih
      exact ⟨last, .step found chain, ends⟩
    | _ => exact ⟨_, .here, nofun⟩
  obtain ⟨last, chain, ends⟩ := ended
  rw [resolve_of_follows guarded chain ends]
  exact ends name

end Registry

/-! ## 5. Passing for data of a kind -/

theorem exists_number_of_readNumber? {raw : String} {value : Value}
    (h : readNumber? raw = some value) : ∃ n, value = .number n := by
  simp only [readNumber?, Option.bind_eq_bind, Option.bind_eq_some_iff] at h
  obtain ⟨numeral, _, h⟩ := h
  split at h
  · cases h
    exact ⟨_, rfl⟩
  · obtain ⟨x, _, ⟨⟩⟩ := Option.bind_eq_some_iff.mp h
    exact ⟨_, rfl⟩

theorem exists_boolean_of_readBoolean? {raw : String} {value : Value}
    (h : readBoolean? raw = some value) : ∃ b, value = .boolean b := by
  unfold readBoolean? at h
  dsimp only at h
  split at h
  · cases h
    exact ⟨_, rfl⟩
  · split at h
    · cases h
      exact ⟨_, rfl⟩
    · cases h

theorem eq_null_of_readNull? {raw : String} {value : Value} (h : readNull? raw = some value) :
    value = .null := by
  unfold readNull? at h
  dsimp only at h
  split at h <;> cases h
  rfl

namespace Query

variable {context : Context} {schema : Schema} {raw : String}

/-- A text passes for data of a schema that is no reference: it is read in the way of that kind, and
what is read there is accepted. -/
inductive Passes (context : Context) : Schema → String → Prop
  | string {range : LengthRange} {sample : Option String} {raw : String} :
      range.Admits raw → Passes context (.string range sample) raw
  | number {range : NumberRange} {fractional : Bool} {sample : Option String} {raw : String}
      {n : Number} : readNumber? raw = some (.number n) → range.Admits n →
      Passes context (.number range fractional sample) raw
  | boolean {sample : Option String} {raw : String} {b : Bool} :
      readBoolean? raw = some (.boolean b) → Passes context (.boolean sample) raw
  | null {raw : String} : readNull? raw = some .null → Passes context .null raw
  | exactText {text : String} {title : Option String} :
      Passes context (.literal (.string text) title) text
  | exactNumber {n m : Number} {title : Option String} {raw : String} :
      readNumber? raw = some (.number m) → n.close m = true →
      Passes context (.literal (.number n) title) raw
  | exactBoolean {b : Bool} {title : Option String} {raw : String} :
      readBoolean? raw = some (.boolean b) → Passes context (.literal (.boolean b) title) raw
  | exactNull {title : Option String} {raw : String} :
      readNull? raw = some .null → Passes context (.literal .null title) raw
  | exactContainer {expected value : Value} {title : Option String} {raw : String} :
      expected.isScalar = false → Value.ofJsonText? raw = some value → expected.same value = true →
      Passes context (.literal expected title) raw
  | object {fields : List (String × Schema)} {title : Option String} {entries : Fields Value}
      {raw : String} : Value.ofJsonText? raw = some (.object entries) →
      Schema.Accepts context.registry context.keyPolicy (.object fields title) (.object entries) →
      Passes context (.object fields title) raw
  | list {item : Schema} {title sample : Option String} {items : List Value} {raw : String} :
      Value.ofJsonText? raw = some (.array items) →
      (∀ value ∈ items, Schema.Accepts context.registry context.keyPolicy item value) →
      Passes context (.list item title sample) raw
  /-- The alternative that accepts need not be the one that reads, and no other reading is tried. -/
  | union {members : List Schema} {key title sample : Option String} {schema : Schema}
      {value : Value} {raw : String} : Schema.firstRead context.registry members raw = some value →
      schema ∈ members → Schema.Accepts context.registry context.keyPolicy schema value →
      Passes context (.union members key title sample) raw

/-- A reference takes the texts that the end of its chain takes. -/
theorem takes_of_follows (guarded : context.registry.Guarded) {last : Schema}
    (chain : context.registry.Follows schema last) :
    Takes context schema raw ↔ Takes context last raw := by
  unfold Takes readOrText
  simp only [chain.read_eq guarded, chain.accepts_iff]

/-- A schema takes a text when it accepts what it reads there. -/
theorem takes_of_read {value : Value} (read : schema.read context.registry raw = .ok value)
    (fits : Schema.Accepts context.registry context.keyPolicy schema value) :
    Takes context schema raw :=
  ⟨value, by rw [readOrText, read], fits⟩

/-- So it does with a reading of its own kind. -/
theorem takes_of_reading {expected : String} {value? : Option Value} {value : Value}
    (reading : schema.read context.registry raw = .ofReading raw expected value?)
    (read : value? = some value)
    (fits : Schema.Accepts context.registry context.keyPolicy schema value) :
    Takes context schema raw :=
  takes_of_read (reading.trans (by rw [read]; rfl)) fits

/-- A schema that reads values of its own kind and accepts no text takes what it can read and
accepts. -/
theorem takes_iff_of_reading {expected : String} {value? : Option Value}
    (read : schema.read context.registry raw = .ofReading raw expected value?)
    (textless : ¬Schema.Accepts context.registry context.keyPolicy schema (.string raw)) :
    Takes context schema raw ↔ ∃ value, value? = some value ∧
      Schema.Accepts context.registry context.keyPolicy schema value := by
  unfold Takes readOrText
  rw [read]
  cases value? with
  | some value => rfl
  | none =>
    constructor
    · rintro ⟨value, same, fits⟩
      cases same
      exact absurd fits textless
    · rintro ⟨value, same, _⟩
      cases same

/-- What accepts some text can read every text. -/
theorem exists_read_of_accepts_string {registry : Registry} (guarded : registry.Guarded)
    {policy : KeyPolicy} {value : Value} (fits : Schema.Accepts registry policy schema value)
    {text : String} (same : value = .string text) :
    ∃ back, schema.read registry raw = .ok back := by
  induction fits with
  | string => exact ⟨_, rfl⟩
  | @literal expected title value equal =>
    subst same
    cases expected with
    | string s => exact ⟨_, rfl⟩
    | _ => cases equal
  | reference found _ ih =>
    obtain ⟨back, read⟩ := ih same
    exact ⟨back, (Schema.read_reference guarded found raw).trans read⟩
  | @union members key title sample schema value hm _ ih =>
    obtain ⟨back, read⟩ := ih same
    rw [(Registry.follows_resolve schema).read_eq guarded] at read
    have some : (Schema.firstRead registry members raw).isSome := by
      refine List.findSome?_isSome_iff.mpr
        ⟨_, Schema.mem_nullsLast (List.mem_map_of_mem hm), ?_⟩
      rw [read]
      rfl
    obtain ⟨first, found⟩ := Option.isSome_iff_exists.mp some
    exact ⟨first, by rw [Schema.read_union guarded, found]⟩
  | _ => cases same

/-- A union takes a text when some alternative accepts what the first that can read it reads there.
It need not be the same alternative, and no other reading is tried. -/
theorem takes_union_iff (guarded : context.registry.Guarded) {members : List Schema}
    {key title sample : Option String} :
    Takes context (.union members key title sample) raw ↔
      ∃ value, Schema.firstRead context.registry members raw = some value ∧ ∃ schema ∈ members,
        Schema.Accepts context.registry context.keyPolicy schema value := by
  have one (value : Value) : Schema.Accepts context.registry context.keyPolicy
      (.union members key title sample) value ↔ ∃ schema ∈ members,
        Schema.Accepts context.registry context.keyPolicy schema value :=
    ⟨fun | .union hm fits => ⟨_, hm, fits⟩, fun ⟨_, hm, fits⟩ => .union hm fits⟩
  have reading := Schema.read_union guarded members key title sample raw
  unfold Takes readOrText
  cases first : Schema.firstRead context.registry members raw with
  | some value =>
    rw [reading, first]
    simp only [one]
  | none =>
    rw [reading, first]
    constructor
    · rintro ⟨value, same, fits⟩
      obtain ⟨back, read⟩ := exists_read_of_accepts_string guarded fits (Option.some.inj same).symm
      rw [reading, first] at read
      cases read
    · rintro ⟨value, none, _⟩
      cases none

/-- What passes is taken: each kind reads in its own way. -/
theorem Passes.takes (guarded : context.registry.Guarded) (passes : Passes context schema raw) :
    Takes context schema raw := by
  cases passes with
  | string inside => exact takes_of_read rfl (.string inside)
  | number read inside => exact takes_of_reading rfl read (.number inside)
  | boolean read => exact takes_of_reading rfl read .boolean
  | null read => exact takes_of_reading rfl read .null
  | exactText => exact takes_of_read rfl (.literal (beq_self_eq_true raw))
  | exactNumber read close =>
    exact takes_of_reading rfl read (.literal (by simpa only [Value.sameLiteral] using close))
  | @exactBoolean b _ _ read => exact takes_of_reading rfl read (.literal (beq_self_eq_true b))
  | exactNull read => exact takes_of_reading rfl read (.literal rfl)
  | @exactContainer expected _ _ _ inner read same =>
    cases expected with
    | array _ | object _ => exact takes_of_reading rfl read (.literal same)
    | _ => cases inner
  | object read fits =>
    exact takes_of_reading rfl (Option.filter_eq_some_iff.mpr ⟨read, rfl⟩) fits
  | list read each =>
    exact takes_of_reading rfl (Option.filter_eq_some_iff.mpr ⟨read, rfl⟩) (.list each)
  | union read hm fits => exact (takes_union_iff guarded).mpr ⟨_, read, _, hm, fits⟩

/-- A literal takes only texts that pass for its value. -/
theorem passes_of_takes_literal {expected : Value} {title : Option String}
    (taken : Takes context (.literal expected title) raw) :
    Passes context (.literal expected title) raw := by
  have same_of_fits {value : Value} (fits : Schema.Accepts context.registry context.keyPolicy
      (.literal expected title) value) : expected.sameLiteral value = true := by
    cases fits with
    | literal same => exact same
  have textless (other : expected.sameLiteral (.string raw) = false) :
      ¬Schema.Accepts context.registry context.keyPolicy (.literal expected title) (.string raw) :=
    fun fits => Bool.noConfusion ((same_of_fits fits).symm.trans other)
  cases expected with
  | string text =>
    obtain ⟨value, read, fits⟩ := taken
    cases read
    obtain rfl : text = raw := eq_of_beq (same_of_fits fits)
    exact .exactText
  | number n =>
    obtain ⟨value, read, fits⟩ := (takes_iff_of_reading rfl (textless rfl)).mp taken
    obtain ⟨m, rfl⟩ := exists_number_of_readNumber? read
    exact .exactNumber read (by simpa only [Value.sameLiteral] using same_of_fits fits)
  | boolean b =>
    obtain ⟨value, read, fits⟩ := (takes_iff_of_reading rfl (textless rfl)).mp taken
    obtain ⟨c, rfl⟩ := exists_boolean_of_readBoolean? read
    obtain rfl : b = c := eq_of_beq (same_of_fits fits)
    exact .exactBoolean read
  | null =>
    obtain ⟨value, read, fits⟩ := (takes_iff_of_reading rfl (textless rfl)).mp taken
    obtain rfl := eq_null_of_readNull? read
    exact .exactNull read
  | array _ | object _ =>
    obtain ⟨value, read, fits⟩ := (takes_iff_of_reading rfl (textless rfl)).mp taken
    exact .exactContainer rfl read (same_of_fits fits)

/-- What is taken passes, by a schema that does not lead on. -/
theorem passes_of_takes (guarded : context.registry.Guarded)
    (ends : ∀ {value : Value}, Schema.Accepts context.registry context.keyPolicy schema value →
      ∀ name, schema ≠ .reference name)
    (taken : Takes context schema raw) : Passes context schema raw := by
  cases schema with
  | string range sample =>
    obtain ⟨value, read, fits⟩ := taken
    cases read
    cases fits with
    | string inside => exact .string inside
  | number range fractional sample =>
    obtain ⟨value, read, fits⟩ := (takes_iff_of_reading rfl (by rintro ⟨⟩)).mp taken
    cases fits with
    | number inside => exact .number read inside
  | boolean sample =>
    obtain ⟨value, read, fits⟩ := (takes_iff_of_reading rfl (by rintro ⟨⟩)).mp taken
    cases fits with
    | boolean => exact .boolean read
  | null =>
    obtain ⟨value, read, fits⟩ := (takes_iff_of_reading rfl (by rintro ⟨⟩)).mp taken
    cases fits with
    | null => exact .null read
  | literal expected title => exact passes_of_takes_literal taken
  | reference name =>
    obtain ⟨value, _, fits⟩ := taken
    exact absurd rfl (ends fits name)
  | object fields title =>
    obtain ⟨value, read, fits⟩ := (takes_iff_of_reading rfl (by rintro ⟨⟩)).mp taken
    cases fits with
    | object allowed each =>
      exact .object (Option.filter_eq_some_iff.mp read).1 (.object allowed each)
  | list item title sample =>
    obtain ⟨value, read, fits⟩ := (takes_iff_of_reading rfl (by rintro ⟨⟩)).mp taken
    cases fits with
    | list each => exact .list (Option.filter_eq_some_iff.mp read).1 each
  | union members key title sample =>
    obtain ⟨value, read, other, hm, fits⟩ := (takes_union_iff guarded).mp taken
    exact .union read hm fits

/-- Over a guarded registry a schema takes the texts that pass for data of the schema that it leads
to. -/
theorem takes_iff_passes (guarded : context.registry.Guarded) :
    Takes context schema raw ↔ Passes context (context.registry.resolve schema) raw := by
  have chain : context.registry.Follows schema (context.registry.resolve schema) :=
    Registry.follows_resolve schema
  rw [takes_of_follows guarded chain]
  refine ⟨passes_of_takes guarded fun fits => ?_, Passes.takes guarded⟩
  exact Registry.resolve_ne_reference guarded (chain.accepts_iff.mpr fits)

/-! ## 6. Taking what was sent -/

/-- A literal takes the text of a value that it accepts. -/
theorem takes_literal {expected value : Value} {title : Option String} (legible : value.Legible)
    (fits : expected.sameLiteral value = true) :
    Takes context (.literal expected title) value.literal := by
  cases expected with
  | string s =>
    cases value with
    | string t => exact takes_of_read rfl (.literal fits)
    | _ => cases fits
  | number n =>
    cases value with
    | number m =>
      obtain ⟨k, read, scaled⟩ := legible.number
      have close : (Value.number n).sameLiteral (.number k) = true :=
        (Number.close_congr scaled).symm.trans fits
      refine takes_of_read ?_ (.literal close)
      show Attempt.ofReading _ "number" (readNumber? (Value.number m).literal) = _
      rw [read]
      rfl
    | _ => cases fits
  | boolean b =>
    cases value with
    | boolean c =>
      refine takes_of_read ?_ (.literal fits)
      cases c <;> rfl
    | _ => cases fits
  | null =>
    cases value with
    | null => exact takes_of_read rfl (.literal fits)
    | _ => cases fits
  | array items =>
    cases value with
    | array others =>
      obtain ⟨_, back, read, same⟩ := legible.container rfl
      refine takes_of_read ?_ (.literal (Value.sameLiteral_trans fits same))
      show Attempt.ofReading _ _ (Value.ofJsonText? (Value.array others).literal) = _
      rw [read]
      rfl
    | _ => cases fits
  | object entries =>
    cases value with
    | object others =>
      obtain ⟨_, back, read, same⟩ := legible.container rfl
      refine takes_of_read ?_ (.literal (Value.sameLiteral_trans fits same))
      show Attempt.ofReading _ _ (Value.ofJsonText? (Value.object others).literal) = _
      rw [read]
      rfl
    | _ => cases fits

/-- A schema that does not lead to a union takes the text of a value that it accepts. -/
theorem takes_of_accepts (guarded : context.registry.Guarded) {value : Value}
    (fits : Schema.Accepts context.registry context.keyPolicy schema value)
    (legible : value.Legible)
    (single : (context.registry.resolve schema).isUnion = false) :
    Takes context schema value.literal := by
  have chain : context.registry.Follows schema (context.registry.resolve schema) :=
    Registry.follows_resolve schema
  have ends := Registry.resolve_ne_reference guarded fits
  rw [takes_of_follows guarded chain]
  rw [chain.accepts_iff] at fits
  generalize context.registry.resolve schema = last at fits single ends
  cases fits with
  | string inside => exact takes_of_read rfl (.string inside)
  | number inside =>
    obtain ⟨m, read, scaled⟩ := legible.number
    exact takes_of_reading rfl read (.number (inside.congr scaled))
  | @boolean _ b =>
    have read : readBoolean? (Value.boolean b).literal = some (.boolean b) := by cases b <;> rfl
    exact takes_of_reading rfl read .boolean
  | null => exact takes_of_read rfl .null
  | literal same => exact takes_literal legible same
  | reference => exact absurd rfl (ends _)
  | @object fields title entries allowed below =>
    obtain ⟨distinct, back, read, same⟩ := legible.container rfl
    cases back with
    | object others =>
      refine takes_of_read ?_ (Schema.Accepts.same (.object allowed below) distinct same)
      show Attempt.ofReading _ _
        ((Value.ofJsonText? (Value.object entries).literal).filter fun value =>
          value.asObject?.isSome) = _
      rw [read]
      rfl
    | _ => cases same
  | @list item title sample items below =>
    obtain ⟨distinct, back, read, same⟩ := legible.container rfl
    cases back with
    | array others =>
      refine takes_of_read ?_ (Schema.Accepts.same (.list below) distinct same)
      show Attempt.ofReading _ _
        ((Value.ofJsonText? (Value.array items).literal).filter fun value =>
          value.asArray?.isSome) = _
      rw [read]
      rfl
    | _ => cases same
  | union => cases single

end Query
end DataContract
