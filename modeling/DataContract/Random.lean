import DataContract.Number.Double

/-!
# Random numbers

The xoshiro256++ generator with its four words, and the draws made from it.

- `Rng.ofSeed`: a generator from a 64-bit seed.
- `Draw.below`: a number below a bound, uniform by rejection.
- `Draw.int`, `Draw.nat`, `Draw.double`: a number between two ends, both included.
- `Draw.choose`, `Draw.chance`, `Draw.alphanumeric`: an element, a coin, a text.

Whatever the state of the generator, the draws keep to their ranges (`Draw.int_mem`, `Draw.nat_mem`,
`Draw.choose_mem`, `Draw.alphanumeric_length`).
-/

namespace DataContract

/-- The state of the generator. -/
structure Rng where
  s0 : UInt64
  s1 : UInt64
  s2 : UInt64
  s3 : UInt64
  deriving DecidableEq

namespace Rng

def rotateLeft (x turn : UInt64) : UInt64 := (x <<< turn) ||| (x >>> (64 - turn))

/-- The seeding sequence: a 64-bit congruential step with a permuted output of 32 bits. -/
def seedStep (state : UInt64) : UInt64 := state * 6364136223846793005 + 11634580027462260723

def seedWord (state : UInt64) : UInt32 :=
  let x := (((state >>> 18) ^^^ state) >>> 27).toUInt32
  let turn := (state >>> 59).toUInt32
  (x >>> turn) ||| (x <<< ((32 - turn) % 32))

/-- A 64-bit word of two seed outputs, the low half first, and the state behind it. -/
def seedPair (state : UInt64) : UInt64 × UInt64 :=
  let low := seedStep state
  let high := seedStep low
  ((seedWord low).toUInt64 ||| ((seedWord high).toUInt64 <<< 32), high)

/-- The generator of a seed. -/
def ofSeed (seed : UInt64) : Rng :=
  let (s0, state) := seedPair seed
  let (s1, state) := seedPair state
  let (s2, state) := seedPair state
  let (s3, _) := seedPair state
  ⟨s0, s1, s2, s3⟩

/-- The next word and the state behind it. -/
def next (g : Rng) : UInt64 × Rng :=
  let word := rotateLeft (g.s0 + g.s3) 23 + g.s0
  let t := g.s1 <<< 17
  let s2 := g.s2 ^^^ g.s0
  let s3 := g.s3 ^^^ g.s1
  let s1 := g.s1 ^^^ s2
  let s0 := g.s0 ^^^ s3
  (word, ⟨s0, s1, s2 ^^^ t, rotateLeft s3 45⟩)

end Rng

/-- A computation that draws random numbers. -/
abbrev Draw (α : Type) := StateM Rng α

namespace Draw

/-- Draws a word. -/
def word : Draw Nat := fun g => ((Rng.next g).1.toNat, (Rng.next g).2)

/-- Draws the upper half of a word. -/
def halfWord : Draw Nat := do return (← word) / 2 ^ 32

/-- Scales words of so many bits to the range below `bound` and drops the words that would make
some results more likely. After a thousand of them, one is kept all the same. -/
def belowWithin (bits : Nat) (source : Draw Nat) (bound : Nat) : Nat → Draw Nat
  | 0 => do return bound * (← source) / 2 ^ bits
  | fuel + 1 => do
    let scaled := bound * (← source)
    let zone := bound * 2 ^ (bits - 1 - bound.log2) - 1
    if scaled % 2 ^ bits ≤ zone then return scaled / 2 ^ bits
    else belowWithin bits source bound fuel

/-- A number below `bound`, from whole words. -/
def below (bound : Nat) : Draw Nat := belowWithin 64 word bound 1000

/-- An integer between two ends. Where their range has as many integers as there are words, every
word is kept and read with a sign. -/
def int (low high : Int) : Draw Int := do
  let count := (high - low + 1).toNat
  if count = 2 ^ 64 then return low + (((← word) + 2 ^ 63) % 2 ^ 64 : Nat)
  else return low + (← below count)

/-- A natural number between two ends. -/
def nat (low high : Nat) : Draw Nat := do return low + (← below (high - low + 1))

/-- An element of a list, from half words; none of the empty list, for which nothing is drawn. -/
def choose {α : Type} : List α → Draw (Option α)
  | [] => return none
  | items => do return items[← belowWithin 32 halfWord items.length 1000]?

/-- True for `threshold` of the 2^64 words. -/
def chance (threshold : Nat) : Draw Bool := do return (← word) < threshold

/-- True half of the time. -/
def coin : Draw Bool := chance (2 ^ 63)

/-- The scale, at most the given one, whose largest draw stays below `high`. -/
def fitScale (largest low high : Double) : Nat → Double → Double
  | 0, scale => scale
  | fuel + 1, scale =>
    if high < (scale.mul largest).add low then fitScale largest low high fuel scale.towardZero
    else scale

/-- A double between two ends: one of 2^52 steps, scaled and moved. Where the distance of the ends
is beyond a double, a sampler that knows infinities refuses to draw; here the distance is the
largest double, and the result is kept between the ends. -/
def double (low high : Double) : Draw Double := do
  let largest := (Double.ofInt 1).sub (Double.halved 52)
  let scale := fitScale largest low high 64 ((high.sub low).div largest)
  let step := Double.ofRatio false ((← word) / 2 ^ 12 * Double.one) (2 ^ 52)
  let drawn := (step.mul scale).add low
  return if drawn < low then low else if high < drawn then high else drawn

/-- Letters and digits. -/
def alphabet : List Char :=
  "abcdefghijklmnopqrstuvwxyzABCDEFGHIJKLMNOPQRSTUVWXYZ0123456789".toList

/-- So many letters and digits. -/
def characters : Nat → Draw (List Char)
  | 0 => return []
  | count + 1 => do
    let c := (alphabet[← below alphabet.length]?).getD 'a'
    return c :: (← characters count)

/-- A text of letters and digits whose length is between two ends. The length is drawn first. -/
def alphanumeric (shortest longest : Nat) : Draw String := do
  return String.ofList (← characters (← nat shortest longest))

/-! ## Ranges of the draws -/

theorem word_lt (g : Rng) : (word g).1 < 2 ^ 64 := (Rng.next g).1.toNat_lt

theorem scaled_lt {bits bound n : Nat} (hb : 0 < bound) (hn : n < 2 ^ bits) :
    bound * n / 2 ^ bits < bound := by
  rw [Nat.div_lt_iff_lt_mul (Nat.two_pow_pos bits)]
  exact Nat.mul_lt_mul_of_pos_left hn hb

theorem belowWithin_lt {bits bound : Nat} {source : Draw Nat} (hb : 0 < bound)
    (hs : ∀ g, (source g).1 < 2 ^ bits) (fuel : Nat) (g : Rng) :
    (belowWithin bits source bound fuel g).1 < bound := by
  induction fuel generalizing g with
  | zero => exact scaled_lt hb (hs g)
  | succ fuel ih =>
    have step : belowWithin bits source bound (fuel + 1) g =
        if bound * (source g).1 % 2 ^ bits ≤ bound * 2 ^ (bits - 1 - bound.log2) - 1 then
          (bound * (source g).1 / 2 ^ bits, (source g).2)
        else belowWithin bits source bound fuel (source g).2 := by
      simp only [belowWithin, bind, StateT.bind]
      generalize source g = drawn
      obtain ⟨n, g⟩ := drawn
      simp only
      split <;> rfl
    rw [step]
    split
    · exact scaled_lt hb (hs g)
    · exact ih _

theorem below_lt {bound : Nat} (hb : 0 < bound) (g : Rng) : (below bound g).1 < bound :=
  belowWithin_lt hb word_lt 1000 g

/-- A natural number lies between its ends. -/
theorem nat_mem {low high : Nat} (h : low ≤ high) (g : Rng) :
    low ≤ (nat low high g).1 ∧ (nat low high g).1 ≤ high := by
  have hb := @below_lt (high - low + 1) (by omega) g
  have value : (nat low high g).1 = low + (below (high - low + 1) g).1 := rfl
  omega

/-- An integer lies between its ends. -/
theorem int_mem {low high : Int} (h : low ≤ high) (g : Rng) :
    low ≤ (int low high g).1 ∧ (int low high g).1 ≤ high := by
  unfold int
  by_cases hc : (high - low + 1).toNat = 2 ^ 64
  · have hm : ((word g).1 + 2 ^ 63) % 2 ^ 64 < 2 ^ 64 := Nat.mod_lt _ (Nat.two_pow_pos 64)
    have value : ((do return low + (((← word) + 2 ^ 63) % 2 ^ 64 : Nat)) : Draw Int) g =
      (low + ((((word g).1 + 2 ^ 63) % 2 ^ 64 : Nat) : Int), (word g).2) := rfl
    simp only [hc, if_true]
    rw [value]
    simp only
    omega
  · have hb := @below_lt ((high - low + 1).toNat) (by omega) g
    have value : ((do return low + (← below (high - low + 1).toNat)) : Draw Int) g =
      (low + ((below (high - low + 1).toNat g).1 : Int), (below (high - low + 1).toNat g).2) := rfl
    simp only [hc, if_false]
    rw [value]
    simp only
    omega

theorem choose_mem {α : Type} {items : List α} {a : α} {g : Rng}
    (h : (choose items g).1 = some a) : a ∈ items := by
  cases items with
  | nil => cases h
  | cons first rest => exact List.mem_of_getElem? (h : (first :: rest)[_]? = some a)

theorem characters_length (count : Nat) (g : Rng) : (characters count g).1.length = count := by
  induction count generalizing g with
  | zero => rfl
  | succ count ih => exact congrArg (· + 1) (ih _)

/-- The length of a text lies between its ends. -/
theorem alphanumeric_length {shortest longest : Nat} (h : shortest ≤ longest) (g : Rng) :
    shortest ≤ (alphanumeric shortest longest g).1.toList.length ∧
      (alphanumeric shortest longest g).1.toList.length ≤ longest := by
  have value : (alphanumeric shortest longest g).1.toList.length = (nat shortest longest g).1 := by
    have shape : (alphanumeric shortest longest g).1 =
        String.ofList (characters (nat shortest longest g).1 (nat shortest longest g).2).1 := rfl
    rw [shape, String.toList_ofList, characters_length]
  rw [value]
  exact nat_mem h g

end Draw
end DataContract
