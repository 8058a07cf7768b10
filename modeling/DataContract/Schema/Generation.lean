import DataContract.Random
import DataContract.Schema.Example

/-!
# Making data

`Schema.generate` makes a value that a schema describes, from its example where examples are
preferred and at random elsewhere.

- A list gets one to three items, and ends before an item that would re-enter a named schema.
- An optional key is left out half of the time, and when its schema would be re-entered.
- A union takes any alternative, and null in place of one that would be re-entered.
-/

namespace DataContract

/-- A computation that draws random numbers and may have no result. The numbers drawn stay drawn
when it has none. -/
abbrev Gen (α : Type) := ExceptT Halt (StateM Rng) α

namespace Gen

/-- Draws. -/
def draw {α : Type} (source : Draw α) : Gen α := liftM source

/-- An attempt, for which nothing is drawn. -/
def attempt {α : Type} : Attempt α → Gen α
  | .ok content => pure content
  | .error halt => throw halt

/-- A computation seen from one level up. -/
def under {α : Type} (segment : String) (body : Gen α) : Gen α :=
  tryCatch body fun halt => throw (halt.under segment)

/-- Runs a computation from a state of the generator. -/
def runFrom {α : Type} (body : Gen α) (rng : Rng) : Attempt α × Rng := body.run.run rng

end Gen

/-- The longest text that is made, whatever a schema allows. -/
def maxTextLength : Nat := 10000

/-- The width of a range of which only one end is given. -/
def defaultSpan : Int := 1000

/-- A text with a length in the range. Without a least length there is at least one character,
without a greatest one there are at most twenty more or less. -/
def LengthRange.generate (range : LengthRange) : Gen Value := do
  let least := range.least.getD 1
  let most := match range.most with
    | some most => min most maxTextLength
    | none => max least 20
  if range.least.any (maxTextLength < ·) then
    throw (.error (.invalid ("string minLength " ++ least.repr ++
      " is above the generation limit of " ++ maxTextLength.repr)))
  match range.most with
  | some declared =>
    if range.least.any (declared < ·) then
      throw (.error (.invalid ("string minLength " ++ least.repr ++
        " is greater than maxLength " ++ declared.repr)))
  | none => pure ()
  return .string (← Gen.draw (Draw.alphanumeric (min least most) most))

/-- The integers that the range allows: its ends rounded inwards and clamped to 64 bits. A missing
end is put the default span away from the other one. -/
def NumberRange.integers (range : NumberRange) : Int × Int :=
  let least := range.least.map fun x => Number.clampSigned x.ceil
  let most := range.most.map fun x => Number.clampSigned x.floor
  match least, most with
  | some least, some most => (least, most)
  | some least, none => (least, Number.clampSigned (least + defaultSpan))
  | none, some most => (Number.clampSigned (most - defaultSpan), most)
  | none, none => (-defaultSpan, defaultSpan)

/-- The doubles that the range allows, a missing end a thousand away from the other one. -/
def NumberRange.doubles (range : NumberRange) : Double × Double :=
  let span := Double.ofInt defaultSpan
  match range.least, range.most with
  | some least, some most => (least, most)
  | some least, none => (least, least.add span)
  | none, some most => (most.sub span, most)
  | none, none => (.zero false, span)

/-- An integer between two ends. Of those with both ends declared, every fifth is an end. -/
def drawInteger (declared : Bool) (least most : Int) : Draw Int := do
  if declared then
    if ← Draw.chance 3689348814741910528 then
      return if ← Draw.coin then least else most
  Draw.int least most

/-- A number in the range. -/
def NumberRange.generate (range : NumberRange) (fractional : Bool) : Gen Value := do
  match range.least, range.most with
  | some least, some most =>
    if most < least then
      throw (.error (.invalid ("number minimum " ++ least.bound ++
        " is greater than maximum " ++ most.bound)))
  | _, _ => pure ()
  if fractional then
    return .number (.double (← Gen.draw (Draw.double range.doubles.1 range.doubles.2)))
  else
    let (least, most) := range.integers
    if most < least then
      throw (.error (.invalid ("no integer lies between minimum " ++ (Number.integer least).text ++
        " and maximum " ++ (Number.integer most).text)))
    return .integer (← Gen.draw (drawInteger (range.least.isSome && range.most.isSome) least most))

/-- A value bound to the key when it fits, otherwise a made one. -/
def generateKeyed (make : Context → Schema → Gen Value) (context : Context) (key : Option String)
    (schema : Schema) : Gen Value := do
  match key.bind fun key => Fields.find? key context.dictionary with
  | none => make context schema
  | some value =>
    if ← Gen.attempt (Attempt.ofOption (schema.accepts context value)) then return value
    else make context schema

/-- Whether an optional key is put in: always where examples are preferred. -/
def includeOptional (context : Context) : Gen Bool :=
  match context.mode with
  | .preferExamples => return true
  | .synthesize => Gen.draw Draw.coin

/-- The items of a list from a place on, up to the first one that is none. -/
def generateItems (make : Gen (Option Value)) (place : Nat) : Nat → Gen (List Value)
  | 0 => return []
  | count + 1 => do
    match ← (make.under ("[" ++ place.repr ++ "]")) with
    | some item => return item :: (← generateItems make (place + 1) count)
    | none => return []

/-- The fields of an object, put one after the other. -/
def generateFields (make : Context → Schema → Gen Value) (context : Context) :
    List (String × Schema) → Fields Value → Gen (Fields Value)
  | [], done => return done
  | (key, schema) :: rest, done => do
    let name := Key.name key
    let optional := Key.isOptional key
    let included ← if optional then includeOptional context else pure true
    if included then
      match ← (context.protect schema optional fun child =>
          generateKeyed make child (some name) schema).under name with
      | some value => generateFields make context rest (Fields.put name value done)
      | none => generateFields make context rest done
    else generateFields make context rest done

namespace Schema

/-- A value of the schema, in so many steps. -/
def generateWithin : Nat → Context → Schema → Gen Value
  | 0, _, _ => throw .endless
  | fuel + 1, context, schema => do
    match ← Gen.attempt (schema.ownExample context) with
    | some value => return value
    | none =>
      match schema with
      | string range _ => range.generate
      | number range fractional _ => range.generate fractional
      | boolean _ => return .boolean (← Gen.draw Draw.coin)
      | null => return .null
      | literal value _ => return value
      | reference name => do
        generateWithin fuel context
          (← Gen.attempt (Attempt.ofExcept (context.registry.lookup name)))
      | object fields _ => return .object (← generateFields (generateWithin fuel) context fields [])
      | list item _ _ => do
        let count ← Gen.draw (Draw.nat 1 3)
        return .array (← generateItems
          (context.protect item true fun child => generateWithin fuel child item) 0 count)
      | union members key title sample => do
        match ← Gen.draw (Draw.choose members) with
        | none =>
          throw (.error (.invalid ((union members key title sample).typeName ++
            " has no alternatives to generate from")))
        | some pick =>
          return (← context.protect pick (listsNull members) fun child =>
            generateKeyed (generateWithin fuel) child key pick).getD .null

/-- Steps enough for any expansion: between two named schemas that are entered every node is passed
at most once, and no name is under expansion more than twice. -/
def expansionBudget (registry : Registry) (schema : Schema) : Nat :=
  let nodes := schema.size + registry.size + 1
  (nodes + 1) * (2 * nodes + 2)

/-- A value of the schema. -/
def generate (context : Context) (schema : Schema) : Gen Value :=
  generateWithin (schema.expansionBudget context.registry) context schema

/-- A value bound to a key when it fits, otherwise a made one. -/
def generateFor (context : Context) (key : Option String) (schema : Schema) : Gen Value :=
  generateKeyed generate context key schema

end Schema
end DataContract
