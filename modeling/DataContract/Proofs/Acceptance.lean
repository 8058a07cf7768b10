import Mathlib
import DataContract.Proofs.Guarded
import DataContract.Schema.Check

/-!
# Acceptance as a relation

Whether a value fits a schema, said without steps and without reports. `Schema.check` computes it:

1. `Context.keyProblems_eq_nil_iff`, `LengthRange.isAccepted_check`, `NumberRange.isAccepted_check`:
   the parts of a check that look at one node.
2. `Schema.isAccepted_checkWithin_iff`: a verdict, whenever there is one, tells acceptance.
3. `Schema.Consults`: the checks that a check makes. There is a verdict when each of these has one
   (`Schema.checkWithin_succ_isSome_iff`).
4. `Schema.checkWithin_isSome`, `Schema.check_isSome`: over a guarded registry there is a verdict on
   every value.
5. `Schema.accepts_iff`: hence `Schema.accepts` decides `Schema.Accepts`.
-/

namespace DataContract

/-- The keys of some data suit a declaration, as far as a policy reports problems. -/
structure KeyPolicy.Allows (policy : KeyPolicy) (declared actual : List String) : Prop where
  present : policy.missing = true → ∀ key ∈ declared, Key.isOptional key = false → key ∈ actual
  expected : policy.unexpected = true → ∀ name ∈ actual, ∃ key ∈ declared, Key.name key = name

/-- The number of characters lies in the range. -/
def LengthRange.Admits (range : LengthRange) (text : String) : Prop :=
  (∀ least, range.least = some least → least ≤ text.toList.length) ∧
    ∀ most, range.most = some most → text.toList.length ≤ most

/-- The number, as a double, lies in the range. -/
def NumberRange.Admits (range : NumberRange) (n : Number) : Prop :=
  (∀ least, range.least = some least → least ≤ n.toDouble) ∧
    ∀ most, range.most = some most → n.toDouble ≤ most

/-- The value fits the schema. -/
inductive Schema.Accepts (registry : Registry) (policy : KeyPolicy) : Schema → Value → Prop
  | string {range : LengthRange} {sample : Option String} {text : String} :
      range.Admits text → Accepts registry policy (.string range sample) (.string text)
  | number {range : NumberRange} {fractional : Bool} {sample : Option String} {n : Number} :
      range.Admits n → Accepts registry policy (.number range fractional sample) (.number n)
  | boolean {sample : Option String} {b : Bool} :
      Accepts registry policy (.boolean sample) (.boolean b)
  | null : Accepts registry policy .null .null
  | literal {expected value : Value} {title : Option String} :
      expected.sameLiteral value = true → Accepts registry policy (.literal expected title) value
  | reference {name : String} {target : Schema} {value : Value} :
      registry.find? name = some target → Accepts registry policy target value →
      Accepts registry policy (.reference name) value
  | object {fields : List (String × Schema)} {title : Option String} {entries : Fields Value} :
      policy.Allows (Fields.names fields) (Fields.names entries) →
      (∀ field ∈ fields, ∀ value, Fields.find? (Key.name field.1) entries = some value →
        Accepts registry policy field.2 value) →
      Accepts registry policy (.object fields title) (.object entries)
  | list {item : Schema} {title sample : Option String} {items : List Value} :
      (∀ value ∈ items, Accepts registry policy item value) →
      Accepts registry policy (.list item title sample) (.array items)
  | union {members : List Schema} {key title sample : Option String} {schema : Schema}
      {value : Value} :
      schema ∈ members → Accepts registry policy schema value →
      Accepts registry policy (.union members key title sample) value

/-! ## 1. One node -/

theorem Context.keyProblems_eq_nil_iff (context : Context) (declared actual : List String) :
    context.keyProblems declared actual = [] ↔ context.keyPolicy.Allows declared actual := by
  unfold keyProblems
  rw [List.append_eq_nil_iff]
  constructor
  · rintro ⟨missing, unexpected⟩
    refine ⟨fun hp key hk ho => ?_, fun hp name hn => ?_⟩
    · simp only [hp, if_true, List.map_eq_nil_iff, List.filter_eq_nil_iff] at missing
      simpa [ho] using missing key hk
    · simp only [hp, if_true, List.map_eq_nil_iff, List.filter_eq_nil_iff] at unexpected
      simpa using unexpected name hn
  · rintro ⟨present, expected⟩
    constructor
    · by_cases hp : context.keyPolicy.missing = true
      · simp only [hp, if_true, List.map_eq_nil_iff, List.filter_eq_nil_iff]
        intro key hk
        have := present hp key hk
        cases ho : Key.isOptional key <;> simp_all
      · simp [hp]
    · by_cases hp : context.keyPolicy.unexpected = true
      · simp only [hp, if_true, List.map_eq_nil_iff, List.filter_eq_nil_iff]
        intro name hn
        simpa using expected hp name hn
      · simp [hp]

theorem LengthRange.isAccepted_check (phrasing : Phrasing) (range : LengthRange) (text : String) :
    (range.check phrasing text).isAccepted = true ↔ range.Admits text := by
  obtain ⟨least, most⟩ := range
  unfold check Admits
  cases least <;> cases most <;> simp only [Option.any_none, Option.any_some] <;>
    (repeat' split) <;> simp_all [Verdict.isAccepted, Verdict.ok]

theorem NumberRange.isAccepted_check (phrasing : Phrasing) (range : NumberRange) (n : Number) :
    (range.check phrasing n).isAccepted = true ↔ range.Admits n := by
  obtain ⟨least, most⟩ := range
  unfold check Admits
  cases least <;> cases most <;> simp only [Option.any_none, Option.any_some] <;>
    (repeat' split) <;> simp_all [Verdict.isAccepted, Verdict.ok, Double.lt_iff, Double.le_iff]

/-! ## 2. A verdict tells acceptance -/

theorem checkFields_cons_of_none (check : Schema → Value → Option Verdict) {entries : Fields Value}
    {key : String} (schema : Schema) (rest : List (String × Schema))
    (h : Fields.find? (Key.name key) entries = none) :
    checkFields check entries ((key, schema) :: rest) = checkFields check entries rest := by
  simp [checkFields, h]

theorem checkFields_cons_of_some (check : Schema → Value → Option Verdict) {entries : Fields Value}
    {key : String} (schema : Schema) {value : Value} (rest : List (String × Schema))
    (h : Fields.find? (Key.name key) entries = some value) :
    checkFields check entries ((key, schema) :: rest) =
      (check schema value).bind fun verdict =>
        (checkFields check entries rest).map (verdict.under (Key.name key) :: ·) := by
  simp only [checkFields, h, Option.bind_eq_bind]
  cases check schema value <;> cases checkFields check entries rest <;> rfl

theorem checkItems_cons (check : Value → Option Verdict) (place : Nat) (item : Value)
    (rest : List Value) :
    checkItems check place (item :: rest) =
      (check item).bind fun verdict =>
        (checkItems check (place + 1) rest).map
            (verdict.under ("[" ++ place.repr ++ "]") :: ·) := by
  simp only [checkItems, Option.bind_eq_bind]
  cases check item <;> cases checkItems check (place + 1) rest <;> rfl

theorem firstAccepted_cons (check : Schema → Option Verdict) (schema : Schema)
    (rest : List Schema) :
    firstAccepted check (schema :: rest) =
      (check schema).bind fun
        | .accepted captured => some (.ok captured)
        | .rejected failure => (firstAccepted check rest).map fun
          | .ok captured => .ok captured
          | .error failures => .error (failure :: failures) := by
  simp only [firstAccepted, Option.bind_eq_bind]
  cases check schema with
  | none => rfl
  | some verdict =>
    cases verdict with
    | accepted captured => rfl
    | rejected failure =>
      cases firstAccepted check rest with
      | none => rfl
      | some result => cases result <;> rfl

section Fits

variable {P : Schema → Value → Prop} {check : Schema → Value → Option Verdict}

/-- The verdicts on fields all accept when every field that is present fits. -/
theorem all_checkFields_iff
    (fits : ∀ schema value verdict, check schema value = some verdict →
      (verdict.isAccepted = true ↔ P schema value))
    {entries : Fields Value} {fields : List (String × Schema)} {verdicts : List Verdict}
    (h : checkFields check entries fields = some verdicts) :
    verdicts.all Verdict.isAccepted = true ↔
      ∀ field ∈ fields, ∀ value, Fields.find? (Key.name field.1) entries = some value →
        P field.2 value := by
  induction fields generalizing verdicts with
  | nil =>
    cases h
    simp
  | cons field rest ih =>
    obtain ⟨key, schema⟩ := field
    rw [List.forall_mem_cons]
    cases hf : Fields.find? (Key.name key) entries with
    | none =>
      rw [checkFields_cons_of_none check schema rest hf] at h
      simp [ih h]
    | some value =>
      rw [checkFields_cons_of_some check schema rest hf] at h
      simp only [Option.bind_eq_some_iff, Option.map_eq_some_iff] at h
      obtain ⟨verdict, hv, others, ho, rfl⟩ := h
      simp [fits _ _ _ hv, ih ho, Verdict.isAccepted_under]

/-- The verdicts on items all accept when every item fits. -/
theorem all_checkItems_iff
    (fits : ∀ schema value verdict, check schema value = some verdict →
      (verdict.isAccepted = true ↔ P schema value))
    {item : Schema} {values : List Value} {place : Nat} {verdicts : List Verdict}
    (h : checkItems (check item) place values = some verdicts) :
    verdicts.all Verdict.isAccepted = true ↔ ∀ value ∈ values, P item value := by
  induction values generalizing place verdicts with
  | nil =>
    cases h
    simp
  | cons value rest ih =>
    rw [checkItems_cons] at h
    simp only [Option.bind_eq_some_iff, Option.map_eq_some_iff] at h
    obtain ⟨verdict, hv, others, ho, rfl⟩ := h
    rw [List.forall_mem_cons]
    simp [fits _ _ _ hv, ih ho, Verdict.isAccepted_under]

/-- A union has an accepting alternative when the value fits one of them. -/
theorem firstAccepted_isOk_iff
    (fits : ∀ schema value verdict, check schema value = some verdict →
      (verdict.isAccepted = true ↔ P schema value))
    {members : List Schema} {value : Value} {result : Except (List Failure) (Fields String)}
    (h : firstAccepted (check · value) members = some result) :
    result.isOk = true ↔ ∃ schema ∈ members, P schema value := by
  induction members generalizing result with
  | nil =>
    cases h
    simp [Except.isOk, Except.toBool]
  | cons schema rest ih =>
    rw [firstAccepted_cons] at h
    simp only [Option.bind_eq_some_iff] at h
    obtain ⟨verdict, hv, h⟩ := h
    rw [List.exists_mem_cons_iff, ← fits _ _ _ hv]
    cases verdict with
    | accepted captured =>
      cases h
      simp [Except.isOk, Except.toBool, Verdict.isAccepted]
    | rejected failure =>
      simp only [Option.map_eq_some_iff] at h
      obtain ⟨others, ho, rfl⟩ := h
      rw [← ih ho]
      cases others <;> simp [Except.isOk, Except.toBool, Verdict.isAccepted]

end Fits

namespace Schema

theorem all_keyProblems_iff (context : Context) {label : String} (declared actual : List String) :
    ((context.keyProblems declared actual).map fun problem =>
      Verdict.rejected (problem.failure label context.phrasing)).all Verdict.isAccepted = true ↔
        context.keyPolicy.Allows declared actual := by
  rw [← context.keyProblems_eq_nil_iff]
  cases context.keyProblems declared actual <;> simp [Verdict.isAccepted]

/-- A verdict accepts exactly when the value fits. -/
theorem isAccepted_checkWithin_iff {context : Context} {fuel : Nat} {schema : Schema}
    {value : Value} {verdict : Verdict} (h : checkWithin context fuel schema value = some verdict) :
    verdict.isAccepted = true ↔ Accepts context.registry context.keyPolicy schema value := by
  induction fuel generalizing schema value verdict with
  | zero => cases h
  | succ fuel ih =>
    have fits (schema : Schema) (value : Value) (verdict : Verdict)
        (h : checkWithin context fuel schema value = some verdict) :
        verdict.isAccepted = true ↔ Accepts context.registry context.keyPolicy schema value := ih h
    cases schema with
    | string range sample =>
      cases value with
      | string text =>
        cases h
        rw [LengthRange.isAccepted_check]
        exact ⟨.string, fun | .string h => h⟩
      | _ => cases h; exact ⟨nofun, nofun⟩
    | number range fractional sample =>
      cases value with
      | number n =>
        cases h
        rw [NumberRange.isAccepted_check]
        exact ⟨.number, fun | .number h => h⟩
      | _ => cases h; exact ⟨nofun, nofun⟩
    | boolean sample =>
      cases value with
      | boolean b =>
        cases h
        exact ⟨fun _ => .boolean, fun _ => rfl⟩
      | _ => cases h; exact ⟨nofun, nofun⟩
    | null =>
      cases value with
      | null =>
        cases h
        exact ⟨fun _ => .null, fun _ => rfl⟩
      | _ => cases h; exact ⟨nofun, nofun⟩
    | literal expected title =>
      simp only [checkWithin] at h
      split at h
      · next same =>
        cases h
        exact ⟨fun _ => .literal same, fun _ => rfl⟩
      · next different =>
        cases h
        exact ⟨nofun, fun | .literal same => absurd same different⟩
    | reference name =>
      simp only [checkWithin, Registry.lookup] at h
      cases hf : context.registry.find? name with
      | none =>
        simp only [hf, Option.some.injEq] at h
        subst h
        refine ⟨nofun, fun | .reference found _ => ?_⟩
        rw [hf] at found
        cases found
      | some target =>
        simp only [hf] at h
        rw [ih h]
        refine ⟨.reference hf, fun | .reference found accepted => ?_⟩
        rw [hf] at found
        cases found
        exact accepted
    | object fields title =>
      cases value with
      | object entries =>
        simp only [checkWithin, Option.bind_eq_bind, Option.bind_eq_some_iff] at h
        obtain ⟨verdicts, hv, h⟩ := h
        cases h
        rw [Verdict.isAccepted_all, List.all_append, Bool.and_eq_true, all_keyProblems_iff,
          all_checkFields_iff fits hv]
        exact ⟨fun ⟨allowed, fit⟩ => .object allowed fit,
          fun | .object allowed fit => ⟨allowed, fit⟩⟩
      | _ => cases h; exact ⟨nofun, nofun⟩
    | list item title sample =>
      cases value with
      | array items =>
        simp only [checkWithin, Option.map_eq_some_iff] at h
        obtain ⟨verdicts, hv, rfl⟩ := h
        rw [Verdict.isAccepted_all, all_checkItems_iff fits hv]
        exact ⟨.list, fun | .list fit => fit⟩
      | _ => cases h; exact ⟨nofun, nofun⟩
    | union members key title sample =>
      simp only [checkWithin, Option.bind_eq_bind, Option.bind_eq_some_iff] at h
      obtain ⟨result, hr, h⟩ := h
      have one : (∃ schema ∈ members, Accepts context.registry context.keyPolicy schema value) ↔
          Accepts context.registry context.keyPolicy (.union members key title sample) value :=
        ⟨fun ⟨_, hm, fit⟩ => .union hm fit, fun | .union hm fit => ⟨_, hm, fit⟩⟩
      rw [← one, ← firstAccepted_isOk_iff fits hr]
      cases result with
      | ok captured =>
        cases h
        exact ⟨fun _ => rfl, fun _ => rfl⟩
      | error failures =>
        simp only at h
        split at h <;> cases h <;> exact ⟨nofun, nofun⟩

end Schema

/-! ## 3. The checks that a check makes -/

/-- A member of a union that is tried: those before it have refused. -/
inductive Schema.Tried (refused : Schema → Prop) : List Schema → Schema → Prop
  | first {schema : Schema} {rest : List Schema} : Tried refused (schema :: rest) schema
  | next {earlier schema : Schema} {rest : List Schema} :
      refused earlier → Tried refused rest schema → Tried refused (earlier :: rest) schema

/-- A check hands its value on as it stands: to the target of a reference, and to a member that a
union tries. -/
inductive Schema.Defers (context : Context) (value : Value) : Schema → Schema → Prop
  | target {name : String} {target : Schema} :
      context.registry.find? name = some target → Defers context value (.reference name) target
  | member {members : List Schema} {key title sample : Option String} {schema : Schema} :
      Tried (¬Accepts context.registry context.keyPolicy · value) members schema →
      Defers context value (.union members key title sample) schema

/-- The checks that a check makes: of the whole value, of the fields that are present, and of the
items. -/
inductive Schema.Consults (context : Context) : Schema × Value → Schema × Value → Prop
  | whole {schema next : Schema} {value : Value} :
      Defers context value schema next → Consults context (schema, value) (next, value)
  | field {fields : List (String × Schema)} {title : Option String} {entries : Fields Value}
      {field : String × Schema} {part : Value} :
      field ∈ fields → Fields.find? (Key.name field.1) entries = some part →
      Consults context (.object fields title, .object entries) (field.2, part)
  | item {item : Schema} {title sample : Option String} {items : List Value} {part : Value} :
      part ∈ items → Consults context (.list item title sample, .array items) (item, part)

theorem checkFields_isSome_iff {check : Schema → Value → Option Verdict} {entries : Fields Value}
    {fields : List (String × Schema)} :
    (checkFields check entries fields).isSome ↔
      ∀ field ∈ fields, ∀ value, Fields.find? (Key.name field.1) entries = some value →
        (check field.2 value).isSome := by
  induction fields with
  | nil => simp [checkFields]
  | cons field rest ih =>
    obtain ⟨key, schema⟩ := field
    rw [List.forall_mem_cons, ← ih]
    cases hf : Fields.find? (Key.name key) entries with
    | none => simp [checkFields_cons_of_none check schema rest hf]
    | some value =>
      rw [checkFields_cons_of_some check schema rest hf]
      cases hv : check schema value <;> simp [hv]

theorem checkItems_isSome_iff {check : Value → Option Verdict} (place : Nat) {items : List Value} :
    (checkItems check place items).isSome ↔ ∀ item ∈ items, (check item).isSome := by
  induction items generalizing place with
  | nil => simp [checkItems]
  | cons item rest ih =>
    rw [List.forall_mem_cons, ← ih (place + 1), checkItems_cons]
    cases check item <;> simp

/-- A union comes to a result when every member that it tries has a verdict. -/
theorem firstAccepted_isSome_iff {check : Schema → Option Verdict} {P : Schema → Prop}
    (fits : ∀ schema verdict, check schema = some verdict → (verdict.isAccepted = true ↔ P schema))
    {members : List Schema} :
    (firstAccepted check members).isSome ↔
      ∀ schema, Schema.Tried (¬P ·) members schema → (check schema).isSome := by
  induction members with
  | nil => exact iff_of_true rfl nofun
  | cons first rest ih =>
    have split : (∀ schema, Schema.Tried (¬P ·) (first :: rest) schema → (check schema).isSome) ↔
        (check first).isSome ∧ (¬P first → (firstAccepted check rest).isSome) := by
      rw [ih]
      exact ⟨fun all =>
          ⟨all first .first, fun refused schema tried => all schema (.next refused tried)⟩,
        fun ⟨own, others⟩ schema tried => match tried with
          | .first => own
          | .next refused tried => others refused schema tried⟩
    rw [split, firstAccepted_cons]
    cases hv : check first with
    | none => simp
    | some verdict =>
      have told := fits first verdict hv
      cases verdict with
      | accepted captured => simp [told.mp rfl]
      | rejected failure =>
        have refused : ¬P first := fun accepted => nomatch told.mpr accepted
        simp [refused]

namespace Value

theorem size_lt_of_mem {items : List Value} {item : Value} (h : item ∈ items) :
    item.size < (array items).size := by
  have le : item.size ≤ sizeItems items := by
    induction items with
    | nil => cases h
    | cons first rest ih =>
      rw [sizeItems]
      rcases List.mem_cons.mp h with rfl | hr
      · omega
      · have := ih hr
        omega
  rw [size]
  omega

theorem size_lt_of_find? {entries : Fields Value} {name : String} {value : Value}
    (h : Fields.find? name entries = some value) : value.size < (object entries).size := by
  have le : value.size ≤ sizeEntries entries := by
    have hm := Fields.mem_of_find? h
    clear h
    induction entries with
    | nil => cases hm
    | cons first rest ih =>
      obtain ⟨key, old⟩ := first
      rw [sizeEntries]
      rcases List.mem_cons.mp hm with heq | hr
      · cases heq
        omega
      · have := ih hr
        omega
  rw [size]
  omega

end Value

namespace Schema

theorem Tried.mem {refused : Schema → Prop} {members : List Schema} {schema : Schema}
    (h : Tried refused members schema) : schema ∈ members := by
  induction h with
  | first => exact List.mem_cons_self
  | next _ _ ih => exact List.mem_cons_of_mem _ ih

/-- A check has a verdict when all the checks that it makes have one in one step less. -/
theorem checkWithin_succ_isSome_iff {context : Context} {fuel : Nat} {schema : Schema}
    {value : Value} :
    (checkWithin context (fuel + 1) schema value).isSome ↔
      ∀ next part, Consults context (schema, value) (next, part) →
        (checkWithin context fuel next part).isSome := by
  cases schema with
  | reference name =>
    simp only [checkWithin, Registry.lookup]
    cases found : context.registry.find? name with
    | none =>
      refine iff_of_true rfl fun next part step => ?_
      cases step with
      | whole step => cases step with | target found' => cases found.symm.trans found'
    | some target =>
      refine ⟨fun some next part step => ?_, fun all => all _ _ (.whole (.target found))⟩
      cases step with
      | whole step =>
        cases step with
        | target found' =>
          cases found.symm.trans found'
          exact some
  | object fields title =>
    cases value with
    | object entries =>
      have parts :
          (checkWithin context (fuel + 1) (.object fields title) (.object entries)).isSome ↔
          (checkFields (checkWithin context fuel) entries fields).isSome := by
        simp only [checkWithin, Option.bind_eq_bind]
        cases checkFields (checkWithin context fuel) entries fields <;> simp
      rw [parts, checkFields_isSome_iff]
      refine ⟨fun all next part step => ?_,
        fun all field hf part found => all _ _ (.field hf found)⟩
      cases step with
      | whole step => cases step
      | field hf found => exact all _ hf _ found
    | _ => exact iff_of_true rfl fun next part step => by cases step with | whole step => cases step
  | list item title sample =>
    cases value with
    | array items =>
      have parts :
          (checkWithin context (fuel + 1) (.list item title sample) (.array items)).isSome ↔
          (checkItems (checkWithin context fuel item) 0 items).isSome := by
        simp only [checkWithin, Option.isSome_map]
      rw [parts, checkItems_isSome_iff]
      refine ⟨fun all next part step => ?_, fun all part hp => all _ _ (.item hp)⟩
      cases step with
      | whole step => cases step
      | item hp => exact all _ hp
    | _ => exact iff_of_true rfl fun next part step => by cases step with | whole step => cases step
  | union members key title sample =>
    have parts : (checkWithin context (fuel + 1) (.union members key title sample) value).isSome ↔
        (firstAccepted (checkWithin context fuel · value) members).isSome := by
      simp only [checkWithin, Option.bind_eq_bind]
      cases firstAccepted (checkWithin context fuel · value) members with
      | none => simp
      | some result =>
        cases result with
        | ok captured => simp
        | error failures =>
          simp only [Option.bind_some, Option.isSome_some, iff_true]
          split <;> rfl
    rw [parts, firstAccepted_isSome_iff fun schema verdict => isAccepted_checkWithin_iff]
    refine ⟨fun all next part step => ?_, fun all schema tried => all _ _ (.whole (.member tried))⟩
    cases step with
    | whole step => cases step with | member tried => exact all _ tried
  | literal expected title =>
    refine iff_of_true ?_ fun next part step => by cases step with | whole step => cases step
    simp only [checkWithin]
    split <;> rfl
  | _ =>
    refine iff_of_true ?_ fun next part step => by cases step with | whole step => cases step
    cases value <;> rfl

/-! ## 4. A verdict on every value -/

/-- A walk through a guarded registry has a verdict when its steps cover, for every node of the
value that is left, a whole front (`width`), and the front that the walk has not used up. A smaller
value pays for a whole new front. -/
theorem checkWithin_isSome {context : Context} (guarded : context.registry.Guarded) (width : Nat)
    (wide : ∀ entry ∈ context.registry.entries,
      entry.2.innerSize + context.registry.frontOutside [] < width)
    {fuel : Nat} {schema : Schema} {value : Value} (seen : List String)
    (behind : context.registry.Behind seen schema)
    (inner : schema.innerSize + context.registry.frontOutside [] < width)
    (enough : value.size * width + (schema.frontSize + context.registry.frontOutside seen) ≤ fuel) :
    (checkWithin context fuel schema value).isSome := by
  induction fuel generalizing schema value seen with
  | zero =>
    have := schema.frontSize_pos
    omega
  | succ fuel ih =>
    have below {child : Schema} {part : Value} (hv : part.size < value.size)
        (hs : child.frontSize + context.registry.frontOutside [] < width)
        (hi : child.innerSize + context.registry.frontOutside [] < width) :
        (checkWithin context fuel child part).isSome := by
      refine ih [] (Registry.behind_nil _ child) hi ?_
      have := Nat.mul_le_mul_right width (Nat.succ_le_of_lt hv)
      rw [Nat.succ_mul] at this
      have := schema.frontSize_pos
      omega
    refine checkWithin_succ_isSome_iff.mpr fun next part step => ?_
    cases step with
    | whole step =>
      cases step with
      | @target name target found =>
        obtain ⟨_, onward, used⟩ := behind.follow guarded found
        simp only [frontSize] at enough
        exact ih (Token.ofName name :: seen) onward (wide _ (Fields.mem_of_find? found)) (by omega)
      | member tried =>
        have front := frontSize_le_of_mem tried.mem
        have deep := innerSize_le_of_mem tried.mem
        simp only [innerSize] at inner
        simp only [frontSize] at enough
        exact ih seen (behind.member tried.mem) (by omega) (by omega)
    | field hf found =>
      have := inner_of_field hf
      simp only [innerSize] at inner
      exact below (Value.size_lt_of_find? found) (by omega) (by omega)
    | item hp =>
      simp only [innerSize] at inner
      exact below (Value.size_lt_of_mem hp) (by omega) (by omega)

/-- Over a guarded registry every value gets a verdict. -/
theorem check_isSome {context : Context} (guarded : context.registry.Guarded) (schema : Schema)
    (value : Value) : (schema.check context value).isSome := by
  have own := schema.front_add_inner_le_size
  have others := Registry.frontOutside_nil_le_size context.registry
  refine checkWithin_isSome guarded (schema.size + context.registry.size + 1)
    (fun entry hm => ?_) [] (Registry.behind_nil _ schema) (by omega) ?_
  · have := Registry.inner_add_front_le_size hm
    omega
  · rw [checkBudget, Nat.succ_mul]
    omega

/-! ## 5. Acceptance is decided -/

/-- A check has a step to take. -/
theorem exists_check_eq (context : Context) (schema : Schema) (value : Value) :
    ∃ fuel, schema.check context value = checkWithin context (fuel + 1) schema value := by
  obtain ⟨fuel, steps⟩ : ∃ fuel, schema.checkBudget context value = fuel + 1 :=
    Nat.exists_eq_succ_of_ne_zero (Nat.mul_pos (Nat.succ_pos _) (Nat.succ_pos _)).ne'
  exact ⟨fuel, by rw [check, steps]⟩

/-- Where there is a verdict, `Schema.accepts` tells acceptance. -/
theorem accepts_iff_of_isSome {context : Context} {schema : Schema} {value : Value}
    (checked : (schema.check context value).isSome) :
    schema.accepts context value = some true ↔
      Accepts context.registry context.keyPolicy schema value := by
  obtain ⟨verdict, hv⟩ := Option.isSome_iff_exists.mp checked
  rw [← isAccepted_checkWithin_iff hv]
  simp [accepts, hv]

/-- Over a guarded registry `Schema.accepts` decides acceptance. -/
theorem accepts_iff {context : Context} (guarded : context.registry.Guarded) {schema : Schema}
    {value : Value} :
    schema.accepts context value = some true ↔
      Accepts context.registry context.keyPolicy schema value :=
  accepts_iff_of_isSome (check_isSome guarded schema value)

/-- What `Schema.accepts` accepts fits, whatever the registry. -/
theorem Accepts.of_accepts {context : Context} {schema : Schema} {value : Value}
    (h : schema.accepts context value = some true) :
    Accepts context.registry context.keyPolicy schema value := by
  simp only [accepts, Option.map_eq_some_iff] at h
  obtain ⟨verdict, hv, accepted⟩ := h
  exact (isAccepted_checkWithin_iff hv).mp accepted

/-- Where there is an answer, it is right about what fits. -/
theorem accepts_eq_true {context : Context} {schema : Schema} {value : Value} {fits : Bool}
    (h : schema.accepts context value = some fits)
    (accepted : Accepts context.registry context.keyPolicy schema value) : fits = true := by
  obtain ⟨verdict, hv, rfl⟩ := Option.map_eq_some_iff.mp h
  exact (isAccepted_checkWithin_iff hv).mpr accepted

end Schema
end DataContract
