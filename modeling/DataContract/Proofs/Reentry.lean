import Mathlib
import DataContract.Proofs.Candidates

/-!
# How the generation of a candidate ends

A copy of a named schema keeps its title in a candidate. A generation that meets a title again on a
path of required fields takes it for a recursion without end, even though the candidate is a finite
tree.

1. `Schema.reenters`: whether a title comes up again on a path of required fields. Optional fields
   and items end such a path, since what is inside them may be left out.
2. `generateFields_ends`, `Schema.generateWithin_concrete`: it settles how a generation ends. Where
   it does not hold there is no cycle error, and where it holds there is no value.
3. `LengthRange.Satisfiable`, `NumberRange.Satisfiable`: ranges for which a scalar is always made.
4. What holds of every candidate for a positive or a negative test. There are finite candidates
   whose generation is refused as a cycle.
-/

namespace DataContract

open Gen

/-! ## 1. Titles that come up again -/

namespace Schema

mutual

/-- Whether a required field inside has a title that is under expansion already. -/
def reenters (expanding : List Frame) : Schema → Bool
  | object fields _ => reentersFields expanding fields
  | _ => false

def reentersFields (expanding : List Frame) : List (String × Schema) → Bool
  | [] => false
  | (key, schema) :: rest =>
    (!Key.isOptional key &&
      match schema.identity with
      | none => reenters expanding schema
      | some identity =>
        expanding.contains ⟨identity, false⟩ || reenters (⟨identity, false⟩ :: expanding) schema) ||
    reentersFields expanding rest

end

/-- The same for a schema that is itself a required field. -/
def reentersAt (expanding : List Frame) (schema : Schema) : Bool :=
  match schema.identity with
  | none => reenters expanding schema
  | some identity =>
    expanding.contains ⟨identity, false⟩ || reenters (⟨identity, false⟩ :: expanding) schema

theorem reentersFields_cons_of_required {expanding : List Frame} {key : String} {schema : Schema}
    {rest : List (String × Schema)} (required : Key.isOptional key = false) :
    reentersFields expanding ((key, schema) :: rest) =
      (schema.reentersAt expanding || reentersFields expanding rest) := by
  rw [reentersFields, required]
  rfl

theorem reentersFields_cons_of_optional {expanding : List Frame} {key : String} {schema : Schema}
    {rest : List (String × Schema)} (optional : Key.isOptional key = true) :
    reentersFields expanding ((key, schema) :: rest) = reentersFields expanding rest := by
  rw [reentersFields, optional]
  rfl

variable {context child : Context} {schema : Schema}

theorem reentersAt_of_enter (h : context.enter schema false = .ok (some child)) :
    schema.reentersAt context.expanding = schema.reenters child.expanding := by
  unfold Context.enter at h
  unfold reentersAt
  cases named : schema.identity with
  | none =>
    simp only [named] at h
    cases h
    rfl
  | some identity =>
    simp only [named] at h
    split at h
    · cases h
    · next fresh =>
      cases h
      simp only [Bool.eq_false_iff.mpr fresh, Bool.false_or]

theorem reentersAt_of_refused {cause : SchemaError}
    (h : context.enter schema false = .error cause) :
    cause.isCycle = true ∧ schema.reentersAt context.expanding = true := by
  unfold Context.enter at h
  unfold reentersAt
  cases named : schema.identity with
  | none =>
    simp only [named] at h
    cases h
  | some identity =>
    simp only [named] at h
    split at h
    · next seen =>
      cases h
      simp only [seen, Bool.true_or]
      exact ⟨rfl, trivial⟩
    · cases h

end Schema

/-! ## 2. How a generation ends -/

theorem Halt.isCycle_under (segment : String) (halt : Halt) :
    (halt.under segment).isCycle = halt.isCycle := by
  rcases halt with (_ | _ | _ | _ | _) | _ <;> rfl

/-- Without a dictionary nothing is bound to a key. -/
theorem generateKeyed_of_empty {make : Context → Schema → Gen Value} {context : Context}
    {key : Option String} {schema : Schema} (empty : context.dictionary = []) :
    generateKeyed make context key schema = make context schema := by
  unfold generateKeyed
  rw [empty]
  cases key <;> rfl

/-- A generation ends in a value where nothing is re-entered, in a cycle error only where something
is, and in other halts as its scalars do. -/
def EndsBy (halts : Halt → Prop) (reentered : Bool) {α : Type} (body : Gen α) : Prop :=
  body.Ends (fun _ => reentered = false) fun halt =>
    halts halt ∨ halt.isCycle = true ∧ reentered = true

section

variable {halts : Halt → Prop} (closed : ∀ halt segment, halts halt → halts (halt.under segment))
include closed

/-- Items end a path: what is made of them is a list, whatever is re-entered inside. -/
theorem generateItems_ends {make : Gen (Option Value)} (h : make.Ends (fun _ => True) halts)
    (place count : Nat) : (generateItems make place count).Ends (fun _ => True) halts := by
  induction count generalizing place with
  | zero => exact ends_pure trivial
  | succ count ih =>
    refine ends_bind (ends_under _ (ends_mono h (fun item? _ => ?_) fun halt => closed halt _))
    cases item? with
    | none => exact ends_pure trivial
    | some item => exact ends_bind (ends_mono (ih _) (fun _ _ => ends_pure trivial) fun _ => id)

/-- The fields of an object are made in order. An optional one may be left out, and a required one
that re-enters is an error. -/
theorem generateFields_ends {make : Context → Schema → Gen Value} {context : Context}
    (mode : context.mode = .synthesize) (empty : context.dictionary = [])
    {fields : List (String × Schema)} {done : Fields Value}
    (h : ∀ field ∈ fields, ∀ nullable child, context.enter field.2 nullable = .ok (some child) →
      EndsBy halts (field.2.reenters child.expanding) (make child field.2)) :
    EndsBy halts (Schema.reentersFields context.expanding fields)
      (generateFields make context fields done) := by
  induction fields generalizing done with
  | nil => exact ends_pure rfl
  | cons field rest ih =>
    obtain ⟨key, schema⟩ := field
    obtain ⟨own, others⟩ := List.forall_mem_cons.mp h
    have keyed {nullable : Bool} {child : Context}
        (he : context.enter schema nullable = .ok (some child)) :
        EndsBy halts (schema.reenters child.expanding)
          (generateKeyed make child (some (Key.name key)) schema) := by
      have still : child.dictionary = [] := by
        obtain ⟨stack, rfl⟩ := Context.expanding_of_enter he
        exact empty
      rw [generateKeyed_of_empty still]
      exact own nullable child he
    unfold generateFields
    simp only
    split
    · next optional =>
      rw [Schema.reentersFields_cons_of_optional optional]
      have part : (context.protect schema (Key.isOptional key) fun child =>
          generateKeyed make child (some (Key.name key)) schema).Ends (fun _ => True) halts := by
        rw [optional]
        refine Context.ends_protect (fun cause he => (Context.enter_nullable_ne_error he).elim)
          (fun _ => trivial) fun child he => ?_
        refine ends_mono (keyed he) (fun _ _ => trivial) fun halt hh ho => hh.resolve_right ?_
        exact fun cycle => Bool.noConfusion (ho cycle.1)
      refine ends_bind ?_
      unfold includeOptional
      rw [mode]
      refine ends_draw fun rng => ?_
      split
      · refine ends_bind (ends_under _ (ends_mono part (fun part? _ => ?_) fun halt hh =>
          .inl (closed halt _ hh)))
        cases part? <;> exact ih others
      · exact ih others
    · next required =>
      have required : Key.isOptional key = false := Bool.eq_false_iff.mpr required
      rw [Schema.reentersFields_cons_of_required required]
      have part : EndsBy halts (schema.reentersAt context.expanding)
          (context.protect schema (Key.isOptional key) fun child =>
            generateKeyed make child (some (Key.name key)) schema) := by
        rw [required]
        refine Context.ends_protect (fun cause he => .inr (Schema.reentersAt_of_refused he)) nofun
          fun child he => ?_
        rw [Schema.reentersAt_of_enter he]
        exact ends_mono (keyed he) (fun _ => id) fun _ hh _ => hh
      refine ends_bind (ends_pure (ends_bind (ends_under _ (ends_mono part (fun part? fresh => ?_)
        fun halt hh => ?_))))
      · rw [fresh, Bool.false_or]
        cases part? <;> exact ih others
      · rw [Halt.isCycle_under]
        exact hh.imp (closed halt _) fun ⟨cycle, seen⟩ => ⟨cycle, by rw [seen, Bool.true_or]⟩

end

namespace Schema

theorem ownExample_of_synthesize {context : Context} (mode : context.mode = .synthesize)
    (schema : Schema) : schema.ownExample context = .ok none := by
  unfold ownExample exampleOfAny exampleValue
  rw [mode]
  split <;> split <;> first | rfl | contradiction

theorem size_le_of_field {fields : List (String × Schema)} {field : String × Schema}
    (h : field ∈ fields) : field.2.size ≤ sizeOfFields fields := by
  induction fields with
  | nil => cases h
  | cons first rest ih =>
    obtain ⟨key, schema⟩ := first
    rw [sizeOfFields]
    rcases List.mem_cons.mp h with rfl | hr
    · exact Nat.le_add_right _ _
    · exact Nat.le_trans (ih hr) (Nat.le_add_left _ _)

/-- How the making of one scalar may halt. -/
def ScalarHalts (halts : Halt → Prop) : Schema → Prop
  | string range _ => range.generate.Ends (fun _ => True) halts
  | number range fractional _ => (range.generate fractional).Ends (fun _ => True) halts
  | _ => True

/-- How the generation of a schema without references ends. The induction is on the steps, of which
there are as many as nodes. -/
theorem generateWithin_concrete {halts : Halt → Prop}
    (closed : ∀ halt segment, halts halt → halts (halt.under segment)) {context : Context}
    (mode : context.mode = .synthesize) (empty : context.dictionary = []) {fuel : Nat}
    {schema : Schema} (concrete : schema.Everywhere Concrete)
    (scalars : schema.Everywhere (ScalarHalts halts)) (enough : schema.size ≤ fuel) :
    EndsBy halts (schema.reenters context.expanding) (generateWithin fuel context schema) := by
  induction fuel generalizing context schema with
  | zero => cases schema <;> simp [size] at enough
  | succ fuel ih =>
    have inside {part : Schema} {nullable : Bool} {child : Context}
        (he : context.enter part nullable = .ok (some child)) (concrete : part.Everywhere Concrete)
        (scalars : part.Everywhere (ScalarHalts halts)) (enough : part.size ≤ fuel) :
        EndsBy halts (part.reenters child.expanding) (generateWithin fuel child part) := by
      obtain ⟨stack, rfl⟩ := Context.expanding_of_enter he
      exact @ih { context with expanding := stack } mode empty part concrete scalars enough
    unfold generateWithin
    refine ends_bind (ends_attempt ?_)
    rw [ownExample_of_synthesize mode]
    cases schema with
    | string range sample => exact ends_mono scalars.here (fun _ _ => rfl) fun _ => .inl
    | number range fractional sample => exact ends_mono scalars.here (fun _ _ => rfl) fun _ => .inl
    | boolean sample => exact ends_bind (ends_draw fun _ => ends_pure rfl)
    | null => exact ends_pure rfl
    | literal value title => exact ends_pure rfl
    | reference name => exact concrete.here.elim
    | object fields title =>
      obtain ⟨_, concrete⟩ := everywhere_object.mp concrete
      obtain ⟨_, scalars⟩ := everywhere_object.mp scalars
      simp only [size, Nat.add_le_add_iff_right] at enough
      rw [reenters]
      have made : EndsBy halts (reentersFields context.expanding fields)
          (generateFields (generateWithin fuel) context fields []) :=
        generateFields_ends closed mode empty fun field hf _ _ he =>
          inside he (concrete field hf) (scalars field hf)
            (Nat.le_trans (size_le_of_field hf) enough)
      exact ends_bind (ends_mono made (fun _ fresh => ends_pure fresh) fun _ => id)
    | list item title sample =>
      obtain ⟨_, concrete⟩ := everywhere_list.mp concrete
      obtain ⟨_, scalars⟩ := everywhere_list.mp scalars
      simp only [size, Nat.add_le_add_iff_right] at enough
      have make : (context.protect item true fun child => generateWithin fuel child item).Ends
          (fun _ => True) halts := by
        refine Context.ends_protect (fun cause he => (Context.enter_nullable_ne_error he).elim)
          (fun _ => trivial) fun child he => ?_
        exact ends_mono (inside he concrete scalars enough) (fun _ _ => trivial)
          fun halt hh ho => hh.resolve_right fun cycle => Bool.noConfusion (ho cycle.1)
      refine ends_bind (ends_draw fun _ => ends_bind ?_)
      exact ends_mono (generateItems_ends closed make 0 _) (fun _ _ => ends_pure rfl) fun _ => .inl
    | union members key title sample => exact concrete.here.elim

end Schema

/-! ## 3. Scalars that are always made -/

/-- Some length that is generated lies in the range. -/
def LengthRange.Satisfiable (range : LengthRange) : Prop :=
  ∀ least, range.least = some least →
    least ≤ maxTextLength ∧ ∀ most, range.most = some most → least ≤ most

theorem LengthRange.Satisfiable.generate {range : LengthRange} (h : range.Satisfiable) :
    range.generate.Ends (fun _ => True) fun _ => False := by
  obtain ⟨least, most⟩ := range
  unfold LengthRange.generate
  refine ends_guard (fun large => ?_) fun _ => ?_
  · cases least with
    | none => cases large
    | some least => exact Nat.not_lt.mpr (h least rfl).1 (of_decide_eq_true large)
  · cases most with
    | none => exact ends_bind (ends_draw fun _ => ends_pure trivial)
    | some most =>
      refine ends_guard (fun large => ?_) fun _ => ends_bind (ends_draw fun _ => ends_pure trivial)
      cases least with
      | none => cases large
      | some least => exact Nat.not_lt.mpr ((h least rfl).2 most rfl) (of_decide_eq_true large)

/-- Some number of the kind that is generated lies in the range. -/
def NumberRange.Satisfiable (range : NumberRange) (fractional : Bool) : Prop :=
  (∀ least, range.least = some least → ∀ most, range.most = some most → least ≤ most) ∧
    (fractional = false → range.integers.1 ≤ range.integers.2)

instance (range : LengthRange) : Decidable range.Satisfiable :=
  inferInstanceAs (Decidable (∀ least ∈ range.least,
    least ≤ maxTextLength ∧ ∀ most ∈ range.most, least ≤ most))

instance (range : NumberRange) (fractional : Bool) : Decidable (range.Satisfiable fractional) :=
  inferInstanceAs (Decidable ((∀ least ∈ range.least, ∀ most ∈ range.most, least ≤ most) ∧
    (fractional = false → range.integers.1 ≤ range.integers.2)))

theorem NumberRange.Satisfiable.generate {range : NumberRange} {fractional : Bool}
    (h : range.Satisfiable fractional) :
    (range.generate fractional).Ends (fun _ => True) fun _ => False := by
  unfold NumberRange.generate
  extract_lets drawn
  have right : (drawn ()).Ends (fun _ => True) fun _ => False := by
    simp only [drawn]
    cases fractional with
    | true => exact ends_bind (ends_draw fun _ => ends_pure trivial)
    | false =>
      simp only [Bool.false_eq_true, if_false]
      exact ends_guard (fun disordered => Int.not_lt.mpr (h.2 rfl) disordered)
        fun _ => ends_bind (ends_draw fun _ => ends_pure trivial)
  split
  · next least most hl hm =>
    exact ends_guard (fun disordered => Int.not_lt.mpr (h.1 least hl most hm) disordered)
      fun _ => right
  · exact right

/-- Every scalar of a node can be made. -/
def Schema.Satisfiable : Schema → Prop
  | string range _ => range.Satisfiable
  | number range fractional _ => range.Satisfiable fractional
  | _ => True

instance : DecidablePred Schema.Satisfiable
  | .string range _ => inferInstanceAs (Decidable range.Satisfiable)
  | .number range fractional _ => inferInstanceAs (Decidable (range.Satisfiable fractional))
  | .boolean _ | .null | .literal _ _ | .reference _ | .object _ _ | .list _ _ _ | .union _ _ _ _ =>
    .isTrue trivial

theorem Schema.Satisfiable.scalarHalts {schema : Schema} (h : schema.Satisfiable) :
    schema.ScalarHalts fun _ => False := by
  cases schema with
  | string range sample => exact LengthRange.Satisfiable.generate h
  | number range fractional sample => exact NumberRange.Satisfiable.generate h
  | _ => trivial

theorem Schema.scalarHalts_plain (schema : Schema) : schema.ScalarHalts Halt.Plain := by
  cases schema with
  | string range sample => exact ends_mono range.ends_generate (fun _ _ => trivial) fun _ => id
  | number range fractional sample =>
    exact ends_mono (range.ends_generate fractional) (fun _ _ => trivial) fun _ => id
  | _ => trivial

/-! ## 4. Candidates -/

theorem Halt.Plain.under {halt : Halt} (segment : String) (h : halt.Plain) :
    (halt.under segment).Plain := by
  rcases halt with (_ | _ | _ | _ | _) | _ <;> first | rfl | exact h

namespace Schema

/-- What holds of every candidate for a positive or a negative test, when values are synthesized
from the top without a dictionary and on an empty row. The candidate has no reference inside. Unless
a title comes up again on a path of required fields, its generation never ends in a cycle; and if
one does, its generation never gives a value, and ends in a cycle error when its scalars can be
made. -/
theorem generate_candidate {context : Context} {schema candidate : Schema}
    (mode : context.mode = .synthesize) (empty : context.dictionary = [])
    (top : context.expanding = [])
    (listed : .ok candidate ∈ (schema.variants context .empty).toList ∨
      ∃ outcome ∈ (schema.mutants context .empty).toList, outcome.value? = some candidate) :
    candidate.Everywhere Concrete ∧
      (candidate.reenters [] = false → ∀ rng halt,
        ((candidate.generate context).runFrom rng).1 = .error halt → halt.Plain) ∧
      (candidate.reenters [] = true → ∀ rng, ∃ halt,
        ((candidate.generate context).runFrom rng).1 = .error halt ∧
          (candidate.Everywhere Satisfiable → halt.isCycle = true)) := by
  have concrete : candidate.Everywhere Concrete := by
    rcases listed with listed | ⟨outcome, listed, valued⟩
    · exact (derives_of_mem_variants .empty listed).concrete
    · unfold mutants at listed
      exact mutantsWithin_concrete .empty listed valued
  have enough : candidate.size ≤ candidate.expansionBudget context.registry := by
    unfold expansionBudget
    simp only
    nlinarith [Nat.zero_le candidate.size, Nat.zero_le context.registry.size]
  have ends {halts : Halt → Prop} (closed : ∀ halt segment, halts halt → halts (halt.under segment))
      (scalars : candidate.Everywhere (ScalarHalts halts)) :
      EndsBy halts (candidate.reenters []) (candidate.generate context) :=
    top ▸ generateWithin_concrete closed mode empty concrete scalars enough
  have plain := ends (fun _ => Halt.Plain.under) fun node _ => node.scalarHalts_plain
  refine ⟨concrete, fun fresh rng halt run => ?_, fun seen rng => ?_⟩
  · have := plain rng
    rw [run] at this
    exact this.resolve_right fun ⟨_, seen⟩ => Bool.noConfusion (fresh.symm.trans seen)
  · cases run : ((candidate.generate context).runFrom rng).1 with
    | ok value =>
      have := plain rng
      rw [run] at this
      exact Bool.noConfusion (this.symm.trans seen)
    | error halt =>
      refine ⟨halt, rfl, fun satisfiable => ?_⟩
      have := ends (fun _ _ => id) (satisfiable.mono fun _ => Satisfiable.scalarHalts) rng
      rw [run] at this
      exact (this.resolve_left id).1

end Schema

/-- Nodes with a part under `b` that is another node or the end. -/
def nestedNodes : Registry :=
  Registry.initial.register "Node"
    (.object [("b", .union [.named "Node", .exactly (.string "end")] none none none)] (some "Node"))

/-- A node that may be left out. -/
def optionalNode : Schema := .object [("r?", .named "Node")] none

/-- A node whose part is a node whose part is the end. -/
def unrolledNode : Schema :=
  .object [("r", .object [("b", .object [("b", .exactly (.string "end"))] (some "Node"))]
    (some "Node"))] none

theorem mem_variants_optionalNode :
    .ok unrolledNode ∈ (optionalNode.variants (.ofRegistry nestedNodes) .empty).toList :=
  List.mem_of_head? rfl

/-- The candidate is finite and has no reference inside, yet ends in a cycle error from every
seed. -/
theorem generate_unrolledNode :
    unrolledNode.Everywhere Schema.Concrete ∧
      ∃ halt, ((unrolledNode.generate (.ofRegistry nestedNodes)).runFrom (.ofSeed 7)).1 =
        .error halt ∧ halt.isCycle = true := by
  obtain ⟨concrete, _, seen⟩ :=
    Schema.generate_candidate rfl rfl rfl (.inl mem_variants_optionalNode)
  obtain ⟨halt, run, cycle⟩ := seen rfl (.ofSeed 7)
  exact ⟨concrete, halt, run, cycle (by decide +kernel)⟩

/-- A candidate of a registered schema, without a reference inside, whose generation is refused as a
cycle. -/
theorem cycle_of_finite_candidate :
    .ok unrolledNode ∈ (optionalNode.variants (.ofRegistry nestedNodes) .empty).toList ∧
      unrolledNode.Everywhere Schema.Concrete ∧
      ((unrolledNode.generate (.ofRegistry nestedNodes)).runFrom (.ofSeed 0)).1 =
        .error (.error (.cycle ["(Node)", "(Node)"])) :=
  ⟨mem_variants_optionalNode, by decide +kernel, rfl⟩

end DataContract
