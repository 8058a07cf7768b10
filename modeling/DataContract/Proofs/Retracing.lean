import Mathlib
import DataContract.Proofs.Coverage
import DataContract.Proofs.Expansion
import DataContract.Proofs.Halting
import DataContract.Proofs.Productivity
import DataContract.Proofs.ReadingBack

/-!
# Cycle errors

A generation ends in a cycle error when it comes back to a name with nothing to end the recursion.
It has then gone through required fields, references and members that were drawn from unions. It
does not mean that there is no finite value: a union may have had a member that leads out. Only null
among the members is looked for, so even null under another name is no way out.

1. `Schema.Demands`: what a generation goes on to where it cannot stop. `Schema.Retraces`: how it
   comes back to a name.
2. `Schema.generateWithin_retraces`: every cycle error comes that way.
3. `Schema.Evades`: a value takes another way than a step does. A value that never does so goes
   along with the whole path (`Schema.accepts_along`).
4. `Schema.not_accepts_of_steady`: no value goes along with a path that comes back to the same
   schema, since over a guarded registry it gets smaller on each way round.
5. `Schema.strays_of_cycle`: hence after a cycle error every value that fits strays from the path.
-/

namespace DataContract

open Gen

/-- One value is another one, or stands in it under a chain of keys. -/
inductive Value.Inside : Value → Value → Prop
  | self {value : Value} : Inside value value
  | field {entries : Fields Value} {name : String} {value part : Value} :
      Fields.find? name entries = some value → Inside value part → Inside (object entries) part

theorem Value.Inside.trans {whole value part : Value} (h : whole.Inside value)
    (h' : value.Inside part) : whole.Inside part := by
  induction h with
  | self => exact h'
  | field found _ ih => exact .field found (ih h')

namespace Schema

/-! ## 1. The way back to a name -/

/-- What the generation of a schema goes on to where it cannot stop. -/
inductive Demands (registry : Registry) : Schema → Schema → Prop
  | target {name : String} {target : Schema} :
      registry.find? name = some target → Demands registry (reference name) target
  | field {fields : List (String × Schema)} {title : Option String} {field : String × Schema} :
      field ∈ fields → Key.isOptional field.1 = false →
      Demands registry (object fields title) field.2
  | member {members : List Schema} {key title sample : Option String} {schema : Schema} :
      schema ∈ members → listsNull members = false →
      Demands registry (union members key title sample) schema

/-- The names that are entered on the way from a schema through others. The target of a reference is
not entered again. -/
def namesOnWay : Schema → List Schema → List String
  | _, [] => []
  | schema, part :: rest =>
    (if schema.isReference then [] else part.identity.toList) ++ namesOnWay part rest

/-- How a generation comes back to a name: the schemas on its way, and the names in the error. -/
inductive Retraces (registry : Registry) :
    List Frame → Schema → List Schema → List String → Prop
  /-- The last part is under expansion already. -/
  | refused {stack : List Frame} {schema part : Schema} {identity : String} :
      Demands registry schema part → schema.isReference = false → part.identity = some identity →
      ⟨identity, false⟩ ∈ stack →
      Retraces registry stack schema [part] (stack.reverse.map (·.identity) ++ [identity])
  | follow {stack : List Frame} {name : String} {target : Schema} {way : List Schema}
      {names : List String} :
      registry.find? name = some target → Retraces registry stack target way names →
      Retraces registry stack (reference name) (target :: way) names
  | enter {stack : List Frame} {schema part : Schema} {way : List Schema} {names : List String} :
      Demands registry schema part → schema.isReference = false →
      Retraces registry ((part.identity.toList.map (⟨·, false⟩)) ++ stack) part way names →
      Retraces registry stack schema (part :: way) names

section Retraces

variable {registry : Registry} {stack : List Frame} {schema : Schema} {way : List Schema}
  {names : List String}

theorem Retraces.isChain (h : Retraces registry stack schema way names) :
    (schema :: way).IsChain (Demands registry) := by
  induction h with
  | refused demand _ _ _ => exact .cons_cons demand (.singleton _)
  | follow found _ ih => exact .cons_cons (.target found) ih
  | enter demand _ _ ih => exact .cons_cons demand ih

/-- The error names what was under expansion before and what was entered on the way. -/
theorem Retraces.names_eq (h : Retraces registry stack schema way names) :
    names = stack.reverse.map (·.identity) ++ namesOnWay schema way := by
  induction h with
  | refused demand single named _ => simp [namesOnWay, single, named]
  | follow found _ ih => simpa [namesOnWay, isReference] using ih
  | @enter stack schema part way names demand single _ ih =>
    rw [ih, namesOnWay, single]
    cases part.identity <;> simp

/-- The last part has a name that was under expansion before, or was entered on the way. -/
theorem Retraces.closes (h : Retraces registry stack schema way names) :
    ∃ before last identity, way = before ++ [last] ∧ last.identity = some identity ∧
      ((schema :: before).getLast (List.cons_ne_nil _ _)).isReference = false ∧
      (⟨identity, false⟩ ∈ stack ∨
        ∃ front first loop, before = front ++ first :: loop ∧ first.identity = some identity) := by
  induction h with
  | @refused stack schema part identity _ single named seen =>
    exact ⟨[], part, identity, rfl, named, single, .inl seen⟩
  | @follow stack name target way names found _ ih =>
    obtain ⟨before, last, identity, rfl, named, entered, seen⟩ := ih
    refine ⟨target :: before, last, identity, rfl, named, entered, seen.imp_right ?_⟩
    rintro ⟨front, first, loop, rfl, same⟩
    exact ⟨target :: front, first, loop, rfl, same⟩
  | @enter stack schema part way names _ _ _ ih =>
    obtain ⟨before, last, identity, rfl, named, entered, seen⟩ := ih
    refine ⟨part :: before, last, identity, rfl, named, entered, ?_⟩
    rcases seen with seen | ⟨front, first, loop, rfl, same⟩
    · rcases List.mem_append.mp seen with own | seen
      · obtain ⟨other, ho, same⟩ := List.mem_map.mp own
        cases same
        exact .inr ⟨[], part, before, rfl, Option.mem_toList.mp ho⟩
      · exact .inl seen
    · exact .inr ⟨part :: front, first, loop, rfl, same⟩

end Retraces

/-! ## 2. Every cycle error comes that way -/

/-- A halt that is no cycle error, or one that comes back to a name. -/
def RetracesBy (registry : Registry) (stack : List Frame) (schema : Schema) (halt : Halt) : Prop :=
  ∀ names, halt = .error (.cycle names) → ∃ way, Retraces registry stack schema way names

section RetracesBy

variable {context : Context} {registry : Registry} {stack : List Frame} {schema part : Schema}

theorem retracesBy_of_not_cycle {halt : Halt} (h : halt.isCycle = false) :
    RetracesBy registry stack schema halt := by
  rintro names rfl
  cases h

theorem RetracesBy.under (halt : Halt) (segment : String)
    (h : RetracesBy registry stack schema halt) :
    RetracesBy registry stack schema (halt.under segment) := by
  intro names same
  cases halt with
  | endless => cases same
  | error cause =>
    cases cause with
    | cycle stack => exact h names same
    | _ => cases same

/-- A part that is refused closes the way. -/
theorem retracesBy_of_refused {nullable : Bool} {cause : SchemaError}
    (demand : nullable = false → Demands context.registry schema part)
    (single : schema.isReference = false)
    (refused : ({ context with expanding := stack } : Context).enter part nullable = .error cause) :
    RetracesBy context.registry stack schema (.error cause) := by
  unfold Context.enter at refused
  cases named : part.identity with
  | none =>
    simp only [named] at refused
    cases refused
  | some identity =>
    simp only [named] at refused
    split at refused
    · next seen =>
      split at refused
      · cases refused
      · next strict =>
        rw [Bool.not_eq_true] at strict
        subst strict
        cases refused
        rintro names ⟨⟩
        exact ⟨[part], .refused (demand rfl) single named (List.contains_iff_mem.mp seen)⟩
    · cases refused

/-- A way back from a part that is entered is one from the schema. -/
theorem retracesBy_of_entered {stack' : List Frame} {halt : Halt}
    (demand : Demands context.registry schema part) (single : schema.isReference = false)
    (entered : ({ context with expanding := stack } : Context).enter part false =
      .ok (some { context with expanding := stack' }))
    (h : RetracesBy context.registry stack' part halt) :
    RetracesBy context.registry stack schema halt := by
  intro names same
  obtain ⟨way, back⟩ := h names same
  refine ⟨part :: way, .enter demand single ?_⟩
  rcases stack_of_enter entered with ⟨untracked, rfl⟩ | ⟨identity, tracked, _, rfl⟩
  · rwa [untracked]
  · rwa [tracked]

end RetracesBy

/-- Every cycle error comes back to a name. A part that is entered where the recursion cannot end
hands its cycles on. -/
theorem generateWithin_retraces {context : Context} (mode : context.mode = .synthesize) (fuel : Nat)
    (stack : List Frame) (schema : Schema) :
    (generateWithin fuel { context with expanding := stack } schema).Ends (fun _ => True)
      (RetracesBy context.registry stack schema) := by
  induction fuel generalizing stack schema with
  | zero => exact ends_throw (retracesBy_of_not_cycle rfl)
  | succ fuel ih =>
    have plain {body : Gen Value} {value : Value → Prop} (ended : body.Ends value Halt.Plain) :
        body.Ends (fun _ => True) (RetracesBy context.registry stack schema) := by
      refine ends_mono ended (fun _ _ => trivial) fun halt fine => retracesBy_of_not_cycle ?_
      cases halt with
      | error cause => exact fine
      | endless => exact fine.elim
    have keyed {part : Schema} {nullable : Bool} {child : Context} (key : Option String)
        (demand : nullable = false → Demands context.registry schema part)
        (single : schema.isReference = false)
        (entered : ({ context with expanding := stack } : Context).enter part nullable =
          .ok (some child)) :
        (generateKeyed (generateWithin fuel) child key part).Ends (fun _ => True) fun halt =>
          (halt.isCycle = true → nullable = false) →
            RetracesBy context.registry stack schema halt := by
      obtain ⟨stack', rfl⟩ := Context.expanding_of_enter entered
      refine generateKeyed_ends (fun _ => retracesBy_of_not_cycle rfl)
        (ends_mono (ih stack' part) (fun _ => id) fun halt back strict => ?_)
      cases cycle : halt.isCycle with
      | false => exact retracesBy_of_not_cycle cycle
      | true =>
        obtain rfl := strict cycle
        exact retracesBy_of_entered (demand rfl) single entered back
    unfold generateWithin
    refine ends_bind (ends_attempt ?_)
    rw [@ownExample_of_synthesize { context with expanding := stack } mode]
    cases schema with
    | string range sample => exact plain range.ends_generate
    | number range fractional sample => exact plain (range.ends_generate fractional)
    | boolean sample => exact ends_bind (ends_draw fun _ => ends_pure trivial)
    | null => exact ends_pure trivial
    | literal value title => exact ends_pure trivial
    | reference name =>
      simp only [Registry.lookup]
      cases found : context.registry.find? name with
      | none => exact ends_bind (ends_throw (retracesBy_of_not_cycle rfl))
      | some target =>
        refine ends_bind (ends_pure (ends_mono (ih stack target) (fun _ => id) fun halt back => ?_))
        intro names same
        obtain ⟨way, back⟩ := back names same
        exact ⟨target :: way, .follow found back⟩
    | object fields title =>
      refine ends_bind (ends_mono (generateFields_halts RetracesBy.under
        (fun field hf cause => retracesBy_of_refused (.field hf) rfl)
        fun field hf child => keyed _ (.field hf) rfl) (fun _ _ => ends_pure trivial) fun _ => id)
    | list item title sample =>
      have make : (({ context with expanding := stack } : Context).protect item true fun child =>
          generateWithin fuel child item : Gen (Option Value)).Ends (fun _ => True)
            (RetracesBy context.registry stack (list item title sample)) := by
        refine Context.ends_protect (fun cause he => (Context.enter_nullable_ne_error he).elim)
          (fun _ => trivial) fun child he => ?_
        obtain ⟨stack', rfl⟩ := Context.expanding_of_enter he
        refine ends_mono (ih stack' item) (fun _ => id) fun halt _ strict => ?_
        refine retracesBy_of_not_cycle (Bool.eq_false_iff.mpr fun cycle => ?_)
        cases strict cycle
      refine ends_bind (ends_draw fun _ => ends_bind ?_)
      exact ends_mono (generateItems_ends RetracesBy.under make 0 _)
        (fun _ _ => ends_pure trivial) fun _ => id
    | union members key title sample =>
      refine ends_bind (ends_draw fun rng => ?_)
      cases chosen : (Draw.choose members rng).1 with
      | none => exact ends_throw (retracesBy_of_not_cycle rfl)
      | some pick =>
        have hm := Draw.choose_mem chosen
        have part : (({ context with expanding := stack } : Context).protect pick
            (listsNull members) fun child => generateKeyed (generateWithin fuel) child key pick :
              Gen (Option Value)).Ends (fun _ => True)
              (RetracesBy context.registry stack (union members key title sample)) :=
          Context.ends_protect (fun cause => retracesBy_of_refused (.member hm) rfl)
            (fun _ => trivial) fun child => keyed key (.member hm) rfl
        exact ends_bind (ends_mono part (fun _ _ => ends_pure trivial) fun _ => id)

/-! ## 3. Values that go along -/

/-- The part of a value that one schema hands on to another one. -/
inductive Hands (registry : Registry) : Schema → Schema → Value → Value → Prop
  | target {name : String} {target : Schema} {value : Value} :
      registry.find? name = some target → Hands registry (reference name) target value value
  | field {fields : List (String × Schema)} {title : Option String} {field : String × Schema}
      {entries : Fields Value} {part : Value} :
      field ∈ fields → Fields.find? (Key.name field.1) entries = some part →
      Hands registry (object fields title) field.2 (.object entries) part
  | member {members : List Schema} {key title sample : Option String} {schema : Schema}
      {value : Value} :
      schema ∈ members → Hands registry (union members key title sample) schema value value

/-- A value fits one schema but not by way of the other: it hands on nothing that fits there. -/
def Evades (context : Context) (schema part : Schema) (value : Value) : Prop :=
  Accepts context.registry context.keyPolicy schema value ∧
    ∀ content, Hands context.registry schema part value content →
      ¬Accepts context.registry context.keyPolicy part content

/-- Somewhere inside the value a step of the path is evaded, at a union or where a key is missing
that is not asked for. -/
def Strays (context : Context) (path : List Schema) (value : Value) : Prop :=
  ∃ content, value.Inside content ∧ ∃ schema part, [schema, part] <:+: path ∧
    Evades context schema part content ∧
    (schema.isUnion = true ∨ context.keyPolicy.missing = false)

/-- From a union to a member, or from a reference to its target. The value stays the same. -/
inductive FrontStep (registry : Registry) : Schema → Schema → Prop
  | target {name : String} {target : Schema} :
      registry.find? name = some target → FrontStep registry (reference name) target
  | member {members : List Schema} {key title sample : Option String} {schema : Schema} :
      schema ∈ members → FrontStep registry (union members key title sample) schema

section Along

variable {context : Context} {schema part last : Schema} {value : Value}

/-- A step that a schema demands is evaded only at a union, or where a key is missing that is not
asked for. -/
theorem Evades.chosen (h : Evades context schema part value)
    (demand : Demands context.registry schema part) :
    schema.isUnion = true ∨ context.keyPolicy.missing = false := by
  obtain ⟨fits, none⟩ := h
  cases demand with
  | target found =>
    exact absurd ((Registry.accepts_reference_iff found).mp fits) (none _ (.target found))
  | @field fields title field hf required =>
    refine .inr (Bool.eq_false_iff.mpr fun missing => ?_)
    cases fits with
    | object allowed below =>
      have present := allowed.present missing field.1 (List.mem_map_of_mem hf) required
      rw [← Key.name_of_required required] at present
      obtain ⟨content, found⟩ := Fields.exists_find?_of_mem_names present
      exact none content (.field hf found) (below field hf content found)
  | member hm _ => exact .inl rfl

/-- What is handed on stands in the value. It is smaller where a field is passed. -/
theorem Hands.step {content : Value} (h : Hands context.registry schema part value content) :
    value.Inside content ∧ (content.size < value.size ∨
      (content = value ∧ FrontStep context.registry schema part)) := by
  cases h with
  | target found => exact ⟨.self, .inr ⟨rfl, .target found⟩⟩
  | field hf found => exact ⟨.field found .self, .inl (Value.size_lt_of_find? found)⟩
  | member hm => exact ⟨.self, .inr ⟨rfl, .member hm⟩⟩

/-- A value that evades no step of a path hands a part on along the whole path. -/
theorem accepts_along {between : List Schema}
    (steady : ∀ content, value.Inside content → ∀ a b, [a, b] <:+: schema :: between ++ [last] →
      ¬Evades context a b content)
    (fits : Accepts context.registry context.keyPolicy schema value) :
    ∃ content, value.Inside content ∧ Accepts context.registry context.keyPolicy last content ∧
      (content.size < value.size ∨
        (content = value ∧ Relation.TransGen (FrontStep context.registry) schema last)) := by
  induction between generalizing schema value with
  | nil =>
    have taken := steady value .self schema last List.infix_rfl
    simp only [Evades, not_and, not_forall, not_not] at taken
    obtain ⟨content, hands, fits⟩ := taken fits
    obtain ⟨inside, step⟩ := hands.step
    exact ⟨content, inside, fits, step.imp_right fun ⟨same, front⟩ => ⟨same, .single front⟩⟩
  | cons next rest ih =>
    have taken := steady value .self schema next ⟨[], rest ++ [last], rfl⟩
    simp only [Evades, not_and, not_forall, not_not] at taken
    obtain ⟨content, hands, fits⟩ := taken fits
    obtain ⟨inside, step⟩ := hands.step
    obtain ⟨further, within, fits, onward⟩ := ih (fun deeper hd a b hab =>
      steady deeper (inside.trans hd) a b (hab.trans (List.infix_cons List.infix_rfl))) fits
    refine ⟨further, inside.trans within, fits, ?_⟩
    rcases step with less | ⟨rfl, front⟩
    · rcases onward with less' | ⟨rfl, _⟩
      · exact .inl (less'.trans less)
      · exact .inl less
    · exact onward.imp_right fun ⟨same, fronts⟩ => ⟨same, .head front fronts⟩

end Along

/-! ## 4. No way round in front -/

theorem Fronts.trans {registry : Registry} {start middle last : Schema}
    (h : Fronts registry start middle) (h' : Fronts registry middle last) :
    Fronts registry start last := by
  induction h' with
  | self => exact h
  | member _ hm ih => exact ih.member hm
  | target _ found ih => exact ih.target found

theorem Fronts.step {registry : Registry} {start schema part : Schema}
    (h : Fronts registry start schema) (step : FrontStep registry schema part) :
    Fronts registry start part := by
  cases step with
  | target found => exact h.target found
  | member hm => exact h.member hm

/-- In a guarded registry no steps in front lead back: those to members alone lead to smaller
schemas, and a reference is not in front of its own target. -/
theorem not_transGen_frontStep {registry : Registry} (guarded : registry.Guarded)
    (schema : Schema) :
    ¬Relation.TransGen (FrontStep registry) schema schema := by
  have steps {a b : Schema} (h : Relation.TransGen (FrontStep registry) a b) :
      Fronts registry a b ∧ (b.size < a.size ∨ ∃ name target, Fronts registry a (reference name) ∧
        registry.find? name = some target ∧ Fronts registry target b) := by
    induction h with
    | single step =>
      refine ⟨Fronts.self.step step, ?_⟩
      cases step with
      | target found => exact .inr ⟨_, _, .self, found, .self⟩
      | member hm => exact .inl (Nat.lt_succ_of_le (size_le_of_mem hm))
    | tail _ step ih =>
      obtain ⟨fronts, way⟩ := ih
      refine ⟨fronts.step step, ?_⟩
      rcases way with less | ⟨name, target, before, found, after⟩
      · cases step with
        | target found => exact .inr ⟨_, _, fronts, found, .self⟩
        | member hm => exact .inl ((Nat.lt_succ_of_le (size_le_of_mem hm)).trans less)
      · exact .inr ⟨name, target, before, found, after.step step⟩
  intro back
  rcases (steps back).2 with less | ⟨name, target, before, found, after⟩
  · exact Nat.lt_irrefl _ less
  · exact not_fronts_of_followed guarded rfl (followed_of_find? found) (after.trans before)

theorem accepts_followed_iff {context : Context} {schema target : Schema} {value : Value}
    (found : schema.followed context.registry = .ok target) :
    Accepts context.registry context.keyPolicy schema value ↔
      Accepts context.registry context.keyPolicy target value := by
  cases schema with
  | reference name => exact Registry.accepts_reference_iff (find?_of_followed found)
  | _ =>
    cases found
    rfl

/-- No value goes along with a path whose end stands for its start, since the way round would start
again with a smaller value. -/
theorem not_accepts_of_steady {context : Context} (guarded : context.registry.Guarded)
    {start last : Schema} {between : List Schema} {value : Value}
    (closed : last.followed context.registry = .ok start)
    (steady : ∀ content, value.Inside content → ∀ a b, [a, b] <:+: start :: between ++ [last] →
      ¬Evades context a b content) :
    ¬Accepts context.registry context.keyPolicy start value := by
  induction hs : value.size using Nat.strong_induction_on generalizing value with
  | _ size ih =>
    intro fits
    obtain ⟨content, inside, fits, onward⟩ := accepts_along steady fits
    rcases onward with less | ⟨rfl, fronts⟩
    · refine ih content.size (hs ▸ less) (fun deeper hd => steady deeper (inside.trans hd)) rfl ?_
      exact (accepts_followed_iff closed).mp fits
    · cases last with
      | reference name =>
        exact not_transGen_frontStep guarded start
          (fronts.tail (.target (find?_of_followed closed)))
      | _ =>
        cases closed
        exact not_transGen_frontStep guarded _ fronts

/-! ## 5. After a cycle error -/

/-- A value that fits at the start of a way back to the same schema strays from it. -/
theorem strays_of_isChain {context : Context} (guarded : context.registry.Guarded)
    {schema first last : Schema} {front loop : List Schema}
    (chain : (schema :: front ++ first :: loop ++ [last]).IsChain (Demands context.registry))
    (entered : ((first :: loop).getLast (List.cons_ne_nil _ _)).isReference = false)
    (same : first.followed context.registry = last.followed context.registry) {value : Value}
    (fits : Accepts context.registry context.keyPolicy schema value) :
    Strays context (schema :: front ++ first :: loop ++ [last]) value := by
  by_contra along
  have steady : ∀ content, value.Inside content → ∀ a b,
      [a, b] <:+: schema :: front ++ first :: loop ++ [last] → ¬Evades context a b content := by
    intro content inside a b step evades
    have demand : Demands context.registry a b := by
      simpa using chain.infix step
    exact along ⟨content, inside, a, b, step, evades, evades.chosen demand⟩
  have onto : ∀ content, value.Inside content → ∀ a b, [a, b] <:+: schema :: front ++ [first] →
      ¬Evades context a b content := fun content inside a b step =>
    steady content inside a b (step.trans ⟨[], loop ++ [last], by simp⟩)
  obtain ⟨content, inside, fits, _⟩ := accepts_along onto fits
  have steady : ∀ deeper, content.Inside deeper → ∀ a b, [a, b] <:+: first :: loop ++ [last] →
      ¬Evades context a b deeper := fun deeper hd a b step =>
    steady deeper (inside.trans hd) a b (step.trans ⟨schema :: front, [], by simp⟩)
  cases first with
  | reference name =>
    cases loop with
    | nil => cases entered
    | cons next rest =>
      have step : [reference name, next] <:+:
          schema :: front ++ reference name :: next :: rest ++ [last] :=
        ⟨schema :: front, rest ++ [last], by simp⟩
      have demand : Demands context.registry (reference name) next := by
        simpa using chain.infix step
      cases demand with
      | target found =>
        have closed : last.followed context.registry = .ok next := same ▸ followed_of_find? found
        have further : ∀ deeper, content.Inside deeper → ∀ a b, [a, b] <:+: next :: rest ++ [last] →
            ¬Evades context a b deeper := fun deeper hd a b step =>
          steady deeper hd a b (step.trans (List.infix_cons List.infix_rfl))
        exact not_accepts_of_steady guarded closed further
          ((Registry.accepts_reference_iff found).mp fits)
  | _ => exact not_accepts_of_steady guarded same.symm steady fits

theorem retraces_of_cycle {context : Context} (mode : context.mode = .synthesize) {schema : Schema}
    {rng : Rng} {names : List String}
    (run : ((schema.generate context).runFrom rng).1 = .error (.error (.cycle names))) :
    ∃ way, Retraces context.registry context.expanding schema way names := by
  have ended := generateWithin_retraces mode (schema.expansionBudget context.registry)
    context.expanding schema rng
  rw [show generateWithin (schema.expansionBudget context.registry)
      { context with expanding := context.expanding } schema = schema.generate context from rfl,
    run] at ended
  exact ended names rfl

/-- A cycle error leaves a path of demands that comes back to a name, and the error names what was
entered on it. The name was under expansion from the start, or it belongs to two schemas on the
path. If they stand for the same one, every value that fits strays from the path. -/
theorem strays_of_cycle {context : Context} (guarded : context.registry.Guarded)
    (mode : context.mode = .synthesize) {schema : Schema} {rng : Rng} {names : List String}
    (run : ((schema.generate context).runFrom rng).1 = .error (.error (.cycle names))) :
    ∃ before last identity,
      (schema :: before ++ [last]).IsChain (Demands context.registry) ∧
      names = context.expanding.reverse.map (·.identity) ++ namesOnWay schema (before ++ [last]) ∧
      last.identity = some identity ∧
      (⟨identity, false⟩ ∈ context.expanding ∨ ∃ first ∈ before, first.identity = some identity ∧
        (first.followed context.registry = last.followed context.registry →
          ∀ value, schema.accepts context value = some true →
            Strays context (schema :: before ++ [last]) value)) := by
  obtain ⟨way, back⟩ := retraces_of_cycle mode run
  obtain ⟨before, last, identity, rfl, named, entered, seen⟩ := back.closes
  refine ⟨before, last, identity, back.isChain, back.names_eq, named, seen.imp_right ?_⟩
  rintro ⟨front, first, loop, rfl, named⟩
  refine ⟨first, by simp, named, fun same value fits => ?_⟩
  simpa using strays_of_isChain guarded (by simpa using back.isChain) (by simpa using entered) same
    (Accepts.of_accepts fits)

end Schema

/-- Chains of nodes that never end. -/
def endlessNodes : Context :=
  .ofRegistry (Registry.initial.register "Node" (.object [("next", .named "Node")] none))

theorem guarded_endlessNodes : endlessNodes.registry.Guarded :=
  Registry.guarded_of_rank (fun _ => 0) (by decide +kernel)

/-- A node, or null under its name. -/
def nodeOrNull : Schema := .union [.named "Node", .named "null"] none none none

/-- When the node is drawn, the error names it twice. -/
theorem cycle_nodeOrNull :
    ((nodeOrNull.generate endlessNodes).runFrom (.ofSeed 2)).1 =
      .error (.error (.cycle ["(Node)", "(Node)"])) := rfl

/-- The null that fits strays from the path at the union. -/
theorem strays_of_cycle_nodeOrNull :
    ∃ before last identity,
      (nodeOrNull :: before ++ [last]).IsChain (Schema.Demands endlessNodes.registry) ∧
      ["(Node)", "(Node)"] = Schema.namesOnWay nodeOrNull (before ++ [last]) ∧
      last.identity = some identity ∧
      (⟨identity, false⟩ ∈ endlessNodes.expanding ∨ ∃ first ∈ before,
        first.identity = some identity ∧
        (first.followed endlessNodes.registry = last.followed endlessNodes.registry →
          ∀ value, nodeOrNull.accepts endlessNodes value = some true →
            Schema.Strays endlessNodes (nodeOrNull :: before ++ [last]) value)) :=
  Schema.strays_of_cycle guarded_endlessNodes rfl cycle_nodeOrNull

/-- A cycle error although null fits. -/
theorem accepts_null_of_cycle :
    endlessNodes.registry.Guarded ∧ endlessNodes.mode = .synthesize ∧
    ((nodeOrNull.generate endlessNodes).runFrom (.ofSeed 2)).1 =
      .error (.error (.cycle ["(Node)", "(Node)"])) ∧
    nodeOrNull.accepts endlessNodes .null = some true :=
  ⟨guarded_endlessNodes, rfl, cycle_nodeOrNull, by decide +kernel⟩

end DataContract
