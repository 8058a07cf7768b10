import Mathlib
import DataContract.Proofs.Drawing

/-!
# Made values fit

A value that `Schema.generate` makes of a schema fits the schema, whatever numbers are drawn and
whether it comes from an example, from the dictionary or from nothing.

1. `Schema.exampleValue_fits`, `Schema.firstExample_fits`: an example is taken only when it fits.
2. `generateItems_yields`, `generateFields_yields`: lists and objects are made of parts, and every
   required field is among them.
3. `Schema.Makes`: what can be made, said without steps and without draws. It holds of every value
   that is generated (`Schema.generateWithin_makes`).
4. `Schema.Makes.accepts`: what can be made of a well-posed schema fits it.
5. The round trip: hence a generated value is accepted.
-/

namespace DataContract

open Gen

/-! ## 1. Examples -/

namespace Schema

variable {context : Context} {schema : Schema}

theorem accepts_of_check {value : Value} {captured : Fields String}
    (h : schema.check context value = some (.accepted captured)) :
    Accepts context.registry context.keyPolicy schema value :=
  (isAccepted_checkWithin_iff h).mp rfl

theorem exampleValue_fits {sample : Option String} {value : Value}
    (h : exampleValue context sample schema = .ok (some value)) :
    sample.isSome ∧ Accepts context.registry context.keyPolicy schema value := by
  unfold exampleValue at h
  split at h
  · refine ⟨rfl, ?_⟩
    obtain ⟨read, _, h⟩ := Attempt.bind_eq_ok.mp h
    obtain ⟨verdict, checked, h⟩ := Attempt.bind_eq_ok.mp h
    cases verdict with
    | accepted captured =>
      cases h
      exact accepts_of_check (Attempt.ofOption_eq_ok.mp checked)
    | rejected failure => cases h
  · cases h

theorem firstExample_fits {sample : String} {members : List Schema} {value : Value}
    (h : firstExample context sample members = .ok (.ok (some value))) :
    ∃ schema ∈ members, Accepts context.registry context.keyPolicy schema value := by
  induction members with
  | nil => cases h
  | cons schema rest ih =>
    unfold firstExample at h
    split at h
    · next own he =>
      cases h
      exact ⟨schema, List.mem_cons_self, (exampleValue_fits he).2⟩
    · cases h
    · obtain ⟨result, hr, h⟩ := Attempt.bind_eq_ok.mp h
      cases result with
      | error failures => cases h
      | ok own =>
        cases h
        obtain ⟨other, hm, fit⟩ := ih hr
        exact ⟨other, List.mem_cons_of_mem _ hm, fit⟩

theorem exampleOfAny_fits {sample : Option String} {members : List Schema} {value : Value}
    (h : exampleOfAny context sample members = .ok (some value)) :
    sample.isSome ∧ ∃ schema ∈ members,
        Accepts context.registry context.keyPolicy schema value := by
  unfold exampleOfAny at h
  split at h
  · refine ⟨rfl, ?_⟩
    obtain ⟨result, hf, h⟩ := Attempt.bind_eq_ok.mp h
    cases result with
    | error failures => cases h
    | ok own =>
      cases h
      exact firstExample_fits hf
  · cases h

end Schema

/-! ## 2. Lists and objects -/

/-- Items are made until one is none; all of them are as said. -/
theorem generateItems_yields {make : Gen (Option Value)} {fits : Value → Prop}
    (h : make.Yields fun item? => ∀ item, item? = some item → fits item) (place count : Nat) :
    (generateItems make place count).Yields fun items => ∀ item ∈ items, fits item := by
  induction count generalizing place with
  | zero => exact ends_pure nofun
  | succ count ih =>
    refine yields_bind (yields_under _ (h.mono fun item? hi => ?_))
    cases item? with
    | none => exact ends_pure nofun
    | some item =>
      exact yields_bind ((ih (place + 1)).mono fun rest hr =>
        ends_pure (List.forall_mem_cons.mpr ⟨hi item rfl, hr⟩))

section FieldsMade

variable {α : Type} {fits : Schema → α → Prop} {field : String × Schema}
  {fields rest : List (String × Schema)} {done made : Fields α}

/-- What was done stays or is replaced by a part that fits its field; required fields are there. -/
structure FieldsMade (fits : Schema → α → Prop) (fields : List (String × Schema))
    (done made : Fields α) : Prop where
  source : ∀ name part, Fields.find? name made = some part →
    Fields.find? name done = some part ∨
      ∃ field ∈ fields, Key.name field.1 = name ∧ fits field.2 part
  kept : ∀ name ∈ Fields.names done, name ∈ Fields.names made
  required : ∀ field ∈ fields, Key.isOptional field.1 = false →
    Key.name field.1 ∈ Fields.names made
  distinct : (Fields.names done).Nodup → (Fields.names made).Nodup

namespace FieldsMade

theorem nil : FieldsMade fits [] done done :=
  ⟨fun _ _ h => .inl h, fun _ h => h, nofun, id⟩

/-- An optional field may be left out. -/
theorem skip (optional : Key.isOptional field.1 = true) (h : FieldsMade fits rest done made) :
    FieldsMade fits (field :: rest) done made where
  source name part hp := (h.source name part hp).imp_right fun ⟨other, hm, hn⟩ =>
    ⟨other, List.mem_cons_of_mem _ hm, hn⟩
  kept := h.kept
  required :=
    List.forall_mem_cons.mpr ⟨fun ho => Bool.noConfusion (ho.symm.trans optional), h.required⟩
  distinct := h.distinct

/-- A part that fits its field may be put in. -/
theorem put {own : α} (ho : fits field.2 own)
    (h : FieldsMade fits rest (Fields.put (Key.name field.1) own done) made) :
    FieldsMade fits (field :: rest) done made where
  source name part hp := by
    rcases h.source name part hp with hd | ⟨other, hm, hn⟩
    · rw [Fields.find?_put] at hd
      split at hd
      · next same =>
        cases hd
        exact .inr ⟨field, List.mem_cons_self, same.symm, ho⟩
      · exact .inl hd
    · exact .inr ⟨other, List.mem_cons_of_mem _ hm, hn⟩
  kept name hn := h.kept name (Fields.mem_names_put.mpr (.inr hn))
  required := List.forall_mem_cons.mpr
    ⟨fun _ => h.kept _ (Fields.mem_names_put.mpr (.inl rfl)), h.required⟩
  distinct hd := h.distinct (Fields.nodup_names_put hd)

/-- For every name there is the field that its part was made for. -/
theorem exists_origin (h : FieldsMade fits fields [] made) :
    ∃ origin : String → String × Schema, ∀ name part, Fields.find? name made = some part →
      origin name ∈ fields ∧ Key.name (origin name).1 = name ∧ fits (origin name).2 part := by
  have source (name : String) : ∃ field : String × Schema, ∀ part,
      Fields.find? name made = some part →
        field ∈ fields ∧ Key.name field.1 = name ∧ fits field.2 part := by
    cases hf : Fields.find? name made with
    | none => exact ⟨default, nofun⟩
    | some part =>
      rcases h.source name part hf with hd | ⟨field, hm, hn, fit⟩
      · cases hd
      · refine ⟨field, ?_⟩
        rintro _ ⟨⟩
        exact ⟨hm, hn, fit⟩
  exact ⟨fun name => (source name).choose, fun name => (source name).choose_spec⟩

end FieldsMade

/-- A part that is made fits its field; where none is made the field is optional. -/
def PartMade (fits : Schema → α → Prop) (field : String × Schema) : Option α → Prop
  | some part => fits field.2 part
  | none => Key.isOptional field.1 = true

end FieldsMade

/-- The fields of an object are made of parts that fit. -/
theorem generateFields_yields {make : Context → Schema → Gen Value} {context : Context}
    {fits : Schema → Value → Prop} {fields : List (String × Schema)} {done : Fields Value}
    (h : ∀ field ∈ fields, ∀ child, context.enter field.2 (Key.isOptional field.1) =
      .ok (some child) →
      (generateKeyed make child (some (Key.name field.1)) field.2).Yields (fits field.2)) :
    (generateFields make context fields done).Yields (FieldsMade fits fields done) := by
  induction fields generalizing done with
  | nil => exact ends_pure .nil
  | cons field rest ih =>
    obtain ⟨key, schema⟩ := field
    obtain ⟨own, others⟩ := List.forall_mem_cons.mp h
    have part : (context.protect schema (Key.isOptional key) fun child =>
        generateKeyed make child (some (Key.name key)) schema).Yields
            (PartMade fits (key, schema)) :=
      Context.yields_protect id own
    have included {next : Option Value → Gen (Fields Value)}
        (put : ∀ value, next (some value) =
          generateFields make context rest (Fields.put (Key.name key) value done))
        (skip : next none = generateFields make context rest done) :
        ((context.protect schema (Key.isOptional key) fun child =>
          generateKeyed make child (some (Key.name key)) schema).under
            (Key.name key) >>= next).Yields (FieldsMade fits ((key, schema) :: rest) done) := by
      refine yields_bind (yields_under (Key.name key) (part.mono fun value? hv => ?_))
      cases value? with
      | some value =>
        rw [put]
        exact (ih others).mono fun made => .put hv
      | none =>
        rw [skip]
        exact (ih others).mono fun made => .skip hv
    unfold generateFields
    simp only
    split
    · next optional =>
      refine yields_bind ((yields_trivial _).mono fun put? _ => ?_)
      split
      · exact included (fun _ => rfl) rfl
      · exact (ih others).mono fun made => .skip optional
    · exact yields_bind (ends_pure (included (fun _ => rfl) rfl))

/-- A bound value is taken only when it fits. -/
theorem generateKeyed_yields {make : Context → Schema → Gen Value} {context : Context}
    {key : Option String} {schema : Schema} {fits : Value → Prop}
    (bound : context.dictionary ≠ [] → ∀ value,
      Schema.Accepts context.registry context.keyPolicy schema value → fits value)
    (made : (make context schema).Yields fits) :
    (generateKeyed make context key schema).Yields fits := by
  unfold generateKeyed
  split
  · exact made
  · next value found =>
    have filled : context.dictionary ≠ [] := by
      rintro empty
      rw [empty] at found
      cases key <;> cases found
    refine yields_bind (ends_attempt ?_)
    cases ha : schema.accepts context value with
    | none => trivial
    | some accepted =>
      cases accepted with
      | true => exact ends_pure (bound filled value (Schema.Accepts.of_accepts ha))
      | false => exact made

/-! ## 3. What can be made -/

namespace Schema

/-- The value can be made of the schema. An example, or a value that is bound to a key, is taken
over when it fits; in an object, `origin` tells of each name the field that its part was made
for. -/
inductive Makes (context : Context) : Schema → Value → Prop
  | string {range : LengthRange} {sample : Option String} {text : String} :
      range.Admits text → Makes context (.string range sample) (.string text)
  | number {range : NumberRange} {fractional : Bool} {sample : Option String} {n : Number} :
      (range.Signed → range.Admits n) → Makes context (.number range fractional sample) (.number n)
  | boolean {sample : Option String} {b : Bool} : Makes context (.boolean sample) (.boolean b)
  | null : Makes context .null .null
  | literal {value : Value} {title : Option String} : Makes context (.literal value title) value
  | reference {name : String} {target : Schema} {value : Value} :
      context.registry.find? name = some target → Makes context target value →
      Makes context (.reference name) value
  | object {fields : List (String × Schema)} {title : Option String} {entries : Fields Value}
      (origin : String → String × Schema) :
      (∀ name ∈ Fields.names entries, origin name ∈ fields ∧ Key.name (origin name).1 = name) →
      (∀ name value, Fields.find? name entries = some value → Makes context (origin name).2 value) →
      (∀ field ∈ fields, Key.isOptional field.1 = false → Key.name field.1 ∈ Fields.names entries) →
      Makes context (.object fields title) (.object entries)
  | list {item : Schema} {title sample : Option String} {items : List Value} :
      (∀ value ∈ items, Makes context item value) →
      Makes context (.list item title sample) (.array items)
  | union {members : List Schema} {key title sample : Option String} {schema : Schema}
      {value : Value} :
      schema ∈ members → Makes context schema value →
      Makes context (.union members key title sample) value
  | unionNull {members : List Schema} {key title sample : Option String} :
      listsNull members = true → Makes context (.union members key title sample) .null
  | taken {schema : Schema} {value : Value} :
      schema.sample?.isSome = true ∨ context.dictionary ≠ [] →
      Accepts context.registry context.keyPolicy schema value → Makes context schema value

/-- Fields that are made from nothing make an object. -/
theorem Makes.ofFields {context : Context} {fields : List (String × Schema)} {title : Option String}
    {entries : Fields Value} (h : FieldsMade (Makes context) fields [] entries) :
    Makes context (.object fields title) (.object entries) := by
  obtain ⟨origin, ho⟩ := h.exists_origin
  refine .object origin (fun name hn => ?_) (fun name value hv => (ho name value hv).2.2) h.required
  obtain ⟨value, hv⟩ := Fields.exists_find?_of_mem_names hn
  exact ⟨(ho name value hv).1, (ho name value hv).2.1⟩

/-- The example of any schema is taken only when it fits. -/
theorem ownExample_fits {context : Context} {schema : Schema} {value : Value}
    (h : schema.ownExample context = .ok (some value)) :
    schema.sample?.isSome ∧ Accepts context.registry context.keyPolicy schema value := by
  unfold ownExample at h
  split at h
  · obtain ⟨sampled, schema, hm, fit⟩ := exampleOfAny_fits h
    exact ⟨sampled, .union hm fit⟩
  · exact exampleValue_fits h

/-- Every value that is generated can be made. The induction is on the steps; what is under
expansion changes from step to step, and nothing that can be made depends on it. -/
theorem generateWithin_makes (context : Context) (fuel : Nat) (expanding : List Frame)
    (schema : Schema) :
    (generateWithin fuel { context with expanding := expanding } schema).Yields
      (Makes context schema) := by
  induction fuel generalizing expanding schema with
  | zero => exact yields_throw
  | succ fuel ih =>
    have inside {child : Context} {part : Schema} {nullable : Bool} (key : Option String)
        (he : Context.enter { context with expanding := expanding } part nullable =
          .ok (some child)) :
        (generateKeyed (generateWithin fuel) child key part).Yields (Makes context part) := by
      obtain ⟨stack, rfl⟩ := Context.expanding_of_enter he
      exact generateKeyed_yields (fun filled value fit =>
        (.taken (.inr filled) fit : Makes context part value)) (ih stack part)
    unfold generateWithin
    refine yields_bind (ends_attempt ?_)
    cases he : schema.ownExample { context with expanding := expanding } with
    | error halt => trivial
    | ok example? =>
      cases example? with
      | some value =>
        obtain ⟨sampled, fit⟩ := ownExample_fits he
        exact ends_pure (.taken (.inl sampled) fit)
      | none =>
        cases schema with
        | string range sample =>
          refine ends_mono range.ends_generate ?_ fun _ _ => trivial
          rintro _ ⟨text, rfl, inside⟩
          exact .string inside
        | number range fractional sample =>
          refine ends_mono (range.ends_generate fractional) ?_ fun _ _ => trivial
          rintro _ ⟨n, rfl, inside⟩
          exact .number inside
        | boolean sample => exact yields_bind (ends_draw fun _ => ends_pure .boolean)
        | null => exact ends_pure .null
        | literal value title => exact ends_pure .literal
        | reference name =>
          refine yields_bind (ends_attempt ?_)
          unfold Registry.lookup
          cases hf : context.registry.find? name with
          | none => trivial
          | some target => exact (ih expanding target).mono fun value => .reference hf
        | object fields title =>
          exact yields_bind ((generateFields_yields fun field _ child he => inside _ he).mono
            fun entries made => ends_pure (.ofFields made))
        | list item title sample =>
          have make : (Context.protect { context with expanding := expanding } item true
              fun child => generateWithin fuel child item).Yields
                fun item? => ∀ value, item? = some value → Makes context item value := by
            refine Context.yields_protect (fun _ => nofun) fun child he => ?_
            obtain ⟨stack, rfl⟩ := Context.expanding_of_enter he
            refine (ih stack item).mono fun value made => ?_
            rintro _ ⟨⟩
            exact made
          refine yields_bind (ends_draw fun _ => yields_bind ?_)
          exact (generateItems_yields make 0 _).mono fun items made => ends_pure (.list made)
        | union members key title sample =>
          refine yields_bind (ends_draw fun rng => ?_)
          cases hc : (Draw.choose members rng).1 with
          | none => exact yields_throw
          | some pick =>
            have made : (Context.protect { context with expanding := expanding } pick
                (listsNull members) fun child =>
                  generateKeyed (generateWithin fuel) child key pick).Yields fun value? =>
                    Makes context (union members key title sample) (value?.getD .null) :=
              Context.yields_protect .unionNull fun child he =>
                (inside key he).mono fun value => .union (Draw.choose_mem hc)
            exact yields_bind (made.mono fun value? => ends_pure)

theorem makes_of_generate {context : Context} {schema : Schema} {rng : Rng} {value : Value}
    (made : ((schema.generate context).runFrom rng).1 = .ok value) :
    Makes context schema value := by
  have makes := generateWithin_makes context (schema.expansionBudget context.registry)
    context.expanding schema rng
  unfold generate at made
  rw [made] at makes
  exact makes

/-! ## 4. What can be made fits -/

theorem listsNull_iff {members : List Schema} : listsNull members = true ↔ null ∈ members := by
  refine List.any_eq_true.trans ⟨?_, fun hm => ⟨null, hm, rfl⟩⟩
  rintro ⟨schema, hm, hn⟩
  cases schema <;> first | exact hm | cases hn

/-- Where names are distinct, a name belongs to one field only. -/
theorem field_eq_of_name {fields : List (String × Schema)}
    (distinct : ((Fields.names fields).map Key.name).Nodup) {field other : String × Schema}
    (hf : field ∈ fields) (ho : other ∈ fields) (h : Key.name field.1 = Key.name other.1) :
    field = other := by
  rw [Fields.names, List.map_map] at distinct
  exact List.inj_on_of_nodup_map distinct hf ho h

/-- What can be made of a well-posed schema fits it. -/
theorem Makes.accepts {context : Context} (registered : context.registry.Everywhere WellPosed)
    {schema : Schema} {value : Value} (made : Makes context schema value)
    (posed : schema.Everywhere WellPosed) :
    Accepts context.registry context.keyPolicy schema value := by
  induction made with
  | string inside => exact .string inside
  | number inside => exact .number (inside posed.here)
  | boolean => exact .boolean
  | null => exact .null
  | literal => exact .literal (Value.sameLiteral_self posed.here)
  | reference found _ ih => exact .reference found (ih (registered.target found))
  | object origin source _ required ih =>
    obtain ⟨distinct, below⟩ := everywhere_object.mp posed
    refine .object ⟨fun _ key hk ho => ?_, fun _ name hn => ?_⟩ fun field hf value hv => ?_
    · obtain ⟨field, hm, rfl⟩ := List.mem_map.mp hk
      rw [← Key.name_of_required ho]
      exact required field hm ho
    · exact ⟨_, List.mem_map_of_mem (source name hn).1, (source name hn).2⟩
    · obtain ⟨hm, hn⟩ := source _ (Fields.mem_names_of_find? hv)
      have fit := ih _ value hv (below _ hm)
      rwa [field_eq_of_name distinct hm hf hn] at fit
  | list _ ih =>
    obtain ⟨_, below⟩ := everywhere_list.mp posed
    exact .list fun value hv => ih value hv below
  | union hm _ ih => exact .union hm (ih ((everywhere_union.mp posed).2 _ hm))
  | unionNull listed => exact .union (listsNull_iff.mp listed) .null
  | taken _ fit => exact fit

/-! ## 5. The round trip -/

/-- Over a guarded registry of well-posed schemas, a value that is made of a well-posed schema is
accepted by it: in either mode, under any policy on keys, with any dictionary and any expansion
under way, whatever numbers are drawn. -/
theorem accepts_of_generate {context : Context} {schema : Schema} {rng : Rng} {value : Value}
    (guarded : context.registry.Guarded) (posed : schema.Everywhere WellPosed)
    (registered : context.registry.Everywhere WellPosed)
    (made : ((schema.generate context).runFrom rng).1 = .ok value) :
    schema.accepts context value = some true :=
  (accepts_iff guarded).mpr ((makes_of_generate made).accepts registered posed)

end Schema

/-- Nodes with a number from 0 to 10, each linked to the next node or to none. -/
def linkedNodes : Registry :=
  (Registry.initial.register "Link"
    (.union [.named "Node", .null] none (some "Link") none)).register "Node"
    (.object [("value", .number ⟨some (.ofInt 0), some (.ofInt 10)⟩ false none),
      ("next", .named "Link"), ("tags?", .list .text none none)] (some "Node"))

theorem guarded_linkedNodes : linkedNodes.Guarded :=
  Registry.guarded_of_rank (fun name => if name = "(Link)" then 1 else 0) (by decide +kernel)

/-- A node is made and accepted, drawn from the seed 7. -/
theorem accepts_of_generate_node :
    ∃ value, (((Schema.named "Node").generate (.ofRegistry linkedNodes)).runFrom (.ofSeed 7)).1 =
      .ok value ∧ (Schema.named "Node").accepts (.ofRegistry linkedNodes) value = some true := by
  have made : (((Schema.named "Node").generate (.ofRegistry linkedNodes)).runFrom
      (.ofSeed 7)).1.isOk = true := by decide +kernel
  cases run :
    (((Schema.named "Node").generate (.ofRegistry linkedNodes)).runFrom (.ofSeed 7)).1 with
  | error halt =>
    rw [run] at made
    cases made
  | ok value =>
    exact ⟨value, rfl, Schema.accepts_of_generate guarded_linkedNodes (by decide +kernel)
      (by decide +kernel) run⟩

end DataContract
