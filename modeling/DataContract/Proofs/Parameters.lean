import Mathlib
import DataContract.Proofs.OneField
import DataContract.Proofs.ReadingBack
import DataContract.Query.Derivation

/-!
# Parameters as texts

A query sends each value as a text, and each item of an array as a text of its own. Whether the
other side accepts them is a matter of each parameter by itself, where no two have one name.

1. `Value.parts`: what is sent one by one. `Registry.reader`: the schema that reads it.
2. `Query.Suits`, `Query.fits_iff`: the texts of a parameter suit its declaration.
3. `Query.drawValues`: the values that the parameters of a query are made from.
4. `Query.check_generate`: made parameters are accepted exactly when each of them is `Carried`. This
   asks for nothing but a present part where the parameter has to be there, unless the parameter
   leads to a union, or an array was drawn for what is not declared as a list. Then the texts have
   to pass by themselves: in a union, what the first alternative that can read a text reads there
   has to be accepted by one of them.
5. `searchQuery`: a search whose parameters come back. `arrayOrNull`: an array drawn for a nullable
   list does not.
-/

namespace DataContract

/-! ## 1. Parts -/

/-- What is sent one by one: the items of an array, any other value as a whole. -/
def Value.parts : Value → List Value
  | .array items => items
  | value => [value]

def Value.isArray (value : Value) : Bool := value.asArray?.isSome

theorem Value.parts_of_not_array {value : Value} (h : value.isArray = false) :
    value.parts = [value] := by
  cases value <;> first | rfl | cases h

theorem Query.rawPairs_eq (name : String) (value : Value) :
    rawPairs name value = value.parts.map fun part => (name, part.literal) := by
  cases value <;> rfl

def Schema.isList : Schema → Bool
  | list _ _ _ => true
  | _ => false

/-- The schema that reads the parts of a parameter: the item of a list, any other schema itself. -/
def Registry.partSchema (registry : Registry) (schema : Schema) : Schema :=
  match registry.resolve schema with
  | .list item _ _ => item
  | _ => schema

theorem Registry.partSchema_of_not_list {registry : Registry} {schema : Schema}
    (h : (registry.resolve schema).isList = false) : registry.partSchema schema = schema := by
  unfold partSchema
  split
  · next resolved =>
    rw [resolved] at h
    cases h
  · rfl

theorem Registry.exists_partSchema_of_list {registry : Registry} {schema : Schema}
    (h : (registry.resolve schema).isList = true) :
    ∃ title sample, registry.resolve schema = .list (registry.partSchema schema) title sample := by
  unfold partSchema
  cases resolved : registry.resolve schema with
  | list item title sample => exact ⟨title, sample, rfl⟩
  | _ =>
    rw [resolved] at h
    cases h

/-- The end of the references that what reads the parts leads to. -/
def Registry.reader (registry : Registry) (schema : Schema) : Schema :=
  registry.resolve (registry.partSchema schema)

/-- What comes back may be something else than what was sent: what reads the parts is a union, or an
array was drawn for what does not lead to a list. -/
def Registry.Ambiguous (registry : Registry) (schema : Schema) (value : Value) : Prop :=
  (registry.reader schema).isUnion = true ∨
    value.isArray = true ∧ (registry.resolve schema).isList = false

instance (registry : Registry) (schema : Schema) (value : Value) :
    Decidable (registry.Ambiguous schema value) :=
  inferInstanceAs (Decidable (_ ∨ _))

/-- Where keys are distinct, one entry stands under a key. -/
theorem Fields.filter_key_eq {α : Type} {fields : Fields α} (distinct : (names fields).Nodup)
    {field : String × α} (hf : field ∈ fields) : fields.filter (·.1 == field.1) = [field] := by
  induction fields with
  | nil => cases hf
  | cons first rest ih =>
    rw [names, List.map_cons, List.nodup_cons] at distinct
    obtain ⟨new, distinct⟩ := distinct
    rcases List.mem_cons.mp hf with rfl | hr
    · rw [List.filter_cons, if_pos (beq_self_eq_true _), List.cons_inj_right,
        List.filter_eq_nil_iff]
      intro other ho same
      exact new (eq_of_beq same ▸ List.mem_map_of_mem ho)
    · have other : ¬(first.1 == field.1) = true := fun same =>
        new (eq_of_beq same ▸ List.mem_map_of_mem hr)
      rw [List.filter_cons, if_neg other]
      exact ih distinct hr

theorem Fields.nodup_map_name_iff {α : Type} {fields : Fields α} :
    ((names fields).map Key.name).Nodup ↔ (fields.map fun field => Key.name field.1).Nodup := by
  rw [names, List.map_map]
  rfl

theorem Gen.runFrom_map {α β : Type} (f : α → β) (body : Gen α) (rng : Rng) :
    ((f <$> body).runFrom rng).1 = (body.runFrom rng).1.map f := by
  rw [map_eq_pure_bind, runFrom_bind]
  rcases body.runFrom rng with ⟨_ | _, _⟩ <;> rfl

namespace Query

/-! ## 2. Each parameter by itself -/

/-- The texts under a name. -/
def textsUnder (name : String) (raw : List (String × String)) : List String :=
  (raw.filter (·.1 == name)).map (·.2)

theorem mem_textsUnder {name text : String} {raw : List (String × String)} :
    text ∈ textsUnder name raw ↔ (name, text) ∈ raw := by
  unfold textsUnder
  constructor
  · intro hm
    obtain ⟨⟨other, _⟩, hp, rfl⟩ := List.mem_map.mp hm
    obtain ⟨hp, same⟩ := List.mem_filter.mp hp
    exact eq_of_beq same ▸ hp
  · intro hm
    exact List.mem_map.mpr ⟨(name, text), List.mem_filter.mpr ⟨hm, beq_self_eq_true name⟩, rfl⟩

/-- The texts under the name of a parameter suit its declaration: there are some where a missing
parameter is reported, and each is taken. -/
structure Suits (context : Context) (field : String × Schema) (texts : List String) : Prop where
  present : context.keyPolicy.missing = true → Key.isOptional field.1 = false → texts ≠ []
  taken : ∀ text ∈ texts, Takes context (context.registry.partSchema field.2) text

variable {context : Context} {query : Query}

theorem sharedOut_single_iff {takes : Schema → String → Prop} {schema : Schema}
    {texts : List String} :
    SharedOut takes [schema] texts ↔ ∀ text ∈ texts, takes schema text := by
  constructor
  · intro shared text ht
    obtain ⟨other, ho, taken⟩ := shared.taken text ht
    exact List.mem_singleton.mp ho ▸ taken
  · intro each
    refine ⟨fun text ht => ⟨schema, List.mem_singleton_self schema, each text ht⟩,
      fun before other behind split some => ?_⟩
    obtain ⟨text, ht, free⟩ := some
    have inside : other ∈ [schema] := split ▸ List.mem_append_right _ List.mem_cons_self
    exact ⟨text, ht, free, List.mem_singleton.mp inside ▸ each text ht⟩

/-- The texts of a parameter that is declared once fit when each is taken. -/
theorem valuesFit_single_iff {schema : Schema} {texts : List String} :
    ValuesFit context [schema] texts ↔
      ∀ text ∈ texts, Takes context (context.registry.partSchema schema) text := by
  cases listed : (context.registry.resolve schema).isList with
  | false =>
    have other (item : Schema) (title sample : Option String) :
        context.registry.resolve schema ≠ .list item title sample := by
      intro same
      rw [same] at listed
      cases listed
    rw [Registry.partSchema_of_not_list listed, ← sharedOut_single_iff]
    refine ⟨fun fit => ?_, .shared other⟩
    cases fit with
    | list same _ _ => exact absurd same (other _ _ _)
    | shared _ shared => exact shared
  | true =>
    obtain ⟨title, sample, resolved⟩ := Registry.exists_partSchema_of_list listed
    have accepts (items : List Value) :
        Schema.Accepts context.registry context.keyPolicy schema (.array items) ↔
          ∀ item ∈ items, Schema.Accepts context.registry context.keyPolicy
            (context.registry.partSchema schema) item := by
      rw [(Registry.follows_resolve schema).accepts_iff, resolved]
      refine ⟨fun fits => ?_, .list⟩
      cases fits with
      | list each => exact each
    constructor
    · intro fit
      cases fit with
      | shared other _ => exact absurd resolved (other _ _ _)
      | list same read fits =>
        rw [resolved, Schema.list.injEq] at same
        obtain ⟨rfl, _, _⟩ := same
        intro text ht
        obtain ⟨value, hv, back⟩ := exists_of_mem_forall₂ read ht
        exact ⟨value, back, (accepts _).mp fits value hv⟩
    · intro each
      have read : ∃ items, List.Forall₂ (fun text value => readOrText context.registry
          (context.registry.partSchema schema) text = some value ∧
            Schema.Accepts context.registry context.keyPolicy
              (context.registry.partSchema schema) value) texts items := by
        induction texts with
        | nil => exact ⟨[], .nil⟩
        | cons text rest ih =>
          obtain ⟨own, others⟩ := List.forall_mem_cons.mp each
          obtain ⟨value, back, fits⟩ := own
          obtain ⟨items, below⟩ := ih others
          exact ⟨value :: items, .cons ⟨back, fits⟩ below⟩
      obtain ⟨items, read⟩ := read
      refine .list resolved (read.imp fun _ _ => And.left) ((accepts items).mpr fun value hv => ?_)
      obtain ⟨_, _, _, fits⟩ := exists_of_mem_forall₂ read.flip hv
      exact fits

/-- Parameters under distinct names fit when every name is declared, where others are reported, and
the texts of each parameter suit its declaration. -/
theorem fits_iff (distinct : (query.pairs.map fun field => Key.name field.1).Nodup)
    {raw : List (String × String)} :
    query.Fits context raw ↔
      (context.keyPolicy.unexpected = true → ∀ pair ∈ raw, ∃ field ∈ query.pairs,
        Key.name field.1 = pair.1) ∧
      ∀ field ∈ query.pairs, Suits context field (textsUnder (Key.name field.1) raw) := by
  have keys : (Fields.names query.pairs).Nodup := (Fields.nodup_map_name_iff.mpr distinct).of_map
  have single {field : String × Schema} (hf : field ∈ query.pairs) :
      (query.pairs.filter (·.1 == field.1)).map (·.2) = [field.2] := by
    rw [Fields.filter_key_eq keys hf, List.map_singleton]
  constructor
  · rintro ⟨allowed, values⟩
    refine ⟨fun reported pair hp => ?_, fun field hf => ⟨fun reported required none => ?_, ?_⟩⟩
    · obtain ⟨key, hk, same⟩ := allowed.expected reported pair.1 (List.mem_map_of_mem hp)
      obtain ⟨field, hf, rfl⟩ := List.mem_map.mp hk
      exact ⟨field, hf, same⟩
    · have there := allowed.present reported field.1 (List.mem_map_of_mem hf) required
      obtain ⟨⟨name, text⟩, hp, same⟩ := List.mem_map.mp there
      have listed : text ∈ textsUnder (Key.name field.1) raw := by
        rw [mem_textsUnder, Key.name_of_required required]
        exact same ▸ hp
      rw [none] at listed
      cases listed
    · have fit := values field.1 (List.mem_map_of_mem hf)
      rwa [single hf, valuesFit_single_iff] at fit
  · rintro ⟨known, suits⟩
    refine ⟨⟨fun reported key hk required => ?_, fun reported name hn => ?_⟩, fun key hk => ?_⟩
    · obtain ⟨field, hf, rfl⟩ := List.mem_map.mp hk
      obtain ⟨text, ht⟩ := List.exists_mem_of_ne_nil _ ((suits field hf).present reported required)
      rw [mem_textsUnder, Key.name_of_required required] at ht
      exact List.mem_map_of_mem ht
    · obtain ⟨pair, hp, rfl⟩ := List.mem_map.mp hn
      obtain ⟨field, hf, same⟩ := known reported pair hp
      exact ⟨field.1, List.mem_map_of_mem hf, same⟩
    · obtain ⟨field, hf, rfl⟩ := List.mem_map.mp hk
      rw [single hf, valuesFit_single_iff]
      exact (suits field hf).taken

/-! ## 3. Drawn values -/

/-- The values that parameters are made from, under their names. -/
def drawValues (context : Context) : Fields Schema → Gen (Fields Value)
  | [] => return []
  | (key, schema) :: rest => do
    let name := Key.name key
    let made ← ((context.protect schema false fun child =>
      schema.generateFor child (some name)).under name).under root
    return (made.map (name, ·)).toList ++ (← drawValues context rest)

/-- What is sent for values under their names. -/
def sent (values : Fields Value) : List (String × String) :=
  values.flatMap fun entry => rawPairs entry.1 entry.2

/-- Made parameters are what is sent for the values that are drawn. -/
theorem generateEntries_eq (context : Context) (fields : Fields Schema) :
    generateEntries context fields = sent <$> drawValues context fields := by
  induction fields with
  | nil => rfl
  | cons field rest ih =>
    obtain ⟨key, schema⟩ := field
    simp only [generateEntries, drawValues, ih, map_bind, bind_map_left, map_pure]
    congr 1
    funext made
    cases made <;> simp [sent]

theorem textsUnder_sent (name : String) (values : Fields Value) :
    textsUnder name (sent values) =
      (values.filter (·.1 == name)).flatMap fun entry => entry.2.parts.map Value.literal := by
  unfold textsUnder sent
  induction values with
  | nil => rfl
  | cons first rest ih =>
    rw [List.flatMap_cons, List.filter_append, List.map_append, ih, rawPairs_eq, List.filter_cons,
      List.filter_map, List.map_map]
    split
    · next same => simp [Function.comp_def, same]
    · next other => simp [Function.comp_def, other]

theorem textsUnder_sent_of_mem {values : Fields Value} (distinct : (Fields.names values).Nodup)
    {entry : String × Value} (hm : entry ∈ values) :
    textsUnder entry.1 (sent values) = entry.2.parts.map Value.literal := by
  rw [textsUnder_sent, Fields.filter_key_eq distinct hm, List.flatMap_singleton]

/-- What is sent under declared names fits when it suits each parameter. -/
theorem sent_fits_iff (distinct : (query.pairs.map fun field => Key.name field.1).Nodup)
    {values : Fields Value}
    (known : ∀ entry ∈ values, ∃ field ∈ query.pairs, Key.name field.1 = entry.1) :
    query.Fits context (sent values) ↔
      ∀ field ∈ query.pairs, Suits context field (textsUnder (Key.name field.1) (sent values)) := by
  rw [fits_iff distinct, and_iff_right]
  intro _ pair hp
  obtain ⟨entry, he, listed⟩ := List.mem_flatMap.mp hp
  rw [rawPairs_eq] at listed
  obtain ⟨part, _, rfl⟩ := List.mem_map.mp listed
  exact known entry he

/-- The values are drawn one by one, each for its own schema. -/
theorem drawValues_yields (context : Context) (fields : Fields Schema) :
    (drawValues context fields).Yields fun values => List.Forall₂ (fun field entry =>
      Key.name field.1 = entry.1 ∧ Schema.Makes context field.2 entry.2) fields values := by
  induction fields with
  | nil => exact Gen.ends_pure .nil
  | cons field rest ih =>
    obtain ⟨key, schema⟩ := field
    have own : (context.protect schema false fun child =>
        schema.generateFor child (some (Key.name key))).Yields fun value? : Option Value =>
          ∃ value, value? = some value ∧ Schema.Makes context schema value := by
      refine Context.yields_protect nofun fun child entered => ?_
      obtain ⟨stack, rfl⟩ := Context.expanding_of_enter entered
      refine generateKeyed_yields (fun filled value fits => ?_) ?_
      · exact ⟨value, rfl, .taken (.inr filled) fits⟩
      · exact (Schema.generateWithin_makes context _ stack schema).mono fun value makes =>
          ⟨value, rfl, makes⟩
    refine Gen.yields_bind ((Gen.yields_under _ (Gen.yields_under _ own)).mono
      fun value? made => ?_)
    obtain ⟨value, rfl, makes⟩ := made
    exact Gen.yields_bind (ih.mono fun values below => Gen.ends_pure (.cons ⟨rfl, makes⟩ below))

/-- Where names are distinct, made parameters are sent for one drawn value each. -/
theorem drawn_of_generate {rng : Rng} {pairs : List (String × String)}
    (distinct : (query.pairs.map fun field => Key.name field.1).Nodup)
    (made : ((query.generate context).runFrom rng).1 = .ok pairs) :
    ∃ values, ((drawValues context query.pairs).runFrom rng).1 = .ok values ∧ pairs = sent values ∧
      (Fields.names values).Nodup ∧ List.Forall₂ (fun field entry =>
        Key.name field.1 = entry.1 ∧ Schema.Makes context field.2 entry.2) query.pairs values := by
  have keys : (Fields.names query.pairs).Nodup := (Fields.nodup_map_name_iff.mpr distinct).of_map
  have yields := drawValues_yields context query.pairs rng
  rw [generate, declared, Fields.ofList_of_nodup keys, generateEntries_eq, Gen.runFrom_map] at made
  cases drawn : ((drawValues context query.pairs).runFrom rng).1 with
  | error halt =>
    rw [drawn] at made
    cases made
  | ok values =>
    rw [drawn] at made yields
    cases made
    have each : List.Forall₂ _ query.pairs values := yields
    have names : query.pairs.map (fun field => Key.name field.1) = Fields.names values := by
      refine List.forall₂_eq_eq_eq ▸ ?_
      rw [Fields.names, List.forall₂_map_left_iff, List.forall₂_map_right_iff]
      exact each.imp fun _ _ => And.left
    exact ⟨values, rfl, rfl, names ▸ distinct, each⟩

/-! ## 4. The way there and back -/

/-- The value reaches the other side of its parameter: some part of it is there where a missing
parameter is reported, and where its parts may come back as something else, they pass all the
same. -/
structure Carried (context : Context) (field : String × Schema) (value : Value) : Prop where
  present : context.keyPolicy.missing = true → Key.isOptional field.1 = false → value.parts ≠ []
  passing : context.registry.Ambiguous field.2 value →
    ∀ part ∈ value.parts, Passes context (context.registry.reader field.2) part.literal

section Parts

variable {field : String × Schema} {value : Value}

/-- The texts of a value suit the parameter when each part passes, and one is there where a missing
parameter is reported. -/
theorem suits_iff_passes (guarded : context.registry.Guarded) :
    Suits context field (value.parts.map Value.literal) ↔
      (context.keyPolicy.missing = true → Key.isOptional field.1 = false → value.parts ≠ []) ∧
        ∀ part ∈ value.parts, Passes context (context.registry.reader field.2) part.literal := by
  have present : value.parts.map Value.literal ≠ [] ↔ value.parts ≠ [] := List.map_eq_nil_iff.not
  constructor
  · intro suits
    refine ⟨fun reported required => present.mp (suits.present reported required),
      fun part hp => ?_⟩
    exact (takes_iff_passes guarded).mp (suits.taken _ (List.mem_map_of_mem hp))
  · rintro ⟨there, passing⟩
    refine ⟨fun reported required => present.mpr (there reported required), fun text ht => ?_⟩
    obtain ⟨part, hp, rfl⟩ := List.mem_map.mp ht
    exact (takes_iff_passes guarded).mpr (passing part hp)

/-- A value whose texts suit the parameter is carried. -/
theorem Suits.carried (guarded : context.registry.Guarded)
    (suits : Suits context field (value.parts.map Value.literal)) :
    Carried context field value := by
  obtain ⟨present, passing⟩ := (suits_iff_passes guarded).mp suits
  exact ⟨present, fun _ => passing⟩

/-- The texts of an accepted value suit the parameter when it is carried and its parts are
legible. -/
theorem Carried.suits (guarded : context.registry.Guarded)
    (fits : Schema.Accepts context.registry context.keyPolicy field.2 value)
    (legible : ∀ part ∈ value.parts, part.Legible) (carried : Carried context field value) :
    Suits context field (value.parts.map Value.literal) := by
  refine (suits_iff_passes guarded).mpr ⟨carried.present, fun part hp => ?_⟩
  by_cases ambiguous : context.registry.Ambiguous field.2 value
  · exact carried.passing ambiguous part hp
  · obtain ⟨single, plain⟩ := not_or.mp ambiguous
    have part_fits : Schema.Accepts context.registry context.keyPolicy
        (context.registry.partSchema field.2) part := by
      cases listed : (context.registry.resolve field.2).isList with
      | true =>
        obtain ⟨title, sample, resolved⟩ := Registry.exists_partSchema_of_list listed
        rw [(Registry.follows_resolve field.2).accepts_iff, resolved] at fits
        cases fits with
        | list each => exact each part hp
      | false =>
        have whole : value.isArray = false :=
          Bool.eq_false_iff.mpr fun array => plain ⟨array, listed⟩
        rw [Value.parts_of_not_array whole, List.mem_singleton] at hp
        rw [Registry.partSchema_of_not_list listed, hp]
        exact fits
    exact (takes_iff_passes guarded).mp
      (takes_of_accepts guarded part_fits (legible part hp) (Bool.eq_false_iff.mpr single))

end Parts

theorem forall_iff_forall₂ {α β : Type} {R Q : α → β → Prop} {P : α → Prop} {items : List α}
    {others : List β} (h : List.Forall₂ R items others)
    (each : ∀ a ∈ items, ∀ b ∈ others, R a b → (P a ↔ Q a b)) :
    (∀ a ∈ items, P a) ↔ List.Forall₂ Q items others := by
  induction h with
  | nil => simp
  | cons own _ ih =>
    rw [List.forall_mem_cons, List.forall₂_cons,
      each _ List.mem_cons_self _ List.mem_cons_self own,
      ih fun a ha b hb => each a (List.mem_cons_of_mem _ ha) b (List.mem_cons_of_mem _ hb)]

/-- Over a guarded registry of well-posed schemas, parameters that are made of a declaration under
distinct names are accepted by it exactly when each drawn value is carried: under any policy on
keys, with any dictionary and any expansion under way, whatever numbers are drawn. The values are
legible. -/
theorem check_generate {rng : Rng} {pairs : List (String × String)}
    (guarded : context.registry.Guarded)
    (posed : ∀ field ∈ query.pairs, field.2.Everywhere Schema.WellPosed)
    (registered : context.registry.Everywhere Schema.WellPosed)
    (distinct : (query.pairs.map fun field => Key.name field.1).Nodup)
    (made : ((query.generate context).runFrom rng).1 = .ok pairs) :
    ∃ values, ((drawValues context query.pairs).runFrom rng).1 = .ok values ∧ pairs = sent values ∧
      ((∀ entry ∈ values, ∀ part ∈ entry.2.parts, part.Legible) →
        ∃ verdict, query.check context pairs = some verdict ∧
          (verdict.isAccepted = true ↔
            List.Forall₂ (fun field entry => Carried context field entry.2) query.pairs
              values)) := by
  obtain ⟨values, drawn, rfl, names, each⟩ := drawn_of_generate distinct made
  refine ⟨values, drawn, rfl, fun legible => ?_⟩
  obtain ⟨verdict, checked⟩ :=
    Option.isSome_iff_exists.mp (check_isSome guarded query (sent values))
  refine ⟨verdict, checked, ?_⟩
  have known : ∀ entry ∈ values, ∃ field ∈ query.pairs, Key.name field.1 = entry.1 := by
    intro entry he
    obtain ⟨field, hf, name, _⟩ := exists_of_mem_forall₂ each.flip he
    exact ⟨field, hf, name⟩
  rw [isAccepted_check_iff checked, sent_fits_iff distinct known]
  refine forall_iff_forall₂ each fun field hf entry he related => ?_
  obtain ⟨name, makes⟩ := related
  rw [name, textsUnder_sent_of_mem names he]
  have fits := makes.accepts registered (posed field hf)
  exact ⟨Suits.carried guarded, Carried.suits guarded fits (legible entry he)⟩

end Query

/-! ## 5. Two queries -/

/-- Pages with tags, sorted or not. -/
def searchQuery : Query :=
  ⟨[("page", .number ⟨some (.ofInt 1), some (.ofInt 20)⟩ false none),
    ("tag", .list .text none none), ("sort?", .nullable .flag)]⟩

/-- A search that is drawn from the seed 3 is accepted, so each of its values is carried: also that
of the sorting, which a union reads. -/
theorem check_generate_search :
    ∃ pairs verdict values,
      ((searchQuery.generate (.ofRegistry .initial)).runFrom (.ofSeed 3)).1 = .ok pairs ∧
      pairs = Query.sent values ∧ searchQuery.check (.ofRegistry .initial) pairs = some verdict ∧
      verdict.isAccepted = true ∧ List.Forall₂ (fun field entry =>
        Query.Carried (.ofRegistry .initial) field entry.2) searchQuery.pairs values := by
  let context : Context := .ofRegistry .initial
  have accepted : (match ((searchQuery.generate context).runFrom (.ofSeed 3)).1 with
      | .ok pairs => (searchQuery.check context pairs).any Verdict.isAccepted
      | .error _ => false) = true := by decide +kernel
  have legible : (match ((Query.drawValues context searchQuery.pairs).runFrom (.ofSeed 3)).1 with
      | .ok values => decide (∀ entry ∈ values, ∀ part ∈ entry.2.parts, part.Legible)
      | .error _ => false) = true := by decide +kernel
  cases made : ((searchQuery.generate context).runFrom (.ofSeed 3)).1 with
  | error halt =>
    rw [made] at accepted
    cases accepted
  | ok pairs =>
    obtain ⟨values, drawn, same, told⟩ := Query.check_generate guarded_initial (by decide +kernel)
      (by decide +kernel) (by decide +kernel) made
    rw [drawn] at legible
    rw [made] at accepted
    obtain ⟨verdict, checked, carried⟩ := told (of_decide_eq_true legible)
    have accepted : (searchQuery.check context pairs).any Verdict.isAccepted = true := accepted
    rw [checked] at accepted
    exact ⟨pairs, verdict, values, rfl, same, checked, accepted, carried.mp accepted⟩

/-- Numbers as a list, or null. -/
def arrayOrNull : Query := ⟨[("ids", .nullable (.list .numeric none none))]⟩

/-- An array is drawn for a nullable list. Its number comes back as a number, which is neither a
list nor null: what was made of the declaration is rejected by it. -/
theorem rejects_arrayOrNull :
    Registry.initial.Guarded ∧ (∀ field ∈ arrayOrNull.pairs, field.2.Everywhere Schema.WellPosed) ∧
      Registry.initial.Everywhere Schema.WellPosed ∧
      (arrayOrNull.pairs.map fun field => Key.name field.1).Nodup ∧
      ((arrayOrNull.generate (.ofRegistry .initial)).runFrom (.ofSeed 3)).1 = .ok [("ids", "-14")] ∧
      readNumber? "-14" = some (.integer (-14)) ∧
      (arrayOrNull.check (.ofRegistry .initial) [("ids", "-14")]).map Verdict.isAccepted =
          some false :=
  ⟨guarded_initial, by decide +kernel, by decide +kernel, by decide +kernel, rfl, rfl,
    by decide +kernel⟩

end DataContract
