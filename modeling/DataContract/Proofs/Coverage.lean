import Mathlib
import DataContract.Proofs.Comparison
import DataContract.Proofs.SameData

/-!
# What a comparison promises

A comparison that accepts promises that whatever fits the candidate fits the container. It ends a
recursion by names: a pair of names that is under comparison counts as compatible. The promise holds
as long as such a pair stands for the same two schemas (`Schema.NamesFaithful`). Objects without a
title all go by one name, and a title may be the name of a reference, so it can fail.

1. `Schema.Meets`, `Schema.NamesFaithful`: the pairs that a comparison passes, and what their names
   have to keep. References among themselves do (`Schema.namesFaithful_of_references`).
2. `Schema.Fits`: acceptance by the steps it takes, which get fewer below a reference, a union, a
   field or an item.
3. `Schema.Sound`, a promise for so many steps, at each kind of node.
4. `Schema.Fronts`: the schemas that a walk reaches without passing a field or an item. A guarded
   registry has no way back.
5. `Schema.sound_of_covered`: every derivation keeps its promise, hence a comparison that accepts is
   right.
-/

namespace DataContract
namespace Schema

/-! ## 1. The pairs that are compared -/

/-- The pairs that a comparison goes on to from a pair. -/
inductive Meets (this other : Context) : Schema × Schema → Schema × Schema → Prop
  | follow {p q target source : Schema} :
      (p.isReference || q.isReference) = true → p.followed this.registry = .ok target →
      q.followed other.registry = .ok source → Meets this other (p, q) (target, source)
  | choose {members : List Schema} {key title sample : Option String}
      {q container alternative : Schema} :
      q.isReference = false → container ∈ alternativesOfAll members →
      alternative ∈ q.alternatives →
      Meets this other (union members key title sample, q) (container, alternative)
  | each {p : Schema} {members : List Schema} {key title sample : Option String}
      {alternative : Schema} :
      p.isReference = false → p.isUnion = false → alternative ∈ alternativesOfAll members →
      Meets this other (p, union members key title sample) (p, alternative)
  | field {fields : List (String × Schema)} {others : Fields Schema} {title title' : Option String}
      {field own : String × Schema} :
      field ∈ fields → partner others field.1 = some own →
      Meets this other (object fields title, object others title') (field.2, own.2)
  | item {item item' : Schema} {title title' sample sample' : Option String} :
      Meets this other (list item title sample, list item' title' sample') (item, item')

/-- One pair is compared on the way from another. -/
def Reaches (this other : Context) : Schema × Schema → Schema × Schema → Prop :=
  Relation.ReflTransGen (Meets this other)

/-- Where a comparison comes back to a pair of names, they stand for the same two schemas. -/
def NamesFaithful (this other : Context) (container candidate : Schema) : Prop :=
  ∀ p q, Reaches this other (container, candidate) (p, q) →
    (p.isReference || q.isReference) = true →
    ∀ p' q', Reaches this other (p, q) (p', q') → (p'.isReference || q'.isReference) = true →
      p'.typeName = p.typeName → q'.typeName = q.typeName →
      p'.followed this.registry = p.followed this.registry ∧
        q'.followed other.registry = q.followed other.registry

/-- References of one name have one target. -/
theorem followed_eq_of_typeName {registry : Registry} {schema other : Schema}
    (h : schema.isReference = true) (h' : other.isReference = true)
    (named : schema.typeName = other.typeName) :
    schema.followed registry = other.followed registry := by
  cases schema with
  | reference name =>
    cases other with
    | reference name' =>
      have same : Token.ofName name = Token.ofName name' := Token.ofName_eq_of_bare_eq named
      simp only [followed, Registry.lookup, Registry.find?, same]
    | _ => cases h'
  | _ => cases h

/-- Names are faithful where references are only compared with references. -/
theorem namesFaithful_of_references {this other : Context} {container candidate : Schema}
    (paired : ∀ p q, Reaches this other (container, candidate) (p, q) →
      p.isReference = q.isReference) : NamesFaithful this other container candidate := by
  have both {p q : Schema} (reach : Reaches this other (container, candidate) (p, q))
      (refers : (p.isReference || q.isReference) = true) :
      p.isReference = true ∧ q.isReference = true := by
    rw [paired p q reach, Bool.or_self] at refers
    exact ⟨(paired p q reach).trans refers, refers⟩
  intro p q reach refers p' q' back refers' named named'
  obtain ⟨hp, hq⟩ := both reach refers
  obtain ⟨hp', hq'⟩ := both (reach.trans back) refers'
  exact ⟨followed_eq_of_typeName hp' hp named, followed_eq_of_typeName hq' hq named'⟩

theorem find?_of_followed {registry : Registry} {name : String} {target : Schema}
    (h : (reference name).followed registry = .ok target) : registry.find? name = some target := by
  simp only [followed, Registry.lookup] at h
  split at h
  · next found =>
    cases h
    exact found
  · cases h

theorem followed_of_find? {registry : Registry} {name : String} {target : Schema}
    (found : registry.find? name = some target) :
    (reference name).followed registry = .ok target := by
  simp only [followed, Registry.lookup, found]

theorem followed_self {registry : Registry} {schema : Schema} (h : schema.isReference = false) :
    schema.followed registry = .ok schema := by
  cases schema <;> first | rfl | cases h

theorem followed_of_not_reference {registry : Registry} {schema target : Schema}
    (h : schema.isReference = false) (found : schema.followed registry = .ok target) :
    schema = target :=
  Except.ok.inj ((followed_self h).symm.trans found)

theorem everywhere_followed {condition : Schema → Prop} {registry : Registry}
    (registered : registry.Everywhere condition) {schema target : Schema}
    (h : schema.Everywhere condition) (found : schema.followed registry = .ok target) :
    target.Everywhere condition := by
  cases schema with
  | reference name => exact registered.target (find?_of_followed found)
  | _ =>
    cases found
    exact h

/-- A condition on every node of a schema holds of every node of its alternatives. -/
theorem Everywhere.alternative {condition : Schema → Prop} {schema alternative : Schema}
    (h : schema.Everywhere condition) (hm : alternative ∈ schema.alternatives) :
    alternative.Everywhere condition :=
  alternatives_down (P := Everywhere condition)
    (fun _ _ _ _ hu => (everywhere_union.mp hu).2) schema h alternative hm

theorem Everywhere.member {condition : Schema → Prop} {members : List Schema}
    {key title sample : Option String} {alternative : Schema}
    (h : (union members key title sample).Everywhere condition)
    (hm : alternative ∈ alternativesOfAll members) : alternative.Everywhere condition :=
  h.alternative hm

/-- A condition on every node goes along with a comparison, on either side its own. -/
theorem Reaches.everywhere {condition condition' : Schema → Prop} {this other : Context}
    (kept : ∀ {schema target : Schema}, schema.Everywhere condition →
      schema.followed this.registry = .ok target → target.Everywhere condition)
    (kept' : ∀ {schema target : Schema}, schema.Everywhere condition' →
      schema.followed other.registry = .ok target → target.Everywhere condition')
    {start last : Schema × Schema} (h : Reaches this other start last)
    (holds : start.1.Everywhere condition ∧ start.2.Everywhere condition') :
    last.1.Everywhere condition ∧ last.2.Everywhere condition' := by
  induction h with
  | refl => exact holds
  | tail _ step ih =>
    obtain ⟨own, others⟩ := ih
    cases step with
    | follow _ hp hq => exact ⟨kept own hp, kept' others hq⟩
    | choose _ hc ha => exact ⟨own.member hc, others.alternative ha⟩
    | each _ _ ha => exact ⟨own, others.member ha⟩
    | field hf ho =>
      exact ⟨(everywhere_object.mp own).2 _ hf,
        (everywhere_object.mp others).2 _ (partner_eq_some ho).1⟩
    | item => exact ⟨(everywhere_list.mp own).2, (everywhere_list.mp others).2⟩

/-! ## 2. Acceptance by steps -/

/-- The value is accepted within so many steps. -/
def Fits (context : Context) (steps : Nat) (schema : Schema) (value : Value) : Prop :=
  Accepting (checkWithin context steps schema value)

theorem fits_of_accepts {context : Context} {schema : Schema} {value : Value}
    (h : schema.accepts context value = some true) : ∃ steps, Fits context steps schema value := by
  simp only [accepts, Option.map_eq_some_iff] at h
  exact ⟨_, h⟩

section Fits

variable {context : Context} {steps : Nat} {value : Value}

theorem Fits.pos {schema : Schema} (h : Fits context steps schema value) : 0 < steps := by
  cases steps with
  | zero =>
    obtain ⟨_, hv, _⟩ := h
    cases hv
  | succ steps => exact Nat.succ_pos steps

theorem Fits.accepts {schema : Schema} (h : Fits context steps schema value) :
    Accepts context.registry context.keyPolicy schema value := by
  obtain ⟨verdict, hv, accepted⟩ := h
  exact (isAccepted_checkWithin_iff hv).mp accepted

theorem fits_iff (schema : Schema) (value : Value) (verdict : Verdict)
    (h : checkWithin context steps schema value = some verdict) :
    verdict.isAccepted = true ↔ Fits context steps schema value := by
  rw [Fits, h, accepting_some]

theorem Fits.reference {name : String} (h : Fits context (steps + 1) (reference name) value) :
    ∃ target, context.registry.lookup name = .ok target ∧ Fits context steps target value := by
  simp only [Fits, checkWithin] at h
  split at h
  · next target found => exact ⟨target, found, h⟩
  · cases accepting_some.mp h

theorem Fits.followed {schema target : Schema} (refers : schema.isReference = true)
    (found : schema.followed context.registry = .ok target) (h : Fits context steps schema value) :
    ∃ lower < steps, Fits context lower target value := by
  cases schema with
  | reference name =>
    cases steps with
    | zero => exact absurd h.pos (Nat.lt_irrefl 0)
    | succ steps =>
      obtain ⟨own, ho, fits⟩ := h.reference
      cases found.symm.trans ho
      exact ⟨steps, Nat.lt_succ_self steps, fits⟩
  | _ => cases refers

theorem Fits.object {fields : List (String × Schema)} {title : Option String}
    (h : Fits context (steps + 1) (object fields title) value) :
    ∃ entries, value = .object entries ∧
      context.keyPolicy.Allows (Fields.names fields) (Fields.names entries) ∧
      ∀ field ∈ fields, ∀ part, Fields.find? (Key.name field.1) entries = some part →
        Fits context steps field.2 part := by
  cases value with
  | object entries =>
    obtain ⟨verdict, hv, accepted⟩ := h
    simp only [checkWithin, Option.bind_eq_bind, Option.bind_eq_some_iff] at hv
    obtain ⟨verdicts, hv, h⟩ := hv
    cases h
    rw [Verdict.isAccepted_all, List.all_append, Bool.and_eq_true, all_keyProblems_iff,
      all_checkFields_iff fits_iff hv] at accepted
    exact ⟨entries, rfl, accepted⟩
  | _ => cases accepting_some.mp h

theorem Fits.list {item : Schema} {title sample : Option String}
    (h : Fits context (steps + 1) (list item title sample) value) :
    ∃ items, value = .array items ∧ ∀ part ∈ items, Fits context steps item part := by
  cases value with
  | array items =>
    obtain ⟨verdict, hv, accepted⟩ := h
    simp only [checkWithin, Option.map_eq_some_iff] at hv
    obtain ⟨verdicts, hv, rfl⟩ := hv
    rw [Verdict.isAccepted_all, all_checkItems_iff fits_iff hv] at accepted
    exact ⟨items, rfl, accepted⟩
  | _ => cases accepting_some.mp h

theorem Fits.union {members : List Schema} {key title sample : Option String}
    (h : Fits context (steps + 1) (union members key title sample) value) :
    ∃ schema ∈ members, Fits context steps schema value := by
  obtain ⟨verdict, hv, accepted⟩ := h
  simp only [checkWithin, Option.bind_eq_bind, Option.bind_eq_some_iff] at hv
  obtain ⟨result, hr, hv⟩ := hv
  rw [← firstAccepted_isOk_iff fits_iff hr]
  cases result with
  | ok captured => rfl
  | error failures =>
    simp only at hv
    split at hv <;> cases hv <;> cases accepted

theorem mem_alternativesOfAll_of_mem {members : List Schema} {schema alternative : Schema}
    (hm : schema ∈ members) (h : alternative ∈ schema.alternatives) :
    alternative ∈ alternativesOfAll members := by
  induction members with
  | nil => cases hm
  | cons first rest ih =>
    rw [alternativesOfAll, List.mem_append]
    rcases List.mem_cons.mp hm with rfl | hm
    · exact .inl h
    · exact .inr (ih hm)

/-- Every alternative of a union is one of a member. -/
theorem exists_mem_of_mem_alternativesOfAll {members : List Schema} {alternative : Schema}
    (h : alternative ∈ alternativesOfAll members) :
    ∃ schema ∈ members, alternative ∈ schema.alternatives := by
  induction members with
  | nil => cases h
  | cons first rest ih =>
    rw [alternativesOfAll, List.mem_append] at h
    rcases h with own | others
    · exact ⟨first, List.mem_cons_self, own⟩
    · obtain ⟨schema, hm, ha⟩ := ih others
      exact ⟨schema, List.mem_cons_of_mem _ hm, ha⟩

/-- What a schema accepts is accepted by one of its alternatives. -/
theorem Accepts.alternative {registry : Registry} {policy : KeyPolicy} {schema : Schema}
    (h : Accepts registry policy schema value) :
    ∃ alternative ∈ schema.alternatives, Accepts registry policy alternative value := by
  induction h with
  | union hm _ ih =>
    obtain ⟨alternative, ha, fits⟩ := ih
    exact ⟨alternative, mem_alternativesOfAll_of_mem hm ha, fits⟩
  | string inside => exact ⟨_, List.mem_singleton_self _, .string inside⟩
  | number inside => exact ⟨_, List.mem_singleton_self _, .number inside⟩
  | boolean => exact ⟨_, List.mem_singleton_self _, .boolean⟩
  | null => exact ⟨_, List.mem_singleton_self _, .null⟩
  | literal same => exact ⟨_, List.mem_singleton_self _, .literal same⟩
  | reference found fits _ => exact ⟨_, List.mem_singleton_self _, .reference found fits⟩
  | object allowed fits _ => exact ⟨_, List.mem_singleton_self _, .object allowed fits⟩
  | list fits _ => exact ⟨_, List.mem_singleton_self _, .list fits⟩

/-- What fits a union fits one of its alternatives in fewer steps. -/
theorem Fits.alternative {schema : Schema} (union : schema.isUnion = true)
    (h : Fits context steps schema value) :
    ∃ lower < steps, ∃ alternative ∈ schema.alternatives, Fits context lower alternative value := by
  induction steps generalizing schema with
  | zero => exact absurd h.pos (Nat.lt_irrefl 0)
  | succ steps ih =>
    cases schema with
    | union members key title sample =>
      obtain ⟨member, hm, fits⟩ := h.union
      cases nested : member.isUnion with
      | true =>
        obtain ⟨lower, hl, alternative, ha, fits⟩ := ih nested fits
        exact ⟨lower, Nat.lt_succ_of_lt hl, alternative, mem_alternativesOfAll_of_mem hm ha, fits⟩
      | false =>
        refine ⟨steps, Nat.lt_succ_self steps, member, mem_alternativesOfAll_of_mem hm ?_, fits⟩
        rw [alternatives_of_not_union nested, List.mem_singleton]
    | _ => cases union

end Fits

/-! ## 3. Promises -/

/-- What a node has to keep for a comparison: lengths that are exact as doubles, and no numeric
literal. A literal is data, whose keys are distinct anyway. -/
def Comparable : Schema → Prop
  | string range _ =>
    (∀ least ∈ range.least, least < 2 ^ 53) ∧ ∀ most ∈ range.most, most < 2 ^ 53
  | literal value _ => value.Distinct ∧ value.asNumber? = none
  | _ => True

instance : DecidablePred Comparable
  | .string range _ => inferInstanceAs (Decidable ((∀ least ∈ range.least, least < 2 ^ 53) ∧
      ∀ most ∈ range.most, most < 2 ^ 53))
  | .literal value _ => inferInstanceAs (Decidable (value.Distinct ∧ value.asNumber? = none))
  | .number _ _ _ | .object _ _ | .boolean _ | .null | .reference _ | .list _ _ _
  | .union _ _ _ _ => .isTrue trivial

/-- What fits the candidate within so many steps fits the container. -/
def Sound (this other : Context) (steps : Nat) (container candidate : Schema) : Prop :=
  ∀ value, Fits other steps candidate value →
    Accepts this.registry this.keyPolicy container value

section Sound

variable {this other : Context} {steps : Nat}

theorem sound_string {range range' : LengthRange} {sample sample' : Option String}
    (comparable : (string range sample).Comparable)
    (comparable' : (string range' sample').Comparable)
    (covered : (rangeCovers "length" range.toNumberRange range'.toNumberRange).isAccepted = true) :
    Sound this other steps (string range sample) (string range' sample') := by
  intro value fits
  cases fits.accepts with
  | string inside =>
    obtain ⟨least, most⟩ := (rangeCovers_isAccepted _ _ _).mp covered
    refine .string ⟨fun n hn => ?_, fun n hn => ?_⟩
    · obtain ⟨_, hl, le⟩ := least (.ofInt n) (LengthRange.least_toNumberRange.mpr ⟨n, hn, rfl⟩)
      obtain ⟨m, hm, rfl⟩ := LengthRange.least_toNumberRange.mp hl
      exact (Double.le_of_ofInt_le_ofInt (comparable.1 n hn) (comparable'.1 m hm) le).trans
        (inside.1 m hm)
    · obtain ⟨_, hl, le⟩ := most (.ofInt n) (LengthRange.most_toNumberRange.mpr ⟨n, hn, rfl⟩)
      obtain ⟨m, hm, rfl⟩ := LengthRange.most_toNumberRange.mp hl
      exact (inside.2 m hm).trans
        (Double.le_of_ofInt_le_ofInt (comparable'.2 m hm) (comparable.2 n hn) le)

theorem sound_number {range range' : NumberRange} {fractional fractional' : Bool}
    {sample sample' : Option String}
    (covered : (rangeCovers "value" range range').isAccepted = true) :
    Sound this other steps (number range fractional sample)
        (number range' fractional' sample') := by
  intro value fits
  cases fits.accepts with
  | number inside =>
    obtain ⟨least, most⟩ := (rangeCovers_isAccepted _ _ _).mp covered
    refine .number ⟨fun x hx => ?_, fun x hx => ?_⟩
    · obtain ⟨y, hy, le⟩ := least x hx
      exact Double.le_iff.mpr (le.trans (inside.1 y hy))
    · obtain ⟨y, hy, le⟩ := most x hx
      exact Double.le_iff.mpr ((inside.2 y hy).trans le)

theorem sound_literal {container : Schema} {expected : Value} {title : Option String}
    (comparable' : (literal expected title).Comparable)
    (accepted : container.accepts this expected = some true) :
    Sound this other steps container (literal expected title) := by
  intro value fits
  cases fits.accepts with
  | literal same =>
    rw [Value.sameLiteral_eq_same comparable'.2] at same
    exact (Accepts.of_accepts accepted).same comparable'.1 same

/-- A pair with a reference. Steps are taken where the candidate is one. -/
theorem sound_follow {container candidate target source : Schema}
    (found : container.followed this.registry = .ok target)
    (found' : candidate.followed other.registry = .ok source)
    (below : candidate.isReference = true → ∀ lower < steps, Sound this other lower target source)
    (own : candidate.isReference = false → Sound this other steps target source) :
    Sound this other steps container candidate := by
  intro value fits
  have up (h : Accepts this.registry this.keyPolicy target value) :
      Accepts this.registry this.keyPolicy container value := by
    cases container with
    | reference name => exact .reference (find?_of_followed found) h
    | _ =>
      cases found
      exact h
  cases refers : candidate.isReference with
  | true =>
    obtain ⟨lower, hl, fits⟩ := fits.followed refers found'
    exact up (below refers lower hl value fits)
  | false =>
    have same := followed_of_not_reference refers found'
    exact up (own refers value (same ▸ fits))

/-- Objects, the other one checked for keys that are not declared, and for missing ones if this one
is. -/
theorem sound_object (missing : this.keyPolicy.missing = true → other.keyPolicy.missing = true)
    (unexpected : other.keyPolicy.unexpected = true) {fields : List (String × Schema)}
    {others : Fields Schema} {title title' : Option String}
    (below : ∀ lower < steps, ∀ field ∈ fields, ∀ own, partner others field.1 = some own →
      Sound this other lower field.2 own.2)
    (required : ∀ field ∈ fields, Key.isOptional field.1 = false →
      ∃ own, partner others field.1 = some own ∧ Key.isOptional own.1 = false)
    (declared : this.keyPolicy.unexpected = true →
      ∀ own ∈ others, ∃ field ∈ fields, Key.name field.1 = Key.name own.1) :
    Sound this other steps (object fields title) (object others title') := by
  intro value fits
  cases steps with
  | zero => exact absurd fits.pos (Nat.lt_irrefl 0)
  | succ steps =>
    obtain ⟨entries, rfl, allowed, fit⟩ := fits.object
    have expected := allowed.expected unexpected
    refine .object ⟨fun policy key hk ho => ?_, fun policy name hn => ?_⟩ fun field hf part hv => ?_
    · obtain ⟨field, hf, rfl⟩ := List.mem_map.mp hk
      obtain ⟨own, found, needed⟩ := required field hf ho
      obtain ⟨hm, same⟩ := partner_eq_some found
      rw [Key.name_of_required ho, Key.name_of_required needed] at same
      exact same ▸ allowed.present (missing policy) own.1 (List.mem_map_of_mem hm) needed
    · obtain ⟨key, hk, rfl⟩ := expected name hn
      obtain ⟨own, hm, rfl⟩ := List.mem_map.mp hk
      obtain ⟨field, hf, same⟩ := declared policy own hm
      exact ⟨field.1, List.mem_map_of_mem hf, same⟩
    · obtain ⟨key, hk, same⟩ := expected _ (Fields.mem_names_of_find? hv)
      obtain ⟨own, hm, rfl⟩ := List.mem_map.mp hk
      obtain ⟨first, found⟩ := exists_partner hm same
      obtain ⟨hm, same⟩ := partner_eq_some found
      exact below steps (Nat.lt_succ_self steps) field hf first found part
        (fit first hm part (same ▸ hv))

theorem sound_list {item item' : Schema} {title title' sample sample' : Option String}
    (below : ∀ lower < steps, Sound this other lower item item') :
    Sound this other steps (list item title sample) (list item' title' sample') := by
  intro value fits
  cases steps with
  | zero => exact absurd fits.pos (Nat.lt_irrefl 0)
  | succ steps =>
    obtain ⟨items, rfl, fit⟩ := fits.list
    exact .list fun part hp => below steps (Nat.lt_succ_self steps) part (fit part hp)

theorem sound_each {container candidate : Schema} (union : candidate.isUnion = true)
    (below : ∀ lower < steps, ∀ alternative ∈ candidate.alternatives,
      Sound this other lower container alternative) :
    Sound this other steps container candidate := by
  intro value fits
  obtain ⟨lower, hl, alternative, ha, fits⟩ := fits.alternative union
  exact below lower hl alternative ha value fits

/-- A union as container, by a member for every alternative of the candidate. -/
theorem sound_choose {members : List Schema} {key title sample : Option String} {candidate : Schema}
    {container : Schema → Schema}
    (chosen : ∀ alternative ∈ candidate.alternatives,
      container alternative ∈ alternativesOfAll members)
    (own : candidate.isUnion = false → Sound this other steps (container candidate) candidate)
    (below : ∀ lower < steps, ∀ alternative ∈ candidate.alternatives,
      Sound this other lower (container alternative) alternative) :
    Sound this other steps (union members key title sample) candidate := by
  intro value fits
  have up {alternative : Schema} (hm : alternative ∈ candidate.alternatives)
      (h : Accepts this.registry this.keyPolicy (container alternative) value) :
      Accepts this.registry this.keyPolicy (union members key title sample) value :=
    alternatives_up (P := fun schema => Accepts this.registry this.keyPolicy schema value)
      (fun _ _ _ _ _ => .union) (chosen alternative hm) h
  cases nested : candidate.isUnion with
  | true =>
    obtain ⟨lower, hl, alternative, ha, fits⟩ := fits.alternative nested
    exact up ha (below lower hl alternative ha value fits)
  | false =>
    refine up ?_ (own nested value fits)
    rw [alternatives_of_not_union nested, List.mem_singleton]

end Sound

/-! ## 4. Fronts -/

/-- A schema that a walk reaches from another one without passing a field or an item. -/
inductive Fronts (registry : Registry) (start : Schema) : Schema → Prop
  | self : Fronts registry start start
  | member {members : List Schema} {key title sample : Option String} {schema : Schema} :
      Fronts registry start (union members key title sample) → schema ∈ members →
      Fronts registry start schema
  | target {name : String} {target : Schema} :
      Fronts registry start (reference name) → registry.find? name = some target →
      Fronts registry start target

/-- The names in front of what a name leads to are names that it leads to. -/
theorem Fronts.leads {registry : Registry} {name : String} {start schema : Schema}
    (found : registry.find? name = some start) (h : Fronts registry start schema) :
    ∀ next ∈ schema.frontNames, Relation.TransGen registry.Leads (Token.ofName name) next := by
  induction h with
  | self => exact fun next hn => .single ⟨start, found, hn⟩
  | member _ hm ih => exact fun next hn => ih next (frontNames_subset_of_mem hm next hn)
  | target _ hf ih => exact fun next hn => (ih _ List.mem_cons_self).tail ⟨_, hf, hn⟩

theorem Fronts.followed {registry : Registry} {start schema target : Schema}
    (h : Fronts registry start schema) (refers : schema.isReference = true)
    (found : schema.followed registry = .ok target) : Fronts registry start target := by
  cases schema with
  | reference name => exact h.target (find?_of_followed found)
  | _ => cases refers

theorem Fronts.alternative {registry : Registry} {start : Schema} {members : List Schema}
    {key title sample : Option String}
    (h : Fronts registry start (union members key title sample)) :
    ∀ schema ∈ alternativesOfAll members, Fronts registry start schema :=
  alternativesOfAll_down (P := Fronts registry start) (fun _ _ _ _ hu _ hm => hu.member hm) members
    fun _ hm => h.member hm

/-- In a guarded registry no reference is in front of its own target. -/
theorem not_fronts_of_followed {registry : Registry} (guarded : registry.Guarded)
    {schema target : Schema}
    (refers : schema.isReference = true) (found : schema.followed registry = .ok target) :
    ¬ Fronts registry target schema := by
  intro back
  cases schema with
  | reference name =>
    exact guarded _ (back.leads (find?_of_followed found) _ List.mem_cons_self)
  | _ => cases refers

/-! ## 5. Every derivation keeps its promise -/

/-- What holds of a pair of names that is under comparison when the comparison is at a later pair:
the promise of their targets, except at the present number of steps while no step was taken
since. -/
def Pending (this other : Context) (steps : Nat) (start : Schema × Schema)
    (container candidate : Schema) (names : String × String) : Prop :=
  ∃ p q target source, (p.typeName, q.typeName) = names ∧
    (p.isReference || q.isReference) = true ∧
    Reaches this other start (p, q) ∧ Reaches this other (p, q) (container, candidate) ∧
    p.followed this.registry = .ok target ∧ q.followed other.registry = .ok source ∧
    (∀ lower < steps, Sound this other lower target source) ∧
    (Sound this other steps target source ∨ Fronts this.registry target container)

section Pending

variable {this other : Context} {steps : Nat} {start : Schema × Schema} {p q p' q' : Schema}
  {names : String × String}

/-- A later pair, reached in front. -/
theorem Pending.along (h : Pending this other steps start p q names)
    (step : Meets this other (p, q) (p', q'))
    (front : ∀ target, Fronts this.registry target p → Fronts this.registry target p') :
    Pending this other steps start p' q' names := by
  obtain ⟨a, b, target, source, named, refers, reach, back, ha, hb, below, own⟩ := h
  exact ⟨a, b, target, source, named, refers, reach, back.tail step, ha, hb, below,
    own.imp_right (front target)⟩

/-- A later pair, with fewer steps. -/
theorem Pending.lower (h : Pending this other steps start p q names) {lower : Nat}
    (hl : lower < steps) (path : Reaches this other (p, q) (p', q')) :
    Pending this other lower start p' q' names := by
  obtain ⟨a, b, target, source, named, refers, reach, back, ha, hb, below, _⟩ := h
  exact ⟨a, b, target, source, named, refers, reach, back.trans path, ha, hb,
    fun lowest hlt => below lowest (hlt.trans hl), .inl (below lower hl)⟩

end Pending

/-- A derivation promises what it says, at any number of steps, if the pairs under comparison are
pending.

The induction is on the steps first: a reference, a union, a field or an item of the candidate takes
one, and all promises of the stack hold below. Where the candidate stays as it is, the derivation
gets smaller and the container moves on in front. A pair of names that is seen again is one that was
entered, and has the same targets; if no step was taken since, the container would be in front of
its own target. -/
theorem sound_of_covered {this other : Context} (guarded : this.registry.Guarded)
    (strict : other.keyPolicy = .strict) (registered : this.registry.Everywhere Comparable)
    (registered' : other.registry.Everywhere Comparable) {P Q : Schema}
    (comparable : P.Everywhere Comparable) (comparable' : Q.Everywhere Comparable)
    (faithful : NamesFaithful this other P Q) (steps : Nat) {stack : List (String × String)}
    {p q : Schema} (reach : Reaches this other (P, Q) (p, q))
    (pending : ∀ names ∈ stack, Pending this other steps (P, Q) p q names)
    (covered : Covered this other stack p q) : Sound this other steps p q := by
  induction steps using Nat.strong_induction_on generalizing stack p q with
  | _ steps below =>
    have descend {stack : List (String × String)} {p q p' q' : Schema}
        (reach : Reaches this other (P, Q) (p, q))
        (pending : ∀ names ∈ stack, Pending this other steps (P, Q) p q names)
        (step : Meets this other (p, q) (p', q')) (covered : Covered this other stack p' q') :
        ∀ lower < steps, Sound this other lower p' q' := fun lower hl =>
      below lower hl (reach.tail step) (fun names hn => (pending names hn).lower hl (.single step))
        covered
    induction covered with
    | @seen stack p q refers hs =>
      obtain ⟨a, b, target, source, named, refers', reach', back, ha, hb, lower, own⟩ :=
        pending _ hs
      obtain ⟨named, named'⟩ := Prod.mk.inj named
      obtain ⟨hp, hq⟩ := faithful a b reach' refers' p q back refers named.symm named'.symm
      refine sound_follow (hp.trans ha) (hq.trans hb) (fun _ => lower) fun free => ?_
      rw [free, Bool.or_false] at refers
      exact own.resolve_right (not_fronts_of_followed guarded refers (hp.trans ha))
    | @follow stack p q target source refers hp hq covered ih =>
      have step : Meets this other (p, q) (target, source) := .follow refers hp hq
      have entered (steps : Nat) (h : ∀ lower < steps, Sound this other lower target source) :
          Pending this other steps (P, Q) target source (p.typeName, q.typeName) :=
        ⟨p, q, target, source, rfl, refers, reach, .single step, hp, hq, h, .inr .self⟩
      have lower (lower : Nat) (hl : lower < steps) : Sound this other lower target source := by
        induction lower using Nat.strong_induction_on with
        | _ lower lowest =>
          refine below lower hl (reach.tail step)
            (List.forall_mem_cons.mpr ⟨?_, fun names hn => ?_⟩) covered
          · exact entered lower fun least h => lowest least h (h.trans hl)
          · exact (pending names hn).lower hl (.single step)
      refine sound_follow hp hq (fun _ => lower) fun free => ?_
      refine ih (reach.tail step)
        (List.forall_mem_cons.mpr ⟨entered steps lower, fun names hn => ?_⟩)
      refine (pending names hn).along step fun start front => ?_
      rw [free, Bool.or_false] at refers
      exact front.followed refers hp
    | @choose stack members key title sample q container free chosen covered ih =>
      refine sound_choose chosen (fun single => ?_) fun lower hl alternative ha => ?_
      · have here : q ∈ q.alternatives := by
          rw [alternatives_of_not_union single, List.mem_singleton]
        have step : Meets this other (union members key title sample, q) (container q, q) :=
          .choose free (chosen q here) here
        exact ih q here (reach.tail step) fun names hn =>
          (pending names hn).along step fun start front => front.alternative _ (chosen q here)
      · exact descend reach pending (.choose free (chosen alternative ha) ha)
          (covered alternative ha) lower hl
    | each free single covered _ =>
      refine sound_each rfl fun lower hl alternative ha => ?_
      exact descend reach pending (.each free single ha) (covered alternative ha) lower hl
    | literal accepted =>
      obtain ⟨_, others⟩ := reach.everywhere (everywhere_followed registered)
        (everywhere_followed registered') ⟨comparable, comparable'⟩
      exact sound_literal others.here accepted
    | string covered =>
      obtain ⟨own, others⟩ := reach.everywhere (everywhere_followed registered)
        (everywhere_followed registered') ⟨comparable, comparable'⟩
      exact sound_string own.here others.here covered
    | number covered => exact sound_number covered
    | boolean =>
      intro value fits
      cases fits.accepts with
      | boolean => exact .boolean
    | null =>
      intro value fits
      cases fits.accepts with
      | null => exact .null
    | object fields required declared _ =>
      refine sound_object (fun _ => by rw [strict]; rfl) (by rw [strict]; rfl)
        (fun lower hl field hf own ho => ?_) required declared
      exact descend reach pending (.field hf ho) (fields field hf own ho) lower hl
    | list covered _ => exact sound_list (descend reach pending .item covered)

/-- A comparison that accepts is right. Every value that fits the candidate fits the container. -/
theorem accepts_of_covers {this other : Context} (guarded : this.registry.Guarded)
    (strict : other.keyPolicy = .strict) (registered : this.registry.Everywhere Comparable)
    (registered' : other.registry.Everywhere Comparable) {container candidate : Schema}
    (comparable : container.Everywhere Comparable) (comparable' : candidate.Everywhere Comparable)
    (faithful : NamesFaithful this other container candidate)
    (covered : Accepting (covers this other container candidate)) {value : Value}
    (accepted : candidate.accepts other value = some true) :
    container.accepts this value = some true := by
  obtain ⟨steps, fits⟩ := fits_of_accepts accepted
  rw [accepts_iff guarded]
  exact sound_of_covered guarded strict registered registered' comparable comparable' faithful steps
    .refl (List.forall_mem_nil _) (coversWithin_covered covered) value fits

end Schema

/-- A node with a number, linked to the next node or to none. -/
def linkFields (range : NumberRange) : List (String × Schema) :=
  [("value", .number range false none), ("next?", .named "Node")]

def rangedNodes (range : NumberRange) : Context :=
  .ofRegistry (Registry.initial.register "Node" (.object (linkFields range) none))

/-- Nodes are compared with nodes, fields with fields of the same name. -/
theorem reaches_rangedNodes {range range' : NumberRange} {last : Schema × Schema}
    (h : Schema.Reaches (rangedNodes range) (rangedNodes range')
      (.named "Node", .named "Node") last) :
    last = (.named "Node", .named "Node") ∨
      last = (.object (linkFields range) none, .object (linkFields range') none) ∨
      last = (.number range false none, .number range' false none) := by
  induction h with
  | refl => exact .inl rfl
  | tail _ step ih =>
    rcases ih with rfl | rfl | rfl
    · cases step with
      | follow _ hp hq =>
        cases hp
        cases hq
        exact .inr (.inl rfl)
    · cases step with
      | follow refers _ _ => cases refers
      | field hf ho =>
        have value : partner (linkFields range') "value" =
            some ("value", .number range' false none) := by
          simp [partner, linkFields]
        have next : partner (linkFields range') "next?" = some ("next?", .named "Node") := by
          simp [partner, linkFields, Key.name, Key.isOptional]
        rcases List.mem_pair.mp hf with rfl | rfl
        · cases value.symm.trans ho
          exact .inr (.inr rfl)
        · cases next.symm.trans ho
          exact .inl rfl
    · cases step with
      | follow refers _ _ => cases refers

theorem namesFaithful_rangedNodes (range range' : NumberRange) :
    Schema.NamesFaithful (rangedNodes range) (rangedNodes range') (.named "Node")
      (.named "Node") := by
  refine Schema.namesFaithful_of_references fun p q reach => ?_
  rcases reaches_rangedNodes reach with same | same | same <;> cases same <;> rfl

/-- Nodes with any number cover nodes with a number from 0 to 10. -/
theorem accepts_of_covers_node :
    Accepting (Schema.covers (rangedNodes ⟨none, none⟩)
      (rangedNodes ⟨some (.ofInt 0), some (.ofInt 10)⟩) (.named "Node") (.named "Node")) ∧
    (Schema.named "Node").accepts (rangedNodes ⟨none, none⟩)
      (.object [("value", .integer 1), ("next", .object [("value", .integer 2)])]) = some true :=
  have covered : Accepting (Schema.covers (rangedNodes ⟨none, none⟩)
      (rangedNodes ⟨some (.ofInt 0), some (.ofInt 10)⟩) (.named "Node") (.named "Node")) := by
    decide +kernel
  ⟨covered, Schema.accepts_of_covers (Registry.guarded_of_rank (fun _ => 0) (by decide +kernel)) rfl
    (by decide +kernel) (by decide +kernel) (by decide +kernel) (by decide +kernel)
    (namesFaithful_rangedNodes _ _) covered (by decide +kernel)⟩

/-- Nodes under a title, each linked to the next node or to none. -/
def titledNodes : Context :=
  .ofRegistry (Registry.initial.register "Node"
    (.object [("next?", .named "Node"), ("value", .numeric)] (some "Node")))

/-- An object without a title, and another one inside. -/
def untitledPair : Schema :=
  .object [("next", .object [("value", .text)] none), ("value", .numeric)] none

/-- The inner object goes by the name of the outer one, so it is not compared. -/
theorem not_accepts_of_covers_untitled :
    titledNodes.registry.Guarded ∧ titledNodes.keyPolicy = .strict ∧
    titledNodes.registry.Everywhere Schema.Comparable ∧
    (Schema.named "Node").Everywhere Schema.Comparable ∧ untitledPair.Everywhere Schema.Comparable ∧
    Accepting (Schema.covers titledNodes titledNodes (.named "Node") untitledPair) ∧
    untitledPair.accepts titledNodes
      (.object [("next", .object [("value", .string "x")]), ("value", .integer 1)]) = some true ∧
    (Schema.named "Node").accepts titledNodes
      (.object [("next", .object [("value", .string "x")]), ("value", .integer 1)]) = some false :=
  ⟨Registry.guarded_of_rank (fun _ => 0) (by decide +kernel), rfl, by decide +kernel,
    by decide +kernel, by decide +kernel, by decide +kernel, by decide +kernel, by decide +kernel⟩

end DataContract
