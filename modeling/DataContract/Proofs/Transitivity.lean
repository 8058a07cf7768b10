import Mathlib
import DataContract.Proofs.Decision

/-!
# Comparisons in a row

Among schemas without references, what covers a schema covers everything that it covers. A
comparison of such schemas has a verdict whatever the registry, and its derivations can be put
together. Two kinds of candidates are different from the rest. A union is compared alternative by
alternative, and a literal is covered by what accepts its value, so for a literal the promise of a
comparison is needed and not only its derivation.

1. `Schema.check_isSome_of_free`, `Schema.literalsSettle_of_free`: without references there is
   always a verdict.
2. `Schema.covered_iff`: a derivation is one of an alternative for every alternative.
3. `Schema.NodeCovered`: what is compared at two nodes that are no unions.
4. `Schema.sound_of_free`: a derivation without references keeps its promise.
5. `Schema.Covered.trans`: two derivations give a third one, hence `Schema.covers_trans`.
-/

namespace DataContract
namespace Schema

/-- There is no reference inside. -/
def ReferenceFree (schema : Schema) : Prop := schema.Everywhere fun node => node.isReference = false

instance (schema : Schema) : Decidable schema.ReferenceFree :=
  inferInstanceAs (Decidable (schema.Everywhere fun node => node.isReference = false))

/-! ## 1. Verdicts without references -/

theorem checkWithin_isSome_of_free {context : Context} {fuel : Nat} {schema : Schema}
    {value : Value} (free : schema.ReferenceFree) (enough : schema.size ≤ fuel) :
    (checkWithin context fuel schema value).isSome := by
  induction fuel generalizing schema value with
  | zero => cases schema <;> simp [size] at enough
  | succ fuel ih =>
    refine checkWithin_succ_isSome_iff.mpr fun next part step => ?_
    cases step with
    | whole step =>
      cases step with
      | target => cases free.here
      | member tried =>
        have := size_le_of_mem tried.mem
        simp only [size] at enough
        exact ih ((everywhere_union.mp free).2 _ tried.mem) (by omega)
    | field hf =>
      have := size_le_of_field hf
      simp only [size] at enough
      exact ih ((everywhere_object.mp free).2 _ hf) (by omega)
    | item =>
      simp only [size] at enough
      exact ih (everywhere_list.mp free).2 (by omega)

/-- A schema without references gives every value a verdict, whatever the registry. -/
theorem check_isSome_of_free (context : Context) {schema : Schema} (free : schema.ReferenceFree)
    (value : Value) : (schema.check context value).isSome := by
  refine checkWithin_isSome_of_free free ?_
  rw [checkBudget, Nat.succ_mul]
  omega

theorem accepts_iff_of_free {context : Context} {schema : Schema} (free : schema.ReferenceFree)
    {value : Value} :
    schema.accepts context value = some true ↔
      Accepts context.registry context.keyPolicy schema value :=
  accepts_iff_of_isSome (check_isSome_of_free context free value)

variable {this other : Context} {stack : List (String × String)}

/-- A comparison of schemas without references meets none. -/
theorem Reaches.free {start last : Schema × Schema} (h : Reaches this other start last)
    (free : start.1.ReferenceFree ∧ start.2.ReferenceFree) :
    last.1.ReferenceFree ∧ last.2.ReferenceFree := by
  have kept {registry : Registry} {schema target : Schema} (free : schema.ReferenceFree)
      (found : schema.followed registry = .ok target) : target.ReferenceFree :=
    followed_of_not_reference free.here found ▸ free
  exact h.everywhere kept kept free

theorem literalsSettle_of_free {p q : Schema} (free : p.ReferenceFree) (free' : q.ReferenceFree) :
    LiteralsSettle this other (p, q) :=
  fun _ value _ reach _ _ => check_isSome_of_free this (reach.free ⟨free, free'⟩).1 value

/-! ## 2. Alternatives -/

/-- Without references a derivation is one of an alternative for every alternative. -/
theorem covered_iff {p q : Schema} (free : p.ReferenceFree) (free' : q.ReferenceFree) :
    Covered this other stack p q ↔
      ∀ b ∈ q.alternatives, ∃ a ∈ p.alternatives, Covered this other stack a b := by
  have refers : ¬(p.isReference || q.isReference) = true := by
    rw [free.here, free'.here]
    exact Bool.false_ne_true
  constructor
  · intro covered
    cases covered with
    | seen refers' _ => exact absurd refers' refers
    | follow refers' _ _ _ => exact absurd refers' refers
    | choose container _ chosen below => exact fun b hb => ⟨container b, chosen b hb, below b hb⟩
    | each _ single below =>
      rw [alternatives_of_not_union single]
      exact fun b hb => ⟨p, List.mem_singleton_self p, below b hb⟩
    | literal accepted =>
      obtain ⟨a, ha, fits⟩ := (Accepts.of_accepts accepted).alternative
      exact List.forall_mem_singleton.mpr
        ⟨a, ha, .literal ((accepts_iff_of_free (free.alternative ha)).mpr fits)⟩
    | string covered =>
      exact List.forall_mem_singleton.mpr ⟨_, List.mem_singleton_self _, .string covered⟩
    | number covered =>
      exact List.forall_mem_singleton.mpr ⟨_, List.mem_singleton_self _, .number covered⟩
    | boolean => exact List.forall_mem_singleton.mpr ⟨_, List.mem_singleton_self _, .boolean⟩
    | null => exact List.forall_mem_singleton.mpr ⟨_, List.mem_singleton_self _, .null⟩
    | object fields required declared =>
      exact List.forall_mem_singleton.mpr
        ⟨_, List.mem_singleton_self _, .object fields required declared⟩
    | list covered =>
      exact List.forall_mem_singleton.mpr ⟨_, List.mem_singleton_self _, .list covered⟩
  · intro within
    cases whole : p.isUnion with
    | true =>
      cases p with
      | union members key title sample =>
        choose! container chosen below using within
        exact .choose container free'.here chosen below
      | _ => cases whole
    | false =>
      rw [alternatives_of_not_union whole] at within
      simp only [List.mem_singleton, exists_eq_left] at within
      cases whole' : q.isUnion with
      | true =>
        cases q with
        | union members key title sample => exact .each free.here whole within
        | _ => cases whole'
      | false =>
        refine within q ?_
        rw [alternatives_of_not_union whole', List.mem_singleton]

/-! ## 3. Nodes that are no unions -/

/-- How two nodes that are neither references nor unions are compared; `below` compares what is
directly below them. -/
inductive NodeCovered (this : Context) (below : Schema → Schema → Prop) : Schema → Schema → Prop
  | literal {p : Schema} {value : Value} {title : Option String} :
      p.accepts this value = some true → NodeCovered this below p (literal value title)
  | string {range range' : LengthRange} {sample sample' : Option String} :
      (rangeCovers "length" range.toNumberRange range'.toNumberRange).isAccepted = true →
      NodeCovered this below (string range sample) (string range' sample')
  | number {range range' : NumberRange} {fractional fractional' : Bool}
      {sample sample' : Option String} :
      (rangeCovers "value" range range').isAccepted = true →
      NodeCovered this below (number range fractional sample) (number range' fractional' sample')
  | boolean {sample sample' : Option String} :
      NodeCovered this below (boolean sample) (boolean sample')
  | null : NodeCovered this below null null
  | object {fields : List (String × Schema)} {others : Fields Schema}
      {title title' : Option String} :
      (∀ field ∈ fields, ∀ own, partner others field.1 = some own → below field.2 own.2) →
      (∀ field ∈ fields, Key.isOptional field.1 = false →
        ∃ own, partner others field.1 = some own ∧ Key.isOptional own.1 = false) →
      (this.keyPolicy.unexpected = true →
        ∀ own ∈ others, ∃ field ∈ fields, Key.name field.1 = Key.name own.1) →
      NodeCovered this below (object fields title) (object others title')
  | list {item item' : Schema} {title title' sample sample' : Option String} :
      below item item' →
      NodeCovered this below (list item title sample) (list item' title' sample')

/-- A derivation at two nodes that are neither references nor unions. -/
theorem Covered.node {p q : Schema} (free : p.isReference = false) (free' : q.isReference = false)
    (single : p.isUnion = false) (single' : q.isUnion = false)
    (covered : Covered this other stack p q) :
    NodeCovered this (Covered this other stack) p q := by
  have refers : ¬(p.isReference || q.isReference) = true := by
    rw [free, free']
    exact Bool.false_ne_true
  cases covered with
  | seen refers' _ => exact absurd refers' refers
  | follow refers' _ _ _ => exact absurd refers' refers
  | choose _ _ _ _ => cases single
  | each _ _ _ => cases single'
  | literal accepted => exact .literal accepted
  | string covered => exact .string covered
  | number covered => exact .number covered
  | boolean => exact .boolean
  | null => exact .null
  | object fields required declared => exact .object fields required declared
  | list covered => exact .list covered

theorem NodeCovered.covered {p q : Schema} (h : NodeCovered this (Covered this other stack) p q) :
    Covered this other stack p q := by
  cases h with
  | literal accepted => exact .literal accepted
  | string covered => exact .string covered
  | number covered => exact .number covered
  | boolean => exact .boolean
  | null => exact .null
  | object fields required declared => exact .object fields required declared
  | list covered => exact .list covered

/-! ## 4. A derivation keeps its promise -/

/-- Without references the names of a comparison do not matter, and the registries may be
unguarded. -/
theorem sound_of_free (missing : this.keyPolicy.missing = true → other.keyPolicy.missing = true)
    (unexpected : other.keyPolicy.unexpected = true) {p q : Schema} (free : p.ReferenceFree)
    (free' : q.ReferenceFree) (comparable : p.Everywhere Comparable)
    (comparable' : q.Everywhere Comparable) (covered : Covered this other stack p q) (steps : Nat) :
    Sound this other steps p q := by
  induction covered generalizing steps with
  | seen refers => rw [free.here, free'.here] at refers; cases refers
  | follow refers => rw [free.here, free'.here] at refers; cases refers
  | @choose _ members _ _ _ q container _ chosen below ih =>
    have one (steps : Nat) (b : Schema) (hb : b ∈ q.alternatives) :
        Sound this other steps (container b) b :=
      ih b hb (free.member (chosen b hb)) (free'.alternative hb) (comparable.member (chosen b hb))
        (comparable'.alternative hb) steps
    refine sound_choose chosen (fun single => one steps q ?_) fun lower _ => one lower
    rw [alternatives_of_not_union single, List.mem_singleton]
  | each _ _ _ ih =>
    refine sound_each rfl fun lower _ b hb => ?_
    exact ih b hb free (free'.member hb) comparable (comparable'.member hb) lower
  | literal accepted => exact sound_literal comparable'.here accepted
  | string covered => exact sound_string comparable.here comparable'.here covered
  | number covered => exact sound_number covered
  | boolean =>
    intro value fits
    cases fits.accepts with
    | boolean => exact .boolean
  | null =>
    intro value fits
    cases fits.accepts with
    | null => exact .null
  | object fields required declared ih =>
    refine sound_object missing unexpected (fun lower _ field hf own ho => ?_) required declared
    have hm := (partner_eq_some ho).1
    exact ih field hf own ho ((everywhere_object.mp free).2 field hf)
      ((everywhere_object.mp free').2 own hm) ((everywhere_object.mp comparable).2 field hf)
      ((everywhere_object.mp comparable').2 own hm) lower
  | list covered ih =>
    exact sound_list fun lower _ => ih (everywhere_list.mp free).2 (everywhere_list.mp free').2
      (everywhere_list.mp comparable).2 (everywhere_list.mp comparable').2 lower

/-! ## 5. Transitivity -/

theorem rangeCovers_trans {what : String} {first second third : NumberRange}
    (h : (rangeCovers what first second).isAccepted = true)
    (h' : (rangeCovers what second third).isAccepted = true) :
    (rangeCovers what first third).isAccepted = true := by
  rw [rangeCovers_isAccepted] at h h' ⊢
  refine ⟨fun x hx => ?_, fun x hx => ?_⟩
  · obtain ⟨y, hy, le⟩ := h.1 x hx
    obtain ⟨z, hz, le'⟩ := h'.1 y hy
    exact ⟨z, hz, Double.le_iff.mpr ((Double.le_iff.mp le).trans (Double.le_iff.mp le'))⟩
  · obtain ⟨y, hy, le⟩ := h.2 x hx
    obtain ⟨z, hz, le'⟩ := h'.2 y hy
    exact ⟨z, hz, Double.le_iff.mpr ((Double.le_iff.mp le').trans (Double.le_iff.mp le))⟩

/-- A node that a comparison reads by itself: no reference, and comparable. -/
def Standalone (node : Schema) : Prop := node.isReference = false ∧ node.Comparable

instance : DecidablePred Standalone :=
  fun node => inferInstanceAs (Decidable (node.isReference = false ∧ node.Comparable))

theorem Everywhere.free {schema : Schema} (h : schema.Everywhere Standalone) :
    schema.ReferenceFree :=
  h.mono fun _ => And.left

theorem Everywhere.comparable {schema : Schema} (h : schema.Everywhere Standalone) :
    schema.Everywhere Comparable :=
  h.mono fun _ => And.right

/-- Two comparisons of nodes give a third one. They are of one kind, unless the last node is a
literal: its value fits the second node, hence the first. -/
theorem NodeCovered.trans {context : Context} (policy : context.keyPolicy.unexpected = true)
    {below : Schema → Schema → Prop} {p q r : Schema} (hp : p.Everywhere Standalone)
    (hq : q.Everywhere Standalone) (hr : r.Everywhere Standalone)
    (promise : ∀ value, q.accepts context value = some true → p.accepts context value = some true)
    (parts : ∀ a b c, a.Everywhere Standalone → b.Everywhere Standalone → c.Everywhere Standalone →
      c.size < r.size → below a b → below b c → below a c)
    (h : NodeCovered context below p q) (h' : NodeCovered context below q r) :
    NodeCovered context below p r := by
  cases h' with
  | literal accepted => exact .literal (promise _ accepted)
  | string inside' =>
    cases h with
    | string inside => exact .string (rangeCovers_trans inside inside')
  | number inside' =>
    cases h with
    | number inside => exact .number (rangeCovers_trans inside inside')
  | boolean =>
    cases h with
    | boolean => exact .boolean
  | null => exact h
  | object fields' required' declared' =>
    cases h with
    | object fields required declared =>
      refine .object (fun field hf final hl => ?_) (fun field hf needed => ?_) fun _ final hl => ?_
      · obtain ⟨inLast, same⟩ := partner_eq_some hl
        obtain ⟨own, ho, same'⟩ := declared' policy final inLast
        obtain ⟨first, found⟩ := exists_partner ho (same'.trans same)
        obtain ⟨hm, named⟩ := partner_eq_some found
        have smaller : final.2.size < _ := Nat.lt_succ_of_le (size_le_of_field inLast)
        have covered' := fields' first hm final ((partner_eq_of_name_eq named).trans hl)
        exact parts _ _ _ ((everywhere_object.mp hp).2 field hf)
          ((everywhere_object.mp hq).2 first hm)
          ((everywhere_object.mp hr).2 final inLast) smaller (fields field hf first found) covered'
      · obtain ⟨own, found, needed⟩ := required field hf needed
        obtain ⟨hm, named⟩ := partner_eq_some found
        obtain ⟨final, found', needed⟩ := required' own hm needed
        exact ⟨final, (partner_eq_of_name_eq named).symm.trans found', needed⟩
      · obtain ⟨own, ho, same⟩ := declared' policy final hl
        obtain ⟨field, hf, same'⟩ := declared policy own ho
        exact ⟨field, hf, same'.trans same⟩
  | list covered' =>
    cases h with
    | list covered =>
      exact .list (parts _ _ _ (everywhere_list.mp hp).2 (everywhere_list.mp hq).2
        (everywhere_list.mp hr).2 (Nat.lt_succ_self _) covered covered')

/-- Two derivations give a third one.

The induction is on the last schema. For each of its alternatives there is one of the second schema,
and for that one of the first, so it is enough to compare nodes that are no unions. -/
theorem Covered.trans {context : Context} (policy : context.keyPolicy.unexpected = true)
    {p q r : Schema} (hp : p.Everywhere Standalone) (hq : q.Everywhere Standalone)
    (hr : r.Everywhere Standalone) (covered : Covered context context stack p q)
    (covered' : Covered context context stack q r) : Covered context context stack p r := by
  induction hn : r.size using Nat.strong_induction_on generalizing p q r with
  | _ n ih =>
    rw [covered_iff hp.free hr.free]
    intro c hc
    obtain ⟨b, hb, covered'⟩ := (covered_iff hq.free hr.free).mp covered' c hc
    obtain ⟨a, ha, covered⟩ := (covered_iff hp.free hq.free).mp covered b hb
    refine ⟨a, ha, ?_⟩
    have small := size_le_of_alternative r c hc
    have single := not_isUnion_of_mem_alternatives p a ha
    have single' := not_isUnion_of_mem_alternatives q b hb
    have single'' := not_isUnion_of_mem_alternatives r c hc
    replace hp := hp.alternative ha
    replace hq := hq.alternative hb
    replace hr := hr.alternative hc
    have promise (value : Value) (accepted : b.accepts context value = some true) :
        a.accepts context value = some true := by
      obtain ⟨steps, fits⟩ := fits_of_accepts accepted
      exact (accepts_iff_of_free hp.free).mpr
        (sound_of_free id policy hp.free hq.free hp.comparable hq.comparable covered
          steps value fits)
    have node := covered.node hp.free.here hq.free.here single single'
    have node' := covered'.node hq.free.here hr.free.here single' single''
    exact (node.trans policy hp hq hr promise
      (fun _ _ _ ha hb hc less covered covered' => ih _ (by omega) ha hb hc covered covered' rfl)
      node').covered

theorem covers_iff_covered {p q : Schema} (free : p.ReferenceFree) (free' : q.ReferenceFree) :
    Accepting (covers this other p q) ↔ Covered this other [] p q := by
  have settled : LiteralsSettle this other (p, q) := literalsSettle_of_free free free'
  obtain ⟨verdict, hv⟩ := Option.isSome_iff_exists.mp (covers_isSome settled)
  exact ⟨coversWithin_covered, fun covered => ⟨verdict, hv, covered.isAccepted hv⟩⟩

/-- Covering is transitive among schemas without references. -/
theorem covers_trans {context : Context} (policy : context.keyPolicy.unexpected = true)
    {first second third : Schema} (standalone : first.Everywhere Standalone)
    (standalone' : second.Everywhere Standalone) (standalone'' : third.Everywhere Standalone)
    (covered : Accepting (covers context context first second))
    (covered' : Accepting (covers context context second third)) :
    Accepting (covers context context first third) := by
  rw [covers_iff_covered standalone.free standalone'.free] at covered
  rw [covers_iff_covered standalone'.free standalone''.free] at covered'
  rw [covers_iff_covered standalone.free standalone''.free]
  exact covered.trans policy standalone standalone' standalone'' covered'

end Schema

/-- A number in a range or null, under a key that may be left out, and a list of texts. -/
def measured (range : NumberRange) : Schema :=
  .object [("size?", .nullable (.number range false none)),
    ("tags", .list (.string ⟨some 1, none⟩ none) none none)] none

/-- Exactly a size of four and no tag. -/
def measuredFour : Schema :=
  .exactly (.object [("tags", .array []), ("size", .integer 4)])

/-- A union covers an object that covers a literal. -/
theorem covers_trans_measured :
    Accepting (Schema.covers (.ofRegistry .initial) (.ofRegistry .initial)
      (.union [.text, measured ⟨none, none⟩] none none none)
      (.union [measured ⟨some (.ofInt 0), none⟩, .exactly (.string "all")] none none none)) ∧
    Accepting (Schema.covers (.ofRegistry .initial) (.ofRegistry .initial)
      (.union [.text, measured ⟨none, none⟩] none none none) measuredFour) :=
  have covered : Accepting (Schema.covers (.ofRegistry .initial) (.ofRegistry .initial)
      (.union [.text, measured ⟨none, none⟩] none none none)
      (.union [measured ⟨some (.ofInt 0), none⟩, .exactly (.string "all")] none none none)) := by
    decide +kernel
  ⟨covered, Schema.covers_trans rfl (by decide +kernel) (by decide +kernel) (by decide +kernel)
    covered (by decide +kernel)⟩

end DataContract
