import Mathlib
import DataContract.Proofs.Decision
import DataContract.Proofs.Productivity

/-!
# A schema compared with itself

A schema has a derivation for itself: at every node the comparison comes back to the node itself,
among the alternatives of a union each one finds itself, and a recursion ends where its pair of
names comes up again. So no comparison of a schema with itself refuses. It is false that it always
has a verdict. It compares all alternatives of a union with each other before it takes the one that
fits, and there it may check the value of a literal against references that lead back to themselves.

1. `Schema.Unambiguous`, `Schema.Defined`: what is asked of every node.
2. `Schema.covered_self`: a schema has a derivation for itself.
3. `Schema.covers_self`: no verdict refuses, and there is one where literals can be checked.
-/

namespace DataContract
namespace Schema

/-! ## 1. Nodes that can be told apart -/

/-- The fields of an object have distinct names without their marks. A literal is data, whose keys
are distinct anyway. -/
def Unambiguous : Schema → Prop
  | object fields _ => ((Fields.names fields).map Key.name).Nodup
  | literal value _ => value.Distinct
  | _ => True

instance : DecidablePred Unambiguous
  | .object fields _ => inferInstanceAs (Decidable ((Fields.names fields).map Key.name).Nodup)
  | .literal value _ => inferInstanceAs (Decidable value.Distinct)
  | .string _ _ | .number _ _ _ | .boolean _ | .null | .reference _ | .list _ _ _
  | .union _ _ _ _ => .isTrue trivial

/-- A reference is registered. -/
def Defined (registry : Registry) : Schema → Prop
  | reference name => (registry.find? name).isSome
  | _ => True

instance (registry : Registry) : DecidablePred (Defined registry)
  | .reference name => inferInstanceAs (Decidable ((registry.find? name).isSome = true))
  | .string _ _ | .number _ _ _ | .boolean _ | .null | .literal _ _ | .object _ _ | .list _ _ _
  | .union _ _ _ _ => .isTrue trivial

variable {context : Context} {start schema : Schema} {stack : List (String × String)}

/-- What uses a schema uses its alternatives. -/
theorem Uses.alternative {registry : Registry} {alternative : Schema}
    (used : Uses registry start schema)
    (hm : alternative ∈ schema.alternatives) : Uses registry start alternative :=
  alternatives_down (P := Uses registry start)
    (fun _ _ _ _ whole _ hm => whole.member hm) schema used alternative hm

theorem defined_of_everywhere {registry : Registry}
    (registered : registry.Everywhere (Defined registry))
    (holds : start.Everywhere (Defined registry)) :
    ∀ name, Uses registry start (reference name) → (registry.find? name).isSome :=
  fun _ used => (used.everywhere registered holds).here

/-- Where names are distinct, a field is its own partner. -/
theorem partner_self {fields : List (String × Schema)}
    (distinct : ((Fields.names fields).map Key.name).Nodup) {field : String × Schema}
    (hf : field ∈ fields) : partner fields field.1 = some field := by
  obtain ⟨own, found⟩ := exists_partner hf rfl
  obtain ⟨hm, same⟩ := partner_eq_some found
  rw [found, field_eq_of_name distinct hm hf same]

theorem isAccepted_rangeCovers_self (what : String) (range : NumberRange) :
    (rangeCovers what range range).isAccepted = true :=
  (rangeCovers_isAccepted what range range).mpr
    ⟨fun least h => ⟨least, h, Double.le_iff.mpr (le_refl _)⟩,
      fun most h => ⟨most, h, Double.le_iff.mpr (le_refl _)⟩⟩

/-- A literal accepts its own value. -/
theorem accepts_literal_self (context : Context) {value : Value} (distinct : value.Distinct)
    (title : Option String) : (literal value title).accepts context value = some true := by
  obtain ⟨fuel, steps⟩ := exists_check_eq context (literal value title) value
  rw [accepts, steps, checkWithin, if_pos (Value.sameLiteral_self distinct)]
  rfl

/-! ## 2. The derivation -/

/-- What a schema uses has a derivation for itself, by induction on what is left to be compared: the
registry once for each pair of names that is not on the stack, and the nodes ahead. -/
theorem covered_self_of_le (pool : Finset (String × String))
    (defined : ∀ name, Uses context.registry start (reference name) →
      (context.registry.find? name).isSome)
    (unambiguous : ∀ node, Uses context.registry start node → node.Unambiguous)
    (listed : ∀ node, Uses context.registry start node → (node.typeName, node.typeName) ∈ pool)
    {left : Nat} (used : Uses context.registry start schema)
    (enough : (pool \ stack.toFinset).card * context.registry.size + schema.size ≤ left) :
    Covered context context stack schema schema := by
  induction left generalizing stack schema with
  | zero =>
    have := schema.size_pos
    omega
  | succ left ih =>
    cases schema with
    | reference name =>
      by_cases seen : ((reference name).typeName, (reference name).typeName) ∈ stack
      · exact .seen rfl seen
      · obtain ⟨target, found⟩ := Option.isSome_iff_exists.mp (defined name used)
        have followed := followed_of_find? found
        have paid := Nat.mul_le_mul_right context.registry.size
          (card_sdiff_cons_lt (listed _ used) seen)
        have small : target.size ≤ context.registry.size :=
          size_le_of_field (Fields.mem_of_find? found)
        rw [Nat.succ_mul] at paid
        simp only [size] at enough
        exact .follow rfl followed followed (ih (used.target found) (by omega))
    | union members key title sample =>
      refine .choose (fun alternative => alternative) rfl (fun _ ha => ha) fun alternative ha =>
        ih (used.alternative ha) ?_
      have := size_le_of_alternativeOfAll members alternative ha
      simp only [size] at enough
      omega
    | literal value title =>
      exact .literal (accepts_literal_self context (unambiguous _ used) title)
    | string length sample => exact .string (isAccepted_rangeCovers_self _ _)
    | number range fractional sample => exact .number (isAccepted_rangeCovers_self _ _)
    | boolean sample => exact .boolean
    | null => exact .null
    | object fields title =>
      have distinct : ((Fields.names fields).map Key.name).Nodup := unambiguous _ used
      refine .object (fun field hf own ho => ?_)
        (fun field hf required => ⟨field, partner_self distinct hf, required⟩)
        fun _ own ho => ⟨own, ho, rfl⟩
      cases (partner_self distinct hf).symm.trans ho
      refine ih (used.field hf) ?_
      have := size_le_of_field hf
      simp only [size] at enough
      omega
    | list item title sample =>
      refine .list (ih used.item ?_)
      simp only [size] at enough
      omega

/-- A schema has a derivation for itself, whatever is under comparison already. -/
theorem covered_self
    (defined : ∀ name, Uses context.registry schema (reference name) →
      (context.registry.find? name).isSome)
    (unambiguous : schema.Everywhere Unambiguous)
    (registered : context.registry.Everywhere Unambiguous) (stack : List (String × String)) :
    Covered context context stack schema schema := by
  obtain ⟨named, known⟩ := everywhere_typeNamesOf context.registry schema
  refine covered_self_of_le
    (typeNamesOf context.registry schema ×ˢ typeNamesOf context.registry schema)
    defined (fun _ used => (used.everywhere registered unambiguous).here) (fun _ used => ?_) .self
    (Nat.le_refl _)
  have listed := (used.everywhere known named).here
  exact Finset.mem_product.mpr ⟨listed, listed⟩

/-! ## 3. Reflexivity -/

/-- A schema covers itself, from any stack. No comparison refuses, and there is a verdict where the
literals that the comparison comes to can be checked. -/
theorem covers_self
    (defined : ∀ name, Uses context.registry schema (reference name) →
      (context.registry.find? name).isSome)
    (unambiguous : schema.Everywhere Unambiguous)
    (registered : context.registry.Everywhere Unambiguous) :
    CoversAlways context context schema schema ∧
      (LiteralsSettle context context (schema, schema) → ∀ stack,
        Accepting (coversWithin context context
          (coversBudget context context schema.size schema.size) stack schema schema)) := by
  have always : CoversAlways context context schema schema := fun _ stack _ =>
    (covered_self defined unambiguous registered stack).isAccepted
  refine ⟨always, fun settled stack => ?_⟩
  obtain ⟨verdict, hv⟩ := Option.isSome_iff_exists.mp (coversWithin_budget_isSome settled stack)
  exact ⟨verdict, hv, always _ _ _ hv⟩

end Schema

/-- Terms that are numbers, the exact zero term, or objects of terms; a list of terms may stand for
one. -/
def terms : Registry :=
  .register "Terms"
    (.union [.named "Term", .union [.null, .list (.named "Terms") none none] none none none]
      none none none)
    (.register "Term"
      (.union [.numeric, .exactly (.object [("zero", .boolean true)]),
        .object [("left", .named "Term"), ("right?", .named "Terms")] (some "Term")] none none none)
      .initial)

/-- Terms refer to each other through unions and are covered by themselves. Only a list of terms may
stand for a term in front. -/
theorem covers_self_terms :
    (∀ name, Schema.Uses terms (.named "Terms") (.reference name) → (terms.find? name).isSome) ∧
    (Schema.named "Terms").Everywhere Schema.Unambiguous ∧ terms.Everywhere Schema.Unambiguous ∧
    terms.Guarded ∧
    Accepting (Schema.covers (.ofRegistry terms) (.ofRegistry terms) (.named "Terms")
        (.named "Terms")) :=
  have defined : ∀ name, Schema.Uses terms (.named "Terms") (.reference name) →
      (terms.find? name).isSome :=
    Schema.defined_of_everywhere (by decide +kernel) (by decide +kernel)
  have unambiguous : (Schema.named "Terms").Everywhere Schema.Unambiguous := by decide +kernel
  have registered : terms.Everywhere Schema.Unambiguous := by decide +kernel
  have guarded : terms.Guarded :=
    Registry.guarded_of_rank (fun name => if name = "(Terms)" then 1 else 0) (by decide +kernel)
  ⟨defined, unambiguous, registered, guarded,
    (@Schema.covers_self (.ofRegistry terms) (.named "Terms") defined unambiguous registered).2
      (Schema.literalsSettle_of_guarded guarded) []⟩

/-- A link to another link or to none. -/
def links : Registry := .register "Link" (.nullable (.named "Link")) .initial

/-- What follows a link comes back to it without passing a field or an item. -/
theorem checkWithin_link (fuel : Nat) (value : Value) :
    Schema.checkWithin (.ofRegistry links) fuel (.named "Link") value = none ∧
      Schema.checkWithin (.ofRegistry links) fuel (.nullable (.named "Link")) value = none := by
  induction fuel with
  | zero => exact ⟨rfl, rfl⟩
  | succ fuel ih =>
    obtain ⟨link, target⟩ := ih
    have found : links.find? (Token.ofName "Link") = some (.nullable (.named "Link")) := by
      rw [links, Registry.find?_register, if_pos (by decide +kernel)]
    constructor
    · simp only [Schema.named, Schema.checkWithin, Context.ofRegistry, Registry.lookup, found]
      exact target
    · simp only [Schema.nullable, Schema.checkWithin, firstAccepted, link, Option.bind_eq_bind,
        Option.bind_none]

/-- Exactly one object, or any object with a link. -/
def tagOrLink : Schema :=
  .union [.exactly (.object [("a", .integer 1)]), .object [("a", .named "Link")] none]
    none none none

/-- A literal is checked against a link, which leads back to itself however many steps are taken. -/
theorem covers_tagOrLink_eq_none :
    (∀ name, Schema.Uses links tagOrLink (.reference name) → (links.find? name).isSome) ∧
    tagOrLink.Everywhere Schema.Unambiguous ∧ links.Everywhere Schema.Unambiguous ∧
    (∀ fuel, Schema.checkWithin (.ofRegistry links) fuel (.object [("a", .named "Link")] none)
      (.object [("a", .integer 1)]) = none) ∧
    Schema.covers (.ofRegistry links) (.ofRegistry links) tagOrLink tagOrLink = none := by
  refine ⟨Schema.defined_of_everywhere (by decide +kernel) (by decide +kernel), by decide +kernel,
    by decide +kernel, fun fuel => ?_, by decide +kernel⟩
  cases fuel with
  | zero => rfl
  | succ fuel =>
    have name : Key.name "a" = "a" := by decide +kernel
    simp only [Schema.checkWithin, checkFields, name, Fields.find?, if_true,
      (checkWithin_link fuel _).1, Option.map_none, Option.bind_eq_bind, Option.bind_none]

end DataContract
