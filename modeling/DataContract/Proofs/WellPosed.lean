import Mathlib
import DataContract.Proofs.Rounding
import DataContract.Registry

/-!
# Conditions on the nodes of a schema

A condition on schemas is carried to every schema inside by `Schema.Everywhere`, and to everything
that a registry names by `Registry.Everywhere`.

1. `Schema.everywhere_object`, `everywhere_list`, `everywhere_union`: a condition at a node and at
   what is directly below it.
2. `Value.Distinct`: keys that occur once in every object of some data. Such data are the same as
   themselves (`Value.same_self`).
3. `Schema.WellPosed`: what the author of a schema is asked for. Field names are distinct without
   their marks, and number bounds lie among the signed 64-bit integers.
-/

namespace DataContract
namespace Schema

/-! ## 1. Every node -/

mutual

/-- The schema and everything inside; references are not followed. -/
def nodes : Schema → List Schema
  | object fields title => object fields title :: nodesOfFields fields
  | list item title sample => list item title sample :: nodes item
  | union members key title sample => union members key title sample :: nodesOfAll members
  | schema => [schema]

def nodesOfFields : List (String × Schema) → List Schema
  | [] => []
  | (_, schema) :: rest => nodes schema ++ nodesOfFields rest

def nodesOfAll : List Schema → List Schema
  | [] => []
  | schema :: rest => nodes schema ++ nodesOfAll rest

end

/-- A condition on the schema and on everything inside. -/
def Everywhere (condition : Schema → Prop) (schema : Schema) : Prop :=
  ∀ node ∈ schema.nodes, condition node

instance (condition : Schema → Prop) [DecidablePred condition] (schema : Schema) :
    Decidable (schema.Everywhere condition) :=
  inferInstanceAs (Decidable (∀ node ∈ schema.nodes, condition node))

theorem mem_nodesOfFields {fields : List (String × Schema)} {node : Schema} :
    node ∈ nodesOfFields fields ↔ ∃ field ∈ fields, node ∈ field.2.nodes := by
  induction fields with
  | nil => simp [nodesOfFields]
  | cons field rest ih =>
    obtain ⟨key, schema⟩ := field
    rw [nodesOfFields, List.mem_append, ih, List.exists_mem_cons_iff]

theorem mem_nodesOfAll {members : List Schema} {node : Schema} :
    node ∈ nodesOfAll members ↔ ∃ schema ∈ members, node ∈ schema.nodes := by
  induction members with
  | nil => simp [nodesOfAll]
  | cons schema rest ih => rw [nodesOfAll, List.mem_append, ih, List.exists_mem_cons_iff]

theorem self_mem_nodes (schema : Schema) : schema ∈ schema.nodes := by
  cases schema <;> simp [nodes]

section Everywhere

variable {condition : Schema → Prop}

theorem Everywhere.here {schema : Schema} (h : schema.Everywhere condition) : condition schema :=
  h schema schema.self_mem_nodes

theorem Everywhere.mono {weaker : Schema → Prop} {schema : Schema}
    (h : schema.Everywhere condition) (imp : ∀ node, condition node → weaker node) :
    schema.Everywhere weaker :=
  fun node hn => imp node (h node hn)

theorem everywhere_object {fields : List (String × Schema)} {title : Option String} :
    (object fields title).Everywhere condition ↔
      condition (object fields title) ∧ ∀ field ∈ fields, field.2.Everywhere condition := by
  simp only [Everywhere, nodes, List.forall_mem_cons, mem_nodesOfFields]
  exact and_congr_right fun _ =>
    ⟨fun h field hf node hn => h node ⟨field, hf, hn⟩,
      fun h node ⟨field, hf, hn⟩ => h field hf node hn⟩

theorem everywhere_list {item : Schema} {title sample : Option String} :
    (list item title sample).Everywhere condition ↔
      condition (list item title sample) ∧ item.Everywhere condition := by
  simp only [Everywhere, nodes, List.forall_mem_cons]

theorem everywhere_union {members : List Schema} {key title sample : Option String} :
    (union members key title sample).Everywhere condition ↔
      condition (union members key title sample) ∧
        ∀ schema ∈ members, schema.Everywhere condition := by
  simp only [Everywhere, nodes, List.forall_mem_cons, mem_nodesOfAll]
  exact and_congr_right fun _ =>
    ⟨fun h schema hm node hn => h node ⟨schema, hm, hn⟩,
      fun h node ⟨schema, hm, hn⟩ => h schema hm node hn⟩

end Everywhere

end Schema

/-- A condition on everything that is registered. -/
def Registry.Everywhere (condition : Schema → Prop) (registry : Registry) : Prop :=
  ∀ entry ∈ registry.entries, entry.2.Everywhere condition

instance (condition : Schema → Prop) [DecidablePred condition] (registry : Registry) :
    Decidable (registry.Everywhere condition) :=
  inferInstanceAs (Decidable (∀ entry ∈ registry.entries, entry.2.Everywhere condition))

theorem Registry.Everywhere.target {condition : Schema → Prop} {registry : Registry}
    (h : registry.Everywhere condition) {name : String} {target : Schema}
    (found : registry.find? name = some target) : target.Everywhere condition :=
  h _ (Fields.mem_of_find? found)

/-! ## 2. Data with distinct keys -/

namespace Value

mutual

/-- The keys of every object inside are distinct. -/
def Distinct : Value → Prop
  | array items => DistinctItems items
  | object entries => (Fields.names entries).Nodup ∧ DistinctEntries entries
  | _ => True

def DistinctItems : List Value → Prop
  | [] => True
  | item :: rest => Distinct item ∧ DistinctItems rest

def DistinctEntries : List (String × Value) → Prop
  | [] => True
  | (_, value) :: rest => Distinct value ∧ DistinctEntries rest

end

mutual

instance decidableDistinct : (value : Value) → Decidable value.Distinct
  | null | boolean _ | number _ | string _ => .isTrue trivial
  | array items => decidableDistinctItems items
  | object entries =>
    @instDecidableAnd _ _ (inferInstanceAs (Decidable (Fields.names entries).Nodup))
      (decidableDistinctEntries entries)

instance decidableDistinctItems : (items : List Value) → Decidable (DistinctItems items)
  | [] => .isTrue trivial
  | item :: rest => @instDecidableAnd _ _ (decidableDistinct item) (decidableDistinctItems rest)

instance decidableDistinctEntries : (entries : List (String × Value)) →
    Decidable (DistinctEntries entries)
  | [] => .isTrue trivial
  | (_, value) :: rest =>
    @instDecidableAnd _ _ (decidableDistinct value) (decidableDistinctEntries rest)

end

mutual

/-- Data are the same as themselves. -/
theorem same_self : ∀ value : Value, value.Distinct → value.same value = true
  | null, _ | boolean _, _ | string _, _ => by simp [same]
  | number n, _ => by cases n <;> simp [same, Number.same, Double.same]
  | array items, h => by
    rw [same]
    exact sameItems_self items h
  | object entries, ⟨keys, h⟩ => by
    rw [same, beq_self_eq_true, Bool.true_and]
    exact sameEntries_self entries entries (fun _ _ hm => Fields.find?_of_mem keys hm) h

theorem sameItems_self : ∀ items : List Value, DistinctItems items → sameItems items items = true
  | [], _ => rfl
  | item :: rest, ⟨own, others⟩ => by
    rw [sameItems, same_self item own, sameItems_self rest others]
    rfl

theorem sameEntries_self (all : Fields Value) : ∀ entries : List (String × Value),
    (∀ name value, (name, value) ∈ entries → Fields.find? name all = some value) →
    DistinctEntries entries → sameEntries entries all = true
  | [], _, _ => rfl
  | (key, value) :: rest, found, ⟨own, others⟩ => by
    rw [sameEntries, found key value List.mem_cons_self]
    simp only
    rw [same_self value own, sameEntries_self all rest
      (fun name value hm => found name value (List.mem_cons_of_mem _ hm)) others]
    rfl

end

theorem sameLiteral_self {value : Value} (h : value.Distinct) : value.sameLiteral value = true := by
  cases value with
  | number n => exact n.close_self
  | _ => exact same_self _ h

end Value

/-! ## 3. Well-posed schemas -/

/-- The number lies between the least and the greatest signed 64-bit integer. -/
def Double.InSigned (x : Double) : Prop :=
  Number.minSigned * (one : Int) ≤ x.scaled ∧ x.scaled ≤ Number.maxSigned * (one : Int)

instance (x : Double) : Decidable x.InSigned := inferInstanceAs (Decidable (_ ∧ _))

namespace Double.InSigned

open Number

theorem ceil_mem {x : Double} (h : x.InSigned) : minSigned ≤ x.ceil ∧ x.ceil ≤ maxSigned := by
  obtain ⟨least, most⟩ := h
  unfold ceil
  constructor
  · have : -x.scaled / (one : Int) ≤ -minSigned :=
      Int.ediv_le_of_le_mul one_pos (by rw [Int.neg_mul]; omega)
    omega
  · have : -maxSigned ≤ -x.scaled / (one : Int) :=
      (Int.le_ediv_iff_mul_le one_pos).mpr (by rw [Int.neg_mul]; omega)
    omega

theorem floor_mem {x : Double} (h : x.InSigned) : minSigned ≤ x.floor ∧ x.floor ≤ maxSigned :=
  ⟨(Int.le_ediv_iff_mul_le one_pos).mpr h.1, Int.ediv_le_of_le_mul one_pos h.2⟩

end Double.InSigned

/-- The bounds lie among the signed 64-bit integers. -/
def NumberRange.Signed (range : NumberRange) : Prop :=
  (∀ least, range.least = some least → least.InSigned) ∧
    ∀ most, range.most = some most → most.InSigned

instance (range : NumberRange) : Decidable range.Signed :=
  inferInstanceAs (Decidable ((∀ least ∈ range.least, least.InSigned) ∧
    ∀ most ∈ range.most, most.InSigned))

/-- What one node has to keep. A literal is data, whose keys are distinct anyway. -/
def Schema.WellPosed : Schema → Prop
  | number range _ _ => range.Signed
  | literal value _ => value.Distinct
  | object fields _ => ((Fields.names fields).map Key.name).Nodup
  | _ => True

instance : DecidablePred Schema.WellPosed
  | .number range _ _ => inferInstanceAs (Decidable range.Signed)
  | .literal value _ => inferInstanceAs (Decidable value.Distinct)
  | .object fields _ => inferInstanceAs (Decidable ((Fields.names fields).map Key.name).Nodup)
  | .string _ _ | .boolean _ | .null | .reference _ | .list _ _ _ | .union _ _ _ _ =>
    .isTrue trivial

end DataContract
