/-!
# Enumerations

A finite list that is worked out item by item, so that the first items of a long enumeration are
cheap. `Enumeration.toList` is its meaning, and every operation is pinned down by it.

- `append`, `map`, `filter`, `filterMap`, `flatMap`, `take`: as on lists.
- `closeUnless`: last items that come only when no item had a property.
- `distinct`: items without repeats of a key.
- `product`: every choice of one item from each of several enumerations, the first one outermost.
-/

namespace DataContract

/-- A list worked out item by item. -/
inductive Enumeration (α : Type) where
  | nil
  | cons (head : α) (tail : Unit → Enumeration α)

namespace Enumeration

variable {α β : Type}

instance : Inhabited (Enumeration α) := ⟨nil⟩

/-- The items. -/
def toList : Enumeration α → List α
  | nil => []
  | cons a rest => a :: (rest ()).toList

def ofList : List α → Enumeration α
  | [] => nil
  | a :: rest => cons a fun _ => ofList rest

/-- One item. -/
def single (a : α) : Enumeration α := cons a fun _ => nil

def isEmpty : Enumeration α → Bool
  | nil => true
  | cons _ _ => false

def append (first : Enumeration α) (second : Unit → Enumeration α) : Enumeration α :=
  match first with
  | nil => second ()
  | cons a rest => cons a fun _ => append (rest ()) second

def map (f : α → β) : Enumeration α → Enumeration β
  | nil => nil
  | cons a rest => cons (f a) fun _ => map f (rest ())

def filter (p : α → Bool) : Enumeration α → Enumeration α
  | nil => nil
  | cons a rest => if p a then cons a fun _ => filter p (rest ()) else filter p (rest ())

def filterMap (f : α → Option β) : Enumeration α → Enumeration β
  | nil => nil
  | cons a rest =>
    match f a with
    | some b => cons b fun _ => filterMap f (rest ())
    | none => filterMap f (rest ())

def flatMap (f : α → Enumeration β) : Enumeration α → Enumeration β
  | nil => nil
  | cons a rest => append (f a) fun _ => flatMap f (rest ())

/-- The first `n` items; the item after them is never worked out. -/
def take : Nat → Enumeration α → Enumeration α
  | 0, _ => nil
  | _ + 1, nil => nil
  | n + 1, cons a rest => cons a fun _ => if n = 0 then nil else take n (rest ())

/-- The items, and then `last` unless some item has the property. -/
def closeUnless (p : α → Bool) (last : List α) : Enumeration α → Enumeration α
  | nil => ofList last
  | cons a rest => cons a fun _ => closeUnless p (if p a then [] else last) (rest ())

/-- Drops an item whose key is the same as that of an earlier item; items without a key all stay. -/
def distinct (key : α → Option β) (same : β → β → Bool) (seen : List β) :
    Enumeration α → Enumeration α
  | nil => nil
  | cons a rest =>
    match key a with
    | none => cons a fun _ => distinct key same seen (rest ())
    | some b =>
      if seen.any (same b) then distinct key same seen (rest ())
      else cons a fun _ => distinct key same (b :: seen) (rest ())

/-- Every choice of one item from each enumeration, the first one outermost. The inner enumerations
are worked out anew for every outer item. -/
def product : List (Unit → Enumeration α) → Enumeration (List α)
  | [] => single []
  | first :: rest => (first ()).flatMap fun a => (product rest).map (a :: ·)

/-- The first `n` items and whether there is one more. -/
def splitAt (n : Nat) (items : Enumeration α) : List α × Bool :=
  match n, items with
  | 0, items => ([], !items.isEmpty)
  | _ + 1, nil => ([], false)
  | n + 1, cons a rest =>
    let (first, more) := splitAt n (rest ())
    (a :: first, more)

/-! ## The items of the results -/

@[simp] theorem toList_nil : (nil : Enumeration α).toList = [] := rfl

@[simp] theorem toList_cons (a : α) (rest : Unit → Enumeration α) :
    (cons a rest).toList = a :: (rest ()).toList := rfl

@[simp] theorem toList_ofList (items : List α) : (ofList items).toList = items := by
  induction items with
  | nil => rfl
  | cons a rest ih => simp [ofList, ih]

@[simp] theorem toList_single (a : α) : (single a).toList = [a] := rfl

theorem mem_toList_single {a b : α} : a ∈ (single b).toList ↔ a = b := List.mem_singleton

@[simp] theorem toList_append (first : Enumeration α) (second : Unit → Enumeration α) :
    (append first second).toList = first.toList ++ (second ()).toList := by
  induction first with
  | nil => rfl
  | cons a rest ih => simp [append, ih]

@[simp] theorem toList_map (f : α → β) (items : Enumeration α) :
    (map f items).toList = items.toList.map f := by
  induction items with
  | nil => rfl
  | cons a rest ih => simp [map, ih]

theorem mem_toList_map {f : α → β} {items : Enumeration α} {b : β} :
    b ∈ (map f items).toList ↔ ∃ a ∈ items.toList, f a = b := by
  rw [toList_map, List.mem_map]

@[simp] theorem toList_filter (p : α → Bool) (items : Enumeration α) :
    (filter p items).toList = items.toList.filter p := by
  induction items with
  | nil => rfl
  | cons a rest ih => by_cases h : p a <;> simp [filter, h, ih]

@[simp] theorem toList_filterMap (f : α → Option β) (items : Enumeration α) :
    (filterMap f items).toList = items.toList.filterMap f := by
  induction items with
  | nil => rfl
  | cons a rest ih => cases h : f a <;> simp [filterMap, h, ih]

@[simp] theorem toList_flatMap (f : α → Enumeration β) (items : Enumeration α) :
    (flatMap f items).toList = items.toList.flatMap fun a => (f a).toList := by
  induction items with
  | nil => rfl
  | cons a rest ih => simp [flatMap, ih]

@[simp] theorem toList_take (n : Nat) (items : Enumeration α) :
    (take n items).toList = items.toList.take n := by
  induction items generalizing n with
  | nil => cases n <;> simp [take]
  | cons a rest ih =>
    cases n with
    | zero => rfl
    | succ n => by_cases h : n = 0 <;> simp [take, h, ih]

@[simp] theorem toList_closeUnless (p : α → Bool) (last : List α) (items : Enumeration α) :
    (closeUnless p last items).toList =
      items.toList ++ if items.toList.any p then [] else last := by
  induction items generalizing last with
  | nil => simp [closeUnless]
  | cons a rest ih => by_cases h : p a <;> simp [closeUnless, h, ih]

@[simp] theorem toList_product_nil :
    (product ([] : List (Unit → Enumeration α))).toList = [[]] := rfl

@[simp] theorem toList_product_cons (first : Unit → Enumeration α)
    (rest : List (Unit → Enumeration α)) :
    (product (first :: rest)).toList =
      (first ()).toList.flatMap fun a => (product rest).toList.map (a :: ·) := by
  simp [product]

/-- A choice takes an item of each enumeration in turn. -/
theorem mem_toList_product_cons {first : Unit → Enumeration α} {rest : List (Unit → Enumeration α)}
    {choice : List α} :
    choice ∈ (product (first :: rest)).toList ↔
      ∃ a ∈ (first ()).toList, ∃ others ∈ (product rest).toList, choice = a :: others := by
  simp [eq_comm]

/-- Nothing is added and the order is kept. -/
theorem toList_distinct_sublist (key : α → Option β) (same : β → β → Bool) (seen : List β)
    (items : Enumeration α) : (distinct key same seen items).toList.Sublist items.toList := by
  induction items generalizing seen with
  | nil => exact List.Sublist.refl _
  | cons a rest ih =>
    cases hk : key a with
    | none => simpa [distinct, hk] using (ih () seen).cons_cons a
    | some b =>
      by_cases hs : seen.any (same b)
      · simpa [distinct, hk, hs] using (ih () seen).cons a
      · simpa [distinct, hk, hs] using (ih () (b :: seen)).cons_cons a

end Enumeration
end DataContract
