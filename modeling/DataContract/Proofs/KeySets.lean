import Mathlib
import DataContract.Combination

/-!
# Sets of keys

The sets of keys that test cases are made from are worked out lazily, as a product of choices: a key
that is fixed has one choice, every other key two. Here they are said as one list.

1. `keySets`: keep a key, or leave it out where it is not fixed. The stream for a row is this list
   (`toList_keyCombinations`).
2. `mem_keySets_iff`, `nodup_keySets`, `length_keySets`: which sets there are, that none comes
   twice, and how many there are. `head?_keySets`, `getLast?_keySets`: the first one and the last
   one.
3. `keyCombinations_exact`: the stream of an empty row, and that of any other.

A repeated key would bring repeated sets, and a set without it that still holds its other
occurrence; so the keys are taken to be distinct, as those of an object or a query are.
-/

namespace DataContract

/-- Whether a key is in every set: it is required, or the row binds it. -/
def Row.fixes (row : Row) (key : String) : Bool := !Key.isOptional key || row.binds (Key.name key)

theorem Row.leavesOpen_eq (row : Row) (key : String) : row.leavesOpen key = !row.fixes key := by
  rw [leavesOpen, fixes, Bool.not_or, Bool.not_not]

-- Powers of natural numbers are those of core, as they are among numbers.
attribute [local instance (high)] instPowNat

/-- Lists that are selections of keys in their order, with the fixed keys in each of them: all that
there are, each once, the smallest one first and the largest one last. -/
structure Selections (fixed : String → Bool) (keys : List String) (sets : List (List String)) :
    Prop where
  mem_iff : ∀ set, set ∈ sets ↔ set.Sublist keys ∧ ∀ key ∈ keys, fixed key = true → key ∈ set
  nodup : sets.Nodup
  length : sets.length = 2 ^ keys.countP fun key => !fixed key
  first : sets.head? = some (keys.filter fixed)
  last : sets.getLast? = some keys

section KeySets

variable {fixed : String → Bool} {keys set : List String} {key : String}

/-! ## 1. The list of sets -/

/-- Every way to leave out keys that are not fixed, the sets without a key before those with it. -/
def keySets (fixed : String → Bool) : List String → List (List String)
  | [] => [[]]
  | key :: rest =>
    if fixed key then (keySets fixed rest).map (key :: ·)
    else keySets fixed rest ++ (keySets fixed rest).map (key :: ·)

theorem toList_keyCombinations {row : Row} (given : row.isEmpty = false) (keys : List String) :
    (keyCombinations keys row).toList = keySets row.fixes keys := by
  rw [keyCombinations, if_neg (by rw [given]; exact Bool.false_ne_true), Enumeration.toList_map]
  induction keys with
  | nil => rfl
  | cons key rest ih =>
    rw [List.map_cons, Enumeration.toList_product_cons, List.map_flatMap, keySets, ← ih,
      row.leavesOpen_eq]
    cases row.fixes key with
    | true => simp [Function.comp_def]
    | false => simp [Function.comp_def]

/-- One key more: it is put in front of a set, or left out where it is not fixed. -/
theorem mem_keySets_cons :
    set ∈ keySets fixed (key :: keys) ↔
      (fixed key = false ∧ set ∈ keySets fixed keys) ∨
        ∃ others ∈ keySets fixed keys, key :: others = set := by
  rw [keySets]
  cases fixed key with
  | true =>
    rw [if_pos rfl, List.mem_map]
    exact (or_iff_right fun left => Bool.noConfusion left.1).symm
  | false =>
    rw [if_neg Bool.false_ne_true, List.mem_append, List.mem_map]
    exact or_congr_left (and_iff_right rfl).symm

/-! ## 2. The sets in it -/

theorem sublist_of_mem_keySets (h : set ∈ keySets fixed keys) : set.Sublist keys := by
  induction keys generalizing set with
  | nil =>
    obtain rfl := List.mem_singleton.mp h
    exact List.Sublist.slnil
  | cons key rest ih =>
    rcases mem_keySets_cons.mp h with ⟨_, without⟩ | ⟨others, within, rfl⟩
    · exact (ih without).cons key
    · exact (ih within).cons_cons key

theorem fixed_mem_of_mem_keySets (h : set ∈ keySets fixed keys) (hk : key ∈ keys)
    (hf : fixed key = true) : key ∈ set := by
  induction keys generalizing set with
  | nil => cases hk
  | cons first rest ih =>
    rcases mem_keySets_cons.mp h with ⟨free, without⟩ | ⟨others, within, rfl⟩
    · rcases List.mem_cons.mp hk with rfl | hr
      · cases free.symm.trans hf
      · exact ih without hr
    · rcases List.mem_cons.mp hk with rfl | hr
      · exact List.mem_cons_self
      · exact List.mem_cons_of_mem _ (ih within hr)

/-- The sets are just the selections that have all fixed keys. -/
theorem mem_keySets_iff (distinct : keys.Nodup) :
    set ∈ keySets fixed keys ↔ set.Sublist keys ∧ ∀ key ∈ keys, fixed key = true → key ∈ set := by
  constructor
  · intro h
    exact ⟨sublist_of_mem_keySets h, fun _ => fixed_mem_of_mem_keySets h⟩
  · rintro ⟨selection, within⟩
    induction selection with
    | slnil => exact List.mem_singleton_self _
    | cons key selection ih =>
      obtain ⟨new, distinct⟩ := List.nodup_cons.mp distinct
      have free : fixed key = false :=
        Bool.eq_false_iff.mpr fun hf => new (selection.subset (within key List.mem_cons_self hf))
      have others := ih distinct fun key hk => within key (List.mem_cons_of_mem _ hk)
      exact mem_keySets_cons.mpr (.inl ⟨free, others⟩)
    | cons_cons key selection ih =>
      obtain ⟨new, distinct⟩ := List.nodup_cons.mp distinct
      refine mem_keySets_cons.mpr (.inr ⟨_, ih distinct fun other hk hf => ?_, rfl⟩)
      rcases List.mem_cons.mp (within other (List.mem_cons_of_mem _ hk) hf) with rfl | hm
      · exact absurd hk new
      · exact hm

theorem nodup_keySets (distinct : keys.Nodup) : (keySets fixed keys).Nodup := by
  induction keys with
  | nil => exact List.nodup_singleton _
  | cons key rest ih =>
    obtain ⟨new, distinct⟩ := List.nodup_cons.mp distinct
    have kept : ((keySets fixed rest).map (key :: ·)).Nodup := (ih distinct).map List.cons_injective
    rw [keySets]
    split
    · exact kept
    · refine List.nodup_append.mpr ⟨ih distinct, kept, ?_⟩
      rintro without hm within hk rfl
      obtain ⟨others, _, rfl⟩ := List.mem_map.mp hk
      exact new ((sublist_of_mem_keySets hm).subset List.mem_cons_self)

/-- Each key that is not fixed doubles their number. -/
theorem length_keySets : (keySets fixed keys).length = 2 ^ keys.countP fun key => !fixed key := by
  induction keys with
  | nil => rfl
  | cons key rest ih =>
    rw [keySets, List.countP_cons]
    cases fixed key with
    | true => rw [if_pos rfl, List.length_map, ih, Bool.not_true,
        if_neg Bool.false_ne_true, Nat.add_zero]
    | false =>
      rw [if_neg Bool.false_ne_true, List.length_append, List.length_map, ih,
        Bool.not_false, if_pos rfl, Nat.pow_succ, Nat.mul_two]

theorem head?_keySets : (keySets fixed keys).head? = some (keys.filter fixed) := by
  induction keys with
  | nil => rfl
  | cons key rest ih =>
    rw [keySets, List.filter_cons]
    split
    · rw [List.head?_map, ih, Option.map_some]
    · rw [List.head?_append, ih, Option.some_or]

theorem getLast?_keySets : (keySets fixed keys).getLast? = some keys := by
  induction keys with
  | nil => rfl
  | cons key rest ih =>
    have kept : ((keySets fixed rest).map (key :: ·)).getLast? = some (key :: rest) := by
      rw [List.getLast?_map, ih, Option.map_some]
    rw [keySets]
    split
    · exact kept
    · rw [List.getLast?_append, kept, Option.some_or]

theorem selections_keySets (distinct : keys.Nodup) :
    Selections fixed keys (keySets fixed keys) where
  mem_iff _ := mem_keySets_iff distinct
  nodup := nodup_keySets distinct
  length := length_keySets
  first := head?_keySets
  last := getLast?_keySets

end KeySets

/-! ## 3. The stream -/

theorem toList_keyCombinations_empty {row : Row} (bare : row.isEmpty = true) (keys : List String) :
    (keyCombinations keys row).toList =
      keys :: if keys.any Key.isOptional
        then [keys.filter fun key => !Key.isOptional key] else [] := by
  have required : (keys.filter fun key => !Key.isOptional key).length = keys.length ↔
      keys.any Key.isOptional = false := by
    rw [List.length_filter_eq_length_iff, List.any_eq_false]
    simp only [Bool.not_eq_true']
    exact forall₂_congr fun _ _ => (Bool.not_eq_true _).symm.to_iff
  rw [keyCombinations, if_pos bare]
  simp only [required]
  cases keys.any Key.isOptional with
  | true => rfl
  | false => rfl

/-- Without an example row there are all keys and, where some key is optional, the required ones
alone. With one there is every selection of the keys that has the required keys and those that the
row binds. -/
theorem keyCombinations_exact {keys : List String} (distinct : keys.Nodup) (row : Row) :
    (row.isEmpty = true → (keyCombinations keys row).toList =
      keys :: if keys.any Key.isOptional
        then [keys.filter fun key => !Key.isOptional key] else []) ∧
    (row.isEmpty = false →
      Selections (fun key => !Key.isOptional key || row.binds (Key.name key)) keys
      (keyCombinations keys row).toList) := by
  refine ⟨fun bare => toList_keyCombinations_empty bare keys, fun given => ?_⟩
  rw [toList_keyCombinations given]
  exact selections_keySets distinct

/-- A key that is required, one that the row binds, and two that are left open. -/
theorem keyCombinations_exact_boundName :
    ["id", "name?", "age?", "tag?"].Nodup ∧
    Row.empty.isEmpty = true ∧
    (keyCombinations ["id", "name?", "age?", "tag?"] .empty).toList =
      [["id", "name?", "age?", "tag?"], ["id"]] ∧
    (Row.empty.bind "name" "Jane").isEmpty = false ∧
    (keyCombinations ["id", "name?", "age?", "tag?"] (Row.empty.bind "name" "Jane")).toList =
      [["id", "name?"], ["id", "name?", "tag?"], ["id", "name?", "age?"],
        ["id", "name?", "age?", "tag?"]] ∧
    Selections (fun key =>
      !Key.isOptional key || (Row.empty.bind "name" "Jane").binds (Key.name key))
      ["id", "name?", "age?", "tag?"]
      (keyCombinations ["id", "name?", "age?", "tag?"] (Row.empty.bind "name" "Jane")).toList := by
  have distinct : ["id", "name?", "age?", "tag?"].Nodup := by decide
  have bare : Row.empty.isEmpty = true := rfl
  have given : (Row.empty.bind "name" "Jane").isEmpty = false := by decide
  refine ⟨distinct, bare, ?_, given, by decide +kernel, (keyCombinations_exact distinct _).2 given⟩
  exact (keyCombinations_exact distinct .empty).1 bare

end DataContract
