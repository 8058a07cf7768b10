/-!
# Fields in order

Named entries that keep their order. Putting a name that is there already replaces its value and
keeps its place; a new name goes to the end.
-/

namespace DataContract

/-- Named entries in order. -/
abbrev Fields (α : Type) := List (String × α)

namespace Fields

variable {α β κ : Type}

/-- The value under a name. -/
def find? (name : String) : Fields α → Option α
  | [] => none
  | (key, value) :: rest => if key = name then some value else find? name rest

/-- The entries with a value put under a name. A key need not be a text. -/
def put [DecidableEq κ] (name : κ) (value : α) : List (κ × α) → List (κ × α)
  | [] => [(name, value)]
  | (key, old) :: rest =>
    if key = name then (key, value) :: rest else (key, old) :: put name value rest

/-- The entries that a list of pairs gives, put one after the other. -/
def ofList (pairs : List (String × α)) : Fields α :=
  pairs.foldl (fun fields pair => put pair.1 pair.2 fields) []

/-- The names in order. -/
def names (fields : List (κ × α)) : List κ := fields.map (·.1)

/-- Puts an entry before the first one with a greater name. -/
def insertSorted (entry : String × α) : Fields α → Fields α
  | [] => [entry]
  | first :: rest =>
    if entry.1 < first.1 then entry :: first :: rest else first :: insertSorted entry rest

/-- The entries by ascending name. -/
def sorted (fields : Fields α) : Fields α :=
  fields.foldl (fun done entry => insertSorted entry done) []

theorem find?_put (name other : String) (value : α) (fields : Fields α) :
    find? other (put name value fields) =
      if other = name then some value else find? other fields := by
  induction fields with
  | nil =>
    by_cases h : other = name
    · simp [put, find?, h]
    · simp [put, find?, h, Ne.symm h]
  | cons entry rest ih =>
    obtain ⟨key, old⟩ := entry
    by_cases hk : key = name
    · subst hk
      by_cases h : other = key
      · simp [put, find?, h]
      · simp [put, find?, h, Ne.symm h]
    · by_cases h : key = other
      · subst h
        simp [put, find?, hk]
      · simp [put, find?, hk, h, ih]

theorem names_put (name : String) (value : α) (fields : Fields α) :
    names (put name value fields) =
      if name ∈ names fields then names fields else names fields ++ [name] := by
  induction fields with
  | nil => simp [put, names]
  | cons entry rest ih =>
    obtain ⟨key, old⟩ := entry
    by_cases hk : key = name
    · simp [put, names, hk]
    · have hn : ¬name = key := fun h => hk h.symm
      simp only [names] at ih
      simp only [put, names, hk, hn, if_false, List.map_cons, List.mem_cons, false_or, ih]
      by_cases hm : name ∈ List.map (·.1) rest <;> simp [hm]

theorem mem_put {name : String} {value : α} {fields : Fields α} {entry : String × α}
    (h : entry ∈ put name value fields) : entry = (name, value) ∨ entry ∈ fields := by
  induction fields with
  | nil => exact .inl (List.mem_singleton.mp h)
  | cons first rest ih =>
    obtain ⟨key, old⟩ := first
    unfold put at h
    split at h
    · next same =>
      rcases List.mem_cons.mp h with rfl | hr
      · exact .inl (by rw [same])
      · exact .inr (List.mem_cons_of_mem _ hr)
    · rcases List.mem_cons.mp h with rfl | hr
      · exact .inr List.mem_cons_self
      · exact (ih hr).imp_right (List.mem_cons_of_mem _)

theorem mem_of_mem_ofList {pairs : List (String × α)} {entry : String × α}
    (h : entry ∈ ofList pairs) : entry ∈ pairs := by
  have from_put (pairs : List (String × α)) (done : Fields α)
      (h : entry ∈ pairs.foldl (fun fields pair => put pair.1 pair.2 fields) done) :
      entry ∈ done ∨ entry ∈ pairs := by
    induction pairs generalizing done with
    | nil => exact .inl h
    | cons pair rest ih =>
      rcases ih _ h with hd | hr
      · exact (mem_put hd).elim (fun same => .inr (same ▸ List.mem_cons_self)) .inl
      · exact .inr (List.mem_cons_of_mem _ hr)
  exact (from_put pairs [] h).resolve_left (nomatch ·)

/-- A new name goes to the end. -/
theorem put_of_new [DecidableEq κ] {name : κ} {value : α} {fields : List (κ × α)}
    (h : name ∉ names fields) :
    put name value fields = fields ++ [(name, value)] := by
  induction fields with
  | nil => rfl
  | cons entry rest ih =>
    obtain ⟨key, old⟩ := entry
    have hk : ¬key = name := fun same => h (same ▸ List.mem_cons_self)
    have hr : name ∉ names rest := fun hm => h (List.mem_cons_of_mem _ hm)
    rw [put, if_neg hk, ih hr, List.cons_append]

/-- Pairs with distinct names are fields as they stand. -/
theorem ofList_of_nodup {pairs : List (String × α)} (h : (names pairs).Nodup) :
    ofList pairs = pairs := by
  have behind (before pairs : List (String × α)) (h : (names (before ++ pairs)).Nodup) :
      pairs.foldl (fun fields pair => put pair.1 pair.2 fields) before = before ++ pairs := by
    induction pairs generalizing before with
    | nil => exact (List.append_nil before).symm
    | cons pair rest ih =>
      have shape : before ++ pair :: rest = before ++ [pair] ++ rest := by simp
      have new : pair.1 ∉ names before := by
        intro known
        rw [names, List.map_append] at h
        exact (List.nodup_append.mp h).2.2 pair.1 known pair.1 List.mem_cons_self rfl
      rw [List.foldl_cons, put_of_new new, shape]
      exact ih _ (shape ▸ h)
  exact behind [] pairs h

theorem mem_names_put {name other : String} {value : α} {fields : Fields α} :
    other ∈ names (put name value fields) ↔ other = name ∨ other ∈ names fields := by
  rw [names_put]
  split
  · exact ⟨.inr, fun h => h.elim (fun same => same ▸ ‹_›) id⟩
  · rw [List.mem_append, List.mem_singleton, or_comm]

/-- Putting pairs one after the other gives their names. -/
theorem mem_names_ofList {pairs : List (String × α)} {name : String} :
    name ∈ names (ofList pairs) ↔ name ∈ pairs.map (·.1) := by
  have behind (pairs : List (String × α)) (done : Fields α) :
      name ∈ names (pairs.foldl (fun fields pair => put pair.1 pair.2 fields) done) ↔
        name ∈ names done ∨ name ∈ pairs.map (·.1) := by
    induction pairs generalizing done with
    | nil => simp
    | cons pair rest ih =>
      rw [List.foldl_cons, ih, mem_names_put, List.map_cons, List.mem_cons]
      exact or_assoc.trans or_left_comm
  exact (behind pairs []).trans (or_iff_right (List.not_mem_nil (a := name)))

theorem nodup_names_put {name : String} {value : α} {fields : Fields α} (h : (names fields).Nodup) :
    (names (put name value fields)).Nodup := by
  rw [names_put]
  split
  · exact h
  · next new =>
    refine List.nodup_append.mpr ⟨h, by simp, ?_⟩
    rintro a ha b hb rfl
    exact new (List.mem_singleton.mp hb ▸ ha)

theorem mem_of_find? {name : String} {value : α} {fields : Fields α}
    (h : find? name fields = some value) : (name, value) ∈ fields := by
  induction fields with
  | nil => cases h
  | cons entry rest ih =>
    obtain ⟨key, old⟩ := entry
    by_cases hk : key = name
    · simp only [find?, hk, if_true, Option.some.injEq] at h
      simp [hk, h]
    · simp only [find?, hk, if_false] at h
      exact List.mem_cons_of_mem _ (ih h)

theorem mem_names_of_find? {name : String} {value : α} {fields : Fields α}
    (h : find? name fields = some value) : name ∈ names fields :=
  List.mem_map_of_mem (mem_of_find? h)

theorem exists_find?_of_mem_names {name : String} {fields : Fields α} (h : name ∈ names fields) :
    ∃ value, find? name fields = some value := by
  induction fields with
  | nil => cases h
  | cons entry rest ih =>
    obtain ⟨key, old⟩ := entry
    by_cases hk : key = name
    · exact ⟨old, by simp [find?, hk]⟩
    · have hr : name ∈ names rest := by
        simpa [names, Ne.symm hk] using h
      obtain ⟨value, hv⟩ := ih hr
      exact ⟨value, by simp [find?, hk, hv]⟩

/-- Where names are distinct, every entry is the one that is found. -/
theorem find?_of_mem {name : String} {value : α} {fields : Fields α} (hd : (names fields).Nodup)
    (h : (name, value) ∈ fields) : find? name fields = some value := by
  induction fields with
  | nil => cases h
  | cons entry rest ih =>
    obtain ⟨key, old⟩ := entry
    obtain ⟨hk, hr⟩ := List.nodup_cons.mp hd
    rcases List.mem_cons.mp h with heq | hm
    · simp only [Prod.mk.injEq] at heq
      simp [find?, heq.1, heq.2]
    · have hne : key ≠ name := fun heq => hk (heq ▸ List.mem_map_of_mem (f := (·.1)) hm)
      simp [find?, hne, ih hr hm]

end Fields
end DataContract
