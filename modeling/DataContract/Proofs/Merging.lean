import Mathlib
import DataContract.Outcome
import DataContract.Report

/-!
# What many outcomes come to

A fold of outcomes goes through three states: a value so far, a tree of failures so far, and a
crash. `Outcome.Merged` says of the whole list of parts what comes out in the end, without the order
of the merges and without the shape of the failure tree.

1. `Failure.leaves_all`: merging failures puts their leaves one after the other;
   `Failure.leaves_under`: from one level up, they stand one segment further down.
2. `Outcome.Merged.snoc`: one more part keeps the relation, hence a whole fold has it
   (`Outcome.foldl_merged`).
3. `Outcome.foldList_merged`, `Outcome.foldFields_merged`: lists of outcomes, and outcomes under
   distinct keys.
4. `Outcome.folds_collect`: what that means for a reader of the whole. The first crash is the whole;
   without one the report has the entries of all failed parts; without a failure the value has
   everything that the parts have.
-/

namespace DataContract

/-! ## 1. Leaves -/

/-- The leaves of several failures stand one after the other. -/
theorem Failure.leaves_all {failures : List Failure} (h : failures ≠ []) :
    (all failures).leaves = failures.flatMap leaves := by
  match failures, h with
  | [failure], _ => simp [all]
  | first :: second :: rest, _ =>
    show leavesBelow [] [] ⟨"", [], first :: second :: rest⟩ = _
    rw [leavesBelow, List.flatMap_cons]
    simp only [if_true, List.append_nil, leavesOfAll_eq_flatMap]
    rfl

/-- A leaf seen from one level up. An empty segment adds nothing. -/
def Leaf.under (segment : String) (leaf : Leaf) : Leaf :=
  if segment = "" then leaf else { leaf with path := segment :: leaf.path }

namespace Failure

mutual

theorem leavesBelow_cons {segment : String} (h : segment ≠ "") (path messages : List String) :
    (failure : Failure) → leavesBelow (segment :: path) messages failure =
      (leavesBelow path messages failure).map (Leaf.under segment)
  | ⟨message, own, []⟩ => by
    rw [leavesBelow, leavesBelow, List.map_singleton, Leaf.under, if_neg h, List.cons_append]
  | ⟨message, own, first :: rest⟩ => by
    rw [leavesBelow, leavesBelow, List.cons_append, leavesBelow_cons h _ _ first,
      leavesOfAll_cons h _ _ rest, List.map_append]

theorem leavesOfAll_cons {segment : String} (h : segment ≠ "") (path messages : List String) :
    (failures : List Failure) → leavesOfAll (segment :: path) messages failures =
      (leavesOfAll path messages failures).map (Leaf.under segment)
  | [] => by rw [leavesOfAll, leavesOfAll, List.map_nil]
  | first :: rest => by
    rw [leavesOfAll, leavesOfAll, leavesBelow_cons h path messages first,
      leavesOfAll_cons h path messages rest, List.map_append]

end

/-- From one level up, every leaf stands one segment further down. -/
theorem leaves_under (segment : String) (failure : Failure) :
    (failure.under segment).leaves = failure.leaves.map (Leaf.under segment) := by
  by_cases h : segment = ""
  · subst h
    exact (List.map_id' _).symm
  · rw [leaves, leaves, ← leavesBelow_cons h, under, if_neg h]
    obtain ⟨message, own, _ | ⟨first, rest⟩⟩ := failure
    · rw [leavesBelow, leavesBelow, List.nil_append, List.singleton_append]
    · rw [leavesBelow, leavesBelow, List.nil_append, List.singleton_append]

end Failure

namespace Outcome

variable {α β κ : Type}

/-- The notes on a value. -/
def notes : Outcome α → List Note
  | value _ notes => notes
  | _ => []

/-- The leaves of a failure. -/
def leaves : Outcome α → List Leaf
  | failed failure => failure.leaves
  | _ => []

def isCrash : Outcome α → Bool
  | crashed _ _ _ => true
  | _ => false

theorem leaves_under (segment : String) (outcome : Outcome α) :
    (outcome.under segment).leaves = outcome.leaves.map (Leaf.under segment) := by
  cases outcome with
  | value content notes => rfl
  | failed failure => exact Failure.leaves_under segment failure
  | crashed error message path => rfl

/-- From one level up, a value has a note of the level. -/
theorem notes_under {outcome : Outcome α} {a : α} (valued : outcome.value? = some a)
    (segment : String) : (outcome.under segment).notes = outcome.notes ++ [⟨[""], [segment]⟩] := by
  cases outcome with
  | value content notes => rfl
  | failed _ => cases valued
  | crashed _ _ _ => cases valued

theorem isCrash_under (segment : String) (outcome : Outcome α) :
    (outcome.under segment).isCrash = outcome.isCrash := by
  cases outcome <;> rfl

/-! ## 2. Folds -/

/-- What parts come to: the value built from theirs, with all notes, when all have one; otherwise
the first crash, or a failure with the leaves of exactly the failed parts, in order. -/
inductive Merged (parts : List (Outcome α)) (build : List α → β) : Outcome β → Prop
  | value {contents : List α} : parts.map value? = contents.map some →
      Merged parts build (.value (build contents) (parts.flatMap notes))
  | failed {failure : Failure} : (∀ part ∈ parts, part.isCrash = false) →
      (∃ cause, .failed cause ∈ parts) → failure.leaves = parts.flatMap leaves →
      Merged parts build (.failed failure)
  | crashed {before after : List (Outcome α)} {error message path : String} :
      parts = before ++ .crashed error message path :: after →
      (∀ part ∈ before, part.isCrash = false) → Merged parts build (.crashed error message path)

section Values

variable {parts : List (Outcome α)} {contents : List α}

theorem exists_value (h : parts.map value? = contents.map some) {part : Outcome α}
    (hp : part ∈ parts) : ∃ content, part.value? = some content := by
  have listed : part.value? ∈ contents.map some := h ▸ List.mem_map_of_mem hp
  obtain ⟨content, _, same⟩ := List.mem_map.mp listed
  exact ⟨content, same.symm⟩

theorem not_isCrash_of_values (h : parts.map value? = contents.map some) :
    ∀ part ∈ parts, part.isCrash = false := by
  intro part hp
  obtain ⟨content, hv⟩ := exists_value h hp
  cases part with
  | value _ _ => rfl
  | failed _ => cases hv
  | crashed _ _ _ => cases hv

theorem leaves_of_values (h : parts.map value? = contents.map some) :
    parts.flatMap leaves = [] := by
  rw [List.flatMap_eq_nil_iff]
  intro part hp
  obtain ⟨content, hv⟩ := exists_value h hp
  cases part with
  | value _ _ => rfl
  | failed _ => cases hv
  | crashed _ _ _ => cases hv

end Values

/-- One more part. -/
theorem Merged.snoc {parts : List (Outcome α)} {build : List α → β} {done : Outcome β}
    {put : β → α → β} (h : Merged parts build done)
    (puts : ∀ contents a, contents.length = parts.length →
      put (build contents) a = build (contents ++ [a])) (part : Outcome α) :
    Merged (parts ++ [part]) build (combine put done part) := by
  have noCrash (before : ∀ other ∈ parts, other.isCrash = false) (own : part.isCrash = false) :
      ∀ other ∈ parts ++ [part], other.isCrash = false := by
    intro other ho
    rcases List.mem_append.mp ho with ho | ho
    · exact before other ho
    · exact List.mem_singleton.mp ho ▸ own
  cases h with
  | @value contents valued =>
    have free := not_isCrash_of_values valued
    cases part with
    | value a more =>
      have length : contents.length = parts.length := by
        simpa using (congrArg List.length valued).symm
      have all : (parts ++ [Outcome.value a more]).map value? = (contents ++ [a]).map some := by
        rw [List.map_append, List.map_append, valued]
        rfl
      have notes : (parts ++ [Outcome.value a more]).flatMap notes =
          parts.flatMap notes ++ more := by
        simp [Outcome.notes]
      rw [combine, puts contents a length, ← notes]
      exact .value all
    | failed cause =>
      refine .failed (noCrash free rfl) ⟨cause, by simp⟩ ?_
      rw [List.flatMap_append, leaves_of_values valued]
      simp [leaves]
    | crashed error message path => exact .crashed rfl free
  | failed free some leaves =>
    obtain ⟨cause, listed⟩ := some
    cases part with
    | value a more =>
      refine .failed (noCrash free rfl) ⟨cause, List.mem_append_left _ listed⟩ ?_
      rw [leaves]
      simp [Outcome.leaves]
    | failed own =>
      refine .failed (noCrash free rfl) ⟨cause, List.mem_append_left _ listed⟩ ?_
      rw [Failure.leaves_all (by simp)]
      simp [leaves, Outcome.leaves]
    | crashed error message path => exact .crashed rfl free
  | @crashed before after error message path split free =>
    subst split
    have still : combine put (.crashed error message path) part = .crashed error message path := by
      cases part <;> rfl
    rw [still]
    have split : before ++ .crashed error message path :: after ++ [part] =
        before ++ .crashed error message path :: (after ++ [part]) := by simp
    exact .crashed split free

/-- A fold over parts that come behind others, by one step for each of them. -/
theorem foldl_merged (put : κ → β → α → β) {build : List α → β}
    (before : List (κ × Outcome α)) {entries : List (κ × Outcome α)} {done : Outcome β}
    (h : Merged (before.map (·.2)) build done)
    (puts : ∀ first key part rest, before ++ entries = first ++ (key, part) :: rest →
      ∀ contents a, contents.length = first.length →
        put key (build contents) a = build (contents ++ [a])) :
    Merged ((before ++ entries).map (·.2)) build
      (entries.foldl (fun done entry => combine (put entry.1) done entry.2) done) := by
  induction entries generalizing before done with
  | nil => rwa [List.append_nil]
  | cons entry rest ih =>
    obtain ⟨key, part⟩ := entry
    have step :
        Merged ((before ++ [(key, part)]).map (·.2)) build (combine (put key) done part) := by
      rw [List.map_append]
      refine h.snoc (fun contents a length => ?_) part
      rw [List.length_map] at length
      exact puts before key part rest rfl contents a length
    have shape : before ++ (key, part) :: rest = before ++ [(key, part)] ++ rest := by simp
    rw [shape]
    exact ih _ step (fun first key part more split => puts first key part more (shape.trans split))

/-! ## 3. Lists and named outcomes -/

theorem merged_nil {build : List α → β} {start : β} (h : build [] = start) :
    Merged ([] : List (Outcome α)) build (pure start) := by
  rw [pure, ← h]
  have valued : ([] : List (Outcome α)).map value? = ([] : List α).map some := rfl
  exact .value valued

/-- Outcomes in a row come to the list of their values. -/
theorem foldList_merged (items : List (Outcome α)) : Merged items id (foldList items) := by
  have keyless : (items.map fun item => ((), item)).map (·.2) = items := by
    rw [List.map_map]
    exact List.map_id items
  have start : Merged (([] : List (Unit × Outcome α)).map (·.2)) id (pure []) := merged_nil rfl
  have puts : ∀ first key part rest,
      [] ++ items.map (fun item => ((), item)) = first ++ (key, part) :: rest →
      ∀ contents (a : α), contents.length = first.length →
        id contents ++ [a] = id (contents ++ [a]) := fun _ _ _ _ _ _ _ _ => rfl
  have steps := foldl_merged (fun _ done item => done ++ [item]) [] start puts
  rw [List.nil_append, keyless, List.foldl_map] at steps
  exact steps

/-- Named outcomes come to the fields under the same names. -/
theorem foldFields_merged [DecidableEq κ] {entries : List (κ × Outcome α)}
    (distinct : (Fields.names entries).Nodup) :
    Merged (entries.map (·.2)) (fun contents => (Fields.names entries).zip contents)
      (foldFields entries) := by
  refine foldl_merged (fun name fields item => Fields.put name item fields) []
    (merged_nil List.zip_nil_right) ?_
  intro first name part rest split contents a length
  rw [List.nil_append] at split
  have names : Fields.names entries = Fields.names first ++ name :: Fields.names rest := by
    rw [split]
    simp [Fields.names]
  have length : (Fields.names first).length = contents.length := by
    rw [length, Fields.names, List.length_map]
  have new : name ∉ Fields.names ((Fields.names first).zip contents) := by
    intro known
    rw [Fields.names, List.map_fst_zip (Nat.le_of_eq length)] at known
    rw [names] at distinct
    exact (List.nodup_append.mp distinct).2.2 name known name List.mem_cons_self rfl
  have short : (Fields.names entries).zip contents = (Fields.names first).zip contents := by
    have := @List.zip_append _ _ (Fields.names first) (name :: Fields.names rest) contents [] length
    rwa [List.append_nil, List.zip_nil_right, List.append_nil, ← names] at this
  show Fields.put name a ((Fields.names entries).zip contents) =
    (Fields.names entries).zip (contents ++ [a])
  rw [short, Fields.put_of_new new, names, List.zip_append length, List.zip_cons_cons,
    List.zip_nil_right]

/-! ## 4. The whole -/

/-- What a report on an outcome says. -/
def entries : Outcome α → List Report.Entry
  | failed failure => failure.entries
  | _ => []

theorem entries_eq (outcome : Outcome α) :
    outcome.entries = outcome.leaves.map Report.Entry.ofLeaf := by
  cases outcome <;> rfl

/-- A whole keeps what its parts have. Which of the three clauses applies depends on the parts
only. -/
structure Collects (parts : List (Outcome α)) (build : List α → β) (whole : Outcome β) : Prop where
  /-- The first crash, with its context as it was. -/
  crash {error message path : String} :
    parts.find? isCrash = some (.crashed error message path) → whole = .crashed error message path
  /-- A failure with the entries of every failed part, in order. -/
  failure : (∀ part ∈ parts, part.isCrash = false) → (∃ cause, .failed cause ∈ parts) →
    ∃ failure, whole = .failed failure ∧ failure.entries = parts.flatMap entries
  /-- All values and all notes, in order. -/
  value : (∀ part ∈ parts, part.isCrash = false) → (∀ cause, .failed cause ∉ parts) →
    ∃ contents, parts.map value? = contents.map some ∧
      whole = .value (build contents) (parts.flatMap notes)

theorem Merged.collects {parts : List (Outcome α)} {build : List α → β} {whole : Outcome β}
    (h : Merged parts build whole) : Collects parts build whole := by
  cases h with
  | @value contents valued =>
    have free := not_isCrash_of_values valued
    refine ⟨fun first => ?_, fun _ failed => ?_, fun _ _ => ⟨contents, valued, rfl⟩⟩
    · cases free _ (List.mem_of_find?_eq_some first)
    · obtain ⟨cause, listed⟩ := failed
      obtain ⟨content, none⟩ := exists_value valued listed
      cases none
  | @failed failure free failed leaves =>
    refine ⟨fun first => ?_, fun _ _ => ⟨failure, rfl, ?_⟩, fun _ unfailed => ?_⟩
    · cases free _ (List.mem_of_find?_eq_some first)
    · rw [Failure.entries, Report.ofFailure, leaves, List.map_flatMap]
      exact List.flatMap_congr fun part _ => (entries_eq part).symm
    · obtain ⟨cause, listed⟩ := failed
      exact absurd listed (unfailed cause)
  | @crashed before after error message path split free =>
    have listed : .crashed error message path ∈ parts :=
      split ▸ List.mem_append_right _ List.mem_cons_self
    refine ⟨fun first => ?_, fun free => ?_, fun free => ?_⟩
    · have found : parts.find? isCrash = some (.crashed error message path) :=
        List.find?_eq_some_iff_append.mpr
          ⟨rfl, before, after, split, fun part hp => by rw [free part hp]; rfl⟩
      cases found.symm.trans first
      rfl
    · cases free _ listed
    · cases free _ listed

/-- A fold loses nothing, be it over a list or over outcomes under distinct keys, which keep their
order. -/
theorem folds_collect [DecidableEq κ] (items : List (Outcome α)) {fields : List (κ × Outcome α)}
    (distinct : (Fields.names fields).Nodup) :
    Collects items id (foldList items) ∧
      Collects (fields.map (·.2)) (fun contents => (Fields.names fields).zip contents)
        (foldFields fields) :=
  ⟨(foldList_merged items).collects, (foldFields_merged distinct).collects⟩

/-- Two failures around a value: the report has both, and the value is gone. -/
theorem folds_collect_brokenPair :
    (Fields.names [(1, Outcome.failed (.under "a" (.plain "left"))), (2, pure true),
        (3, .failed (.under "b" (.plain "right")))]).Nodup ∧
      ∃ failure, foldFields [(1, Outcome.failed (.under "a" (.plain "left"))), (2, pure true),
          (3, .failed (.under "b" (.plain "right")))] = .failed failure ∧
        failure.entries = [⟨"a", ["left"]⟩, ⟨"b", ["right"]⟩] := by
  have distinct : (Fields.names [(1, Outcome.failed (.under "a" (.plain "left"))), (2, pure true),
      (3, .failed (.under "b" (.plain "right")))]).Nodup := by decide
  obtain ⟨failure, whole, entries⟩ := (folds_collect [] distinct).2.failure
    (by simp [isCrash, pure]) ⟨_, List.mem_cons_self⟩
  exact ⟨distinct, failure, whole, entries.trans (by decide +kernel)⟩

end Outcome
end DataContract
