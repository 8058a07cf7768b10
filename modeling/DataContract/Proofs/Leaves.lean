import Mathlib
import DataContract.Proofs.Merging

/-!
# The leaves of a failure tree

A report has no tree any more. Segments and messages are gathered on the way down, and what is shown
of a leaf is all that the nodes above it said. The tree itself tells what that has to be: a route
leads from the root to each node without causes, and the leaf has the segments and the messages that
stand along the route.

1. `Failure.routes`: the routes, in tree order. The leaves are read off them, one for each
   (`Failure.leaves_eq_map_routes`).
2. `Failure.underAll`: a failure seen from several levels up. The segments stand before the old path
   of every leaf, the outermost first (`Failure.leaves_underAll`).
3. `Failure.leaves_kept`: hence no leaf is lost, neither by flattening a tree nor by putting trees
   together nor by moving them down.
-/

namespace DataContract

/-- A leaf seen from a place with this path and with these messages above it. -/
def Leaf.below (path messages : List String) (leaf : Leaf) : Leaf :=
  ⟨path ++ leaf.path, messages ++ leaf.messages⟩

/-- What a route says of its last node: the segments of all its nodes in a row, and their messages.
An empty message says nothing. -/
def Leaf.ofRoute (route : List Failure) : Leaf :=
  ⟨route.flatMap (·.path), (route.map (·.message)).filter (· ≠ "")⟩

namespace Failure

/-! ## 1. Routes -/

mutual

/-- The routes from the root to the nodes without causes, in tree order. -/
def routes : Failure → List (List Failure)
  | ⟨message, path, []⟩ => [[⟨message, path, []⟩]]
  | ⟨message, path, first :: rest⟩ =>
    (routes first ++ routesOfAll rest).map (⟨message, path, first :: rest⟩ :: ·)

def routesOfAll : List Failure → List (List Failure)
  | [] => []
  | first :: rest => routes first ++ routesOfAll rest

end

/-- A node before a route puts its own segments and its own message before those of the leaf. -/
theorem below_ofRoute_cons (path messages : List String) (failure : Failure)
    (route : List Failure) :
    Leaf.below path messages (.ofRoute (failure :: route)) =
      Leaf.below (path ++ failure.path)
        (if failure.message = "" then messages else messages ++ [failure.message])
        (.ofRoute route) := by
  by_cases h : failure.message = "" <;> simp [Leaf.below, Leaf.ofRoute, h]

mutual

/-- Wherever a tree stands, its leaves are what its routes say. -/
theorem leavesBelow_eq (path messages : List String) : (failure : Failure) →
    leavesBelow path messages failure =
      failure.routes.map fun route => Leaf.below path messages (.ofRoute route)
  | ⟨message, own, []⟩ => by
    rw [leavesBelow, routes, List.map_singleton, below_ofRoute_cons]
    simp [Leaf.below, Leaf.ofRoute]
  | ⟨message, own, first :: rest⟩ => by
    rw [leavesBelow, routes, List.map_map, leavesBelow_eq _ _ first, leavesOfAll_eq _ _ rest,
      ← List.map_append]
    refine List.map_congr_left fun route _ => ?_
    exact (below_ofRoute_cons path messages ⟨message, own, first :: rest⟩ route).symm

theorem leavesOfAll_eq (path messages : List String) : (failures : List Failure) →
    leavesOfAll path messages failures =
      (routesOfAll failures).map fun route => Leaf.below path messages (.ofRoute route)
  | [] => rfl
  | first :: rest => by
    rw [leavesOfAll, routesOfAll, leavesBelow_eq path messages first,
      leavesOfAll_eq path messages rest, List.map_append]

end

/-- The leaves of a tree are what its routes say, one leaf for each route. -/
theorem leaves_eq_map_routes (failure : Failure) :
    failure.leaves = failure.routes.map Leaf.ofRoute := by
  rw [leaves, leavesBelow_eq]
  rfl

/-! ## 2. From several levels up -/

/-- A failure seen from several levels up, the innermost segment first. -/
def underAll (segments : List String) (failure : Failure) : Failure :=
  segments.foldl (fun done segment => done.under segment) failure

/-- From several levels up, all segments stand before the path of every leaf. -/
theorem leaves_underAll {segments : List String} (nonempty : ∀ segment ∈ segments, segment ≠ "")
    (failure : Failure) :
    (failure.underAll segments).leaves = failure.leaves.map (Leaf.below segments.reverse []) := by
  induction segments generalizing failure with
  | nil => exact (List.map_id' _).symm
  | cons segment segments ih =>
    obtain ⟨own, others⟩ := List.forall_mem_cons.mp nonempty
    have step : (failure.underAll (segment :: segments)) =
        (failure.under segment).underAll segments :=
      rfl
    rw [step, ih others, leaves_under, List.map_map]
    refine List.map_congr_left fun leaf _ => ?_
    simp [Leaf.below, Leaf.under, own]

/-! ## 3. Nothing is lost -/

theorem entries_eq_map_leaves (failure : Failure) :
    failure.entries = failure.leaves.map Report.Entry.ofLeaf := rfl

/-- Failures put together have the entries of each of them, one after the other. -/
theorem entries_all {failures : List Failure} (some : failures ≠ []) :
    (all failures).entries = failures.flatMap entries := by
  rw [entries_eq_map_leaves, leaves_all some, List.map_flatMap]
  rfl

/-- Flattening keeps every leaf: one for each route through the tree, with the segments and messages
along it. Trees that are put together keep theirs in order, and from several levels up each leaf has
the same messages as before and the segments before its old path. -/
theorem leaves_kept {failures : List Failure} (some : failures ≠ []) {segments : List String}
    (nonempty : ∀ segment ∈ segments, segment ≠ "") (failure : Failure) :
    failure.leaves = failure.routes.map Leaf.ofRoute ∧
      (all failures).entries = failures.flatMap entries ∧
      (failure.underAll segments).entries.map (·.messages) = failure.entries.map (·.messages) ∧
      (failure.underAll segments).leaves =
        failure.leaves.map (fun leaf => ⟨segments.reverse ++ leaf.path, leaf.messages⟩) := by
  have moved := leaves_underAll nonempty failure
  refine ⟨leaves_eq_map_routes failure, entries_all some, ?_, moved⟩
  rw [entries_eq_map_leaves, entries_eq_map_leaves, moved, List.map_map, List.map_map, List.map_map]
  rfl

/-- A body with two faults behind a message of its own, and a bad header. -/
def brokenResponse : List Failure :=
  [.under "BODY" (.because "Could not generate"
    (.all [.under "[0]" (.plain "cycle"), .under "name" (.plain "missing")])),
    .under "Header1" (.plain "bad header")]

/-- Three leaves of two trees, two levels further down. -/
theorem leaves_kept_brokenResponse :
    brokenResponse ≠ [] ∧ (∀ segment ∈ ["[2]", "RESPONSES"], segment ≠ "") ∧
      (all brokenResponse).entries =
        [⟨"BODY[0]", ["Could not generate", "cycle"]⟩,
          ⟨"BODY.name", ["Could not generate", "missing"]⟩, ⟨"Header1", ["bad header"]⟩] ∧
      ((all brokenResponse).underAll ["[2]", "RESPONSES"]).leaves =
        [⟨["RESPONSES", "[2]", "BODY", "[0]"], ["Could not generate", "cycle"]⟩,
          ⟨["RESPONSES", "[2]", "BODY", "name"], ["Could not generate", "missing"]⟩,
          ⟨["RESPONSES", "[2]", "Header1"], ["bad header"]⟩] := by
  have some : brokenResponse ≠ [] := List.cons_ne_nil _ _
  have nonempty : ∀ segment ∈ ["[2]", "RESPONSES"], segment ≠ "" := by decide
  obtain ⟨_, entries, _, moved⟩ := leaves_kept some nonempty (all brokenResponse)
  exact ⟨some, nonempty, entries.trans (by decide +kernel), moved.trans (by decide +kernel)⟩

end Failure
end DataContract
