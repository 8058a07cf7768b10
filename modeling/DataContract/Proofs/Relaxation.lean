import Mathlib
import DataContract.Proofs.Decision

/-!
# Fewer problems with keys

A policy may leave missing keys, unexpected keys or both out of a report. It then accepts no less
than before at every object that a check or a comparison comes to, because nothing is ever accepted
for a problem that it has. A union is no exception. It may be content with an earlier alternative
than before, but what was good enough for it still is.

1. `KeyPolicy.Relaxes`: a policy that reports no more than another one.
2. `Schema.Accepts.relaxed`: what is accepted stays accepted.
3. `Schema.Covered.relaxed`: what covers a schema still covers it, the values of literals included.
4. `Schema.relaxing_widens`: the two for checks and comparisons.
-/

namespace DataContract

/-- Every problem that the weaker policy reports is reported by the stricter one. -/
structure KeyPolicy.Relaxes (weaker stricter : KeyPolicy) : Prop where
  missing : weaker.missing = true → stricter.missing = true
  unexpected : weaker.unexpected = true → stricter.unexpected = true

theorem KeyPolicy.Relaxes.allows {weaker stricter : KeyPolicy} (relaxed : weaker.Relaxes stricter)
    {declared actual : List String} (h : stricter.Allows declared actual) :
    weaker.Allows declared actual :=
  ⟨fun reported => h.present (relaxed.missing reported),
    fun reported => h.expected (relaxed.unexpected reported)⟩

namespace Schema

variable {weaker stricter : KeyPolicy}

/-- What is accepted under a policy is accepted under a weaker one. -/
theorem Accepts.relaxed (relaxed : weaker.Relaxes stricter) {registry : Registry} {schema : Schema}
    {value : Value} (h : Accepts registry stricter schema value) :
    Accepts registry weaker schema value := by
  induction h with
  | string inside => exact .string inside
  | number inside => exact .number inside
  | boolean => exact .boolean
  | null => exact .null
  | literal same => exact .literal same
  | reference found _ ih => exact .reference found ih
  | object allowed _ ih => exact .object (relaxed.allows allowed) ih
  | list _ ih => exact .list ih
  | union hm _ ih => exact .union hm ih

variable {this other : Context}

/-- A derivation of a comparison is one under a weaker policy of the container as well. The policy
of the candidate is never asked for. -/
theorem Covered.relaxed (guarded : this.registry.Guarded) (relaxed : weaker.Relaxes this.keyPolicy)
    {stack : List (String × String)} {p q : Schema} (h : Covered this other stack p q) :
    Covered { this with keyPolicy := weaker } other stack p q := by
  induction h with
  | seen refers seen => exact .seen refers seen
  | follow refers hp hq _ ih => exact .follow refers hp hq ih
  | choose container free chosen _ ih => exact .choose container free chosen ih
  | each free single _ ih => exact .each free single ih
  | literal accepted =>
    have fits := (accepts_iff guarded).mp accepted
    exact .literal ((@accepts_iff { this with keyPolicy := weaker } guarded _ _).mpr
      (fits.relaxed relaxed))
  | string inside => exact .string inside
  | number inside => exact .number inside
  | boolean => exact .boolean
  | null => exact .null
  | object _ required declared ih =>
    exact .object ih required fun reported => declared (relaxed.unexpected reported)
  | list _ ih => exact .list ih

/-- Under a weaker policy every value that was accepted is accepted, and every schema that was
covered is covered. -/
theorem relaxing_widens (guarded : this.registry.Guarded)
    (relaxed : weaker.Relaxes this.keyPolicy) :
    (∀ schema value, Accepting (check this schema value) →
      Accepting (check { this with keyPolicy := weaker } schema value)) ∧
    ∀ other container candidate, Accepting (covers this other container candidate) →
      Accepting (covers { this with keyPolicy := weaker } other container candidate) := by
  constructor
  · intro schema value ⟨verdict, checked, accepted⟩
    have fits := ((isAccepted_checkWithin_iff checked).mp accepted).relaxed relaxed
    obtain ⟨verdict', checked'⟩ := Option.isSome_iff_exists.mp
      (@check_isSome { this with keyPolicy := weaker } guarded schema value)
    exact ⟨verdict', checked', (isAccepted_checkWithin_iff checked').mpr fits⟩
  · intro other container candidate covered
    have derived := (coversWithin_covered covered).relaxed guarded relaxed
    obtain ⟨verdict, compared⟩ := Option.isSome_iff_exists.mp
      (@covers_isSome { this with keyPolicy := weaker } other container candidate
        (literalsSettle_of_guarded guarded))
    exact ⟨verdict, compared, derived.isAccepted compared⟩

end Schema

/-- Nodes whose missing and unexpected keys are tolerated. -/
def lenientNodes : Context := { Context.ofRegistry linkedNodes with keyPolicy := ⟨false, false⟩ }

/-- Two nodes in a row fit, and a link covers a node, before and after all keys are tolerated. -/
theorem relaxing_widens_linkedNodes :
    linkedNodes.Guarded ∧ lenientNodes.keyPolicy.Relaxes .strict ∧
    Accepting (Schema.check (.ofRegistry linkedNodes) (.named "Node")
      (.object [("value", .integer 1),
        ("next", .object [("value", .integer 2), ("next", .null)])])) ∧
    Accepting (Schema.check lenientNodes (.named "Node")
      (.object [("value", .integer 1),
        ("next", .object [("value", .integer 2), ("next", .null)])])) ∧
    Accepting (Schema.covers (.ofRegistry linkedNodes) (.ofRegistry linkedNodes) (.named "Link")
      (.named "Node")) ∧
    Accepting (Schema.covers lenientNodes (.ofRegistry linkedNodes) (.named "Link")
        (.named "Node")) := by
  have relaxed : lenientNodes.keyPolicy.Relaxes (Context.ofRegistry linkedNodes).keyPolicy :=
    ⟨fun _ => rfl, fun _ => rfl⟩
  obtain ⟨checks, comparisons⟩ :=
    @Schema.relaxing_widens _ (.ofRegistry linkedNodes) guarded_linkedNodes relaxed
  have fits : Accepting (Schema.check (.ofRegistry linkedNodes) (.named "Node")
      (.object [("value", .integer 1),
        ("next", .object [("value", .integer 2), ("next", .null)])])) := by
    decide +kernel
  have covered : Accepting (Schema.covers (.ofRegistry linkedNodes) (.ofRegistry linkedNodes)
      (.named "Link") (.named "Node")) := by decide +kernel
  exact ⟨guarded_linkedNodes, relaxed, fits, checks _ _ fits, covered, comparisons _ _ _ covered⟩

/-- A node with a key too many, and behind it one without a value. -/
example :
    let value : Value :=
      .object [("value", .integer 1), ("size", .null), ("next", .object [("next", .null)])]
    ¬Accepting (Schema.check (.ofRegistry linkedNodes) (.named "Node") value) ∧
      Accepting (Schema.check lenientNodes (.named "Node") value) := by
  decide +kernel

end DataContract
