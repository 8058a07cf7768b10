import Mathlib
import DataContract.Proofs.Merging

/-!
# Paths of crashes

A failure keeps its path as a list of segments. A crash keeps its context as one text: segments are
joined with dots, and when a report is asked for, the text is taken apart at its dots again.

1. `Segment.kind`: a segment is an index, a marker for an alternative, or plain, and what it adds to
   a path follows from that (`Segment.toList_renderPath`).
2. `Segment.dottedParts`: the way back from a text to segments. Joining and taking apart again gives
   the parts of each segment (`Segment.dottedParts_joinNonEmpty`).
3. `Segment.compared_dottedParts`: one segment against its parts. They add the same, or what they
   add differs somewhere, or only dots at the end are missing.
4. `Segment.renderPath_flatMap_eq_iff`: a whole path. No segment makes up for what another one lost.
5. `Outcome.paths_underAll`: a crash and a failure under the same segments have the same rendered
   path exactly when each segment by itself reads as its parts do.

It is false to expect this of every segment: the marker of an alternative whose name has a dot falls
into parts that are no marker any more (`Outcome.paths_underAll_dottedName`). Segments without dots
are safe (`Segment.renderPath_dottedParts_of_no_dot`).
-/

namespace DataContract
namespace Segment

/-! ## 1. Segments on a path -/

/-- A marker for an alternative, and what a reader sees of it. -/
def markerText (name : List Char) : List Char := '(' :: '~' :: '~' :: '~' :: (name ++ [')'])

def alternativeText (name : List Char) : List Char :=
  '(' :: 'w' :: 'h' :: 'e' :: 'n' :: ' ' :: (name ++ [')'])

/-- What a segment is by itself. -/
def shown (segment : String) : List Char := (renderPath [segment]).toList

/-- What stands between a path and its next segment. -/
def joint (segment : String) : List Char :=
  if segment.toList.head? == some '[' then []
  else match alternativeName? segment with
    | some _ => [' ']
    | none => ['.']

/-- What a segment adds to a path that has begun. -/
def attached (segment : String) : List Char := joint segment ++ shown segment

/-- The three kinds of segments. -/
inductive Kind (segment : String) : Prop
  | index : segment.toList.head? = some '[' → joint segment = [] →
      shown segment = segment.toList → Kind segment
  | alternative {name : List Char} : segment.toList = markerText name → joint segment = [' '] →
      shown segment = alternativeText name → Kind segment
  | plain : segment.toList.head? ≠ some '[' → joint segment = ['.'] →
      shown segment = segment.toList → Kind segment

theorem toList_of_alternativeName? {segment name : String}
    (h : alternativeName? segment = some name) :
    segment.toList = markerText name.toList := by
  unfold alternativeName? at h
  split at h
  · next rest shape =>
    by_cases closed : rest.getLast? = some ')'
    · obtain ⟨inner, rfl⟩ := List.getLast?_eq_some_iff.mp closed
      obtain rfl : String.ofList inner = name := by simpa using h
      rw [shape, String.toList_ofList, markerText]
    · rw [if_neg (by simpa using closed)] at h
      cases h
  · cases h

theorem shown_eq (segment : String) : shown segment =
    if segment.toList.head? == some '[' then segment.toList
    else match alternativeName? segment with
      | some name => alternativeText name.toList
      | none => segment.toList := by
  rw [shown, renderPath, List.foldl_cons, List.foldl_nil, appendSegment]
  split
  · rw [String.empty_append]
  · cases alternativeName? segment with
    | some name => simp [alternativeText]
    | none => simp

theorem kind (segment : String) : Kind segment := by
  have shown := shown_eq segment
  have joint : joint segment = if segment.toList.head? == some '[' then []
    else match alternativeName? segment with
      | some _ => [' ']
      | none => ['.'] := rfl
  by_cases index : segment.toList.head? = some '['
  · simp only [index, beq_self_eq_true, if_true] at shown joint
    exact .index index joint shown
  · simp only [beq_iff_eq, index, if_false] at shown joint
    cases named : alternativeName? segment with
    | some name =>
      rw [named] at shown joint
      exact .alternative (toList_of_alternativeName? named) joint shown
    | none =>
      rw [named] at shown joint
      exact .plain index joint shown

theorem toList_appendSegment {text : String} (begun : text ≠ "") (segment : String) :
    (appendSegment text segment).toList = text.toList ++ attached segment := by
  rw [attached, shown_eq, joint, appendSegment]
  simp only [begun, if_false]
  split
  · exact String.toList_append
  · cases alternativeName? segment with
    | some name => simp [alternativeText]
    | none => simp

theorem joint_of_index {segment : String} (head : segment.toList.head? = some '[') :
    joint segment = [] := by
  rw [joint, head]
  rfl

theorem attached_of_index {segment : String} (head : segment.toList.head? = some '[') :
    attached segment = segment.toList := by
  rw [attached, joint_of_index head, shown_eq, head]
  rfl

/-- What begins as a marker does need not be one. -/
theorem attached_of_markerStart {segment : String} {text : List Char}
    (start : segment.toList = '(' :: '~' :: '~' :: '~' :: text) :
    (∃ more, attached segment = ' ' :: '(' :: 'w' :: more) ∨
      ∃ more, attached segment = '.' :: '(' :: '~' :: more := by
  rw [attached]
  cases kind segment with
  | index head _ _ =>
    rw [start] at head
    cases head
  | alternative _ joint shown =>
    rw [joint, shown]
    exact .inl ⟨_, rfl⟩
  | plain _ joint shown =>
    rw [joint, shown, start]
    exact .inr ⟨_, rfl⟩

theorem shown_of_dot {segment : String} {text : List Char} (start : segment.toList = '.' :: text) :
    shown segment = '.' :: text := by
  cases kind segment with
  | index head _ _ =>
    rw [start] at head
    cases head
  | alternative marker _ _ => cases start.symm.trans marker
  | plain _ _ shown => exact shown.trans start

theorem shown_ne_nil {segment : String} (h : segment ≠ "") : shown segment ≠ [] := by
  have some : segment.toList ≠ [] := fun none => h (String.toList_eq_nil_iff.mp none)
  cases kind segment with
  | index _ _ shown => exact shown ▸ some
  | alternative _ _ shown => exact shown ▸ List.cons_ne_nil _ _
  | plain _ _ shown => exact shown ▸ some

/-- What segments add to a path that has begun. -/
def trail (segments : List String) : List Char := segments.flatMap attached

theorem trail_cons (segment : String) (segments : List String) :
    trail (segment :: segments) = attached segment ++ trail segments := List.flatMap_cons

theorem trail_append (segments others : List String) :
    trail (segments ++ others) = trail segments ++ trail others := List.flatMap_append

/-- The first segment stands by itself, the others behind it. -/
theorem toList_renderPath {first : String} (h : first ≠ "") (rest : List String) :
    (renderPath (first :: rest)).toList = shown first ++ trail rest := by
  have behind (text : String) (begun : text ≠ "") (segments : List String) :
      (segments.foldl appendSegment text).toList = text.toList ++ trail segments := by
    induction segments generalizing text with
    | nil => exact (List.append_nil _).symm
    | cons segment segments ih =>
      have next := toList_appendSegment begun segment
      have longer : appendSegment text segment ≠ "" := by
        intro none
        rw [none] at next
        exact begun (String.toList_eq_nil_iff.mp (List.append_eq_nil_iff.mp next.symm).1)
      rw [List.foldl_cons, ih _ longer, next, List.append_assoc, trail_cons]
  have begun : renderPath [first] ≠ "" := fun none =>
    shown_ne_nil h (String.toList_eq_nil_iff.mpr none)
  exact behind (renderPath [first]) begun rest

/-! ## 2. A context that is taken apart -/

/-- The segments that a text with dots falls into. -/
def dottedParts (text : String) : List String :=
  ((text.toList.splitOn '.').filter (· ≠ [])).map String.ofList

/-- The parts of a text between its dots, the empty ones too. -/
theorem exists_components (text : List Char) :
    ∃ first rest, text = first ++ rest.flatMap ('.' :: ·) ∧ (∀ part ∈ first :: rest, '.' ∉ part) ∧
      text.splitOn '.' = first :: rest := by
  induction text with
  | nil => exact ⟨[], [], rfl, by simp, rfl⟩
  | cons c text ih =>
    obtain ⟨first, rest, shape, free, split⟩ := ih
    rw [List.splitOn_cons_eq_if_modifyHead, split]
    by_cases dot : c = '.'
    · subst dot
      refine ⟨[], first :: rest, ?_, ?_, if_pos (beq_self_eq_true _)⟩
      · rw [shape]
        rfl
      · exact List.forall_mem_cons.mpr ⟨List.not_mem_nil, free⟩
    · refine ⟨c :: first, rest, ?_, ?_, if_neg (by simpa using dot)⟩
      · rw [shape]
        rfl
      · obtain ⟨own, others⟩ := List.forall_mem_cons.mp free
        have own : '.' ∉ c :: first := List.not_mem_cons_of_ne_of_not_mem (Ne.symm dot) own
        exact List.forall_mem_cons.mpr ⟨own, others⟩

/-- Joined with a dot, the parts come one after the other. -/
theorem dottedParts_joinNonEmpty (outer inner : String) :
    dottedParts (joinNonEmpty outer inner ".") = dottedParts outer ++ dottedParts inner := by
  have empty : dottedParts "" = [] := by decide +kernel
  unfold joinNonEmpty
  split
  · next none => rw [none, empty, List.nil_append]
  · split
    · next none => rw [none, empty, List.append_nil]
    · have shape : (outer ++ "." ++ inner).toList = outer.toList ++ '.' :: inner.toList := by simp
      rw [dottedParts, shape, List.splitOn_append_cons_self, List.filter_append, List.map_append]
      rfl

/-! ## 3. One segment and its parts -/

/-- A text and the text that should have come out. Two texts that differ somewhere differ whatever
comes behind them; otherwise one of them can only be short of dots. -/
inductive Compared (found wanted : List Char) : Prop
  | same : found = wanted → Compared found wanted
  | apart : (∀ more others, found ++ more ≠ wanted ++ others) → Compared found wanted
  | short (count : Nat) : wanted = found ++ List.replicate (count + 1) '.' → Compared found wanted

theorem Compared.append_left (common : List Char) {found wanted : List Char}
    (h : Compared found wanted) : Compared (common ++ found) (common ++ wanted) := by
  cases h with
  | same same => exact .same (congrArg _ same)
  | apart apart =>
    refine .apart fun more others same => apart more others ?_
    rwa [List.append_assoc, List.append_assoc, List.append_cancel_left_eq] at same
  | short count short => exact .short count (by rw [short, List.append_assoc])

/-- A part between two dots. -/
def IsPart (segment : String) : Prop := segment ≠ "" ∧ '.' ∉ segment.toList

theorem shown_ne_dot {part : String} (h : IsPart part) (more text : List Char) :
    shown part ++ more ≠ '.' :: text := by
  intro same
  obtain ⟨c, rest, start⟩ :=
    List.exists_cons_of_ne_nil fun none => h.1 (String.toList_eq_nil_iff.mp none)
  have noDot : c ≠ '.' := fun dot => h.2 (by rw [start, dot]; exact List.mem_cons_self)
  cases kind part with
  | index _ _ shown =>
    rw [shown, start] at same
    exact noDot (List.cons.inj same).1
  | alternative _ _ shown =>
    rw [shown] at same
    cases same
  | plain _ _ shown =>
    rw [shown, start] at same
    exact noDot (List.cons.inj same).1

/-- Parts never stand behind two dots. -/
theorem trail_ne_dots {parts : List String} (h : ∀ part ∈ parts, IsPart part) (some : parts ≠ [])
    (more others : List Char) : trail parts ++ more ≠ '.' :: '.' :: others := by
  intro same
  obtain ⟨first, rest, rfl⟩ := List.exists_cons_of_ne_nil some
  have own := shown_ne_dot (h first List.mem_cons_self) (trail rest ++ more)
  rw [trail_cons, attached, List.append_assoc, List.append_assoc] at same
  cases kind first with
  | index _ joint _ =>
    rw [joint] at same
    exact own _ same
  | alternative _ joint _ =>
    rw [joint] at same
    cases same
  | plain _ joint _ =>
    rw [joint] at same
    exact own _ (List.cons.inj same).2

/-- The segments that are left of parts, as a path. -/
def kept (parts : List (List Char)) : List String := (parts.filter (· ≠ [])).map String.ofList

theorem kept_cons_of_ne_nil {part : List Char} (h : part ≠ []) (parts : List (List Char)) :
    kept (part :: parts) = String.ofList part :: kept parts := by
  rw [kept, List.filter_cons_of_pos (by simpa using h), List.map_cons]
  rfl

theorem isPart_of_mem_kept {parts : List (List Char)} (free : ∀ part ∈ parts, '.' ∉ part) :
    ∀ part ∈ kept parts, IsPart part := by
  intro part hm
  obtain ⟨text, listed, rfl⟩ := List.mem_map.mp hm
  obtain ⟨listed, filled⟩ := List.mem_filter.mp listed
  refine ⟨fun none => of_decide_eq_true filled ?_, ?_⟩
  · have same : text = (String.ofList text).toList := String.toList_ofList.symm
    rw [same, none]
    rfl
  · rw [String.toList_ofList]
    exact free text listed

theorem exists_parts (segment : String) :
    ∃ first rest, segment.toList = first ++ rest.flatMap ('.' :: ·) ∧
      (∀ part ∈ first :: rest, '.' ∉ part) ∧ dottedParts segment = kept (first :: rest) := by
  obtain ⟨first, rest, shape, free, split⟩ := exists_components segment.toList
  exact ⟨first, rest, shape, free, by rw [dottedParts, split, kept]⟩

theorem isPart_of_mem_dottedParts {segment : String} :
    ∀ part ∈ dottedParts segment, IsPart part := by
  obtain ⟨first, rest, _, free, parts⟩ := exists_parts segment
  exact parts ▸ isPart_of_mem_kept free

/-- Parts and the dots before them: only a plain part stands behind a dot, and a part further on
stands behind one dot only. -/
theorem compared_kept {parts : List (List Char)} (free : ∀ part ∈ parts, '.' ∉ part) :
    Compared (trail (kept parts)) (parts.flatMap ('.' :: ·)) := by
  induction parts with
  | nil => exact .same rfl
  | cons part parts ih =>
    obtain ⟨_, others⟩ := List.forall_mem_cons.mp free
    replace ih := ih others
    by_cases filled : part = []
    · subst filled
      show Compared (trail (kept parts)) ('.' :: parts.flatMap ('.' :: ·))
      by_cases left : kept parts = []
      · rw [left] at ih ⊢
        cases ih with
        | same same => exact .short 0 (congrArg _ same.symm)
        | apart apart => exact absurd (List.append_nil _).symm (apart _ [])
        | short count short => exact .short (count + 1) (congrArg _ short)
      · cases parts with
        | nil => exact absurd rfl left
        | cons next parts =>
          exact .apart fun more _ => trail_ne_dots (isPart_of_mem_kept others) left more _
    · rw [kept_cons_of_ne_nil filled, trail_cons, attached, List.flatMap_cons]
      cases kind (String.ofList part) with
      | index head joint shown =>
        obtain ⟨text, shape⟩ := List.head?_eq_some_iff.mp head
        rw [joint, shown, shape]
        exact .apart fun _ _ => by simp
      | alternative _ joint shown =>
        rw [joint]
        exact .apart fun _ _ => by simp
      | plain _ joint shown =>
        rw [joint, shown, String.toList_ofList]
        exact ih.append_left ('.' :: part)

/-- A first part begins as the whole does. -/
theorem first_of_cons {c : Char} {text first : List Char} {rest : List (List Char)}
    (shape : c :: text = first ++ rest.flatMap ('.' :: ·)) (h : c ≠ '.') :
    ∃ behind, first = c :: behind ∧ text = behind ++ rest.flatMap ('.' :: ·) := by
  cases first with
  | cons d behind =>
    obtain ⟨rfl, others⟩ := List.cons.inj shape
    exact ⟨behind, rfl, others⟩
  | nil =>
    cases rest with
    | nil => cases shape
    | cons _ _ => exact absurd (List.cons.inj shape).1 h

theorem first_of_index {text first : List Char} {rest : List (List Char)}
    (shape : text = first ++ rest.flatMap ('.' :: ·)) (head : text.head? = some '[') :
    ∃ behind, first = '[' :: behind := by
  obtain ⟨others, rfl⟩ := List.head?_eq_some_iff.mp head
  obtain ⟨behind, start, _⟩ := first_of_cons shape (by decide)
  exact ⟨behind, start⟩

theorem first_of_markerText {name first : List Char} {rest : List (List Char)}
    (shape : markerText name = first ++ rest.flatMap ('.' :: ·)) :
    ∃ behind, first = '(' :: '~' :: '~' :: '~' :: behind ∧
      name ++ [')'] = behind ++ rest.flatMap ('.' :: ·) := by
  obtain ⟨_, rfl, second⟩ := first_of_cons shape (by decide)
  obtain ⟨_, rfl, third⟩ := first_of_cons second (by decide)
  obtain ⟨_, rfl, fourth⟩ := first_of_cons third (by decide)
  obtain ⟨behind, rfl, inner⟩ := first_of_cons fourth (by decide)
  exact ⟨behind, rfl, inner⟩

/-- A segment and its parts. -/
theorem compared_dottedParts (segment : String) :
    Compared (trail (dottedParts segment)) (attached segment) := by
  obtain ⟨first, rest, shape, free, parts⟩ := exists_parts segment
  obtain ⟨_, others⟩ := List.forall_mem_cons.mp free
  rw [parts, attached]
  cases kind segment with
  | index head joint shown =>
    obtain ⟨behind, rfl⟩ := first_of_index shape head
    rw [kept_cons_of_ne_nil (List.cons_ne_nil _ _), trail_cons,
      attached_of_index (String.toList_ofList ▸ rfl), String.toList_ofList, joint, shown, shape]
    exact (compared_kept others).append_left ('[' :: behind)
  | @alternative name text joint shown =>
    obtain ⟨behind, rfl, inner⟩ := first_of_markerText (text.symm.trans shape)
    rw [kept_cons_of_ne_nil (List.cons_ne_nil _ _), trail_cons, joint, shown, attached]
    cases kind (String.ofList ('(' :: '~' :: '~' :: '~' :: behind)) with
    | index head _ _ =>
      rw [String.toList_ofList] at head
      cases head
    | @alternative own text joint shown =>
      rw [String.toList_ofList, markerText] at text
      obtain rfl : behind = own ++ [')'] := by simpa using text
      have longer : alternativeText name = alternativeText own ++ rest.flatMap ('.' :: ·) := by
        rw [alternativeText, inner]
        rfl
      rw [joint, shown, longer]
      exact (compared_kept others).append_left ([' '] ++ alternativeText own)
    | plain _ joint _ =>
      rw [joint]
      exact .apart fun _ _ => by simp
  | plain _ joint shown =>
    rw [joint, shown, shape]
    exact compared_kept free

/-! ## 4. Whole paths -/

theorem isPart_of_mem_flatMap (segments : List String) :
    ∀ part ∈ segments.flatMap dottedParts, IsPart part := by
  intro part hm
  obtain ⟨segment, _, hp⟩ := List.mem_flatMap.mp hm
  exact isPart_of_mem_dottedParts part hp

/-- The parts of further segments do not make up for dots that are missing. Where that is a single
dot, the next segment tells what comes behind it. -/
theorem trail_flatMap_ne (segments : List String) (count : Nat) :
    trail (segments.flatMap dottedParts) ≠ List.replicate (count + 1) '.' ++ trail segments := by
  intro same
  have noDots {others : List Char} :
      trail (segments.flatMap dottedParts) ≠ '.' :: '.' :: others := by
    intro dots
    have filled : segments.flatMap dottedParts ≠ [] := by
      intro none
      rw [none] at dots
      cases dots
    exact trail_ne_dots (isPart_of_mem_flatMap _) filled [] others ((List.append_nil _).trans dots)
  cases count with
  | succ count => exact noDots same
  | zero =>
    cases segments with
    | nil => cases same
    | cons segment segments =>
      obtain ⟨first, rest, shape, _, parts⟩ := exists_parts segment
      rw [List.flatMap_cons, parts] at same
      rw [trail_cons, attached, List.replicate_one] at same
      cases kind segment with
      | plain _ joint _ =>
        rw [joint] at same
        rw [List.flatMap_cons, parts] at noDots
        exact noDots same
      | index head _ _ =>
        obtain ⟨behind, rfl⟩ := first_of_index shape head
        rw [kept_cons_of_ne_nil (List.cons_ne_nil _ _), List.cons_append, trail_cons,
          attached_of_index (String.toList_ofList ▸ rfl), String.toList_ofList] at same
        cases same
      | alternative text joint _ =>
        obtain ⟨behind, rfl, _⟩ := first_of_markerText (text.symm.trans shape)
        rw [kept_cons_of_ne_nil (List.cons_ne_nil _ _), List.cons_append, trail_cons, joint] at same
        obtain ⟨more, added⟩ | ⟨more, added⟩ := attached_of_markerStart String.toList_ofList
        · rw [added] at same
          cases same
        · rw [added] at same
          cases same

theorem renderPath_parts_ne_dot {parts : List String} (h : ∀ part ∈ parts, IsPart part)
    (text : List Char) : (renderPath parts).toList ≠ '.' :: text := by
  intro same
  cases parts with
  | nil => cases same
  | cons first rest =>
    have own := h first List.mem_cons_self
    rw [toList_renderPath own.1] at same
    exact shown_ne_dot own _ _ same

/-- Where the first part of a segment reads as the segment begins, they are of one kind. -/
theorem joint_first {segment : String} {first rest : List Char}
    (split : segment.toList = first ++ rest) (marked : ∀ name, segment.toList = markerText name →
      ∃ behind, first = '(' :: '~' :: '~' :: '~' :: behind) (filled : first ≠ [])
    {more others : List Char}
    (same : shown (String.ofList first) ++ more = shown segment ++ others) :
    joint (String.ofList first) = joint segment := by
  cases kind segment with
  | index head joint _ =>
    rw [joint]
    refine joint_of_index ?_
    rwa [String.toList_ofList, ← List.head?_append_of_ne_nil first filled, ← split]
  | alternative text joint shown =>
    obtain ⟨behind, rfl⟩ := marked _ text
    rw [joint]
    rw [shown] at same
    cases kind (String.ofList ('(' :: '~' :: '~' :: '~' :: behind)) with
    | index head _ _ =>
      rw [String.toList_ofList] at head
      cases head
    | alternative _ joint _ => exact joint
    | plain _ _ shown =>
      rw [shown, String.toList_ofList] at same
      cases same
  | plain head joint shown =>
    rw [joint]
    rw [shown, split] at same
    cases kind (String.ofList first) with
    | index own _ _ =>
      rw [String.toList_ofList, ← List.head?_append_of_ne_nil first filled, ← split] at own
      exact absurd own head
    | alternative text _ shown =>
      rw [String.toList_ofList] at text
      rw [shown, text] at same
      cases same
    | plain _ joint _ => exact joint

/-- The first joint is not shown, but paths that read the same have the same. -/
theorem trail_eq_of_renderPath_eq {segments : List String}
    (nonempty : ∀ segment ∈ segments, segment ≠ "")
    (same : renderPath (segments.flatMap dottedParts) = renderPath segments) :
    trail (segments.flatMap dottedParts) = trail segments := by
  cases segments with
  | nil => rfl
  | cons segment segments =>
    have own := nonempty segment List.mem_cons_self
    have noDot := renderPath_parts_ne_dot (isPart_of_mem_flatMap (segment :: segments))
    obtain ⟨first, rest, shape, _, parts⟩ := exists_parts segment
    replace same := congrArg String.toList same
    by_cases filled : first = []
    · subst filled
      rw [toList_renderPath own] at same
      cases rest with
      | nil => exact absurd (String.toList_eq_nil_iff.mp shape) own
      | cons next rest =>
        rw [shown_of_dot shape] at same
        exact absurd same (noDot _)
    · rw [List.flatMap_cons, parts, kept_cons_of_ne_nil filled, List.cons_append] at same ⊢
      have part : String.ofList first ≠ "" := fun none =>
        filled (by simpa using congrArg String.toList none)
      rw [toList_renderPath part, toList_renderPath own] at same
      have joint := joint_first shape (fun name text => by
        obtain ⟨behind, start, _⟩ := first_of_markerText (text.symm.trans shape)
        exact ⟨behind, start⟩) filled same
      rw [trail_cons, trail_cons, attached, attached, joint, List.append_assoc,
        List.append_assoc, same]

/-- The joint before a path is left out. -/
def unjoined : List Char → List Char
  | '.' :: text => text
  | ' ' :: text => text
  | text => text

theorem toList_renderPath_eq {segments : List String}
    (nonempty : ∀ segment ∈ segments, segment ≠ "") :
    (renderPath segments).toList = unjoined (trail segments) := by
  cases segments with
  | nil => rfl
  | cons segment segments =>
    rw [toList_renderPath (nonempty segment List.mem_cons_self), trail_cons, attached]
    cases kind segment with
    | index head joint shown =>
      obtain ⟨text, start⟩ := List.head?_eq_some_iff.mp head
      rw [joint, shown, start]
      rfl
    | alternative _ joint _ =>
      rw [joint]
      rfl
    | plain _ joint _ =>
      rw [joint]
      rfl

/-- Segments and their parts have the same trail when each segment has that of its own parts. -/
theorem trail_flatMap_eq_iff (segments : List String) :
    trail (segments.flatMap dottedParts) = trail segments ↔
      ∀ segment ∈ segments, trail (dottedParts segment) = attached segment := by
  induction segments with
  | nil => exact ⟨fun _ => nofun, fun _ => rfl⟩
  | cons segment segments ih =>
    rw [List.forall_mem_cons, ← ih, List.flatMap_cons, trail_append, trail_cons]
    constructor
    · intro same
      cases compared_dottedParts segment with
      | same own =>
        rw [own, List.append_cancel_left_eq] at same
        exact ⟨own, same⟩
      | apart apart => exact absurd same (apart _ _)
      | short count short =>
        rw [short, List.append_assoc, List.append_cancel_left_eq] at same
        exact absurd same (trail_flatMap_ne segments count)
    · rintro ⟨own, same⟩
      rw [own, same]

/-- A path taken apart at its dots reads as before when each of its segments does. -/
theorem renderPath_flatMap_eq_iff {segments : List String}
    (nonempty : ∀ segment ∈ segments, segment ≠ "") :
    renderPath (segments.flatMap dottedParts) = renderPath segments ↔
      ∀ segment ∈ segments, renderPath (dottedParts segment) = renderPath [segment] := by
  have whole (segments : List String) (nonempty : ∀ segment ∈ segments, segment ≠ "") :
      renderPath (segments.flatMap dottedParts) = renderPath segments ↔
        trail (segments.flatMap dottedParts) = trail segments := by
    have filled := fun part hp => (isPart_of_mem_flatMap segments part hp).1
    refine ⟨trail_eq_of_renderPath_eq nonempty, fun same => String.toList_inj.mp ?_⟩
    rw [toList_renderPath_eq nonempty, toList_renderPath_eq filled, same]
  rw [whole segments nonempty, trail_flatMap_eq_iff]
  refine forall₂_congr fun segment hs => ?_
  have single := whole [segment] (by simpa using nonempty segment hs)
  simp only [List.flatMap_singleton] at single
  rw [single]
  simp [trail]

/-- A segment without dots is its only part. -/
theorem renderPath_dottedParts_of_no_dot {segment : String} (nonempty : segment ≠ "")
    (free : '.' ∉ segment.toList) : renderPath (dottedParts segment) = renderPath [segment] := by
  have filled : segment.toList ≠ [] := fun none => nonempty (String.toList_eq_nil_iff.mp none)
  have parts : dottedParts segment = kept [segment.toList] := by
    rw [dottedParts, List.splitOn_eq_singleton free, kept]
  rw [parts, kept_cons_of_ne_nil filled, String.ofList_toList]
  rfl

end Segment

/-! ## 5. Crashes and failures -/

namespace Outcome

variable {α : Type}

/-- An outcome seen from several levels up, the innermost segment first. -/
def underAll (segments : List String) (outcome : Outcome α) : Outcome α :=
  segments.foldl (fun done segment => done.under segment) outcome

theorem underAll_failed {segments : List String} (nonempty : ∀ segment ∈ segments, segment ≠ "")
    (message : String) (path : List String) (causes : List Failure) :
    underAll segments (.failed ⟨message, path, causes⟩ : Outcome α) =
      .failed ⟨message, segments.reverse ++ path, causes⟩ := by
  induction segments generalizing path with
  | nil => rfl
  | cons segment segments ih =>
    obtain ⟨own, others⟩ := List.forall_mem_cons.mp nonempty
    have step : (failed ⟨message, path, causes⟩ : Outcome α).under segment =
        .failed ⟨message, segment :: path, causes⟩ := by
      rw [under, noted, if_pos rfl, Failure.under, if_neg own]
    rw [underAll, List.foldl_cons, step, ← underAll, ih others, List.reverse_cons,
      List.append_assoc]
    rfl

/-- The context of a crash falls into the parts of all segments, the outermost first. -/
theorem underAll_crashed (segments : List String) (error message path : String) :
    ∃ context, underAll segments (.crashed error message path : Outcome α) =
        .crashed error message context ∧
      Segment.dottedParts context =
        segments.reverse.flatMap Segment.dottedParts ++ Segment.dottedParts path := by
  induction segments generalizing path with
  | nil => exact ⟨path, rfl, rfl⟩
  | cons segment segments ih =>
    obtain ⟨context, done, parts⟩ := ih (joinNonEmpty segment path ".")
    have step : (crashed error message path : Outcome α).under segment =
        .crashed error message (joinNonEmpty segment path ".") := rfl
    refine ⟨context, ?_, ?_⟩
    · rw [underAll, List.foldl_cons, step, ← underAll, done]
    · rw [parts, Segment.dottedParts_joinNonEmpty, List.reverse_cons, List.flatMap_append,
        List.flatMap_singleton, List.append_assoc]

/-- A crash and a failure with the same text, under the same segments, both become failures; these
have the same rendered path exactly when every segment reads as its own parts do. -/
theorem paths_underAll (error : String) {segments : List String}
    (nonempty : ∀ segment ∈ segments, segment ≠ "") :
    ∃ crash failure, (underAll segments (.crash error : Outcome α)).failure? = some crash ∧
      (underAll segments (.failed (.plain error) : Outcome α)).failure? = some failure ∧
      (crash.paths = failure.paths ↔
        ∀ segment ∈ segments, renderPath (Segment.dottedParts segment) = renderPath [segment]) := by
  obtain ⟨context, done, parts⟩ := @underAll_crashed α segments error "" ""
  have none : Segment.dottedParts "" = [] := by decide +kernel
  rw [none, List.append_nil] at parts
  refine ⟨⟨joinNonEmpty "" error ": ", Segment.dottedParts context, []⟩,
    ⟨error, segments.reverse ++ [], []⟩, ?_, ?_, ?_⟩
  · rw [crash, done]
    rfl
  · rw [Failure.plain, underAll_failed nonempty]
    rfl
  · have filled : ∀ segment ∈ segments.reverse, segment ≠ "" :=
      fun segment hm => nonempty segment (List.mem_reverse.mp hm)
    have whole := Segment.renderPath_flatMap_eq_iff filled
    simp only [List.mem_reverse] at whole
    rw [← whole, ← parts, List.append_nil]
    exact List.singleton_inj

/-- An index, an alternative and a name with a dot inside. -/
theorem paths_underAll_bodyField :
    (∀ segment ∈ ["[0]", "(~~~Person object)", "data.id", "BODY"], segment ≠ "") ∧
      ∃ crash failure,
        (underAll ["[0]", "(~~~Person object)", "data.id", "BODY"]
          (.crash "boom" : Outcome Unit)).failure? = some crash ∧
        (underAll ["[0]", "(~~~Person object)", "data.id", "BODY"]
          (.failed (.plain "boom") : Outcome Unit)).failure? = some failure ∧
        crash.paths = failure.paths := by
  have nonempty : ∀ segment ∈ ["[0]", "(~~~Person object)", "data.id", "BODY"], segment ≠ "" := by
    decide
  obtain ⟨crash, failure, crashed, failed, same⟩ := @paths_underAll Unit "boom" _ nonempty
  exact ⟨nonempty, crash, failure, crashed, failed, same.mpr (by decide +kernel)⟩

/-- An alternative with a dot in its name. -/
theorem paths_underAll_dottedName :
    let segments := ["(~~~com.example.Person object)", "BODY"]
    (∀ segment ∈ segments, segment ≠ "") ∧
      (underAll segments (.crash "boom" : Outcome Unit)).failure?.map Failure.paths =
        some ["BODY.(~~~com.example.Person object)"] ∧
      (underAll segments (.failed (.plain "boom") : Outcome Unit)).failure?.map Failure.paths =
        some ["BODY (when com.example.Person object)"] := by
  decide +kernel

end Outcome
end DataContract
