import Mathlib
import DataContract.Proofs.ReadingBack
import DataContract.Proofs.Termination

/-!
# Positive tests are never silently missing

A derivation for positive tests lists candidates and errors, and it may leave things out on the way:
a member that would be re-entered, a cycle where null is allowed, an error beside a result, a choice
beyond the cap. It never leaves out everything. A union with null keeps null itself, any other union
keeps an error for each member that is refused, and a product is empty only where a factor is.

1. `Enumeration.HasItem`, with one rule for each way to put enumerations together.
2. `fieldVariants_hasItem`, `combinationVariants_hasItem`, `unionStream_hasItem`: the parts of a
   derivation.
3. `Schema.Uses`: what a derivation can come to, inside a schema and behind its references.
4. `Schema.variantsWithin_hasItem`: no union without members, and no cap of zero. Over a guarded
   registry the items are candidates and errors (`Schema.variants_productive`).
-/

namespace DataContract

/-! ## 1. Enumerations with an item -/

namespace Enumeration

variable {α β : Type}

/-- There is at least one item. -/
def HasItem (items : Enumeration α) : Prop := ∃ a, a ∈ items.toList

theorem hasItem_single (a : α) : (single a).HasItem := ⟨a, List.mem_singleton_self a⟩

theorem hasItem_ofList {items : List α} (h : items ≠ []) : (ofList items).HasItem := by
  rw [HasItem, toList_ofList]
  exact List.exists_mem_of_ne_nil items h

theorem HasItem.map (f : α → β) {items : Enumeration α} (h : items.HasItem) :
    (items.map f).HasItem := by
  obtain ⟨a, ha⟩ := h
  exact ⟨f a, mem_toList_map.mpr ⟨a, ha, rfl⟩⟩

theorem HasItem.filter {p : α → Bool} {items : Enumeration α} {a : α} (ha : a ∈ items.toList)
    (h : p a = true) : (items.filter p).HasItem := by
  refine ⟨a, ?_⟩
  rw [toList_filter]
  exact List.mem_filter.mpr ⟨ha, h⟩

theorem HasItem.flatMap {f : α → Enumeration β} {items : Enumeration α} (h : items.HasItem)
    (below : ∀ a ∈ items.toList, (f a).HasItem) : (items.flatMap f).HasItem := by
  obtain ⟨a, ha⟩ := h
  obtain ⟨b, hb⟩ := below a ha
  refine ⟨b, ?_⟩
  rw [toList_flatMap]
  exact List.mem_flatMap.mpr ⟨a, ha, hb⟩

theorem HasItem.capped {bound : Option Nat} {items : Enumeration α} (positive : bound ≠ some 0)
    (h : items.HasItem) : (items.capped bound).HasItem := by
  cases bound with
  | none => exact h
  | some n =>
    obtain ⟨a, ha⟩ := h
    cases n with
    | zero => exact absurd rfl positive
    | succ n =>
      rw [HasItem, Enumeration.capped, toList_take]
      cases listed : items.toList with
      | nil =>
        rw [listed] at ha
        cases ha
      | cons first rest => exact ⟨first, List.mem_cons_self⟩

/-- There is a choice where there is something to choose from each enumeration. -/
theorem hasItem_product {choices : List (Unit → Enumeration α)}
    (h : ∀ items ∈ choices, (items ()).HasItem) : (product choices).HasItem := by
  induction choices with
  | nil => exact ⟨[], List.mem_singleton_self _⟩
  | cons first rest ih =>
    obtain ⟨own, others⟩ := List.forall_mem_cons.mp h
    obtain ⟨a, ha⟩ := own
    obtain ⟨choice, hc⟩ := ih others
    exact ⟨a :: choice, mem_toList_product_cons.mpr ⟨a, ha, choice, hc, rfl⟩⟩

/-- Errors that are set aside come back as one where there is no result. -/
theorem HasItem.settle {headline : String} {items : Enumeration (Attempt α)} (h : items.HasItem) :
    (items.settle headline).HasItem := by
  rw [HasItem, toList_settle]
  split
  · next results =>
    obtain ⟨item, hi, result⟩ := List.any_eq_true.mp results
    exact ⟨item, List.mem_filter.mpr ⟨hi, result⟩⟩
  · next errors =>
    obtain ⟨item, hi⟩ := h
    have error : (Attempt.error? item).isSome := by
      by_contra result
      exact errors (List.any_eq_true.mpr ⟨item, hi, by simpa using result⟩)
    obtain ⟨cause, hc⟩ := Option.isSome_iff_exists.mp error
    have listed := List.mem_filterMap.mpr ⟨item, hi, hc⟩
    cases causes : items.toList.filterMap Attempt.error? with
    | nil =>
      rw [causes] at listed
      cases listed
    | cons first rest => exact ⟨_, List.mem_singleton_self _⟩

end Enumeration

/-! ## 2. The parts of a derivation -/

section Parts

variable {derive : Context → Schema → Enumeration (Attempt Schema)} {context : Context} {row : Row}

theorem keyCombinations_hasItem (keys : List String) (row : Row) :
    (keyCombinations keys row).HasItem := by
  unfold keyCombinations
  split
  · dsimp only
    split
    · exact Enumeration.hasItem_single keys
    · exact Enumeration.hasItem_ofList (List.cons_ne_nil _ _)
  · refine (Enumeration.hasItem_product fun items hi => ?_).map _
    obtain ⟨key, _, rfl⟩ := List.mem_map.mp hi
    refine Enumeration.hasItem_ofList ?_
    split <;> exact List.cons_ne_nil _ _

/-- A field has a variant, or is left out, or an error. -/
theorem fieldVariants_hasItem {key : String} {schema : Schema}
    (h : ∀ stack, (derive { context with expanding := stack } schema).HasItem) :
    (fieldVariants derive context row key schema).HasItem := by
  unfold fieldVariants
  split
  · exact Enumeration.hasItem_single _
  · dsimp only
    split
    · next child entered =>
      obtain ⟨stack, rfl⟩ := Context.expanding_of_enter entered
      exact (h stack).map _
    · exact Enumeration.hasItem_single _
    · exact Enumeration.hasItem_single _

theorem combinationVariants_hasItem
    {positives : String → Schema → Enumeration (Attempt (Option Schema))} {entries : Fields Schema}
    (h : ∀ field ∈ entries, (positives field.1 field.2).HasItem) :
    (combinationVariants positives row entries).HasItem := by
  refine (keyCombinations_hasItem _ row).flatMap fun keys _ => ?_
  refine (Enumeration.hasItem_product fun items hi => ?_).map _
  obtain ⟨field, hf, rfl⟩ := List.mem_map.mp hi
  exact (h field (List.mem_of_mem_filter (List.mem_of_mem_filter hf))).map _

/-- Where the recursion cannot end, a schema is entered or refused. -/
theorem Context.enter_strict_ne_none {schema : Schema} : context.enter schema false ≠ .ok none := by
  unfold enter
  split
  · nofun
  · split <;> nofun

/-- A member of a union without null is derived, or it is refused with an error. -/
theorem alternativeStream_hasItem {members : List Schema} (nonempty : members ≠ [])
    (strict : Schema.listsNull members = false)
    (h : ∀ schema ∈ members, ∀ stack, (derive { context with expanding := stack } schema).HasItem) :
    (alternativeStream derive context members).HasItem := by
  obtain ⟨schema, hm⟩ := List.exists_mem_of_ne_nil members nonempty
  have listed : schema ∈ Schema.nullsLast members := Schema.mem_nullsLast hm
  refine (Enumeration.hasItem_ofList (List.ne_nil_of_mem listed)).flatMap fun schema listed => ?_
  rw [Enumeration.toList_ofList] at listed
  rw [strict]
  split
  · next child entered =>
    obtain ⟨stack, rfl⟩ := Context.expanding_of_enter entered
    exact h schema (Schema.mem_of_mem_nullsLast listed) stack
  · next skipped => exact absurd skipped Context.enter_strict_ne_none
  · exact Enumeration.hasItem_single _

/-- A union keeps null if null is a member, and otherwise something for each member. -/
theorem unionStream_hasItem {members : List Schema} (nonempty : members ≠ [])
    (own : ∃ item ∈ (derive context .null).toList, item.isCycle = false)
    (h : ∀ schema ∈ members, ∀ stack, (derive { context with expanding := stack } schema).HasItem) :
    (unionStream derive context members).HasItem := by
  unfold unionStream
  cases nullable : Schema.listsNull members with
  | false =>
    obtain ⟨item, hi⟩ : (alternativeStream derive context members).HasItem :=
      alternativeStream_hasItem nonempty nullable h
    exact Enumeration.HasItem.filter hi rfl
  | true =>
    obtain ⟨item, hi, kept⟩ := own
    have entered : context.enter .null true = .ok (some context) := rfl
    refine Enumeration.HasItem.filter (a := item) ?_ (by rw [kept]; rfl)
    rw [alternativeStream, Enumeration.toList_flatMap, Enumeration.toList_ofList, List.mem_flatMap]
    refine ⟨.null, Schema.mem_nullsLast (Schema.listsNull_iff.mp nullable), ?_⟩
    rw [nullable, entered]
    exact hi

end Parts

/-! ## 3. What a derivation can come to -/

namespace Schema

/-- A schema is used by another one when it is inside, or behind references from there. -/
inductive Uses (registry : Registry) (start : Schema) : Schema → Prop
  | self : Uses registry start start
  | field {fields : List (String × Schema)} {title : Option String} {field : String × Schema} :
      Uses registry start (object fields title) → field ∈ fields → Uses registry start field.2
  | item {item : Schema} {title sample : Option String} :
      Uses registry start (list item title sample) → Uses registry start item
  | member {members : List Schema} {key title sample : Option String} {schema : Schema} :
      Uses registry start (union members key title sample) → schema ∈ members →
      Uses registry start schema
  | target {name : String} {target : Schema} :
      Uses registry start (reference name) → registry.find? name = some target →
      Uses registry start target

variable {registry : Registry} {start schema : Schema}

theorem Uses.trans {last : Schema} (h : Uses registry start schema)
    (h' : Uses registry schema last) :
    Uses registry start last := by
  induction h' with
  | self => exact h
  | field _ hf ih => exact ih.field hf
  | item _ ih => exact ih.item
  | member _ hm ih => exact ih.member hm
  | target _ found ih => exact ih.target found

/-- A condition on every node of the registry and of a schema holds of all that the schema uses. -/
theorem Uses.everywhere {condition : Schema → Prop} (registered : registry.Everywhere condition)
    (holds : start.Everywhere condition) (h : Uses registry start schema) :
    schema.Everywhere condition := by
  induction h with
  | self => exact holds
  | field _ hf ih => exact (everywhere_object.mp ih).2 _ hf
  | item _ ih => exact (everywhere_list.mp ih).2
  | member _ hm ih => exact (everywhere_union.mp ih).2 _ hm
  | target _ found _ => exact registered.target found

/-- Every union that is used has a member. -/
def Populated (registry : Registry) (start : Schema) : Prop :=
  ∀ members key title sample, Uses registry start (union members key title sample) → members ≠ []

/-- A node that is no union without members. -/
def HasMember : Schema → Prop
  | union members _ _ _ => members ≠ []
  | _ => True

instance : DecidablePred HasMember
  | .union members _ _ _ => inferInstanceAs (Decidable (members ≠ []))
  | .string _ _ | .number _ _ _ | .boolean _ | .null | .literal _ _ | .reference _ | .object _ _
  | .list _ _ _ => .isTrue trivial

theorem populated_of_everywhere (registered : registry.Everywhere HasMember)
    (holds : start.Everywhere HasMember) : Populated registry start :=
  fun _ _ _ _ used => (used.everywhere registered holds).here

theorem Populated.of_uses (h : Populated registry start) (used : Uses registry start schema) :
    Populated registry schema :=
  fun members key title sample further => h members key title sample (used.trans further)

/-! ## 4. Whole derivations -/

/-- At every step and on every stack, something comes out of a derivation. -/
theorem variantsWithin_hasItem {context : Context} {row : Row}
    (uncapped : context.maxCombinations ≠ some 0) (fuel : Nat) (stack : List Frame)
    {schema : Schema}
    (populated : Populated context.registry schema) :
    (variantsWithin fuel { context with expanding := stack } row schema).HasItem := by
  induction fuel generalizing stack schema with
  | zero => exact Enumeration.hasItem_single _
  | succ fuel ih =>
    have used {part : Schema} (h : Uses context.registry schema part) (stack : List Frame) :
        (variantsWithin fuel { context with expanding := stack } row part).HasItem :=
      ih stack (populated.of_uses h)
    unfold variantsWithin
    cases schema with
    | string | number | boolean | null | literal => exact Enumeration.hasItem_single _
    | reference name =>
      simp only [Registry.lookup]
      cases found : context.registry.find? name with
      | none => exact Enumeration.hasItem_single _
      | some target => exact used (Uses.self.target found) stack
    | object fields title =>
      refine Enumeration.HasItem.capped uncapped (Enumeration.HasItem.map _ ?_)
      exact combinationVariants_hasItem fun field hf =>
        @fieldVariants_hasItem _ { context with expanding := stack } _ _ _
          fun stack => used (Uses.self.field hf) stack
    | list item title sample =>
      dsimp only
      split
      · exact Enumeration.hasItem_single _
      · split
        · next child entered =>
          obtain ⟨stack', rfl⟩ := Context.expanding_of_enter entered
          exact (used Uses.self.item stack').map _
        · exact Enumeration.hasItem_single _
        · exact Enumeration.hasItem_single _
    | union members key title sample =>
      dsimp only
      split
      · exact Enumeration.hasItem_single _
      · exact Enumeration.hasItem_single _
      · refine (@unionStream_hasItem _ { context with expanding := stack } _
          (populated members key title sample .self) ?_
          fun schema hm stack => used (Uses.self.member hm) stack).settle
        cases fuel with
        | zero => exact ⟨_, List.mem_singleton_self _, rfl⟩
        | succ fuel => exact ⟨_, List.mem_singleton_self _, rfl⟩

/-- Over a guarded registry no literal of an author or of a row is read or checked without end. -/
theorem literalsFinish_of_guarded {context : Context} (guarded : context.registry.Guarded)
    (row : Row) : LiteralsFinish context row := by
  have read (schema : Schema) (raw : String) :
      (schema.read context.registry raw).Ends (fun _ => True) (· ≠ .endless) := by
    have ends := read_ne_endless guarded schema raw
    cases told : schema.read context.registry raw with
    | ok value => trivial
    | error halt => exact fun endless => ends (by rw [told, endless])
  have checked {α : Type} (stack : List Frame) (schema : Schema) (raw : String)
      {next : Value → Verdict → Attempt α}
      (h : ∀ value verdict, (next value verdict).Ends (fun _ => True) (· ≠ .endless)) :
      (schema.read context.registry raw >>= fun value =>
        Attempt.ofOption (schema.check { context with expanding := stack } value) >>=
          next value).Ends (fun _ => True) (· ≠ .endless) := by
    refine Attempt.ends_bind (Attempt.ends_mono (read schema raw) (fun value _ => ?_) fun _ => id)
    have verdict := @check_isSome { context with expanding := stack } guarded schema value
    exact Attempt.ends_bind (Attempt.ends_mono (Attempt.ends_ofOption verdict)
      (fun verdict _ => h value verdict) fun _ => id)
  refine ⟨fun stack sample schema => ?_, fun stack name literal schema _ => ?_⟩
  · unfold exampleValue
    split
    · refine checked stack schema _ fun value verdict => ?_
      cases verdict with
      | accepted captured => trivial
      | rejected failure => exact SchemaError.halt_ne_endless _
    · trivial
  · refine checked stack schema literal fun value verdict => ?_
    cases verdict with
    | accepted captured => trivial
    | rejected failure => exact SchemaError.halt_ne_endless _

/-- A derivation for positive tests lists at least one item, and every item is a candidate or an
error, whatever the row, the stack and the mode. -/
theorem variants_productive {context : Context} (guarded : context.registry.Guarded)
    (uncapped : context.maxCombinations ≠ some 0) (row : Row) {schema : Schema}
    (populated : Populated context.registry schema) :
    (schema.variants context row).toList ≠ [] ∧
      ∀ item ∈ (schema.variants context row).toList,
        (∃ candidate, item = .ok candidate) ∨ ∃ cause, item = .error (.error cause) := by
  constructor
  · obtain ⟨item, listed⟩ : (schema.variants context row).HasItem :=
      variantsWithin_hasItem uncapped _ context.expanding populated
    exact List.ne_nil_of_mem listed
  · intro item listed
    have finished := variants_finish_of_literals guarded.loopFree
      (literalsFinish_of_guarded guarded row) schema item listed
    rcases item with (cause | _) | candidate
    · exact .inr ⟨cause, rfl⟩
    · exact absurd rfl finished
    · exact .inl ⟨candidate, rfl⟩

end Schema

/-- A node whose children are nodes or the text "leaf". -/
def sprouting : Context :=
  { Context.ofRegistry (Registry.initial.register "Node" (.object
      [("child", .union [.named "Node", .exactly (.string "leaf")] none none none)] none)) with
    maxCombinations := some 1
    expanding := [⟨"(Node)", false⟩] }

/-- Where the node is under expansion already and the row binds the child to a text, one candidate
is left. -/
theorem variants_productive_sprouting :
    ((Schema.named "Node").variants sprouting (Row.empty.bind "child" "leaf")).toList ≠ [] ∧
      ∀ item ∈ ((Schema.named "Node").variants sprouting (Row.empty.bind "child" "leaf")).toList,
        (∃ candidate, item = .ok candidate) ∨ ∃ cause, item = .error (.error cause) :=
  Schema.variants_productive
    (Registry.guarded_of_rank (fun _ => 0) (by decide +kernel)) (by decide +kernel) _
    (Schema.populated_of_everywhere (by decide +kernel) (by decide +kernel))

end DataContract
