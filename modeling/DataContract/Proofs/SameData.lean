import Mathlib
import DataContract.Proofs.Acceptance
import DataContract.Proofs.WellPosed

/-!
# The same data fit alike

Data are compared key by key, whatever the order, and a schema does not tell the same data apart. A
numeric literal accepts other data besides: it is compared by magnitude, up to a tolerance.

1. `Value.exists_same_of_mem`, `Value.sameEntries_iff`: the same data, said of parts.
2. `Value.same_trans`, `Value.same_symm`: being the same is an equivalence, where keys are distinct.
   `Value.find?_same`: the same objects have the same data under every key.
3. `Schema.Accepts.same`: what is the same as accepted data is accepted.
-/

namespace DataContract

/-! ## 1. The parts of the same data -/

namespace Value

theorem distinct_of_mem_items {items : List Value} (h : DistinctItems items) :
    ∀ item ∈ items, item.Distinct := by
  induction items with
  | nil => exact nofun
  | cons item rest ih => exact List.forall_mem_cons.mpr ⟨h.1, ih h.2⟩

theorem distinct_of_mem_entries {entries : List (String × Value)} (h : DistinctEntries entries) :
    ∀ entry ∈ entries, entry.2.Distinct := by
  induction entries with
  | nil => exact nofun
  | cons entry rest ih =>
    obtain ⟨key, value⟩ := entry
    exact List.forall_mem_cons.mpr ⟨h.1, ih h.2⟩

theorem exists_same_of_mem {items others : List Value} (h : sameItems items others = true)
    {b : Value} (hb : b ∈ others) : ∃ a ∈ items, a.same b = true := by
  induction items generalizing others with
  | nil =>
    cases others with
    | nil => cases hb
    | cons c cs => cases h
  | cons a as ih =>
    cases others with
    | nil => cases h
    | cons c cs =>
      rw [sameItems, Bool.and_eq_true] at h
      rcases List.mem_cons.mp hb with rfl | hb
      · exact ⟨a, List.mem_cons_self, h.1⟩
      · obtain ⟨a', ha, hs⟩ := ih h.2 hb
        exact ⟨a', List.mem_cons_of_mem _ ha, hs⟩

theorem sameEntries_iff {entries : List (String × Value)} {others : Fields Value} :
    sameEntries entries others = true ↔
      ∀ entry ∈ entries, ∃ b, Fields.find? entry.1 others = some b ∧ entry.2.same b = true := by
  induction entries with
  | nil => simp [sameEntries]
  | cons entry rest ih =>
    obtain ⟨key, value⟩ := entry
    rw [sameEntries, Bool.and_eq_true, ih, List.forall_mem_cons]
    refine and_congr_left fun _ => ?_
    cases Fields.find? key others <;> simp

theorem distinctEntries_of_forall {entries : List (String × Value)}
    (h : ∀ entry ∈ entries, entry.2.Distinct) : DistinctEntries entries := by
  induction entries with
  | nil => exact trivial
  | cons entry rest ih =>
    obtain ⟨key, value⟩ := entry
    obtain ⟨own, others⟩ := List.forall_mem_cons.mp h
    exact ⟨own, ih others⟩

/-! ## 2. An equivalence -/

theorem number_same_trans {a b c : Number} (hab : a.same b = true) (hbc : b.same c = true) :
    a.same c = true := by
  cases a <;> cases b <;> cases c <;> simp_all [Number.same, Double.same]

mutual

theorem same_trans : ∀ {a b c : Value}, a.same b = true → b.same c = true → a.same c = true
  | null, b, c, hab, hbc => by cases b <;> first | exact hbc | cases hab
  | boolean _, b, c, hab, hbc => by cases b <;> cases c <;> simp_all [same]
  | string _, b, c, hab, hbc => by cases b <;> cases c <;> simp_all [same]
  | number n, b, c, hab, hbc => by
    cases b with
    | number m =>
      cases c with
      | number k => exact number_same_trans hab hbc
      | _ => cases hbc
    | _ => cases hab
  | array items, b, c, hab, hbc => by
    cases b with
    | array others =>
      cases c with
      | array last => exact sameItems_trans hab hbc
      | _ => cases hbc
    | _ => cases hab
  | object entries, b, c, hab, hbc => by
    cases b with
    | object others =>
      cases c with
      | object last =>
        simp only [same, Bool.and_eq_true, beq_iff_eq] at hab hbc ⊢
        exact ⟨hab.1.trans hbc.1, sameEntries_trans hab.2 hbc.2⟩
      | _ => cases hbc
    | _ => cases hab

theorem sameItems_trans : ∀ {items others last : List Value},
    sameItems items others = true → sameItems others last = true → sameItems items last = true
  | [], others, last, hab, hbc => by cases others <;> first | exact hbc | cases hab
  | item :: rest, others, last, hab, hbc => by
    cases others with
    | nil => cases hab
    | cons b bs =>
      cases last with
      | nil => cases hbc
      | cons c cs =>
        simp only [sameItems, Bool.and_eq_true] at hab hbc ⊢
        exact ⟨same_trans hab.1 hbc.1, sameItems_trans hab.2 hbc.2⟩

theorem sameEntries_trans : ∀ {entries : List (String × Value)} {others last : Fields Value},
    sameEntries entries others = true → sameEntries others last = true →
      sameEntries entries last = true
  | [], _, _, _, _ => rfl
  | (key, value) :: rest, others, last, hab, hbc => by
    obtain ⟨⟨b, hb, own⟩, below⟩ := List.forall_mem_cons.mp (sameEntries_iff.mp hab)
    obtain ⟨c, hc, next⟩ := sameEntries_iff.mp hbc _ (Fields.mem_of_find? hb)
    rw [sameEntries, hc, Bool.and_eq_true]
    exact ⟨same_trans own next, sameEntries_trans (sameEntries_iff.mpr below) hbc⟩

end

/-- The same objects have the same keys, where those of the first are distinct. -/
theorem names_perm_of_same {entries others : Fields Value} (distinct : (Fields.names entries).Nodup)
    (h : (object entries).same (object others) = true) :
    (Fields.names entries).Perm (Fields.names others) := by
  simp only [same, Bool.and_eq_true, beq_iff_eq] at h
  have inside : Fields.names entries ⊆ Fields.names others := by
    intro name hn
    obtain ⟨entry, hm, rfl⟩ := List.mem_map.mp hn
    obtain ⟨b, hb, _⟩ := sameEntries_iff.mp h.2 entry hm
    exact Fields.mem_names_of_find? hb
  refine (distinct.subperm inside).perm_of_length_le ?_
  simp [Fields.names, h.1]

theorem number_same_symm {a b : Number} (h : a.same b = true) : b.same a = true := by
  cases a <;> cases b <;> simp_all [Number.same, Double.same]

mutual

/-- Being the same goes both ways, where the keys on one side are distinct. Then those on the other
side are as well. -/
theorem same_symm : ∀ {a b : Value}, a.Distinct → a.same b = true → b.same a = true ∧ b.Distinct
  | null, b, _, h => by
    cases b with
    | null => exact ⟨rfl, trivial⟩
    | _ => cases h
  | boolean _, b, _, h => by
    cases b with
    | boolean _ => exact ⟨beq_iff_eq.mpr (beq_iff_eq.mp h).symm, trivial⟩
    | _ => cases h
  | string _, b, _, h => by
    cases b with
    | string _ => exact ⟨beq_iff_eq.mpr (beq_iff_eq.mp h).symm, trivial⟩
    | _ => cases h
  | number n, b, _, h => by
    cases b with
    | number m => exact ⟨number_same_symm h, trivial⟩
    | _ => cases h
  | array items, b, distinct, h => by
    cases b with
    | array others => exact sameItems_symm distinct h
    | _ => cases h
  | object entries, b, distinct, h => by
    cases b with
    | object others =>
      have perm := names_perm_of_same distinct.1 h
      simp only [same, Bool.and_eq_true, beq_iff_eq] at h ⊢
      have once := perm.nodup_iff.mp distinct.1
      have back : ∀ entry ∈ others, ∃ own, Fields.find? entry.1 entries = some own ∧
          entry.2.same own = true ∧ entry.2.Distinct := by
        intro entry he
        obtain ⟨own, found⟩ := Fields.exists_find?_of_mem_names
          (perm.mem_iff.mpr (List.mem_map_of_mem (f := (·.1)) he))
        have listed := Fields.mem_of_find? found
        obtain ⟨b, hb, alike⟩ := sameEntries_iff.mp h.2 _ listed
        cases (Fields.find?_of_mem once he).symm.trans hb
        exact ⟨own, found, sameEntries_symm distinct.2 _ listed alike⟩
      refine ⟨⟨h.1.symm, sameEntries_iff.mpr fun entry he => ?_⟩, once,
        distinctEntries_of_forall fun entry he => ?_⟩
      · obtain ⟨own, found, alike, _⟩ := back entry he
        exact ⟨own, found, alike⟩
      · obtain ⟨_, _, _, inside⟩ := back entry he
        exact inside
    | _ => cases h

theorem sameItems_symm : ∀ {items others : List Value}, DistinctItems items →
    sameItems items others = true → sameItems others items = true ∧ DistinctItems others
  | [], others, _, h => by
    cases others with
    | nil => exact ⟨rfl, trivial⟩
    | cons b bs => cases h
  | item :: rest, others, distinct, h => by
    cases others with
    | nil => cases h
    | cons b bs =>
      rw [sameItems, Bool.and_eq_true] at h ⊢
      obtain ⟨own, inside⟩ := same_symm distinct.1 h.1
      obtain ⟨below, further⟩ := sameItems_symm distinct.2 h.2
      exact ⟨⟨own, below⟩, inside, further⟩

theorem sameEntries_symm : ∀ {entries : List (String × Value)}, DistinctEntries entries →
    ∀ entry ∈ entries, ∀ {b : Value}, entry.2.same b = true → b.same entry.2 = true ∧ b.Distinct
  | [], _, _, he, _, _ => nomatch he
  | (_, value) :: rest, distinct, entry, he, b, h => by
    rcases List.mem_cons.mp he with rfl | he
    · exact same_symm distinct.1 h
    · exact sameEntries_symm distinct.2 entry he h

end

/-- The same objects have the same data under every key, or none. -/
theorem find?_same {entries others : Fields Value} (distinct : (object entries).Distinct)
    (h : (object entries).same (object others) = true) (name : String) :
    Option.Rel (fun own part => own.Distinct ∧ own.same part = true) (Fields.find? name entries)
      (Fields.find? name others) := by
  cases found : Fields.find? name entries with
  | none =>
    cases found' : Fields.find? name others with
    | none => exact .none
    | some part =>
      obtain ⟨own, ho⟩ := Fields.exists_find?_of_mem_names
        ((names_perm_of_same distinct.1 h).mem_iff.mpr (Fields.mem_names_of_find? found'))
      cases found.symm.trans ho
  | some own =>
    simp only [same, Bool.and_eq_true] at h
    have listed := Fields.mem_of_find? found
    obtain ⟨part, found', alike⟩ := sameEntries_iff.mp h.2 _ listed
    rw [found']
    exact .some ⟨distinct_of_mem_entries distinct.2 _ listed, alike⟩

/-- The same lists have the same data at every place. -/
theorem forall₂_of_sameItems {items others : List Value} (distinct : DistinctItems items)
    (h : sameItems items others = true) :
    List.Forall₂ (fun own part => own.Distinct ∧ own.same part = true) items others := by
  induction items generalizing others with
  | nil =>
    cases others with
    | nil => exact .nil
    | cons b bs => cases h
  | cons item rest ih =>
    cases others with
    | nil => cases h
    | cons b bs =>
      rw [sameItems, Bool.and_eq_true] at h
      exact .cons ⟨distinct.1, h.1⟩ (ih distinct.2 h.2)

end Value

/-! ## 3. Acceptance -/

theorem Value.sameLiteral_eq_same {expected value : Value} (h : expected.asNumber? = none) :
    expected.sameLiteral value = expected.same value := by
  cases expected <;> first | rfl | cases h

theorem Number.scaled_of_same {m n : Number} (same : m.same n = true) :
    m.toDouble.scaled = n.toDouble.scaled := by
  cases m with
  | integer m =>
    cases n with
    | integer n => rw [beq_iff_eq.mp same]
    | double y => cases same
  | double x =>
    cases n with
    | integer n => cases same
    | double y => exact Double.same_iff.mp same

/-- The magnitude of a difference does not depend on the sign of a zero. -/
theorem Double.units_sub_congr {x y z : Double} (h : y.scaled = z.scaled) :
    (x.sub y).units = (x.sub z).units := by
  have signless (sign sign' : Bool) (num : Nat) :
      (ofRatio sign num 1).units = (ofRatio sign' num 1).units := by
    unfold ofRatio ofRatio? ofUnits?
    split <;> rfl
  have opposite : y.neg.scaled = z.neg.scaled := by rw [scaled_neg, scaled_neg, h]
  unfold sub add ofScaled
  rw [opposite]
  exact signless _ _ _

/-- A number is close to numbers of one magnitude, or to none of them. -/
theorem Number.close_congr {expected m n : Number} (h : m.toDouble.scaled = n.toDouble.scaled) :
    expected.close m = expected.close n := by
  unfold close
  rw [Double.units_sub_congr h]

/-- A literal does not tell the same data apart. -/
theorem Value.sameLiteral_trans {expected value other : Value}
    (fits : expected.sameLiteral value = true) (same : value.same other = true) :
    expected.sameLiteral other = true := by
  cases expected with
  | number n =>
    cases value with
    | number m =>
      cases other with
      | number k => exact (Number.close_congr (Number.scaled_of_same same)).symm.trans fits
      | _ => cases same
    | _ => cases fits
  | _ => exact same_trans fits same

theorem NumberRange.Admits.congr {range : NumberRange} {m n : Number} (h : range.Admits m)
    (scaled : m.toDouble.scaled = n.toDouble.scaled) : range.Admits n := by
  refine ⟨fun least hl => ?_, fun most hm => ?_⟩
  · have := h.1 least hl
    rw [Double.le_iff] at this ⊢
    rwa [← scaled]
  · have := h.2 most hm
    rw [Double.le_iff] at this ⊢
    rwa [← scaled]

/-- What is the same as accepted data is accepted: the policy looks at keys as a set. -/
theorem Schema.Accepts.same {registry : Registry} {policy : KeyPolicy} {schema : Schema}
    {value other : Value} (accepted : Accepts registry policy schema value)
    (distinct : value.Distinct) (same : value.same other = true) :
    Accepts registry policy schema other := by
  induction accepted generalizing other with
  | string inside =>
    cases other with
    | string text =>
      rw [beq_iff_eq.mp same] at inside
      exact .string inside
    | _ => cases same
  | number inside =>
    cases other with
    | number n => exact .number (inside.congr (Number.scaled_of_same same))
    | _ => cases same
  | boolean =>
    cases other with
    | boolean b => exact .boolean
    | _ => cases same
  | null =>
    cases other with
    | null => exact .null
    | _ => cases same
  | literal fits => exact .literal (Value.sameLiteral_trans fits same)
  | reference found _ ih => exact .reference found (ih distinct same)
  | object allowed _ ih =>
    cases other with
    | object others =>
      have perm := Value.names_perm_of_same distinct.1 same
      refine .object ⟨fun hp key hk ho => ?_, fun hp name hn => ?_⟩ fun field hf part hv => ?_
      · exact perm.mem_iff.mp (allowed.present hp key hk ho)
      · exact allowed.expected hp name (perm.mem_iff.mpr hn)
      · obtain ⟨own, ho⟩ := Fields.exists_find?_of_mem_names
          (perm.mem_iff.mpr (Fields.mem_names_of_find? hv))
        simp only [Value.same, Bool.and_eq_true] at same
        obtain ⟨b, hb, alike⟩ := Value.sameEntries_iff.mp same.2 _ (Fields.mem_of_find? ho)
        rw [hv] at hb
        cases hb
        exact ih field hf own ho
          (Value.distinct_of_mem_entries distinct.2 _ (Fields.mem_of_find? ho)) alike
    | _ => cases same
  | list _ ih =>
    cases other with
    | array others =>
      refine .list fun part hp => ?_
      obtain ⟨own, ho, hs⟩ := Value.exists_same_of_mem same hp
      exact ih own ho (Value.distinct_of_mem_items distinct own ho) hs
    | _ => cases same
  | union hm _ ih => exact .union hm (ih distinct same)

end DataContract
