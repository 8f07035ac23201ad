import ForeignCall.Proofs.Policy.Touched

/-! # Save classes of a policy

A policy has one class for each register. The frame pointer comes before what the
storages ask for, and the storages come before the default. -/

namespace ForeignCall

namespace Table

/-- The register is the frame pointer or its second half. -/
def IsFrame (t : Table) (r : Register) : Prop :=
  r = t.framePointer ∨ (t.framePaired = true ∧ r = t.framePointer.next)

theorem isFrame_iff {t : Table} {r : Register} :
    t.IsFrame r ↔ r = t.framePointer ∨ some r = t.framePair? := by
  unfold IsFrame framePair?
  cases t.framePaired with
  | false => simp
  | true => simp

/-! ## One register -/

theorem saveClass_of_isFrame {t : Table} {set : BitSet} {r : Register} (h : t.IsFrame r) :
    t.saveClass set r = .neverTouch :=
  if_pos (isFrame_iff.mp h)

theorem saveClass_of_not_isFrame {t : Table} {set : BitSet} {r : Register} (h : ¬ t.IsFrame r) :
    t.saveClass set r =
      if set.contains r.position then .mustPreserve else .expectClobbered :=
  if_neg fun hr => h (isFrame_iff.mpr hr)

/-- Registers of two tables have one class where both tables treat them alike. -/
theorem saveClass_congr {t t' : Table} {set set' : BitSet} {r r' : Register}
    (hframe : t'.IsFrame r' ↔ t.IsFrame r)
    (hset : set'.contains r'.position = set.contains r.position) :
    t'.saveClass set' r' = t.saveClass set r := by
  by_cases h : t.IsFrame r
  · rw [saveClass_of_isFrame h, saveClass_of_isFrame (hframe.mpr h)]
  · rw [saveClass_of_not_isFrame h, saveClass_of_not_isFrame (mt hframe.mp h), hset]

theorem saveClass_eq_neverTouch_iff {t : Table} {set : BitSet} {r : Register} :
    t.saveClass set r = .neverTouch ↔ t.IsFrame r := by
  by_cases h : t.IsFrame r
  · simp [saveClass_of_isFrame h, h]
  · rw [saveClass_of_not_isFrame h]
    split <;> simp [h]

theorem saveClass_eq_mustPreserve_iff {t : Table} {set : BitSet} {r : Register} :
    t.saveClass set r = .mustPreserve ↔ ¬ t.IsFrame r ∧ set.contains r.position = true := by
  by_cases h : t.IsFrame r
  · simp [saveClass_of_isFrame h, h]
  · rw [saveClass_of_not_isFrame h]
    split <;> simp_all

theorem saveClass_eq_expectClobbered_iff {t : Table} {set : BitSet} {r : Register} :
    t.saveClass set r = .expectClobbered ↔
      ¬ t.IsFrame r ∧ ¬ set.contains r.position = true := by
  by_cases h : t.IsFrame r
  · simp [saveClass_of_isFrame h, h]
  · rw [saveClass_of_not_isFrame h]
    split <;> simp_all

/-! ## All registers -/

theorem length_classify (t : Table) (set : BitSet) :
    (t.classify set).length = t.registerCount.toNat := by
  simp [classify, Policy.length]

theorem get?_classify {t : Table} {set : BitSet} {r : Register} (h : r.number < t.registerCount) :
    (t.classify set).get? r = some (t.saveClass set r) := by
  have hposition : r.position < t.registerCount.toNat := UInt32.lt_iff_toNat_lt.mp h
  simp [classify, Policy.get?, hposition]

theorem savePolicy_eq_ok_iff {t : Table} {storages : List Storage} {log : Log} {p : Policy} :
    (t.savePolicy storages log).1 = .ok p ↔
      ∃ set, t.touchedSet storages = .ok set ∧ p = t.classify set := by
  unfold savePolicy
  cases t.touchedSet storages with
  | error e => simp
  | ok set => simp [eq_comm]

theorem exists_savePolicy_eq_ok_iff {t : Table} {storages : List Storage} {log : Log} :
    (∃ p, (t.savePolicy storages log).1 = .ok p) ↔ ∀ s ∈ storages, t.Touchable s := by
  simp only [savePolicy_eq_ok_iff]
  constructor
  · rintro ⟨p, set, hset, -⟩ s hs
    apply Classical.byContradiction
    intro hnot
    obtain ⟨e, he⟩ := exists_touchedSet_eq_error_iff.mpr ⟨s, hs, hnot⟩
    simp [hset] at he
  · intro hs
    obtain ⟨set, hset, -⟩ := touchedSet_of_touchable hs
    exact ⟨_, set, hset, rfl⟩

/-- The positions of the frame pointer and of its second half. -/
def framePositions (t : Table) : List Nat :=
  t.framePointer.position :: if t.framePaired then [t.framePointer.position + 1] else []

theorem length_framePositions (t : Table) :
    t.framePositions.length = if t.framePaired then 2 else 1 := by
  unfold framePositions
  split <;> rfl

theorem pairwise_framePositions (t : Table) : t.framePositions.Pairwise (· < ·) := by
  unfold framePositions
  split <;> simp

end Table

namespace Description.Built

variable {d : Description} {t : Table}

/-- The frame's positions are those of registers of the table. -/
theorem mem_framePositions_iff (h : d.Built t) (hsize : t.names.length < 2 ^ 32) {i : Nat} :
    i ∈ t.framePositions ↔ i < t.registerCount.toNat ∧ t.IsFrame (Register.ofNat i) := by
  have hpointer : t.framePointer.position < t.registerCount.toNat :=
    UInt32.lt_iff_toNat_lt.mp (h.framePointer_lt hsize)
  have hcount := t.registerCount.toNat_lt
  unfold Table.framePositions Table.IsFrame
  cases hpaired : t.framePaired with
  | false =>
      simp only [Bool.false_eq_true, ite_false, List.mem_singleton, false_and, or_false]
      constructor
      · rintro rfl
        exact ⟨hpointer, Register.ofNat_position _⟩
      · rintro ⟨hi, hframe⟩
        rw [← hframe, Register.position_ofNat (by omega)]
  | true =>
      obtain ⟨hpair, hnext⟩ := h.framePair_lt hsize hpaired
      simp only [ite_true, List.mem_cons, List.not_mem_nil, or_false, true_and]
      constructor
      · rintro (rfl | rfl)
        · exact ⟨hpointer, .inl (Register.ofNat_position _)⟩
        · refine ⟨hpair, .inr ?_⟩
          rw [← hnext, Register.ofNat_position]
      · rintro ⟨hi, hframe | hframe⟩
        · left
          rw [← hframe, Register.position_ofNat (by omega)]
        · right
          rw [← hnext, ← hframe, Register.position_ofNat (by omega)]

/-- Of the register numbers, exactly the frame's are never touched. -/
theorem filter_neverTouch (h : d.Built t) (hsize : t.names.length < 2 ^ 32) (set : BitSet) :
    (List.range t.registerCount.toNat).filter
      (fun i => t.saveClass set (Register.ofNat i) = .neverTouch) = t.framePositions := by
  apply eq_of_pairwise_lt
  · exact List.pairwise_lt_range.filter _
  · exact t.pairwise_framePositions
  · intro i
    rw [h.mem_framePositions_iff hsize, List.mem_filter, List.mem_range, decide_eq_true_eq,
      Table.saveClass_eq_neverTouch_iff]

theorem count_neverTouch (h : d.Built t) (hsize : t.names.length < 2 ^ 32) (set : BitSet) :
    (t.classify set).classes.count .neverTouch = if t.framePaired then 2 else 1 := by
  rw [← t.length_framePositions, ← h.filter_neverTouch hsize set, ← List.countP_eq_length_filter,
    Table.classify, List.count, List.countP_map]
  rfl

end Description.Built

/-! ## The contract of a policy -/

/-- Each register's class, whichever storages name the frame pointer. The frame's two
registers are distinct and both of the table where the register count is exact. -/
structure Table.PolicySpec (t : Table) (storages : List Storage) (p : Policy) : Prop where
  length_eq : p.length = t.registerCount.toNat
  neverTouch_iff : ∀ r, r.number < t.registerCount →
    (p.get? r = some .neverTouch ↔ t.IsFrame r)
  mustPreserve_iff : ∀ r, r.number < t.registerCount →
    (p.get? r = some .mustPreserve ↔ ¬ t.IsFrame r ∧ ∃ s ∈ storages, t.registerOf s = .ok r)
  expectClobbered_iff : ∀ r, r.number < t.registerCount →
    (p.get? r = some .expectClobbered ↔
      ¬ t.IsFrame r ∧ ¬ ∃ s ∈ storages, t.registerOf s = .ok r)
  count_neverTouch : t.names.length < 2 ^ 32 →
    p.classes.count .neverTouch = if t.framePaired then 2 else 1

theorem savePolicy_spec {d : Description} {t : Table} (hbuild : d.build = .ok t)
    {storages : List Storage} {log : Log} {p : Policy}
    (hp : (t.savePolicy storages log).1 = .ok p) : t.PolicySpec storages p := by
  obtain ⟨set, hset, rfl⟩ := Table.savePolicy_eq_ok_iff.mp hp
  have hcollects := Table.touchedSet_eq_ok hset
  refine ⟨t.length_classify set, ?_, ?_, ?_, ?_⟩
  · intro r hr
    rw [Table.get?_classify hr, Option.some.injEq]
    exact Table.saveClass_eq_neverTouch_iff
  · intro r hr
    rw [Table.get?_classify hr, Option.some.injEq, ← hcollects.contains_position_iff]
    exact Table.saveClass_eq_mustPreserve_iff
  · intro r hr
    rw [Table.get?_classify hr, Option.some.injEq, ← hcollects.contains_position_iff]
    exact Table.saveClass_eq_expectClobbered_iff
  · intro hsize
    exact (Description.build_eq_ok_iff.mp hbuild).count_neverTouch hsize set

/-- The sample's policy for storages in `B`, `A` and `V1`. -/
def samplePolicy : Policy :=
  ⟨[.mustPreserve, .mustPreserve, .expectClobbered, .neverTouch, .neverTouch, .expectClobbered]⟩

/-- `A` is the second half of the frame pointer, so it is not preserved. -/
theorem savePolicy_sample :
    (Description.ofSteps "sample" sampleSteps).build = .ok sampleTable ∧
      (sampleTable.savePolicy [⟨0, 1⟩, ⟨0, 0⟩, ⟨1, 1⟩] .off).1 = .ok samplePolicy ∧
      sampleTable.names.length < 2 ^ 32 ∧ samplePolicy.classes.count .neverTouch = 2 ∧
      sampleTable.PolicySpec [⟨0, 1⟩, ⟨0, 0⟩, ⟨1, 1⟩] samplePolicy := by
  have hpolicy : (sampleTable.savePolicy [⟨0, 1⟩, ⟨0, 0⟩, ⟨1, 1⟩] .off).1 = .ok samplePolicy := rfl
  have hspec := savePolicy_spec build_sample hpolicy
  have hnames := addressable_sampleTable.names_lt
  exact ⟨build_sample, hpolicy, hnames, hspec.count_neverTouch hnames, hspec⟩

end ForeignCall
