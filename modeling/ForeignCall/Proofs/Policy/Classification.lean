import ForeignCall.Proofs.BitSet.History
import ForeignCall.Proofs.Policy.Classes

/-! # Policies of sets of any length

A policy is read off a set one register at a time, and the length of the set has nothing to
do with the number of registers. What a policy shows of its set are the members among the
table's registers, apart from the frame pointer's, which come out the same for every set. -/

namespace ForeignCall

namespace Table

variable {t : Table} {set set' : BitSet}

/-- Apart from the frame pointer, a register's class tells whether it is a member. -/
theorem saveClass_eq_iff {r : Register} :
    t.saveClass set r = t.saveClass set' r ↔
      (¬ t.IsFrame r → (set.contains r.position = true ↔ set'.contains r.position = true)) := by
  by_cases hframe : t.IsFrame r
  · simp [saveClass_of_isFrame hframe, hframe]
  · rw [saveClass_of_not_isFrame hframe, saveClass_of_not_isFrame hframe]
    cases set.contains r.position <;> cases set'.contains r.position <;> simp [hframe]

theorem classify_eq_iff :
    t.classify set = t.classify set' ↔ ∀ r, r.number < t.registerCount → ¬ t.IsFrame r →
      (set.contains r.position = true ↔ set'.contains r.position = true) := by
  rw [classify, classify, Policy.mk.injEq, List.map_inj_left]
  simp only [List.mem_range, saveClass_eq_iff]
  constructor
  · intro h r hr
    have hclass := h r.position (UInt32.lt_iff_toNat_lt.mp hr)
    rwa [Register.ofNat_position] at hclass
  · intro h i hi
    apply h
    rw [UInt32.lt_iff_toNat_lt]
    change (Register.ofNat i).position < t.registerCount.toNat
    rwa [Register.position_ofNat (Nat.lt_trans hi t.registerCount.toNat_lt)]

/-- What becomes of a set whose length is chosen without regard to the table, after any
updates. Registers past its length are not members, and members past the table's registers
are not seen; so two such sets have one policy where they agree on what is seen. -/
structure ClassifySpec (t : Table) (length : Nat) (history : List (Nat × Bool)) : Prop where
  length_eq : (t.classify (.after length history)).length = t.registerCount.toNat
  neverTouch_iff : ∀ r, r.number < t.registerCount →
    ((t.classify (.after length history)).get? r = some .neverTouch ↔ t.IsFrame r)
  mustPreserve_iff : ∀ r, r.number < t.registerCount →
    ((t.classify (.after length history)).get? r = some .mustPreserve ↔
      ¬ t.IsFrame r ∧ (BitSet.after length history).contains r.position = true)
  expectClobbered_iff : ∀ r, r.number < t.registerCount →
    ((t.classify (.after length history)).get? r = some .expectClobbered ↔
      ¬ t.IsFrame r ∧ ¬ (BitSet.after length history).contains r.position = true)
  member_iff : ∀ r : Register, (BitSet.after length history).contains r.position = true ↔
    BitSet.lastUpdate? length r.position history = some true
  past_length : ∀ r, r.number < t.registerCount → length ≤ r.position → ¬ t.IsFrame r →
    (t.classify (.after length history)).get? r = some .expectClobbered
  past_registers : ∀ i member, t.registerCount.toNat ≤ i →
    t.classify ((BitSet.after length history).update i member).2 =
      t.classify (.after length history)
  eq_iff : ∀ length' history', t.classify (.after length history) =
      t.classify (.after length' history') ↔
    ∀ r, r.number < t.registerCount → ¬ t.IsFrame r →
      ((BitSet.after length history).contains r.position = true ↔
        (BitSet.after length' history').contains r.position = true)

theorem classify_spec (t : Table) (length : Nat) (history : List (Nat × Bool)) :
    t.ClassifySpec length history := by
  have hclobbered : ∀ r, r.number < t.registerCount →
      ((t.classify (.after length history)).get? r = some .expectClobbered ↔
        ¬ t.IsFrame r ∧ ¬ (BitSet.after length history).contains r.position = true) := by
    intro r hr
    rw [get?_classify hr, Option.some.injEq]
    exact saveClass_eq_expectClobbered_iff
  refine ⟨t.length_classify _, ?_, ?_, hclobbered, ?_, ?_, ?_, ?_⟩
  · intro r hr
    rw [get?_classify hr, Option.some.injEq]
    exact saveClass_eq_neverTouch_iff
  · intro r hr
    rw [get?_classify hr, Option.some.injEq]
    exact saveClass_eq_mustPreserve_iff
  · intro r
    exact (BitSet.history_spec length history).contains_iff r.position
  · intro r hr hlength hframe
    rw [hclobbered r hr, BitSet.contains_after_of_le length history hlength]
    exact ⟨hframe, Bool.false_ne_true⟩
  · intro i member hi
    rw [classify_eq_iff]
    intro r hr _
    have hlt : r.position < t.registerCount.toNat := UInt32.lt_iff_toNat_lt.mp hr
    have hne : i ≠ r.position := Nat.ne_of_gt (Nat.lt_of_lt_of_le hlt hi)
    rw [BitSet.contains_update, if_neg fun h => hne h.1]
  · intro length' history'
    exact classify_eq_iff

end Table

/-- One set is too short for the table and the other too long, and they differ in the frame
pointer's two registers. -/
example : sampleTable.classify (.after 2 [(1, true)]) =
    sampleTable.classify (.after 100 [(1, true), (3, true), (4, true), (99, true)]) := by
  decide

end ForeignCall
