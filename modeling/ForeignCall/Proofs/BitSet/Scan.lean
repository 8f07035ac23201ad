import ForeignCall.Proofs.BitSet.Members

/-! # Scans of bit sets

A scan looks for the least set bit from a start on, word by word. On a set whose bits
past the length are clear it finds the members, each once and in ascending order. -/

namespace ForeignCall

/-- Two ascending lists with the same members are the same. -/
theorem eq_of_pairwise_lt {xs ys : List Nat} (hxs : xs.Pairwise (· < ·))
    (hys : ys.Pairwise (· < ·)) (hmem : ∀ i, i ∈ xs ↔ i ∈ ys) : xs = ys := by
  have hperm := (List.perm_ext_iff_of_nodup (hxs.imp Nat.ne_of_lt) (hys.imp Nat.ne_of_lt)).mpr hmem
  refine List.Perm.eq_of_pairwise ?_ hxs hys hperm
  intro i j _ _ hij hji
  omega

namespace BitSet

/-! ## The least bit -/

/-- `i` is the first set bit at or above `start`. -/
def IsLeastFrom (bits : Nat → Bool) (start i : Nat) : Prop :=
  start ≤ i ∧ bits i = true ∧ ∀ j, start ≤ j → j < i → bits j = false

theorem lowestFrom_eq_some {word : BitVec 64} {start bit : Nat}
    (h : lowestFrom word start = some bit) : bit < 64 ∧ IsLeastFrom word.getLsbD start bit := by
  obtain ⟨hfound, hmem, hbelow⟩ := List.find?_range_eq_some.mp h
  simp only [Bool.and_eq_true, decide_eq_true_eq] at hfound
  refine ⟨List.mem_range.mp hmem, hfound.1, hfound.2, ?_⟩
  intro j hstart hj
  simpa [hstart] using hbelow j hj

theorem lowestFrom_eq_none {word : BitVec 64} {start : Nat} (h : lowestFrom word start = none)
    {bit : Nat} (hstart : start ≤ bit) : word.getLsbD bit = false := by
  by_cases hbit : bit < 64
  · have hnot := List.find?_eq_none.mp h bit (List.mem_range.mpr hbit)
    simpa [hstart] using hnot
  · exact BitVec.getLsbD_of_ge word bit (by omega)

/-- In a list of words whose first bit has index `base`, the search finds the least bit. -/
theorem leastIn_eq_some {words : List (BitVec 64)} {base start i : Nat} (hstart : start ≤ 64)
    (h : leastIn words base start = some i) :
    ∃ k, i = base + k ∧ IsLeastFrom (bitAt words) start k := by
  induction words generalizing base start with
  | nil => simp [leastIn] at h
  | cons word rest ih =>
      unfold leastIn at h
      cases hlow : lowestFrom word start with
      | some bit =>
          obtain ⟨hbit, hle, hset, hbelow⟩ := lowestFrom_eq_some hlow
          simp only [hlow, Option.some.injEq] at h
          refine ⟨bit, h.symm, hle, ?_, ?_⟩
          · rwa [bitAt_cons_of_lt word rest hbit]
          · intro j hj hlt
            rw [bitAt_cons_of_lt word rest (by omega)]
            exact hbelow j hj hlt
      | none =>
          simp only [hlow] at h
          obtain ⟨k, rfl, -, hset, hbelow⟩ := ih (Nat.zero_le 64) h
          refine ⟨k + 64, by omega, by omega, ?_, ?_⟩
          · rwa [bitAt_cons_add]
          · intro j hj hlt
            by_cases hword : j < 64
            · rw [bitAt_cons_of_lt word rest hword]
              exact lowestFrom_eq_none hlow hj
            · obtain ⟨m, rfl⟩ := Nat.exists_eq_add_of_le' (Nat.le_of_not_lt hword)
              rw [bitAt_cons_add]
              exact hbelow m (Nat.zero_le m) (by omega)

theorem leastIn_eq_none {words : List (BitVec 64)} {base start : Nat}
    (h : leastIn words base start = none) {k : Nat} (hk : start ≤ k) : bitAt words k = false := by
  induction words generalizing base start k with
  | nil => exact bitAt_nil k
  | cons word rest ih =>
      unfold leastIn at h
      cases hlow : lowestFrom word start with
      | some bit => simp [hlow] at h
      | none =>
          simp only [hlow] at h
          by_cases hword : k < 64
          · rw [bitAt_cons_of_lt word rest hword]
            exact lowestFrom_eq_none hlow hk
          · obtain ⟨m, rfl⟩ := Nat.exists_eq_add_of_le' (Nat.le_of_not_lt hword)
            rw [bitAt_cons_add]
            exact ih h (Nat.zero_le m)

/-! ## The least member -/

theorem least?_eq_some {s : BitSet} (hs : s.Trim) {start i : Nat} (h : s.least? start = some i) :
    IsLeastFrom s.contains start i := by
  unfold least? at h
  split at h
  · obtain ⟨k, rfl, hle, hset, hbelow⟩ :=
      leastIn_eq_some (Nat.le_of_lt (Nat.mod_lt _ (by decide))) h
    refine ⟨by omega, ?_, ?_⟩
    · rwa [hs.contains_eq_bit, bit, ← bitAt_drop]
    · intro j hj hlt
      obtain ⟨m, rfl⟩ := Nat.exists_eq_add_of_le (show start / 64 * 64 ≤ j by omega)
      rw [hs.contains_eq_bit, bit, ← bitAt_drop]
      exact hbelow m (by omega) (by omega)
  · simp at h

theorem least?_eq_none {s : BitSet} (hs : s.Trim) {start i : Nat} (h : s.least? start = none)
    (hi : start ≤ i) : s.contains i = false := by
  unfold least? at h
  split at h
  · obtain ⟨m, rfl⟩ := Nat.exists_eq_add_of_le (show start / 64 * 64 ≤ i by omega)
    rw [hs.contains_eq_bit, bit, ← bitAt_drop]
    exact leastIn_eq_none h (by omega)
  · rw [contains_eq, decide_eq_false (by omega), Bool.false_and]

/-! ## All members -/

theorem membersFrom_of_some {s : BitSet} {start i : Nat} (h : s.least? start = some i) :
    s.membersFrom start = i :: s.membersFrom (i + 1) := by
  rw [membersFrom]
  split <;> simp_all

theorem membersFrom_of_none {s : BitSet} {start : Nat} (h : s.least? start = none) :
    s.membersFrom start = [] := by
  rw [membersFrom]
  split <;> simp_all

/-- The members from `start` on are listed, and nothing else. -/
theorem mem_membersFrom_iff {s : BitSet} (hs : s.Trim) {start i : Nat} :
    i ∈ s.membersFrom start ↔ start ≤ i ∧ s.contains i = true := by
  induction start using membersFrom.induct s with
  | case1 start least hleast ih =>
      obtain ⟨hle, hmem, hbelow⟩ := least?_eq_some hs hleast
      rw [membersFrom_of_some hleast, List.mem_cons, ih]
      constructor
      · rintro (rfl | ⟨hlt, hi⟩)
        · exact ⟨hle, hmem⟩
        · exact ⟨by omega, hi⟩
      · rintro ⟨hstart, hi⟩
        rcases Nat.lt_trichotomy i least with hlt | rfl | hlt
        · simp [hbelow i hstart hlt] at hi
        · exact .inl rfl
        · exact .inr ⟨hlt, hi⟩
  | case2 start hnone =>
      rw [membersFrom_of_none hnone]
      constructor
      · intro hi
        simp at hi
      · rintro ⟨hstart, hi⟩
        simp [least?_eq_none hs hnone hstart] at hi

theorem pairwise_membersFrom {s : BitSet} (hs : s.Trim) (start : Nat) :
    (s.membersFrom start).Pairwise (· < ·) := by
  induction start using membersFrom.induct s with
  | case1 start least hleast ih =>
      rw [membersFrom_of_some hleast]
      refine List.pairwise_cons.mpr ⟨?_, ih⟩
      intro i hi
      exact ((mem_membersFrom_iff hs).mp hi).1
  | case2 start hnone =>
      rw [membersFrom_of_none hnone]
      exact List.Pairwise.nil

theorem mem_toList_iff {s : BitSet} (hs : s.Trim) {i : Nat} :
    i ∈ s.toList ↔ s.contains i = true := by
  simp [toList, mem_membersFrom_iff hs]

theorem pairwise_toList {s : BitSet} (hs : s.Trim) : s.toList.Pairwise (· < ·) :=
  pairwise_membersFrom hs 0

end BitSet

end ForeignCall
