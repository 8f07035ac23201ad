import ForeignCall.BitSet

/-! # Members of bit sets

The words are read as one sequence of bits. A write changes one bit of it, and the bits
past the length stay clear. -/

namespace ForeignCall.BitSet

/-! ## Bits of a list of words -/

/-- Bit `i` of the words; the bits past the last word are clear. -/
def bitAt (words : List (BitVec 64)) (i : Nat) : Bool :=
  (words[i / 64]?.getD 0).getLsbD (i % 64)

@[simp] theorem bitAt_nil (i : Nat) : bitAt [] i = false := by
  simp [bitAt]

theorem bitAt_cons_of_lt (word : BitVec 64) (rest : List (BitVec 64)) {i : Nat} (h : i < 64) :
    bitAt (word :: rest) i = word.getLsbD i := by
  simp [bitAt, Nat.div_eq_of_lt h, Nat.mod_eq_of_lt h]

theorem bitAt_cons_add (word : BitVec 64) (rest : List (BitVec 64)) (i : Nat) :
    bitAt (word :: rest) (i + 64) = bitAt rest i := by
  simp [bitAt]

theorem bitAt_drop (words : List (BitVec 64)) (k i : Nat) :
    bitAt (words.drop k) i = bitAt words (k * 64 + i) := by
  have hword : (k * 64 + i) / 64 = k + i / 64 := by omega
  have hbit : (k * 64 + i) % 64 = i % 64 := by omega
  rw [bitAt, bitAt, List.getElem?_drop, hword, hbit]

theorem bitAt_replicate_zero (n i : Nat) : bitAt (List.replicate n 0#64) i = false := by
  simp only [bitAt, List.getElem?_replicate]
  split <;> simp

theorem getLsbD_writeBit (word : BitVec 64) {i j : Nat} (hi : i < 64) (value : Bool) :
    (writeBit word i value).getLsbD j = if j = i then value else word.getLsbD j := by
  by_cases hj : j < 64
  · cases value with
    | true =>
        by_cases h : i = j
        · simp [writeBit, h, hj]
        · simp [writeBit, h, Ne.symm h]
    | false =>
        by_cases h : i = j
        · simp [writeBit, h, hj]
        · simp [writeBit, Ne.symm h, hj]
  · have hne : j ≠ i := by omega
    rw [BitVec.getLsbD_of_ge _ j (by omega), BitVec.getLsbD_of_ge word j (by omega)]
    simp [hne]

/-- A write into a word of a list changes the one bit. -/
theorem bitAt_set {words : List (BitVec 64)} {i : Nat} (h : i / 64 < words.length)
    (value : Bool) (j : Nat) :
    bitAt (words.set (i / 64) (writeBit words[i / 64] (i % 64) value)) j =
      if j = i then value else bitAt words j := by
  by_cases hword : i / 64 = j / 64
  · have hbit : j % 64 = i % 64 ↔ j = i := by omega
    have hlt : i % 64 < 64 := Nat.mod_lt i (by decide)
    rw [bitAt, ← hword, List.getElem?_set_self h, Option.getD_some, getLsbD_writeBit _ hlt]
    simp only [hbit, bitAt, ← hword, List.getElem?_eq_getElem h, Option.getD_some]
  · have hne : j ≠ i := by
      rintro rfl
      exact hword rfl
    rw [bitAt, List.getElem?_set_ne hword]
    simp [hne, bitAt]

/-! ## Membership -/

/-- Bit `i` of a set's words, whether or not `i` is in range. -/
def bit (s : BitSet) (i : Nat) : Bool :=
  bitAt s.words.toList i

theorem contains_eq (s : BitSet) (i : Nat) : s.contains i = (decide (i < s.length) && s.bit i) := by
  by_cases h : i < s.length
  · have hword := s.div_lt_size h
    simp [contains, bit, bitAt, h, hword]
  · simp [contains, h]

theorem lt_length_of_contains {s : BitSet} {i : Nat} (h : s.contains i = true) :
    i < s.length := by
  rw [contains_eq, Bool.and_eq_true, decide_eq_true_eq] at h
  exact h.1

/-- All bits at or past the length are clear. -/
def Trim (s : BitSet) : Prop :=
  ∀ i, s.bit i = true → i < s.length

theorem Trim.contains_eq_bit {s : BitSet} (h : s.Trim) (i : Nat) : s.contains i = s.bit i := by
  rw [contains_eq]
  cases hbit : s.bit i with
  | false => simp
  | true => simp [h i hbit]

/-- The bits of a word, by their places among all bits. -/
theorem getLsbD_words {s : BitSet} {k : Nat} (hk : k < s.words.size) {offset : Nat}
    (hoffset : offset < 64) : s.words[k].getLsbD offset = s.bit (k * 64 + offset) := by
  have hword : (k * 64 + offset) / 64 = k := by omega
  have hplace : (k * 64 + offset) % 64 = offset := by omega
  simp [bit, bitAt, hword, hplace, hk]

/-- The bits of the words that lie past the length are clear. -/
theorem Trim.getLsbD_words {s : BitSet} (hs : s.Trim) {k : Nat} (hk : k < s.words.size)
    {offset : Nat} (hoffset : offset < 64) (hle : s.length ≤ k * 64 + offset) :
    s.words[k].getLsbD offset = false := by
  rw [BitSet.getLsbD_words hk hoffset]
  apply Bool.eq_false_iff.mpr
  intro hset
  exact Nat.not_lt.mpr hle (hs _ hset)

/-- The words of a set hold nothing but its members, since no bit of a word is left open. -/
theorem Trim.words_eq_of_contains {s s' : BitSet} (hs : s.Trim) (hs' : s'.Trim)
    (hcount : wordCount s.length = wordCount s'.length)
    (h : ∀ i, s.contains i = s'.contains i) : s.words = s'.words := by
  apply Array.ext
  · rw [s.size_words, s'.size_words, hcount]
  · intro k hk hk'
    apply BitVec.eq_of_getLsbD_eq
    intro offset hoffset
    rw [BitSet.getLsbD_words hk hoffset, BitSet.getLsbD_words hk' hoffset,
      ← hs.contains_eq_bit, ← hs'.contains_eq_bit, h]

theorem Trim.eq_of_contains {s s' : BitSet} (hs : s.Trim) (hs' : s'.Trim)
    (hlength : s.length = s'.length) (h : ∀ i, s.contains i = s'.contains i) : s = s' := by
  have hwords := hs.words_eq_of_contains hs' (by rw [hlength]) h
  cases s
  cases s'
  simp_all only

theorem bit_empty (length i : Nat) : (empty length).bit i = false := by
  simpa [bit, empty] using bitAt_replicate_zero (wordCount length) i

theorem contains_empty (length i : Nat) : (empty length).contains i = false := by
  rw [contains_eq, bit_empty, Bool.and_false]

theorem trim_empty (length : Nat) : (empty length).Trim := by
  intro i hbit
  simp [bit_empty] at hbit

/-! ## Updates -/

theorem set_eq_none_iff {s : BitSet} {i : Nat} {member : Bool} :
    s.set i member = none ↔ s.length ≤ i := by
  by_cases h : i < s.length
  · simp [set, h]
  · simp [set, h, Nat.le_of_not_lt h]

/-- An update tells the old membership and changes one bit. -/
structure SetSpec (s : BitSet) (i : Nat) (member was : Bool) (s' : BitSet) : Prop where
  lt : i < s.length
  was_eq : was = s.contains i
  length_eq : s'.length = s.length
  bit_eq : ∀ j, s'.bit j = if j = i then member else s.bit j

theorem set_spec {s s' : BitSet} {i : Nat} {member was : Bool}
    (h : s.set i member = some (was, s')) : SetSpec s i member was s' := by
  unfold set at h
  split at h
  · rename_i hlt
    obtain ⟨rfl, rfl⟩ := Prod.mk.inj (Option.some.inj h)
    refine ⟨hlt, rfl, rfl, ?_⟩
    intro j
    have hword : i / 64 < s.words.toList.length := by simpa using s.div_lt_size hlt
    simpa [bit] using bitAt_set hword member j
  · simp at h

namespace SetSpec

variable {s s' : BitSet} {i : Nat} {member was : Bool}

theorem trim (h : SetSpec s i member was s') (hs : s.Trim) : s'.Trim := by
  intro j hbit
  rw [h.length_eq]
  rw [h.bit_eq] at hbit
  split at hbit
  · rename_i hj
    exact hj ▸ h.lt
  · exact hs j hbit

/-- Afterwards `i` is a member as asked, and all else is as before. -/
theorem contains_eq (h : SetSpec s i member was s') (j : Nat) :
    s'.contains j = if j = i then member else s.contains j := by
  rw [BitSet.contains_eq, BitSet.contains_eq, h.length_eq, h.bit_eq]
  split
  · rename_i hj
    simp [hj, h.lt]
  · rfl

end SetSpec

end ForeignCall.BitSet
