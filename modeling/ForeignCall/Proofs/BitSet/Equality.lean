import ForeignCall.Proofs.BitSet.History

/-! # Equality of bit sets

Sets are compared by their words and lengths, bit by bit. That this is equality as sets
rests on the padding: no history sets a bit past the length, so the words say no more than
which indices are members and how many words there are. -/

namespace ForeignCall.BitSet

theorem Trim.words_eq_iff {s s' : BitSet} (hs : s.Trim) (hs' : s'.Trim)
    (hcount : wordCount s.length = wordCount s'.length) :
    s.words = s'.words ↔ ∀ i, s.contains i = s'.contains i := by
  constructor
  · intro h i
    rw [hs.contains_eq_bit, hs'.contains_eq_bit, bit, bit, h]
  · exact hs.words_eq_of_contains hs' hcount

theorem Trim.eq_iff {s s' : BitSet} (hs : s.Trim) (hs' : s'.Trim) :
    s = s' ↔ s.length = s'.length ∧ ∀ i, s.contains i = s'.contains i := by
  constructor
  · rintro rfl
    exact ⟨rfl, fun _ => rfl⟩
  · rintro ⟨hlength, h⟩
    exact hs.eq_of_contains hs' hlength h

/-- Two sets with histories of their own compare equal where they have one length and the
same members. Of two lengths with one number of words, the length alone tells the sets
apart. -/
structure EqualitySpec (length length' : Nat) (history history' : List (Nat × Bool)) :
    Prop where
  compares : (after length history == after length' history') = true ↔
    length = length' ∧ (after length history).words = (after length' history').words
  equal_iff : (after length history == after length' history') = true ↔
    length = length' ∧ ∀ i, (after length history).contains i = (after length' history').contains i
  equal_iff_last : (after length history == after length' history') = true ↔
    length = length' ∧
      ∀ i, lastUpdate? length i history = some true ↔ lastUpdate? length' i history' = some true
  words_iff : wordCount length = wordCount length' →
    ((after length history).words = (after length' history').words ↔
      ∀ i, (after length history).contains i = (after length' history').contains i)

theorem equality_spec (length length' : Nat) (history history' : List (Nat × Bool)) :
    EqualitySpec length length' history history' := by
  have hs := trim_after length history
  have hs' := trim_after length' history'
  have hequal := hs.eq_iff hs'
  rw [length_after, length_after] at hequal
  have hwords : wordCount length = wordCount length' →
      ((after length history).words = (after length' history').words ↔
        ∀ i, (after length history).contains i = (after length' history').contains i) := by
    intro hcount
    apply hs.words_eq_iff hs'
    rwa [length_after, length_after]
  refine ⟨?_, ?_, ?_, hwords⟩
  · rw [beq_iff_eq, hequal]
    apply and_congr_right
    rintro rfl
    exact (hwords rfl).symm
  · rw [beq_iff_eq, hequal]
  · rw [beq_iff_eq, hequal]
    apply and_congr_right
    intro _
    apply forall_congr'
    intro i
    rw [Bool.eq_iff_iff, (history_spec length history).contains_iff,
      (history_spec length' history').contains_iff]

/-- The sets have the same members in the same two words, and differ in their lengths. -/
example :
    (after 70 [(64, true), (3, true), (3, false)]).words = (after 100 [(64, true)]).words ∧
      (after 70 [(64, true), (3, true), (3, false)] == after 100 [(64, true)]) = false := by
  decide

end ForeignCall.BitSet
