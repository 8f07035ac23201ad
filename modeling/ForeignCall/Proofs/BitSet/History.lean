import Mathlib.Data.List.Induction
import ForeignCall.Proofs.BitSet.Members

/-! # Histories of bit sets

A set is made empty and updated any number of times. One update changes one index or, out
of range, nothing. Over a whole history the last update of an index decides whether it is
a member, and the bits past the length are never touched. -/

namespace ForeignCall.BitSet

/-! ## One update -/

/-- An update as its caller sees it: the answer, and the set afterwards, which is the old
one where the index is refused. -/
def update (s : BitSet) (i : Nat) (member : Bool) : Option Bool × BitSet :=
  match s.set i member with
  | some (was, s') => (some was, s')
  | none => (none, s)

/-- An update is refused, or tells the membership before it and changes one bit. -/
theorem update_cases (s : BitSet) (i : Nat) (member : Bool) :
    (s.length ≤ i ∧ s.update i member = (none, s)) ∨
      ∃ s', s.update i member = (some (s.contains i), s') ∧
        SetSpec s i member (s.contains i) s' := by
  cases hset : s.set i member with
  | none => exact .inl ⟨set_eq_none_iff.mp hset, by rw [update, hset]⟩
  | some result =>
      obtain ⟨was, s'⟩ := result
      have hspec := set_spec hset
      obtain rfl := hspec.was_eq
      exact .inr ⟨s', by rw [update, hset], hspec⟩

theorem length_update (s : BitSet) (i : Nat) (member : Bool) :
    (s.update i member).2.length = s.length := by
  rcases update_cases s i member with ⟨-, hupdate⟩ | ⟨s', hupdate, hspec⟩
  · rw [hupdate]
  · rw [hupdate, hspec.length_eq]

theorem Trim.update {s : BitSet} (hs : s.Trim) (i : Nat) (member : Bool) :
    (s.update i member).2.Trim := by
  rcases update_cases s i member with ⟨-, hupdate⟩ | ⟨s', hupdate, hspec⟩
  · rwa [hupdate]
  · rw [hupdate]
    exact hspec.trim hs

theorem contains_update (s : BitSet) (i : Nat) (member : Bool) (j : Nat) :
    (s.update i member).2.contains j =
      if i = j ∧ i < s.length then member else s.contains j := by
  rcases update_cases s i member with ⟨hle, hupdate⟩ | ⟨s', hupdate, hspec⟩
  · rw [hupdate, if_neg fun h => Nat.not_lt.mpr hle h.2]
  · rw [hupdate, hspec.contains_eq]
    simp only [hspec.lt, and_true, eq_comm]

/-! ## All updates -/

/-- The set of that length after the updates, in their order. -/
def after (length : Nat) (history : List (Nat × Bool)) : BitSet :=
  history.foldl (fun s u => (s.update u.1 u.2).2) (empty length)

/-- What the last update of `j` in range asked for. -/
def lastUpdate? (length j : Nat) (history : List (Nat × Bool)) : Option Bool :=
  ((history.filter fun u => u.1 = j ∧ u.1 < length).getLast?).map (·.2)

section History

variable (length : Nat) (history : List (Nat × Bool))

theorem after_concat (i : Nat) (member : Bool) :
    after length (history ++ [(i, member)]) = ((after length history).update i member).2 := by
  rw [after, List.foldl_append]
  rfl

theorem lastUpdate?_concat (i : Nat) (member : Bool) (j : Nat) :
    lastUpdate? length j (history ++ [(i, member)]) =
      if i = j ∧ i < length then some member else lastUpdate? length j history := by
  rw [lastUpdate?, List.filter_append]
  by_cases h : i = j ∧ i < length
  · obtain ⟨rfl, hi⟩ := h
    simp [hi]
  · simp [h, lastUpdate?]

theorem length_after : (after length history).length = length := by
  induction history using List.reverseRecOn with
  | nil => rfl
  | append_singleton history u ih => rw [after_concat, length_update, ih]

theorem trim_after : (after length history).Trim := by
  induction history using List.reverseRecOn with
  | nil => exact trim_empty length
  | append_singleton history u ih =>
      rw [after_concat]
      exact ih.update u.1 u.2

/-- The last update in range decides. -/
theorem contains_after (j : Nat) :
    (after length history).contains j = (lastUpdate? length j history).getD false := by
  induction history using List.reverseRecOn with
  | nil => exact contains_empty length j
  | append_singleton history u ih =>
      rw [after_concat, contains_update, length_after, lastUpdate?_concat, ih]
      split <;> rfl

theorem contains_after_of_le {j : Nat} (h : length ≤ j) :
    (after length history).contains j = false := by
  apply Bool.eq_false_iff.mpr
  intro hmem
  have hlt := lt_length_of_contains hmem
  rw [length_after] at hlt
  omega

/-! ## The contract of a bounded set -/

/-- Updates in range change the one index that they name, and all others nothing; the last
one of an index counts; the words suffice, and their bits past the length are clear. -/
structure HistorySpec : Prop where
  refused : ∀ i member, length ≤ i →
    (after length history).update i member = (none, after length history)
  answers : ∀ i member, i < length →
    ((after length history).update i member).1 = some ((after length history).contains i)
  changes_one : ∀ i member, i < length → ∀ j,
    ((after length history).update i member).2.contains j =
      if i = j then member else (after length history).contains j
  contains_iff : ∀ j, (after length history).contains j = true ↔
    lastUpdate? length j history = some true
  not_beyond : ∀ j, length ≤ j → (after length history).contains j = false
  size_words : (after length history).words.size = wordCount length
  word_exists : ∀ i, i < length → i / 64 < (after length history).words.size
  padding_clear : ∀ k (h : k < (after length history).words.size) offset, offset < 64 →
    length ≤ k * 64 + offset → (after length history).words[k].getLsbD offset = false

end History

theorem history_spec (length : Nat) (history : List (Nat × Bool)) :
    HistorySpec length history := by
  have hlength := length_after length history
  refine ⟨?_, ?_, ?_, ?_, ?_, ?_, ?_, ?_⟩
  · intro i member hi
    rcases update_cases (after length history) i member with ⟨-, hupdate⟩ | ⟨s', -, hspec⟩
    · exact hupdate
    · have hlt := hspec.lt
      omega
  · intro i member hi
    rcases update_cases (after length history) i member with ⟨hle, -⟩ | ⟨s', hupdate, -⟩
    · omega
    · rw [hupdate]
  · intro i member hi j
    rw [contains_update, hlength]
    simp only [hi, and_true]
  · intro j
    rw [contains_after]
    cases lastUpdate? length j history <;> simp
  · intro j hj
    exact contains_after_of_le length history hj
  · rw [(after length history).size_words, hlength]
  · intro i hi
    apply div_lt_size
    rwa [hlength]
  · intro k hk offset hoffset hle
    apply (trim_after length history).getLsbD_words hk hoffset
    rwa [hlength]

/-- Of the updates of 63 the last one counts, 64 is in the next word, and 70 is refused. -/
example :
    (after 70 [(63, true), (64, true), (70, true), (63, false)]).words.toList = [0, 1] := by
  decide

end ForeignCall.BitSet
