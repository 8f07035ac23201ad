import ForeignCall.Proofs.BitSet.History
import ForeignCall.Proofs.BitSet.Scan

/-! # Iterations over bit sets

A scan is asked for the next member again and again. What it has still to give out are the
members from its position on; each call takes the first of them off, so the call numbered
`n` answers with the member in place `n`. -/

namespace ForeignCall.BitSet

/-! ## The least member, as a condition -/

theorem IsLeastFrom.unique {bits : Nat → Bool} {start i j : Nat} (hi : IsLeastFrom bits start i)
    (hj : IsLeastFrom bits start j) : i = j := by
  rcases Nat.lt_trichotomy i j with hlt | rfl | hlt
  · have := hj.2.2 i hi.1 hlt
    simp [hi.2.1] at this
  · rfl
  · have := hi.2.2 j hj.1 hlt
    simp [hj.2.1] at this

section Trim

variable {s : BitSet} {start i : Nat}

theorem least?_eq_none_iff (hs : s.Trim) :
    s.least? start = none ↔ ∀ i, start ≤ i → s.contains i = false := by
  constructor
  · intro h i hi
    exact least?_eq_none hs h hi
  · intro h
    cases hleast : s.least? start with
    | none => rfl
    | some i =>
        obtain ⟨hle, hmem, -⟩ := least?_eq_some hs hleast
        simp [h i hle] at hmem

theorem least?_eq_some_iff (hs : s.Trim) :
    s.least? start = some i ↔ IsLeastFrom s.contains start i := by
  constructor
  · exact least?_eq_some hs
  · intro h
    cases hleast : s.least? start with
    | none =>
        have hmem := h.2.1
        simp [least?_eq_none hs hleast h.1] at hmem
    | some j => rw [(least?_eq_some hs hleast).unique h]

/-- The listed members are the indices in range that the set contains. -/
theorem toList_eq_filter (hs : s.Trim) : s.toList = (List.range s.length).filter s.contains := by
  apply eq_of_pairwise_lt (pairwise_toList hs) (List.pairwise_lt_range.filter _)
  intro i
  rw [mem_toList_iff hs, List.mem_filter, List.mem_range]
  constructor
  · intro hi
    exact ⟨lt_length_of_contains hi, hi⟩
  · rintro ⟨-, hi⟩
    exact hi

end Trim

/-! ## One call -/

namespace Scan

/-- The members that are still to be given out. -/
def rest (scan : Scan) : List Nat :=
  scan.set.membersFrom scan.position

/-- A call gives out the least member from the position on and moves past it, or moves to
the end. -/
theorem next_cases (scan : Scan) :
    (∃ i, scan.set.least? scan.position = some i ∧
      scan.next = (some i, ⟨scan.set, i + 1⟩)) ∨
    (scan.set.least? scan.position = none ∧
      scan.next = (none, ⟨scan.set, max scan.position scan.set.length⟩)) := by
  cases h : scan.set.least? scan.position with
  | some i => exact .inl ⟨i, rfl, by rw [next, h]⟩
  | none => exact .inr ⟨rfl, by rw [next, h]⟩

theorem fst_next (scan : Scan) : scan.next.1 = scan.set.least? scan.position := by
  rcases scan.next_cases with ⟨i, hleast, hnext⟩ | ⟨hleast, hnext⟩ <;> rw [hnext, hleast]

theorem set_next (scan : Scan) : scan.next.2.set = scan.set := by
  rcases scan.next_cases with ⟨i, -, hnext⟩ | ⟨-, hnext⟩ <;> rw [hnext]

theorem answer_next (scan : Scan) : scan.next.1 = scan.rest.head? := by
  rcases scan.next_cases with ⟨i, hleast, hnext⟩ | ⟨hleast, hnext⟩
  · rw [hnext, rest, membersFrom_of_some hleast, List.head?_cons]
  · rw [hnext, rest, membersFrom_of_none hleast, List.head?_nil]

theorem rest_next (scan : Scan) : scan.next.2.rest = scan.rest.tail := by
  rcases scan.next_cases with ⟨i, hleast, hnext⟩ | ⟨hleast, hnext⟩
  · rw [hnext, rest, rest, membersFrom_of_some hleast, List.tail_cons]
  · rw [hnext, rest, rest, membersFrom_of_none hleast, List.tail_nil]
    apply membersFrom_of_none
    rw [least?, if_neg]
    exact Nat.not_lt.mpr (Nat.le_max_right _ _)

/-- The position never passes the end. -/
theorem position_next_le {scan : Scan} (hs : scan.set.Trim)
    (h : scan.position ≤ scan.set.length) : scan.next.2.position ≤ scan.set.length := by
  rcases scan.next_cases with ⟨i, hleast, hnext⟩ | ⟨-, hnext⟩
  · rw [hnext]
    exact lt_length_of_contains (least?_eq_some hs hleast).2.1
  · rw [hnext]
    exact Nat.max_le.mpr ⟨h, Nat.le_refl _⟩

/-! ## All calls -/

/-- The scan after that many calls. -/
def skip (scan : Scan) : Nat → Scan
  | 0 => scan
  | n + 1 => (scan.skip n).next.2

/-- The answer of the call numbered `n`, the first one being number 0. -/
def answer (scan : Scan) (n : Nat) : Option Nat :=
  (scan.skip n).next.1

theorem set_skip (scan : Scan) (n : Nat) : (scan.skip n).set = scan.set := by
  induction n with
  | zero => rfl
  | succ n ih => rw [skip, set_next, ih]

theorem rest_skip (scan : Scan) (n : Nat) : (scan.skip n).rest = scan.rest.drop n := by
  induction n with
  | zero => rfl
  | succ n ih => rw [skip, rest_next, ih, List.tail_drop]

theorem answer_eq (scan : Scan) (n : Nat) : scan.answer n = scan.rest[n]? := by
  rw [answer, answer_next, rest_skip, List.head?_drop]

/-- After a member has been given out, the next call starts right past it. -/
theorem answer_succ {scan : Scan} {n r : Nat} (h : scan.answer n = some r) :
    scan.answer (n + 1) = scan.set.least? (r + 1) := by
  rw [answer, skip, fst_next, set_next, set_skip]
  rcases (scan.skip n).next_cases with ⟨i, -, hnext⟩ | ⟨-, hnext⟩
  · rw [answer, hnext] at h
    obtain rfl := Option.some.inj h
    rw [hnext]
  · rw [answer, hnext] at h
    cases h

theorem position_skip_le (scan : Scan) (hs : scan.set.Trim)
    (h : scan.position ≤ scan.set.length) (n : Nat) :
    (scan.skip n).position ≤ scan.set.length := by
  induction n with
  | zero => exact h
  | succ n ih =>
      rw [← set_skip scan n] at hs ih ⊢
      exact position_next_le hs ih

/-- In a set whose padding is clear, the answers are in the places of the members. -/
theorem answer_scan {s : BitSet} (hs : s.Trim) (n : Nat) :
    s.scan.answer n = ((List.range s.length).filter s.contains)[n]? := by
  rw [answer_eq, ← toList_eq_filter hs]
  rfl

theorem answer_lt_answer {s : BitSet} (hs : s.Trim) {m n i j : Nat} (hmn : m < n)
    (hi : s.scan.answer m = some i) (hj : s.scan.answer n = some j) : i < j := by
  rw [answer_scan hs] at hi hj
  obtain ⟨hm, rfl⟩ := List.getElem?_eq_some_iff.mp hi
  obtain ⟨hn, rfl⟩ := List.getElem?_eq_some_iff.mp hj
  apply List.pairwise_iff_getElem.mp (List.pairwise_lt_range.filter _)
  exact hmn

theorem answer_eq_none_of_le {scan : Scan} {m n : Nat} (hmn : m ≤ n)
    (h : scan.answer m = none) : scan.answer n = none := by
  rw [answer_eq, List.getElem?_eq_none_iff] at h ⊢
  exact Nat.le_trans h hmn

end Scan

/-! ## The contract of an iteration -/

/-- Over its calls a scan gives out the members in range, in ascending order and each
once, and then nothing any more; each call reads words that exist. -/
structure IterationSpec (length : Nat) (history : List (Nat × Bool)) : Prop where
  lists : (after length history).toList =
    (List.range length).filter (after length history).contains
  answer_eq : ∀ n, (after length history).scan.answer n =
    ((List.range length).filter (after length history).contains)[n]?
  yields_iff : ∀ i, (∃ n, (after length history).scan.answer n = some i) ↔
    i < length ∧ (after length history).contains i = true
  ascending : ∀ m n i j, m < n → (after length history).scan.answer m = some i →
    (after length history).scan.answer n = some j → i < j
  least_next : ∀ n r, (after length history).scan.answer n = some r → ∀ i,
    (after length history).scan.answer (n + 1) = some i ↔
      IsLeastFrom (after length history).contains (r + 1) i
  none_next : ∀ n r, (after length history).scan.answer n = some r →
    ((after length history).scan.answer (n + 1) = none ↔
      ∀ i, r < i → (after length history).contains i = false)
  stays_none : ∀ m n, m ≤ n → (after length history).scan.answer m = none →
    (after length history).scan.answer n = none
  position_le : ∀ n, ((after length history).scan.skip n).position ≤ length
  word_exists : ∀ n, ((after length history).scan.skip n).position < length →
    ((after length history).scan.skip n).position / 64 < (after length history).words.size

theorem iteration_spec (length : Nat) (history : List (Nat × Bool)) :
    IterationSpec length history := by
  have hs := trim_after length history
  have hlength := length_after length history
  have hanswer : ∀ n, (after length history).scan.answer n =
      ((List.range length).filter (after length history).contains)[n]? := by
    intro n
    rw [Scan.answer_scan hs, hlength]
  refine ⟨?_, hanswer, ?_, ?_, ?_, ?_, ?_, ?_, ?_⟩
  · rw [toList_eq_filter hs, hlength]
  · intro i
    simp only [hanswer]
    rw [← List.mem_iff_getElem?, List.mem_filter, List.mem_range]
  · intro m n i j hmn hi hj
    exact Scan.answer_lt_answer hs hmn hi hj
  · intro n r hr i
    rw [Scan.answer_succ hr]
    exact least?_eq_some_iff hs
  · intro n r hr
    rw [Scan.answer_succ hr]
    exact least?_eq_none_iff hs
  · intro m n hmn hm
    exact Scan.answer_eq_none_of_le hmn hm
  · intro n
    have hle : ((after length history).scan.skip n).position ≤ (after length history).length :=
      (after length history).scan.position_skip_le hs (Nat.zero_le _) n
    exact Nat.le_trans hle (Nat.le_of_eq hlength)
  · intro n hn
    apply div_lt_size
    rwa [hlength]

/-- A member at the end of a word, none in the word after it, and one in the last word. -/
example : (after 200 [(63, true), (199, true), (0, false)]).toList = [63, 199] := by
  decide +kernel

end ForeignCall.BitSet
