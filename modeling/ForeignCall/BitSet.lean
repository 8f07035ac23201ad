/-!
# Bounded bit sets

A set of indices below a length fixed when the set is made, packed into words of 64 bits. Indices at
or past the length are refused, so the bits of the last word past the length stay clear; that is why
two sets of one length with the same members are the same value, and why a scan may run over whole
words.
-/

namespace ForeignCall

/-- The number of 64-bit words that hold `length` bits. -/
def BitSet.wordCount (length : Nat) : Nat :=
  (length + 63) / 64

structure BitSet where
  length : Nat
  words : Array (BitVec 64)
  size_words : words.size = BitSet.wordCount length
deriving DecidableEq

namespace BitSet

theorem div_lt_wordCount {i length : Nat} (h : i < length) : i / 64 < wordCount length := by
  unfold wordCount
  omega

/-- The word that holds index `i` exists for every index below the length. -/
theorem div_lt_size (s : BitSet) {i : Nat} (h : i < s.length) : i / 64 < s.words.size :=
  s.size_words ▸ div_lt_wordCount h

def empty (length : Nat) : BitSet where
  length := length
  words := Array.replicate (wordCount length) 0
  size_words := Array.size_replicate

/-- Membership; nothing at or past the length is a member. -/
def contains (s : BitSet) (i : Nat) : Bool :=
  if h : i < s.length then
    have := s.div_lt_size h
    s.words[i / 64].getLsbD (i % 64)
  else false

/-- The word with bit `i` changed to `value`. -/
def writeBit (word : BitVec 64) (i : Nat) (value : Bool) : BitVec 64 :=
  if value then word ||| BitVec.twoPow 64 i else word &&& ~~~BitVec.twoPow 64 i

/-- Puts `i` into the set or takes it out, and says whether it was a member before. An index out of
range is refused. -/
def set (s : BitSet) (i : Nat) (member : Bool) : Option (Bool × BitSet) :=
  if h : i < s.length then
    have bound := s.div_lt_size h
    some (s.contains i,
      { length := s.length
        words := s.words.set (i / 64) (writeBit s.words[i / 64] (i % 64) member)
        size_words := by rw [Array.size_set, s.size_words] })
  else none

/-! ## Scanning -/

/-- The lowest set bit of the word at or above bit `start`. -/
def lowestFrom (word : BitVec 64) (start : Nat) : Option Nat :=
  (List.range 64).find? fun bit => start ≤ bit && word.getLsbD bit

/-- The least index at or above bit `start` of the first word, where the first word's bit 0 has
index `base`. -/
def leastIn : List (BitVec 64) → Nat → Nat → Option Nat
  | [], _, _ => none
  | word :: rest, base, start =>
    match lowestFrom word start with
    | some bit => some (base + bit)
    | none => leastIn rest (base + 64) 0

/-- The least member at or above `start`. -/
def least? (s : BitSet) (start : Nat) : Option Nat :=
  if start < s.length then
    leastIn (s.words.toList.drop (start / 64)) (start / 64 * 64) (start % 64)
  else none

theorem le_of_lowestFrom {word : BitVec 64} {start bit : Nat}
    (h : lowestFrom word start = some bit) : start ≤ bit := by
  have := List.find?_some h
  simp only [Bool.and_eq_true, decide_eq_true_eq] at this
  exact this.1

theorem le_of_leastIn {words : List (BitVec 64)} {base start i : Nat} (hstart : start ≤ 64)
    (h : leastIn words base start = some i) : base + start ≤ i := by
  induction words generalizing base start with
  | nil => simp [leastIn] at h
  | cons word rest ih =>
    unfold leastIn at h
    split at h
    · rename_i bit hbit
      have := le_of_lowestFrom hbit
      simp only [Option.some.injEq] at h
      omega
    · have := ih (Nat.zero_le 64) h
      omega

theorem le_of_least? {s : BitSet} {start i : Nat} (h : s.least? start = some i) : start ≤ i := by
  unfold least? at h
  split at h
  · have := le_of_leastIn (by omega) h
    omega
  · simp at h

theorem lt_length_of_least? {s : BitSet} {start i : Nat} (h : s.least? start = some i) :
    start < s.length := by
  unfold least? at h
  split at h
  · assumption
  · simp at h

/-- A scan of a set: the members below `position` have been given out. -/
structure Scan where
  set : BitSet
  position : Nat

def scan (s : BitSet) : Scan :=
  ⟨s, 0⟩

/-- Gives out the next member. At the end the scan moves to the set's length and stays there. -/
def Scan.next (scan : Scan) : Option Nat × Scan :=
  match scan.set.least? scan.position with
  | some i => (some i, { scan with position := i + 1 })
  | none => (none, { scan with position := max scan.position scan.set.length })

/-- The members at or above `start`, in ascending order. -/
def membersFrom (s : BitSet) (start : Nat) : List Nat :=
  match h : s.least? start with
  | some i => i :: s.membersFrom (i + 1)
  | none => []
termination_by s.length - start
decreasing_by
  have := le_of_least? h
  have := lt_length_of_least? h
  omega

/-- The members in ascending order. -/
def toList (s : BitSet) : List Nat :=
  s.membersFrom 0

end BitSet

end ForeignCall
