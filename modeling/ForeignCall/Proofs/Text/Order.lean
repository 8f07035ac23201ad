import Mathlib.Data.Prod.Lex
import ForeignCall.Proofs.Text.Stream

/-! # The order of positions

Positions are compared by bytes alone, while people are shown lines and columns. Within one
text this comes to the same: every character takes a byte, and it begins a new line or moves on
within its line. -/

namespace ForeignCall

/-! ## Positions of one text -/

namespace Position

/-- What people are shown, ordered by lines and then by columns. -/
def place (p : Position) : Nat ×ₗ Nat :=
  toLex (p.line, p.column)

theorem beq_iff_offset_eq {p q : Position} : p == q ↔ p.offset = q.offset := by
  change (p.offset == q.offset) = true ↔ _
  exact beq_iff_eq

/-- The position is reached by counting through a first part of the text. -/
def IsIn (p : Position) (text : List Char) : Prop :=
  ∃ before, before <+: text ∧ p = after before

/-- Text ends on a later line than it begins, or further along the same one. -/
theorem place_after_lt (before : List Char) {more : List Char} (h : more ≠ []) :
    (after before).place < (after (before ++ more)).place := by
  rw [place, place, Prod.Lex.toLex_lt_toLex]
  by_cases hbreak : '\n' ∈ more
  · left
    have hcount : 0 < more.count '\n' := List.count_pos_iff.mpr hbreak
    simp only [after, List.count_append]
    omega
  · right
    rw [← afterText_after hbreak]
    exact ⟨rfl, Nat.lt_add_of_pos_right (List.length_pos_iff.mpr h)⟩

theorem after_cases {as bs : List Char} (h : as <+: bs) :
    after as = after bs ∨ after as < after bs ∧ (after as).place < (after bs).place := by
  obtain ⟨more, rfl⟩ := h
  by_cases hmore : more = []
  · left
    rw [hmore, List.append_nil]
  · exact .inr ⟨after_lt as hmore, place_after_lt as hmore⟩

namespace IsIn

variable {p q : Position} {text : List Char}

/-- Positions of one text are the same, or one comes first in both orders. -/
theorem lt_trichotomy (hp : p.IsIn text) (hq : q.IsIn text) :
    p = q ∨ (p < q ∧ p.place < q.place) ∨ (q < p ∧ q.place < p.place) := by
  obtain ⟨before, hbefore, rfl⟩ := hp
  obtain ⟨before', hbefore', rfl⟩ := hq
  rcases List.prefix_or_prefix_of_prefix hbefore hbefore' with h | h
  · exact (after_cases h).imp_right .inl
  · exact (after_cases h).imp Eq.symm .inr

theorem eq_of_offset_eq (hp : p.IsIn text) (hq : q.IsIn text) (h : p.offset = q.offset) :
    p = q := by
  rcases hp.lt_trichotomy hq with heq | ⟨hlt, -⟩ | ⟨hlt, -⟩
  · exact heq
  · exact absurd h (Nat.ne_of_lt hlt)
  · exact absurd h (Nat.ne_of_gt hlt)

theorem lt_iff_place_lt (hp : p.IsIn text) (hq : q.IsIn text) : p < q ↔ p.place < q.place := by
  rcases hp.lt_trichotomy hq with rfl | ⟨hlt, hplace⟩ | ⟨hlt, hplace⟩
  · exact iff_of_false (Nat.lt_irrefl p.offset) (lt_irrefl p.place)
  · exact iff_of_true hlt hplace
  · exact iff_of_false (Nat.lt_asymm hlt) hplace.asymm

end IsIn

end Position

/-! ## Spans -/

namespace Span

theorem lt_iff {a b : Span} : a < b ↔ a.lo < b.lo ∨ a.lo.offset = b.lo.offset ∧ a.hi < b.hi := by
  change (compare a.lo.offset b.lo.offset).then (compare a.hi.offset b.hi.offset) = .lt ↔ _
  rw [Ordering.then_eq_lt, Nat.compare_eq_lt, Nat.compare_eq_eq, Nat.compare_eq_lt]
  rfl

theorem not_lt_self (a : Span) : ¬ a < a := by
  rw [lt_iff]
  rintro (h | ⟨-, h⟩)
  · exact Nat.lt_irrefl _ h
  · exact Nat.lt_irrefl _ h

end Span

/-! ## Tokens along a text -/

theorem isIn_lo (text : String) (n : Nat) : (tokenAt text n).span.lo.IsIn text.toList := by
  obtain ⟨before, spelling, rest, htext, -, hspan⟩ := exists_spelling text n
  rw [hspan, htext, List.append_assoc]
  exact ⟨before, List.prefix_append _ _, rfl⟩

theorem isIn_hi (text : String) (n : Nat) : (tokenAt text n).span.hi.IsIn text.toList := by
  rw [hi_eq_lo_succ]
  exact isIn_lo text (n + 1)

theorem lo_lt_hi_iff (text : String) (n : Nat) :
    (tokenAt text n).span.lo < (tokenAt text n).span.hi ↔ (tokenAt text n).token ≠ .endOfText := by
  constructor
  · intro h hend
    rw [span_of_endOfText hend] at h
    exact Nat.lt_irrefl _ h
  · exact lo_lt_hi

theorem offset_lo_le_hi (text : String) (n : Nat) :
    (tokenAt text n).span.lo.offset ≤ (tokenAt text n).span.hi.offset := by
  by_cases hend : (tokenAt text n).token = .endOfText
  · rw [span_of_endOfText hend]
  · exact Nat.le_of_lt (lo_lt_hi hend)

/-- A token begins where an earlier one ends, or after that. -/
theorem offset_hi_le_lo (text : String) {m n : Nat} (h : m < n) :
    (tokenAt text m).span.hi.offset ≤ (tokenAt text n).span.lo.offset := by
  induction n, h using Nat.le_induction with
  | base => rw [hi_eq_lo_succ]
  | succ n _ ih =>
      rw [← hi_eq_lo_succ]
      exact Nat.le_trans ih (offset_lo_le_hi text n)

/-- Spans go up with every token, until the end of the text is read again and again. -/
theorem span_lt_iff (text : String) (m n : Nat) :
    (tokenAt text m).span < (tokenAt text n).span ↔
      m < n ∧ (tokenAt text m).token ≠ .endOfText := by
  constructor
  · intro h
    rcases Nat.lt_trichotomy m n with hmn | rfl | hnm
    · refine ⟨hmn, fun hend => ?_⟩
      have hlater := (tokenAt_eq_endOfText_iff text m).mp hend
      have hend' := (tokenAt_eq_endOfText_iff text n).mpr (by omega)
      rw [span_of_endOfText hend, span_of_endOfText hend'] at h
      exact absurd h (Span.not_lt_self _)
    · exact absurd h (Span.not_lt_self _)
    · have hm := offset_lo_le_hi text m
      have hn := offset_lo_le_hi text n
      have hle := offset_hi_le_lo text hnm
      rcases Span.lt_iff.mp h with hlo | ⟨-, hhi⟩
      · exact absurd (Nat.le_trans hn hle) (Nat.not_le_of_lt hlo)
      · exact absurd (Nat.le_trans hle hm) (Nat.not_le_of_lt hhi)
  · rintro ⟨hmn, hend⟩
    exact Span.lt_iff.mpr (.inl (Nat.lt_of_lt_of_le (lo_lt_hi hend) (offset_hi_le_lo text hmn)))

/-! ## The contract of the order -/

/-- One of the tokens begins or ends at the position. -/
def Position.Bounds (p : Position) (tokens : Nat → LocatedToken) : Prop :=
  ∃ n, p = (tokens n).span.lo ∨ p = (tokens n).span.hi

/-- Bytes tell the ends of the tokens apart and put them in the order of lines and columns. Of
two tokens the later one has the greater span, unless both are the end of the text. -/
structure OrderSpec (tokens : Nat → LocatedToken) : Prop where
  beq_iff : ∀ p q : Position, p.Bounds tokens → q.Bounds tokens →
    (p == q ↔ p.line = q.line ∧ p.column = q.column ∧ p.offset = q.offset)
  lt_iff : ∀ p q : Position, p.Bounds tokens → q.Bounds tokens →
    (p < q ↔ toLex (p.line, p.column) < toLex (q.line, q.column))
  lo_lt_hi_iff : ∀ n, (tokens n).span.lo < (tokens n).span.hi ↔ (tokens n).token ≠ .endOfText
  span_lt_iff : ∀ m n, (tokens m).span < (tokens n).span ↔
    m < n ∧ (tokens m).token ≠ .endOfText

theorem Position.Bounds.isIn {p : Position} {text : String} (h : p.Bounds (tokenAt text)) :
    p.IsIn text.toList := by
  obtain ⟨n, rfl | rfl⟩ := h
  · exact isIn_lo text n
  · exact isIn_hi text n

theorem orderSpec_tokenAt (text : String) : OrderSpec (tokenAt text) := by
  refine ⟨?_, fun p q hp hq => hp.isIn.lt_iff_place_lt hq.isIn, lo_lt_hi_iff text,
    span_lt_iff text⟩
  intro p q hp hq
  constructor
  · intro h
    obtain rfl := hp.isIn.eq_of_offset_eq hq.isIn (Position.beq_iff_offset_eq.mp h)
    exact ⟨rfl, rfl, rfl⟩
  · rintro ⟨-, -, hoffset⟩
    exact Position.beq_iff_offset_eq.mpr hoffset

/-- To leave out tokens keeps the order of the others. -/
theorem OrderSpec.comp {tokens : Nat → LocatedToken} {number : Nat → Nat}
    (h : OrderSpec tokens) (hnumber : StrictMono number) :
    OrderSpec fun k => tokens (number k) := by
  have hbounds : ∀ {p : Position}, p.Bounds (fun k => tokens (number k)) → p.Bounds tokens :=
    fun ⟨k, hk⟩ => ⟨number k, hk⟩
  refine ⟨fun p q hp hq => h.beq_iff p q (hbounds hp) (hbounds hq),
    fun p q hp hq => h.lt_iff p q (hbounds hp) (hbounds hq),
    fun k => h.lo_lt_hi_iff (number k), fun j k => ?_⟩
  rw [h.span_lt_iff, hnumber.lt_iff_lt]

/-- The tokens of every text are in order, all of them and those that a stream gives out, which
are some of them. -/
theorem tokens_ordered (text : String) :
    OrderSpec (tokenAt text) ∧ OrderSpec (significantAt text) ∧
      ∃ number : Nat → Nat, StrictMono number ∧
        ∀ k, significantAt text k = tokenAt text (number k) := by
  have hnumber : StrictMono (significantNumber text) :=
    strictMono_nat_of_lt_succ (significantNumber_lt_succ text)
  have hsome : significantAt text = fun k => tokenAt text (significantNumber text k) :=
    funext (significantAt_eq text)
  refine ⟨orderSpec_tokenAt text, ?_, significantNumber text, hnumber, significantAt_eq text⟩
  rw [hsome]
  exact (orderSpec_tokenAt text).comp hnumber

/-- Positions of two texts may have the same bytes before them and be on different lines. -/
example : (tokenAt "ab" 1).span.lo == (tokenAt "a\n" 2).span.lo ∧
    (tokenAt "ab" 1).span.lo.line ≠ (tokenAt "a\n" 2).span.lo.line :=
  ⟨rfl, by decide⟩

end ForeignCall
