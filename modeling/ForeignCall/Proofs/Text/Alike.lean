import ForeignCall.Proofs.Text.Stream

/-! # Streams with the same tokens

What takes tokens from a stream sees no more of the text than the tokens and their places.
Two streams are alike where only the places differ, in a way that is known. A stream whose
text has been moved down in a longer text is alike to what it was. -/

namespace ForeignCall

namespace TokenStream

/-- The streams go on with the same tokens, the places of which are related. -/
def Alike (related : Span → Span → Prop) (s s' : TokenStream) : Prop :=
  ∀ n, (s.drop n).head.token = (s'.drop n).head.token ∧
    related (s.drop n).head.span (s'.drop n).head.span

namespace Alike

variable {related : Span → Span → Prop} {s s' : TokenStream}

theorem token_eq (h : s.Alike related s') : s.head.token = s'.head.token :=
  (h 0).1

theorem span (h : s.Alike related s') : related s.head.span s'.head.span :=
  (h 0).2

theorem tail (h : s.Alike related s') : s.tail.Alike related s'.tail :=
  fun n => h (n + 1)

theorem atLineEnd_eq (h : s.Alike related s') : s.atLineEnd = s'.atLineEnd := by
  rw [TokenStream.atLineEnd, TokenStream.atLineEnd, h.token_eq]

end Alike

end TokenStream

/-! ## Readers that go in step -/

/-- The readers give out the same token at related places, and are related after it. -/
structure Reader.StepsAlike (related : Span → Span → Prop) (relation : Reader → Reader → Prop)
    (r r' : Reader) : Prop where
  token_eq : r.next.1.token = r'.next.1.token
  span : related r.next.1.span r'.next.1.span
  next : relation r.next.2 r'.next.2

namespace TokenStream

section Steps

variable {related : Span → Span → Prop} {relation : Reader → Reader → Prop}
  (hstep : ∀ r r', relation r r' → r.StepsAlike related relation r')

include hstep

/-- Skipping keeps the readers in step, since they skip the same tokens. -/
theorem ofReader_steps {r r' : Reader} (h : relation r r') :
    (ofReader r).head.token = (ofReader r').head.token ∧
      related (ofReader r).head.span (ofReader r').head.span ∧
      relation (ofReader r).reader (ofReader r').reader := by
  induction r using Reader.nextSignificant.induct generalizing r' with
  | case1 r hskipped ih =>
      have hsame := hstep r r' h
      have hskipped' : r'.next.1.token.isSkipped := hsame.token_eq ▸ hskipped
      rw [ofReader_of_isSkipped hskipped, ofReader_of_isSkipped hskipped']
      exact ih hsame.next
  | case2 r hskipped =>
      have hsame := hstep r r' h
      have hskipped' : ¬ r'.next.1.token.isSkipped := hsame.token_eq ▸ hskipped
      rw [ofReader_of_not_isSkipped hskipped, ofReader_of_not_isSkipped hskipped']
      exact ⟨hsame.token_eq, hsame.span, hsame.next⟩

theorem alike_of_steps {r r' : Reader} (h : relation r r') :
    (ofReader r).Alike related (ofReader r') := by
  intro n
  induction n generalizing r r' with
  | zero =>
      obtain ⟨htoken, hspan, -⟩ := ofReader_steps hstep h
      exact ⟨htoken, hspan⟩
  | succ n ih =>
      obtain ⟨-, -, hnext⟩ := ofReader_steps hstep h
      exact ih hnext

end Steps

end TokenStream

/-! ## Moving a text -/

/-- The position in a text before which so many lines have been put, of so many bytes. -/
def Position.shift (p : Position) (lines bytes : Nat) : Position :=
  ⟨p.line + lines, p.column, p.offset + bytes⟩

def Span.shift (s : Span) (lines bytes : Nat) : Span :=
  ⟨s.lo.shift lines bytes, s.hi.shift lines bytes⟩

def LocatedToken.shift (x : LocatedToken) (lines bytes : Nat) : LocatedToken :=
  ⟨x.token, x.span.shift lines bytes⟩

namespace Reader

def shift (r : Reader) (lines bytes : Nat) : Reader :=
  ⟨r.rest, r.position.shift lines bytes⟩

variable (lines bytes : Nat)

@[simp] theorem rest_shift (r : Reader) : (r.shift lines bytes).rest = r.rest := rfl

@[simp] theorem position_shift (r : Reader) :
    (r.shift lines bytes).position = r.position.shift lines bytes := rfl

theorem positionAfter_shift (p : Position) (x : Lexeme) :
    positionAfter (p.shift lines bytes) x = (positionAfter p x).shift lines bytes := by
  unfold positionAfter
  split
  · simp only [Position.afterBreak, Position.shift, Nat.add_right_comm]
  · simp only [Position.afterText, Position.shift, Nat.add_right_comm]

theorem next_shift (r : Reader) :
    (r.shift lines bytes).next = (r.next.1.shift lines bytes, r.next.2.shift lines bytes) := by
  cases hfirst : Lexeme.first? r.rest with
  | none =>
      have hnil := Lexeme.first?_eq_none_iff.mp hfirst
      rw [next_of_nil hnil, next_of_nil (by rw [rest_shift, hnil])]
      rfl
  | some x =>
      rw [next_of_first? hfirst, next_of_first? (x := x) (by rw [rest_shift, hfirst]),
        position_shift, positionAfter_shift]
      rfl

theorem nextSignificant_shift (r : Reader) : (r.shift lines bytes).nextSignificant =
    (r.nextSignificant.1.shift lines bytes, r.nextSignificant.2.shift lines bytes) := by
  fun_induction nextSignificant r with
  | case1 r hskipped ih =>
      rw [nextSignificant, next_shift]
      exact (if_pos hskipped).trans ih
  | case2 r hskipped =>
      rw [nextSignificant, next_shift]
      exact if_neg hskipped

end Reader

namespace TokenStream

def shift (s : TokenStream) (lines bytes : Nat) : TokenStream :=
  ⟨s.head.shift lines bytes, s.reader.shift lines bytes⟩

variable (lines bytes : Nat)

theorem ofReader_shift (r : Reader) :
    ofReader (r.shift lines bytes) = (ofReader r).shift lines bytes := by
  rw [ofReader, Reader.nextSignificant_shift]
  rfl

theorem drop_shift (s : TokenStream) (n : Nat) :
    (s.shift lines bytes).drop n = (s.drop n).shift lines bytes := by
  induction n generalizing s with
  | zero => rfl
  | succ n ih =>
      have htail : (s.shift lines bytes).tail = s.tail.shift lines bytes :=
        ofReader_shift lines bytes s.reader
      rw [drop_succ, htail, ih, drop_succ]

theorem alike_shift (s : TokenStream) :
    s.Alike (fun span span' => span' = span.shift lines bytes) (s.shift lines bytes) := by
  intro n
  rw [drop_shift]
  exact ⟨rfl, rfl⟩

end TokenStream

end ForeignCall
