import ForeignCall.Text.Position
import ForeignCall.Text.Token

/-!
# Streams of tokens

A reader cuts one token after another off a text and keeps count of its position. A token stream is
a reader that skips blanks and comments and stays one token ahead, so that the next token can be
looked at before it is taken. After the last token the end of the text is read, any number of times.
-/

namespace ForeignCall

structure LocatedToken where
  token : Token
  span : Span

structure Reader where
  rest : List Char
  position : Position

namespace Reader

def ofText (text : String) : Reader :=
  ⟨text.toList, .start⟩

/-- The position after a token. Only line breaks begin a new line. -/
def positionAfter (p : Position) (x : Lexeme) : Position :=
  match x.token with
  | .newline => p.afterBreak x.spelling
  | _ => p.afterText x.spelling

/-- The next token, skipped ones included. -/
def next (r : Reader) : LocatedToken × Reader :=
  match Lexeme.first? r.rest with
  | none => (⟨.endOfText, r.position, r.position⟩, r)
  | some x =>
    let after := positionAfter r.position x
    (⟨x.token, r.position, after⟩, ⟨x.rest, after⟩)

theorem length_rest_next_lt {r : Reader} (h : r.next.1.token ≠ .endOfText) :
    r.next.2.rest.length < r.rest.length := by
  unfold next at h ⊢
  split
  · rename_i hnone
    simp [hnone] at h
  · rename_i x hx
    exact Lexeme.length_rest_lt hx

theorem ne_endOfText_of_isSkipped {t : Token} (h : t.isSkipped) : t ≠ .endOfText := by
  rintro rfl
  simp [Token.isSkipped] at h

/-- The next token that is not skipped. -/
def nextSignificant (r : Reader) : LocatedToken × Reader :=
  if r.next.1.token.isSkipped then r.next.2.nextSignificant else r.next
termination_by r.rest.length
decreasing_by
  apply length_rest_next_lt
  apply ne_endOfText_of_isSkipped
  assumption

end Reader

/-- A text as a parser reads it: the next token, and the reader past it. -/
structure TokenStream where
  head : LocatedToken
  reader : Reader

namespace TokenStream

def ofReader (r : Reader) : TokenStream :=
  ⟨r.nextSignificant.1, r.nextSignificant.2⟩

def ofText (text : String) : TokenStream :=
  ofReader (Reader.ofText text)

/-- The stream after its next token. -/
def tail (s : TokenStream) : TokenStream :=
  ofReader s.reader

/-- A line ends at a line break or at the end of the text. -/
def atLineEnd (s : TokenStream) : Bool :=
  s.head.token = .newline ∨ s.head.token = .endOfText

/-! ## What is left to read -/

/-- The characters not read, and one for the token ahead unless that is the end of the text. -/
def size (s : TokenStream) : Nat :=
  s.reader.rest.length + if s.head.token = .endOfText then 0 else 1

theorem size_ofReader_le (r : Reader) : (ofReader r).size ≤ r.rest.length := by
  unfold ofReader size
  fun_induction Reader.nextSignificant r with
  | case1 r h ih =>
    have := Reader.length_rest_next_lt (Reader.ne_endOfText_of_isSkipped h)
    omega
  | case2 r h =>
    split
    · rename_i hend
      unfold Reader.next at hend ⊢
      split
      · simp
      · rename_i x hx
        have := Lexeme.length_rest_lt hx
        simp only [Nat.add_zero]
        omega
    · rename_i hend
      have := Reader.length_rest_next_lt hend
      change r.next.2.rest.length + 1 ≤ _
      omega

/-- Taking a token brings the end of the text nearer. -/
theorem size_tail_lt {s : TokenStream} (h : s.head.token ≠ .endOfText) :
    s.tail.size < s.size := by
  have := size_ofReader_le s.reader
  unfold tail
  simp only [size, h] at this ⊢
  simp only [reduceIte]
  omega

theorem size_tail_le (s : TokenStream) : s.tail.size ≤ s.size := by
  have := size_ofReader_le s.reader
  have : s.reader.rest.length ≤ s.size := Nat.le_add_right _ _
  unfold tail
  omega

end TokenStream

end ForeignCall
