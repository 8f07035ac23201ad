/-!
# Positions and spans

Positions in a text count lines and columns for people and bytes for comparing: two positions of one
text are the same place when their byte offsets agree.
-/

namespace ForeignCall

structure Position where
  /-- Counted from 1. -/
  line : Nat
  /-- Counted in characters, from 1. -/
  column : Nat
  /-- Counted in bytes of UTF-8, from 0. -/
  offset : Nat

/-- The number of bytes that the characters take in UTF-8. -/
def utf8Length : List Char → Nat
  | [] => 0
  | c :: cs => c.utf8Size + utf8Length cs

namespace Position

def start : Position :=
  ⟨1, 1, 0⟩

/-- The largest 64-bit number stands for a part that is not known. -/
def unknownPart : Nat :=
  0xFFFFFFFFFFFFFFFF

def unknown : Position :=
  ⟨unknownPart, unknownPart, unknownPart⟩

/-- The position after text within a line. -/
def afterText (p : Position) (cs : List Char) : Position :=
  ⟨p.line, p.column + cs.length, p.offset + utf8Length cs⟩

/-- The position after a line break spelled `cs`. -/
def afterBreak (p : Position) (cs : List Char) : Position :=
  ⟨p.line + 1, 1, p.offset + utf8Length cs⟩

instance : BEq Position where
  beq p q := p.offset == q.offset

instance : Ord Position where
  compare p q := compare p.offset q.offset

instance : LT Position where
  lt p q := p.offset < q.offset

instance (p q : Position) : Decidable (p < q) :=
  inferInstanceAs (Decidable (p.offset < q.offset))

def text (p : Position) : String :=
  if p.offset = unknownPart then "Pos::dummy()"
  else
    "Pos(line " ++ toString p.line ++ ", col " ++ toString p.column ++
      ", off " ++ toString p.offset ++ ")"

end Position

/-- The text from `lo` up to `hi`. -/
structure Span where
  lo : Position
  hi : Position

namespace Span

def unknown : Span :=
  ⟨.unknown, .unknown⟩

instance : BEq Span where
  beq a b := a.lo == b.lo && a.hi == b.hi

/-- Spans are ordered by their starts, then by their ends. -/
instance : Ord Span where
  compare a b := (compare a.lo b.lo).then (compare a.hi b.hi)

instance : LT Span where
  lt a b := compare a b = .lt

instance (a b : Span) : Decidable (a < b) :=
  inferInstanceAs (Decidable (compare a b = .lt))

def text (s : Span) : String :=
  "Span \x7b lo: " ++ s.lo.text ++ ", hi: " ++ s.hi.text ++ " \x7d"

end Span

end ForeignCall
