/-!
# Tokens of the signature format

The text of call signatures is made of words, numbers, colons and commas. A line break ends a
signature and so is a token; blanks and comments are tokens that readers skip. At each place the
longest possible token is taken, and any character that begins no token is a token of its own.
-/

namespace ForeignCall

inductive Token where
  | colon
  | comma
  | newline
  | blank (text : String)
  | comment (text : String)
  | word (text : String)
  | number (digits : String)
  /-- A character with no place in the format. -/
  | stray (c : Char)
  | endOfText
deriving DecidableEq

namespace Token

/-- How messages speak of the token. -/
def text : Token → String
  | colon => "':'"
  | comma => "','"
  | newline => "newline"
  | blank _ => "whitespace"
  | comment _ => "comment"
  | word text => "identifier '" ++ text ++ "'"
  | number digits => "'" ++ digits ++ "'"
  | stray c => "'" ++ String.singleton c ++ "'"
  | endOfText => "end of file"

def isSkipped : Token → Bool
  | blank _ | comment _ => true
  | _ => false

end Token

/-! ## Character classes, all within ASCII -/

def isBlank (c : Char) : Bool :=
  c = ' ' ∨ c = '\t'

/-- The characters that a comment may hold. -/
def isCommentChar (c : Char) : Bool :=
  c ≠ '\r' ∧ c ≠ '\n'

def isWordStart (c : Char) : Bool :=
  c.isAlpha || c = '_'

def isWordChar (c : Char) : Bool :=
  c.isAlphanum || c = '_'

/-! ## Cutting off one token -/

/-- A token with its spelling and the text after it. -/
structure Lexeme where
  token : Token
  spelling : List Char
  rest : List Char

namespace Lexeme

/-- The character `c` with the longest run of characters in the class `p` after it. -/
def run (token : String → Token) (p : Char → Bool) (c : Char) (cs : List Char) : Lexeme where
  token := token (String.ofList (c :: cs.takeWhile p))
  spelling := c :: cs.takeWhile p
  rest := cs.dropWhile p

/-- The token that begins with the character `c`, which does not begin a two-character break. -/
def startingWith (c : Char) (cs : List Char) : Lexeme :=
  if c = ':' then ⟨.colon, [c], cs⟩
  else if c = ',' then ⟨.comma, [c], cs⟩
  else if c = '\n' then ⟨.newline, [c], cs⟩
  else if isBlank c then run .blank isBlank c cs
  else if c = '#' then run .comment isCommentChar c cs
  else if isWordStart c then run .word isWordChar c cs
  else if c.isDigit then run .number Char.isDigit c cs
  else ⟨.stray c, [c], cs⟩

/-- The first token of a text; an empty text has none. -/
def first? : List Char → Option Lexeme
  | [] => none
  | '\r' :: '\n' :: cs => some ⟨.newline, ['\r', '\n'], cs⟩
  | c :: cs => some (startingWith c cs)

theorem spelling_startingWith (c : Char) (cs : List Char) :
    (startingWith c cs).spelling ++ (startingWith c cs).rest = c :: cs := by
  unfold startingWith run
  repeat' split
  all_goals simp

/-- No character is lost: a text is its first token's spelling and the rest. -/
theorem spelling_append_rest {cs : List Char} {x : Lexeme} (h : first? cs = some x) :
    x.spelling ++ x.rest = cs := by
  unfold first? at h
  split at h
  · simp at h
  · cases h
    rfl
  · cases h
    exact spelling_startingWith _ _

theorem spelling_ne_nil {cs : List Char} {x : Lexeme} (h : first? cs = some x) :
    x.spelling ≠ [] := by
  unfold first? at h
  split at h
  · simp at h
  · cases h
    simp
  · cases h
    unfold startingWith run
    repeat' split
    all_goals simp

theorem length_rest_lt {cs : List Char} {x : Lexeme} (h : first? cs = some x) :
    x.rest.length < cs.length := by
  have happend := spelling_append_rest h
  have hne := List.length_pos_iff.mpr (spelling_ne_nil h)
  rw [← happend, List.length_append]
  omega

end Lexeme

end ForeignCall
