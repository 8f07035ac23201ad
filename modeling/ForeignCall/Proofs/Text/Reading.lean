import ForeignCall.Proofs.Text.LongestMatch
import ForeignCall.Text.TokenStream

/-! # Reading a text

A reader carries its position along, one token at a time. The invariant is that the
position is the one that counting through everything read so far gives. -/

namespace ForeignCall

/-! ## The tokens of a text -/

/-- The lexemes of a text, one after another. -/
def lexemes (cs : List Char) : List Lexeme :=
  match _ : Lexeme.first? cs with
  | none => []
  | some x => x :: lexemes x.rest
termination_by cs.length
decreasing_by exact Lexeme.length_rest_lt (by assumption)

@[simp] theorem lexemes_nil : lexemes [] = [] := by
  rw [lexemes]
  rfl

theorem lexemes_of_first? {cs : List Char} {x : Lexeme} (h : Lexeme.first? cs = some x) :
    lexemes cs = x :: lexemes x.rest := by
  rw [lexemes]
  split
  · simp_all
  · simp_all

theorem lexemes_eq_nil_iff {cs : List Char} : lexemes cs = [] ↔ cs = [] := by
  cases h : Lexeme.first? cs with
  | none => simp [Lexeme.first?_eq_none_iff.mp h]
  | some x =>
      have hcs : cs ≠ [] := by
        rintro rfl
        cases h
      simp [lexemes_of_first? h, hcs]

/-! ## Positions -/

theorem utf8Length_append (as bs : List Char) :
    utf8Length (as ++ bs) = utf8Length as + utf8Length bs := by
  induction as with
  | nil => simp [utf8Length]
  | cons a as ih => simp [utf8Length, ih, Nat.add_assoc]

theorem utf8Length_eq (cs : List Char) : utf8Length cs = (String.ofList cs).utf8ByteSize := by
  induction cs with
  | nil => rfl
  | cons c cs ih =>
      rw [utf8Length, ih, ← List.singleton_append, String.ofList_append,
        String.utf8ByteSize_append, ← String.utf8ByteSize_singleton]
      rfl

theorem utf8Length_pos {cs : List Char} (h : cs ≠ []) : 0 < utf8Length cs := by
  cases cs with
  | nil => exact absurd rfl h
  | cons c cs =>
      have := c.utf8Size_pos
      rw [utf8Length]
      omega

namespace Position

/-- The position after `before`: its line breaks, the characters since the last of them,
and its bytes are counted. -/
def after (before : List Char) : Position where
  line := 1 + before.count '\n'
  column := 1 + (before.reverse.takeWhile (· ≠ '\n')).length
  offset := utf8Length before

theorem after_lt (before : List Char) {more : List Char} (h : more ≠ []) :
    after before < after (before ++ more) := by
  change utf8Length before < utf8Length (before ++ more)
  rw [utf8Length_append]
  exact Nat.lt_add_of_pos_right (utf8Length_pos h)

theorem afterText_after {before cs : List Char} (h : '\n' ∉ cs) :
    (after before).afterText cs = after (before ++ cs) := by
  have hall : ∀ c ∈ cs.reverse, decide (c ≠ '\n') = true := by
    intro c hc
    rw [decide_eq_true_eq]
    rintro rfl
    exact h (List.mem_reverse.mp hc)
  have hline : (before ++ cs).count '\n' = before.count '\n' := by
    rw [List.count_append, List.count_eq_zero_of_not_mem h, Nat.add_zero]
  have hcolumn : ((before ++ cs).reverse.takeWhile (· ≠ '\n')).length =
      cs.length + (before.reverse.takeWhile (· ≠ '\n')).length := by
    rw [List.reverse_append, List.takeWhile_append_of_pos hall, List.length_append,
      List.length_reverse]
  simp only [after, afterText, hline, hcolumn, utf8Length_append, mk.injEq, true_and, and_true]
  omega

theorem afterBreak_after {before cs : List Char} (h : cs = ['\n'] ∨ cs = ['\r', '\n']) :
    (after before).afterBreak cs = after (before ++ cs) := by
  rcases h with rfl | rfl <;> simp [after, afterBreak, utf8Length_append, Nat.add_assoc]

end Position

/-- A token moves the position to the one after its spelling. -/
theorem positionAfter_after {before cs : List Char} {x : Lexeme} (h : x.IsLongest cs) :
    Reader.positionAfter (.after before) x = .after (before ++ x.spelling) := by
  unfold Reader.positionAfter
  split
  · exact Position.afterBreak_after (h.spelling_of_newline (by assumption))
  · rename_i hx
    exact Position.afterText_after (h.newline_not_mem hx)

/-! ## One token -/

/-- The token stands for the spelling. The end of the text has none. -/
def Token.Spelled (t : Token) (spelling : List Char) : Prop :=
  t = .endOfText ∧ spelling = [] ∨
    ∃ rule : Rule, rule.Matches spelling ∧ t = rule.token spelling

theorem Rule.token_ne_endOfText (rule : Rule) (cs : List Char) : rule.token cs ≠ .endOfText := by
  cases rule <;> simp [token]

theorem Lexeme.token_ne_endOfText {cs : List Char} {x : Lexeme} (h : first? cs = some x) :
    x.token ≠ .endOfText := by
  obtain ⟨rule, -, htoken, -⟩ := (isLongest_of_first? h).exists_rule
  rw [htoken]
  exact rule.token_ne_endOfText _

theorem Token.Spelled.ne_nil {t : Token} {spelling : List Char} (h : t.Spelled spelling)
    (ht : t ≠ .endOfText) : spelling ≠ [] := by
  rintro rfl
  rcases h with ⟨hend, -⟩ | ⟨rule, hmatch, -⟩
  · exact ht hend
  · obtain ⟨_, _, hnil⟩ := hmatch.exists_cons
    cases hnil

namespace Reader

theorem next_of_first? {r : Reader} {x : Lexeme} (h : Lexeme.first? r.rest = some x) :
    r.next = (⟨x.token, r.position, positionAfter r.position x⟩,
      ⟨x.rest, positionAfter r.position x⟩) := by
  rw [next, h]

theorem next_of_nil {r : Reader} (h : r.rest = []) :
    r.next = (⟨.endOfText, r.position, r.position⟩, r) := by
  rw [next, Lexeme.first?_eq_none_iff.mpr h]

theorem next_of_after {r : Reader} {x : Lexeme} {before : List Char}
    (h : Lexeme.first? r.rest = some x) (hposition : r.position = .after before) :
    r.next = (⟨x.token, .after before, .after (before ++ x.spelling)⟩,
      ⟨x.rest, .after (before ++ x.spelling)⟩) := by
  rw [next_of_first? h, hposition, positionAfter_after (Lexeme.isLongest_of_first? h)]

theorem lexemes_next (r : Reader) : lexemes r.next.2.rest = (lexemes r.rest).tail := by
  cases hfirst : Lexeme.first? r.rest with
  | none =>
      have hnil := Lexeme.first?_eq_none_iff.mp hfirst
      simp [next_of_nil hnil, hnil]
  | some x => rw [next_of_first? hfirst, lexemes_of_first? hfirst, List.tail_cons]

theorem token_next (r : Reader) :
    r.next.1.token = ((lexemes r.rest).head?.map Lexeme.token).getD .endOfText := by
  cases hfirst : Lexeme.first? r.rest with
  | none =>
      have hnil := Lexeme.first?_eq_none_iff.mp hfirst
      simp [next_of_nil hnil, hnil]
  | some x => simp [next_of_first? hfirst, lexemes_of_first? hfirst]

/-- The end of the text is read where nothing is left. -/
theorem token_next_eq_endOfText_iff (r : Reader) :
    r.next.1.token = .endOfText ↔ lexemes r.rest = [] := by
  rw [lexemes_eq_nil_iff]
  cases hfirst : Lexeme.first? r.rest with
  | none =>
      have hnil := Lexeme.first?_eq_none_iff.mp hfirst
      simp [next_of_nil hnil, hnil]
  | some x =>
      have hrest : r.rest ≠ [] := by
        intro hnil
        simp [Lexeme.first?_eq_none_iff.mpr hnil] at hfirst
      simp [next_of_first? hfirst, hrest, Lexeme.token_ne_endOfText hfirst]

/-- The reader has read `before` of the text and stands after it. -/
structure HasRead (r : Reader) (before text : List Char) : Prop where
  append_eq : before ++ r.rest = text
  position_eq : r.position = .after before

theorem hasRead_ofText (text : String) : (ofText text).HasRead [] text.toList :=
  ⟨rfl, rfl⟩

/-- A token reaches from the position before its spelling to the one after it. -/
theorem HasRead.next {r : Reader} {before text : List Char} (h : r.HasRead before text) :
    ∃ spelling, r.next.1.token.Spelled spelling ∧
      r.next.1.span = ⟨.after before, .after (before ++ spelling)⟩ ∧
      r.next.2.HasRead (before ++ spelling) text := by
  cases hfirst : Lexeme.first? r.rest with
  | none =>
      have hnil := Lexeme.first?_eq_none_iff.mp hfirst
      refine ⟨[], .inl ⟨?_, rfl⟩, ?_, ?_⟩
      · rw [next_of_nil hnil]
      · rw [next_of_nil hnil, List.append_nil, ← h.position_eq]
      · rwa [next_of_nil hnil, List.append_nil]
  | some x =>
      have hlongest := Lexeme.isLongest_of_first? hfirst
      obtain ⟨rule, hmatch, htoken, -⟩ := hlongest.exists_rule
      rw [next_of_after hfirst h.position_eq]
      refine ⟨x.spelling, .inr ⟨rule, hmatch, htoken⟩, rfl, ?_, rfl⟩
      rw [List.append_assoc, hlongest.append_eq, h.append_eq]

/-! ## All tokens -/

/-- The reader of the text after `n` tokens. -/
def afterTokens (text : String) : Nat → Reader
  | 0 => ofText text
  | n + 1 => (afterTokens text n).next.2

theorem exists_hasRead (text : String) (n : Nat) :
    ∃ before, (afterTokens text n).HasRead before text.toList := by
  induction n with
  | zero => exact ⟨[], hasRead_ofText text⟩
  | succ n ih =>
      obtain ⟨before, hbefore⟩ := ih
      obtain ⟨spelling, -, -, hnext⟩ := hbefore.next
      exact ⟨before ++ spelling, hnext⟩

theorem lexemes_afterTokens (text : String) (n : Nat) :
    lexemes (afterTokens text n).rest = (lexemes text.toList).drop n := by
  induction n with
  | zero => rfl
  | succ n ih => rw [afterTokens, lexemes_next, ih, List.tail_drop]

end Reader

/-- The token of that number in the text, skipped ones included. -/
def tokenAt (text : String) (n : Nat) : LocatedToken :=
  (Reader.afterTokens text n).next.1

theorem token_tokenAt (text : String) (n : Nat) :
    (tokenAt text n).token = ((lexemes text.toList).map Lexeme.token)[n]?.getD .endOfText := by
  rw [tokenAt, Reader.token_next, Reader.lexemes_afterTokens, List.head?_drop, List.getElem?_map]

/-- After the last token the end of the text is read every time. -/
theorem tokenAt_eq_endOfText_iff (text : String) (n : Nat) :
    (tokenAt text n).token = .endOfText ↔ (lexemes text.toList).length ≤ n := by
  rw [tokenAt, Reader.token_next_eq_endOfText_iff, Reader.lexemes_afterTokens,
    List.drop_eq_nil_iff]

/-- Every token has its place in the text. -/
theorem exists_spelling (text : String) (n : Nat) :
    ∃ before spelling rest, text.toList = before ++ spelling ++ rest ∧
      (tokenAt text n).token.Spelled spelling ∧
      (tokenAt text n).span = ⟨.after before, .after (before ++ spelling)⟩ := by
  obtain ⟨before, hbefore⟩ := Reader.exists_hasRead text n
  obtain ⟨spelling, hspelled, hspan, hnext⟩ := hbefore.next
  exact ⟨before, spelling, _, hnext.append_eq.symm, hspelled, hspan⟩

theorem hi_eq_lo_succ (text : String) (n : Nat) :
    (tokenAt text n).span.hi = (tokenAt text (n + 1)).span.lo := by
  obtain ⟨before, hbefore⟩ := Reader.exists_hasRead text n
  obtain ⟨spelling, -, hspan, hnext⟩ := hbefore.next
  obtain ⟨more, -, hspan', -⟩ := hnext.next
  rw [tokenAt, tokenAt, Reader.afterTokens, hspan, hspan']

/-- Only the end of the text is empty. -/
theorem lo_lt_hi {text : String} {n : Nat} (h : (tokenAt text n).token ≠ .endOfText) :
    (tokenAt text n).span.lo.offset < (tokenAt text n).span.hi.offset := by
  obtain ⟨before, spelling, rest, -, hspelled, hspan⟩ := exists_spelling text n
  rw [hspan]
  exact Position.after_lt before (hspelled.ne_nil h)

/-- The end of the text is an empty span after all of it. -/
theorem span_of_endOfText {text : String} {n : Nat}
    (h : (tokenAt text n).token = .endOfText) :
    (tokenAt text n).span = ⟨.after text.toList, .after text.toList⟩ := by
  obtain ⟨before, hbefore⟩ := Reader.exists_hasRead text n
  rw [tokenAt, Reader.token_next_eq_endOfText_iff, lexemes_eq_nil_iff] at h
  have hall : before = text.toList := by simpa [h] using hbefore.append_eq
  rw [tokenAt, Reader.next_of_nil h, hbefore.position_eq, hall]

/-! ## The contract of reading -/

/-- The position stands between two characters of the text and counts what is before it. -/
structure Position.Marks (p : Position) (text : String) : Prop where
  isValid : String.Pos.Raw.IsValid text ⟨p.offset⟩
  offset_le : p.offset ≤ text.utf8ByteSize
  counts : ∃ before rest, text = before ++ rest ∧ p.offset = before.utf8ByteSize ∧
    p.line = 1 + before.toList.count '\n' ∧
    p.column = 1 + (before.toList.reverse.takeWhile (· ≠ '\n')).length

theorem Position.marks_after {text : String} {before rest : List Char}
    (h : text.toList = before ++ rest) : (after before).Marks text := by
  have htext : text = String.ofList before ++ String.ofList rest := by
    rw [← String.ofList_append, ← h, String.ofList_toList]
  have hoffset : (after before).offset = (String.ofList before).utf8ByteSize :=
    utf8Length_eq before
  refine ⟨?_, ?_, String.ofList before, String.ofList rest, htext, hoffset, ?_, ?_⟩
  · rw [String.Pos.Raw.isValid_iff_exists_append]
    exact ⟨_, _, htext, by rw [hoffset]; rfl⟩
  · rw [hoffset, htext, String.utf8ByteSize_append]
    exact Nat.le_add_right _ _
  · rw [String.toList_ofList, after]
  · rw [String.toList_ofList, after]

/-- The tokens tile the text: each starts where the one before it ends, stands for the
spelling between its two positions, and the last one ends at the end of the text. -/
structure TilingSpec (text : String) : Prop where
  starts : (tokenAt text 0).span.lo.offset = 0
  adjacent : ∀ n, (tokenAt text n).span.hi = (tokenAt text (n + 1)).span.lo
  nonempty : ∀ n, (tokenAt text n).token ≠ .endOfText →
    (tokenAt text n).span.lo.offset < (tokenAt text n).span.hi.offset
  marks : ∀ n, (tokenAt text n).span.lo.Marks text ∧ (tokenAt text n).span.hi.Marks text
  spelled : ∀ n, ∃ before spelling rest, text.toList = before ++ spelling ++ rest ∧
    (tokenAt text n).token.Spelled spelling ∧
    (tokenAt text n).span.lo.offset = (String.ofList before).utf8ByteSize ∧
    (tokenAt text n).span.hi.offset = (String.ofList (before ++ spelling)).utf8ByteSize
  ends : ∃ count, (∀ n, (tokenAt text n).token = .endOfText ↔ count ≤ n) ∧
    (∀ n, n + 1 = count → (tokenAt text n).span.hi.offset = text.utf8ByteSize) ∧
    ∀ n, count ≤ n → (tokenAt text n).span.lo = (tokenAt text n).span.hi ∧
      (tokenAt text n).span.lo.offset = text.utf8ByteSize

/-- Whatever takes longest matches is the tokenizer, and its tokens tile every text. -/
theorem tokens_tile (text : String) :
    (∀ take, TakesLongest take ↔ take = Lexeme.first?) ∧ TilingSpec text := by
  refine ⟨fun take => takesLongest_iff, ?_, hi_eq_lo_succ text, fun _ => lo_lt_hi, ?_, ?_, ?_⟩
  · obtain ⟨spelling, -, hspan, -⟩ := (Reader.hasRead_ofText text).next
    rw [tokenAt, Reader.afterTokens, hspan]
    rfl
  · intro n
    obtain ⟨before, spelling, rest, htext, -, hspan⟩ := exists_spelling text n
    rw [hspan]
    have hlo : text.toList = before ++ (spelling ++ rest) := by rw [htext, List.append_assoc]
    exact ⟨Position.marks_after hlo, Position.marks_after htext⟩
  · intro n
    obtain ⟨before, spelling, rest, htext, hspelled, hspan⟩ := exists_spelling text n
    refine ⟨before, spelling, rest, htext, hspelled, ?_, ?_⟩
    · rw [hspan]
      exact utf8Length_eq before
    · rw [hspan]
      exact utf8Length_eq (before ++ spelling)
  · have hsize : (Position.after text.toList).offset = text.utf8ByteSize := by
      change utf8Length text.toList = _
      rw [utf8Length_eq, String.ofList_toList]
    refine ⟨(lexemes text.toList).length, tokenAt_eq_endOfText_iff text, ?_, ?_⟩
    · intro n hn
      have hend := (tokenAt_eq_endOfText_iff text (n + 1)).mpr (by omega)
      rw [hi_eq_lo_succ, span_of_endOfText hend, hsize]
    · intro n hn
      rw [span_of_endOfText ((tokenAt_eq_endOfText_iff text n).mpr hn)]
      exact ⟨rfl, hsize⟩

/-- An accent takes two bytes, and a break of two characters begins one line. -/
example : (tokenAt "é:1\r\nb" 4).span = ⟨⟨2, 1, 6⟩, ⟨2, 2, 7⟩⟩ := rfl

end ForeignCall
