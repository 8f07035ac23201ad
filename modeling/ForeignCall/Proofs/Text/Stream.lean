import ForeignCall.Proofs.Text.Reading

/-! # Taking tokens from a stream

A stream stands for the tokens that are left of its text. Whatever takes tokens from it
takes them in this order, and the stream keeps count of the line that it is on. -/

namespace ForeignCall

/-! ## The tokens of a text that count -/

/-- The tokens of a text that readers do not skip. -/
def significantTokens (cs : List Char) : List Token :=
  ((lexemes cs).map Lexeme.token).filter (!·.isSkipped)

@[simp] theorem significantTokens_nil : significantTokens [] = [] := by
  simp [significantTokens]

theorem significantTokens_of_isSkipped {cs : List Char} {x : Lexeme}
    (h : Lexeme.first? cs = some x) (hx : x.token.isSkipped) :
    significantTokens cs = significantTokens x.rest := by
  simp [significantTokens, lexemes_of_first? h, hx]

theorem significantTokens_of_not_isSkipped {cs : List Char} {x : Lexeme}
    (h : Lexeme.first? cs = some x) (hx : ¬ x.token.isSkipped) :
    significantTokens cs = x.token :: significantTokens x.rest := by
  simp [significantTokens, lexemes_of_first? h, hx]

theorem significantTokens_of_first? {cs : List Char} {x : Lexeme}
    (h : Lexeme.first? cs = some x) : significantTokens cs =
      (if x.token.isSkipped then [] else [x.token]) ++ significantTokens x.rest := by
  split
  · rename_i hx
    exact significantTokens_of_isSkipped h hx
  · rename_i hx
    exact significantTokens_of_not_isSkipped h hx

/-- A spelling that nothing continues is one token of the text. -/
theorem significantTokens_append {rule : Rule} {spelling rest : List Char}
    (hmatch : rule.Matches spelling) (hrule : rule ≠ .any) (hrest : rule.EndsBefore rest) :
    significantTokens (spelling ++ rest) =
      (if (rule.token spelling).isSkipped then [] else [rule.token spelling]) ++
        significantTokens rest :=
  significantTokens_of_first? (Lexeme.first?_append hmatch hrule hrest)

/-! ### Texts for tokens -/

/-- The token has a spelling, and is not skipped. Stray characters are left out. -/
def Token.Writable (token : Token) : Prop :=
  ∃ (rule : Rule) (spelling : List Char), rule.Matches spelling ∧ rule.token spelling = token ∧
    rule ≠ .any ∧ ¬ token.isSkipped

theorem exists_first?_of_mem_lexemes {cs : List Char} {x : Lexeme} (h : x ∈ lexemes cs) :
    ∃ cs', Lexeme.first? cs' = some x := by
  fun_induction lexemes cs with
  | case1 => cases h
  | case2 cs first hfirst ih =>
      rcases List.mem_cons.mp h with rfl | h
      · exact ⟨cs, hfirst⟩
      · exact ih h

theorem writable_of_mem_significantTokens {cs : List Char} {token : Token}
    (h : token ∈ significantTokens cs) (hstray : ∀ c, token ≠ .stray c) : token.Writable := by
  simp only [significantTokens, List.mem_filter, List.mem_map, Bool.not_eq_true'] at h
  obtain ⟨⟨x, hx, rfl⟩, hskipped⟩ := h
  obtain ⟨cs', hfirst⟩ := exists_first?_of_mem_lexemes hx
  obtain ⟨rule, hmatch, htoken, -⟩ := (Lexeme.isLongest_of_first? hfirst).exists_rule
  refine ⟨rule, x.spelling, hmatch, htoken.symm, ?_, by simp [hskipped]⟩
  rintro rfl
  exact hstray _ htoken

/-- Blanks keep the tokens apart, so there is a text for any list of them. -/
theorem exists_significantTokens {tokens : List Token} (h : ∀ token ∈ tokens, token.Writable) :
    ∃ cs, significantTokens cs = tokens ∧ Rule.blank.EndsBefore cs := by
  induction tokens with
  | nil => exact ⟨[], significantTokens_nil, nofun⟩
  | cons token rest ih =>
      obtain ⟨⟨rule, spelling, hmatch, rfl, hany, hskipped⟩, hrest⟩ := List.forall_mem_cons.mp h
      obtain ⟨cs, hcs, hstart⟩ := ih hrest
      have hspace : Rule.blank.Matches [' '] := ⟨rfl, nofun⟩
      have hblank : significantTokens (' ' :: cs) = rest := by
        rw [← hcs]
        exact significantTokens_append hspace (by decide) hstart
      refine ⟨spelling ++ ' ' :: cs, ?_, ?_⟩
      · rw [significantTokens_append hmatch hany, if_neg hskipped, hblank, List.singleton_append]
        rw [Rule.endsBefore_cons]
        cases rule <;> first | rfl | exact absurd rfl hskipped
      · obtain ⟨c, body, rfl⟩ := hmatch.exists_cons
        refine Rule.endsBefore_cons.mpr (Bool.eq_false_iff.mpr ?_)
        intro hc
        have hblank : Rule.blank.Matches [c] := ⟨hc, nofun⟩
        obtain rfl : rule = .blank :=
          (Rule.eq_ofFirst hmatch hany).trans (Rule.eq_ofFirst hblank (by decide)).symm
        exact hskipped rfl

/-! ## One step of a reader -/

namespace Reader

theorem line_next (r : Reader) : r.next.2.position.line =
    r.position.line + if r.next.1.token = .newline then 1 else 0 := by
  cases hfirst : Lexeme.first? r.rest with
  | none => simp [next_of_nil (Lexeme.first?_eq_none_iff.mp hfirst)]
  | some x =>
      rw [next_of_first? hfirst]
      unfold positionAfter
      split
      · rename_i hx
        simp [hx, Position.afterBreak]
      · rename_i hx
        rw [if_neg hx]
        rfl

theorem lo_next (r : Reader) : r.next.1.span.lo = r.position := by
  cases hfirst : Lexeme.first? r.rest with
  | none => rw [next_of_nil (Lexeme.first?_eq_none_iff.mp hfirst)]
  | some x => rw [next_of_first? hfirst]

end Reader

namespace TokenStream

/-! ## What a stream stands for -/

/-- The tokens that are left, the end of the text not counted. -/
def tokens (s : TokenStream) : List Token :=
  if s.head.token = .endOfText then [] else s.head.token :: significantTokens s.reader.rest

/-- The line on which the next token begins. -/
def line (s : TokenStream) : Nat :=
  s.head.span.lo.line

/-- The reader has kept count of the lines up to the end of the next token. -/
def Coherent (s : TokenStream) : Prop :=
  s.reader.position.line = s.line + if s.head.token = .newline then 1 else 0

theorem ofReader_of_isSkipped {r : Reader} (h : r.next.1.token.isSkipped) :
    ofReader r = ofReader r.next.2 := by
  rw [ofReader, Reader.nextSignificant, if_pos h, ofReader]

theorem ofReader_of_not_isSkipped {r : Reader} (h : ¬ r.next.1.token.isSkipped) :
    ofReader r = ⟨r.next.1, r.next.2⟩ := by
  rw [ofReader, Reader.nextSignificant, if_neg h]

theorem tokens_ofReader (r : Reader) : (ofReader r).tokens = significantTokens r.rest := by
  unfold tokens ofReader
  fun_induction Reader.nextSignificant r with
  | case1 r hskipped ih =>
      rw [ih]
      cases hfirst : Lexeme.first? r.rest with
      | none =>
          rw [Reader.next_of_nil (Lexeme.first?_eq_none_iff.mp hfirst)] at hskipped
          cases hskipped
      | some x =>
          rw [Reader.next_of_first? hfirst] at hskipped ⊢
          exact (significantTokens_of_isSkipped hfirst hskipped).symm
  | case2 r hskipped =>
      cases hfirst : Lexeme.first? r.rest with
      | none =>
          have hnil := Lexeme.first?_eq_none_iff.mp hfirst
          simp [Reader.next_of_nil hnil, hnil]
      | some x =>
          rw [Reader.next_of_first? hfirst] at hskipped ⊢
          rw [if_neg (Lexeme.token_ne_endOfText hfirst),
            significantTokens_of_not_isSkipped hfirst hskipped]

theorem line_ofReader (r : Reader) : (ofReader r).line = r.position.line := by
  unfold line ofReader
  fun_induction Reader.nextSignificant r with
  | case1 r hskipped ih =>
      have hnewline : r.next.1.token ≠ .newline := by
        intro hnewline
        simp [hnewline, Token.isSkipped] at hskipped
      rw [ih, Reader.line_next, if_neg hnewline, Nat.add_zero]
  | case2 r hskipped => rw [Reader.lo_next]

theorem coherent_ofReader (r : Reader) : (ofReader r).Coherent := by
  unfold Coherent line ofReader
  fun_induction Reader.nextSignificant r with
  | case1 r hskipped ih => exact ih
  | case2 r hskipped => rw [Reader.line_next, Reader.lo_next]

theorem tokens_ofText (text : String) :
    (ofText text).tokens = significantTokens text.toList :=
  tokens_ofReader _

theorem line_ofText (text : String) : (ofText text).line = 1 :=
  line_ofReader _

theorem coherent_ofText (text : String) : (ofText text).Coherent :=
  coherent_ofReader _

theorem token_head (s : TokenStream) : s.head.token = s.tokens.head?.getD .endOfText := by
  unfold tokens
  split
  · assumption
  · rfl

theorem tokens_of_endOfText {s : TokenStream} (h : s.head.token = .endOfText) :
    s.tokens = [] :=
  if_pos h

theorem tokens_of_ne_endOfText {s : TokenStream} (h : s.head.token ≠ .endOfText) :
    s.tokens = s.head.token :: s.tail.tokens := by
  rw [tokens, if_neg h, tail, tokens_ofReader]

theorem Coherent.line_tail {s : TokenStream} (h : s.Coherent) :
    s.tail.line = s.line + if s.head.token = .newline then 1 else 0 := by
  rw [tail, line_ofReader, h]

/-! ## Runs -/

/-- Taking the tokens leads from the first stream to the second. The end of the text is
never taken. -/
inductive Takes : TokenStream → List Token → TokenStream → Prop where
  | nil (s) : Takes s [] s
  | cons {s tokens s'} : s.head.token ≠ .endOfText → Takes s.tail tokens s' →
      Takes s (s.head.token :: tokens) s'

@[simp] theorem takes_nil_iff {s s' : TokenStream} : s.Takes [] s' ↔ s' = s := by
  constructor
  · rintro ⟨⟩
    rfl
  · rintro rfl
    exact .nil _

@[simp] theorem takes_cons_iff {s s' : TokenStream} {token : Token} {tokens : List Token} :
    s.Takes (token :: tokens) s' ↔
      s.head.token = token ∧ token ≠ .endOfText ∧ s.tail.Takes tokens s' := by
  constructor
  · rintro (_ | ⟨hend, htail⟩)
    exact ⟨rfl, hend, htail⟩
  · rintro ⟨rfl, hend, htail⟩
    exact .cons hend htail

theorem takes_singleton_iff {s s' : TokenStream} {token : Token} :
    s.Takes [token] s' ↔ s.head.token = token ∧ token ≠ .endOfText ∧ s' = s.tail := by
  rw [takes_cons_iff, takes_nil_iff]

theorem takes_append_iff {s s' : TokenStream} (before after : List Token) :
    s.Takes (before ++ after) s' ↔ ∃ between, s.Takes before between ∧ between.Takes after s' := by
  induction before generalizing s with
  | nil => simp
  | cons token before ih => simp [ih, and_assoc]

/-- What is taken comes off the front of what is left. -/
theorem Takes.tokens_eq {s s' : TokenStream} {taken : List Token} (h : s.Takes taken s') :
    s.tokens = taken ++ s'.tokens := by
  induction h with
  | nil => rfl
  | cons hend _ ih => rw [tokens_of_ne_endOfText hend, ih, List.cons_append]

/-- The tokens that are left can be taken. -/
theorem exists_takes {s : TokenStream} {taken rest : List Token}
    (h : s.tokens = taken ++ rest) : ∃ s', s.Takes taken s' ∧ s'.tokens = rest := by
  induction taken generalizing s with
  | nil => exact ⟨s, .nil s, h⟩
  | cons token taken ih =>
      have hend : s.head.token ≠ .endOfText := by
        intro hend
        rw [tokens_of_endOfText hend] at h
        cases h
      rw [tokens_of_ne_endOfText hend, List.cons_append, List.cons.injEq] at h
      obtain ⟨rfl, htail⟩ := h
      obtain ⟨s', htaken, hrest⟩ := ih htail
      exact ⟨s', .cons hend htaken, hrest⟩

/-- Without a line break among the tokens, taking them stays on the line. -/
theorem Takes.line_eq {s s' : TokenStream} {taken : List Token} (h : s.Takes taken s')
    (hs : s.Coherent) (hnewline : .newline ∉ taken) : s'.Coherent ∧ s'.line = s.line := by
  induction h with
  | nil => exact ⟨hs, rfl⟩
  | cons _ _ ih =>
      rw [List.mem_cons, not_or] at hnewline
      obtain ⟨hcoherent, hline⟩ := ih (coherent_ofReader _) hnewline.2
      refine ⟨hcoherent, ?_⟩
      rw [hline, hs.line_tail, if_neg (Ne.symm hnewline.1), Nat.add_zero]

/-! ## Any number of tokens -/

/-- The stream after so many tokens. -/
def drop (s : TokenStream) : Nat → TokenStream
  | 0 => s
  | n + 1 => s.tail.drop n

@[simp] theorem drop_zero (s : TokenStream) : s.drop 0 = s := rfl

theorem drop_succ (s : TokenStream) (n : Nat) : s.drop (n + 1) = s.tail.drop n := rfl

theorem drop_add (s : TokenStream) (m n : Nat) : s.drop (m + n) = (s.drop m).drop n := by
  induction m generalizing s with
  | zero => simp
  | succ m ih => rw [Nat.add_right_comm, drop_succ, ih, drop_succ]

theorem Takes.eq_drop {s s' : TokenStream} {taken : List Token} (h : s.Takes taken s') :
    s' = s.drop taken.length := by
  induction h with
  | nil => rfl
  | cons _ _ ih => exact ih

theorem Takes.token_ne_endOfText {s s' : TokenStream} {taken : List Token} (h : s.Takes taken s')
    {i : Nat} (hi : i < taken.length) : (s.drop i).head.token ≠ .endOfText := by
  induction h generalizing i with
  | nil => simp at hi
  | cons hend _ ih =>
      cases i with
      | zero => exact hend
      | succ i => exact ih (by simpa using hi)

theorem Takes.endOfText_not_mem {s s' : TokenStream} {taken : List Token}
    (h : s.Takes taken s') : .endOfText ∉ taken := by
  induction h with
  | nil => exact List.not_mem_nil
  | cons hend _ ih => exact List.not_mem_cons_of_ne_of_not_mem (Ne.symm hend) ih

/-- Once the end of the text is ahead, nothing is left behind it. -/
theorem rest_of_endOfText {r : Reader} (h : (ofReader r).head.token = .endOfText) :
    (ofReader r).reader.rest = [] := by
  unfold ofReader at h ⊢
  fun_induction Reader.nextSignificant r with
  | case1 r _ ih => exact ih h
  | case2 r _ =>
      have hnil := lexemes_eq_nil_iff.mp (r.token_next_eq_endOfText_iff.mp h)
      simp [Reader.next_of_nil hnil, hnil]

theorem tokens_drop (r : Reader) (n : Nat) :
    ((ofReader r).drop n).tokens = (significantTokens r.rest).drop n := by
  induction n generalizing r with
  | zero => simp [tokens_ofReader]
  | succ n ih =>
      rw [drop_succ, tail, ih, ← tokens_ofReader r, tokens]
      by_cases hend : (ofReader r).head.token = .endOfText
      · simp [hend, rest_of_endOfText hend]
      · simp [hend]

end TokenStream

/-! ## The numbers of the tokens that count -/

/-- The number of the first token from there on that is not skipped. -/
def significantFrom (text : String) (n : Nat) : Nat :=
  if (tokenAt text n).token.isSkipped then significantFrom text (n + 1) else n
termination_by (Reader.afterTokens text n).rest.length
decreasing_by
  apply Reader.length_rest_next_lt
  apply Reader.ne_endOfText_of_isSkipped
  assumption

theorem le_significantFrom (text : String) (n : Nat) : n ≤ significantFrom text n := by
  fun_induction significantFrom text n with
  | case1 n _ ih => exact Nat.le_of_succ_le ih
  | case2 n _ => exact Nat.le_refl n

/-- The number that a token of the stream has among all tokens of the text. -/
def significantNumber (text : String) : Nat → Nat
  | 0 => significantFrom text 0
  | k + 1 => significantFrom text (significantNumber text k + 1)

theorem significantNumber_lt_succ (text : String) (k : Nat) :
    significantNumber text k < significantNumber text (k + 1) :=
  le_significantFrom text _

/-- The token of that number among those that are not skipped. -/
def significantAt (text : String) (k : Nat) : LocatedToken :=
  ((TokenStream.ofText text).drop k).head

theorem significantAt_succ (text : String) (k : Nat) :
    significantAt text (k + 1) = ((TokenStream.ofText text).drop k).tail.head := by
  rw [significantAt, TokenStream.drop_add]
  rfl

namespace TokenStream

theorem ofReader_afterTokens (text : String) (n : Nat) :
    ofReader (Reader.afterTokens text n) = ⟨tokenAt text (significantFrom text n),
      Reader.afterTokens text (significantFrom text n + 1)⟩ := by
  fun_induction significantFrom text n with
  | case1 n hskipped ih => exact (ofReader_of_isSkipped hskipped).trans ih
  | case2 n hskipped => exact ofReader_of_not_isSkipped hskipped

/-- What stands ahead in a stream is one of the tokens of the text, at its place. -/
theorem drop_eq (text : String) (k : Nat) :
    (ofText text).drop k = ⟨tokenAt text (significantNumber text k),
      Reader.afterTokens text (significantNumber text k + 1)⟩ := by
  induction k with
  | zero => exact ofReader_afterTokens text 0
  | succ k ih =>
      rw [drop_add, ih]
      exact ofReader_afterTokens text _

theorem exists_drop_eq (text : String) (k : Nat) :
    ∃ n, (ofText text).drop k = ⟨tokenAt text n, Reader.afterTokens text (n + 1)⟩ :=
  ⟨_, drop_eq text k⟩

end TokenStream

/-- The tokens that count are some of all tokens. -/
theorem significantAt_eq (text : String) (k : Nat) :
    significantAt text k = tokenAt text (significantNumber text k) := by
  rw [significantAt, TokenStream.drop_eq]

end ForeignCall
