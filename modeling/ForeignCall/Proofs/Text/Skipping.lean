import ForeignCall.Proofs.Text.Layout

/-! # What a stream skips

Between two tokens of a stream there is the text that it has skipped. It is made of blanks,
and of comments where a line ends. -/

namespace ForeignCall

/-- A comment reaches up to the end of the line or a return. -/
def Token.endsComment : Token → Bool
  | newline | endOfText => true
  | stray c => c = '\r'
  | _ => false

theorem Lexeme.endsComment_of_endsBefore {text : List Char} {x : Lexeme}
    (h : first? text = some x) (hcomment : Rule.comment.EndsBefore text) :
    x.token.endsComment := by
  cases text with
  | nil => cases h
  | cons c rest =>
      have hchar : isCommentChar c = false := Rule.endsBefore_cons.mp hcomment
      have hc : c = '\r' ∨ c = '\n' := by
        simpa [isCommentChar, Decidable.or_iff_not_imp_left] using hchar
      rcases hc with rfl | rfl
      · by_cases hbreak : rest.head? = some '\n'
        · obtain ⟨rest, rfl⟩ := List.head?_eq_some_iff.mp hbreak
          cases h
          rfl
        · rw [first?_cons fun _ => hbreak] at h
          cases h
          rfl
      · cases h
        rfl

namespace Reader

/-- What one reader has left and another one has read is between them. -/
theorem HasRead.rest_eq {r r' : Reader} {before more text : List Char}
    (h : r.HasRead before text) (h' : r'.HasRead (before ++ more) text) :
    r.rest = more ++ r'.rest := by
  have happend := h'.append_eq.trans h.append_eq.symm
  rw [List.append_assoc, List.append_cancel_left_eq] at happend
  exact happend.symm

/-- Nothing after a token continues its spelling. -/
theorem HasRead.endsBefore_next {r : Reader} {before spelling text : List Char}
    (h : r.HasRead before text) (hnext : r.next.2.HasRead (before ++ spelling) text) {rule : Rule}
    (hmatch : rule.Matches spelling) : rule.EndsBefore r.next.2.rest := by
  cases hfirst : Lexeme.first? r.rest with
  | none =>
      have hnil := Lexeme.first?_eq_none_iff.mp hfirst
      simp [next_of_nil hnil, hnil, Rule.EndsBefore]
  | some x =>
      have hlongest := Lexeme.isLongest_of_first? hfirst
      have hrest := h.rest_eq hnext
      rw [next_of_first? hfirst] at hrest ⊢
      rw [← hlongest.append_eq, List.append_cancel_right_eq] at hrest
      exact hlongest.endsBefore (hrest ▸ hmatch)

end Reader

namespace TokenStream

theorem endsComment_ofReader {r : Reader} (h : Rule.comment.EndsBefore r.rest) :
    (ofReader r).head.token.endsComment := by
  rw [token_ofReader]
  cases hfirst : Lexeme.first? r.rest with
  | none =>
      rw [Lexeme.first?_eq_none_iff.mp hfirst, significantTokens_nil]
      rfl
  | some x =>
      have hends := Lexeme.endsComment_of_endsBefore hfirst h
      have hskipped : ¬ x.token.isSkipped := by
        cases htoken : x.token <;> simp_all [Token.endsComment, Token.isSkipped]
      rw [significantTokens_of_not_isSkipped hfirst hskipped]
      exact hends

/-- A stream that begins where a reader stands has skipped some of the text, and its next token
comes right after that. Unless a comment may end at this token, only blanks are skipped. -/
structure Skips (s : TokenStream) (before text skipped spelling : List Char) : Prop where
  spelled : s.head.token.Spelled spelling
  span_eq : s.head.span = ⟨.after (before ++ skipped), .after (before ++ skipped ++ spelling)⟩
  hasRead : s.reader.HasRead (before ++ skipped ++ spelling) text
  endsBefore : ∀ rule : Rule, rule.Matches spelling → rule.EndsBefore s.reader.rest
  blank : ¬ s.head.token.endsComment → ∀ c ∈ skipped, c = ' ' ∨ c = '\t'

/-- Reading on from where a reader stands skips some of the text. -/
theorem exists_skips {r : Reader} {before text : List Char} (h : r.HasRead before text) :
    ∃ skipped spelling, (ofReader r).Skips before text skipped spelling := by
  fun_induction Reader.nextSignificant r generalizing before with
  | case1 r hskipped ih =>
      obtain ⟨cs, hspelled, -, hnext⟩ := h.next
      obtain ⟨more, spelling, hmore⟩ := ih hnext
      rw [ofReader_of_isSkipped hskipped]
      refine ⟨cs ++ more, spelling, hmore.spelled, ?_, ?_, hmore.endsBefore, ?_⟩
      · rw [hmore.span_eq, List.append_assoc before]
      · rw [← List.append_assoc]
        exact hmore.hasRead
      · intro hends
        refine List.forall_mem_append.mpr ⟨?_, hmore.blank hends⟩
        obtain ⟨hend, -⟩ | ⟨rule, hmatch, htoken⟩ := hspelled
        · rw [hend] at hskipped
          cases hskipped
        · rw [htoken] at hskipped
          cases rule with
          | blank =>
              obtain ⟨c, body, rfl⟩ := hmatch.exists_cons
              have hall : ∀ b ∈ c :: body, isBlank b := List.forall_mem_cons.mpr hmatch
              exact fun b hb => isBlank_iff.mp (hall b hb)
          | comment =>
              exact absurd (endsComment_ofReader (h.endsBefore_next hnext hmatch)) hends
          | _ => cases hskipped
  | case2 r hsignificant =>
      obtain ⟨spelling, hspelled, hspan, hnext⟩ := h.next
      rw [ofReader_of_not_isSkipped hsignificant]
      refine ⟨[], spelling, hspelled, ?_, ?_, ?_, fun _ => List.forall_mem_nil _⟩
      · rw [List.append_nil, hspan]
      · rwa [List.append_nil]
      · exact fun _ hmatch => h.endsBefore_next hnext hmatch

theorem Skips.tail {s : TokenStream} {before text skipped spelling : List Char}
    (h : s.Skips before text skipped spelling) : ∃ skipped' spelling',
      s.tail.Skips (before ++ skipped ++ spelling) text skipped' spelling' :=
  exists_skips h.hasRead

theorem exists_skips_drop (text : String) (k : Nat) : ∃ before skipped spelling,
    ((ofText text).drop k).Skips before text.toList skipped spelling := by
  induction k with
  | zero => exact ⟨[], exists_skips (Reader.hasRead_ofText text)⟩
  | succ k ih =>
      obtain ⟨before, skipped, spelling, h⟩ := ih
      rw [drop_add]
      exact ⟨_, h.tail⟩

/-- The text after a token is what is skipped, the next token and the rest. -/
theorem Skips.rest_eq {s : TokenStream}
    {before text skipped spelling skipped' spelling' : List Char}
    (h : s.Skips before text skipped spelling)
    (h' : s.tail.Skips (before ++ skipped ++ spelling) text skipped' spelling') :
    s.reader.rest = skipped' ++ (spelling' ++ s.tail.reader.rest) := by
  have hread := h'.hasRead
  rw [List.append_assoc] at hread
  rw [h.hasRead.rest_eq hread, List.append_assoc]

end TokenStream

/-! ## Spellings of one token -/

theorem Token.Spelled.eq_comma {spelling : List Char} (h : Token.comma.Spelled spelling) :
    spelling = [','] := by
  obtain ⟨hend, -⟩ | ⟨rule, hmatch, htoken⟩ := h
  · cases hend
  · cases rule with
    | comma =>
        obtain ⟨c, body, rfl⟩ := hmatch.exists_cons
        obtain ⟨rfl, rfl⟩ := hmatch
        rfl
    | _ => cases htoken

theorem Token.Spelled.matches_number {digits : String} {spelling : List Char}
    (h : (Token.number digits).Spelled spelling) : Rule.number.Matches spelling := by
  obtain ⟨hend, -⟩ | ⟨rule, hmatch, htoken⟩ := h
  · cases hend
  · cases rule with
    | number => exact hmatch
    | _ => cases htoken

end ForeignCall
