import ForeignCall.Proofs.Text.Alike
import ForeignCall.Proofs.Text.Munch

/-! # Blanks and comments between tokens

Blanks may stand between any two tokens, and a comment where a line ends. They may merge with
blanks or a comment before them, or with blanks after them; what merges is skipped either
way, so the tokens that count stay the same. -/

namespace ForeignCall

/-! ## Places between tokens -/

/-- The first text is the spellings of tokens that are taken where the second one follows. -/
inductive Cut : List Char → List Char → Prop where
  | start (after) : Cut [] after
  | token {text x before after} : Lexeme.first? text = some x → x.rest = before ++ after →
      Cut before after → Cut (x.spelling ++ before) after

theorem Cut.next {before after : List Char} {x : Lexeme} (h : Cut before after)
    (hx : Lexeme.first? after = some x) : Cut (before ++ x.spelling) x.rest := by
  induction h with
  | start after => simpa using Cut.token hx (List.nil_append _).symm (.start x.rest)
  | @token text y before after hy hrest _ ih =>
      rw [List.append_assoc]
      refine .token hy ?_ (ih hx)
      rw [hrest, List.append_assoc, Lexeme.spelling_append_rest hx]

theorem Reader.exists_cut (text : String) (n : Nat) :
    ∃ before, (afterTokens text n).HasRead before text.toList ∧
      Cut before (afterTokens text n).rest := by
  induction n with
  | zero => exact ⟨[], hasRead_ofText text, .start _⟩
  | succ n ih =>
      obtain ⟨before, hread, hcut⟩ := ih
      rw [afterTokens]
      cases hfirst : Lexeme.first? (afterTokens text n).rest with
      | none =>
          rw [next_of_nil (Lexeme.first?_eq_none_iff.mp hfirst)]
          exact ⟨before, hread, hcut⟩
      | some x =>
          rw [next_of_after hfirst hread.position_eq]
          refine ⟨before ++ x.spelling, ⟨?_, rfl⟩, hcut.next hfirst⟩
          rw [List.append_assoc, Lexeme.spelling_append_rest hfirst, hread.append_eq]

/-- Two first parts of a text with the same number of bytes are the same. -/
theorem eq_of_utf8Length_eq {as bs cs ds : List Char} (h : as ++ cs = bs ++ ds)
    (hlength : utf8Length as = utf8Length bs) : as = bs ∧ cs = ds := by
  have hnil : ∀ more, utf8Length more = 0 → more = [] := by
    intro more hmore
    cases more with
    | nil => rfl
    | cons c more => exact absurd hmore (Nat.ne_of_gt (utf8Length_pos (List.cons_ne_nil c more)))
  rcases List.append_eq_append_iff.mp h with ⟨more, rfl, rfl⟩ | ⟨more, rfl, rfl⟩
  · rw [utf8Length_append] at hlength
    simp [hnil more (by omega)]
  · rw [utf8Length_append] at hlength
    simp [hnil more (by omega)]

/-- Where a token of the text begins, the text is cut. -/
theorem cut_of_offset {text : String} {n : Nat} {before after : List Char}
    (htext : text.toList = before ++ after)
    (h : (tokenAt text n).span.lo.offset = utf8Length before) :
    Cut before after ∧ (Reader.afterTokens text n).rest = after := by
  obtain ⟨before', hread, hcut⟩ := Reader.exists_cut text n
  rw [tokenAt, Reader.lo_next, hread.position_eq] at h
  obtain ⟨rfl, rfl⟩ := eq_of_utf8Length_eq (hread.append_eq.trans htext) h
  exact ⟨hcut, rfl⟩

/-! ## Layout -/

/-- What may be put in front of the token: blanks, and a comment if the token ends the line. -/
inductive LayoutBefore (next : Token) : List Char → Prop where
  | blanks {cs} : (∀ c ∈ cs, c = ' ' ∨ c = '\t') → LayoutBefore next cs
  | comment {body} : next = .newline ∨ next = .endOfText → (∀ c ∈ body, c ≠ '\r' ∧ c ≠ '\n') →
      LayoutBefore next ('#' :: body)

/-- A comment does not take in what ends a line. -/
theorem Reader.comment_endsBefore {r : Reader}
    (h : r.next.1.token = .newline ∨ r.next.1.token = .endOfText) :
    Rule.comment.EndsBefore r.rest := by
  cases hfirst : Lexeme.first? r.rest with
  | none => simp [Lexeme.first?_eq_none_iff.mp hfirst, Rule.EndsBefore]
  | some x =>
      rw [next_of_first? hfirst] at h
      have hnewline := h.resolve_right (Lexeme.token_ne_endOfText hfirst)
      rw [← Lexeme.spelling_append_rest hfirst]
      rcases (Lexeme.isLongest_of_first? hfirst).spelling_of_newline hnewline with hx | hx
      · simp [hx, Rule.endsBefore_cons, Rule.mayContinue, isCommentChar]
      · simp [hx, Rule.endsBefore_cons, Rule.mayContinue, isCommentChar]

/-! ## What is skipped -/

/-- A blank takes in the blanks after it. -/
theorem significantTokens_blank {c : Char} (hc : isBlank c) (cs : List Char) :
    significantTokens (c :: cs) = significantTokens (cs.dropWhile isBlank) := by
  obtain rfl | rfl := isBlank_iff.mp hc
  · exact significantTokens_of_isSkipped (x := .run .blank isBlank ' ' cs) rfl rfl
  · exact significantTokens_of_isSkipped (x := .run .blank isBlank '\t' cs) rfl rfl

theorem significantTokens_cons_of_isBlank {c : Char} (hc : isBlank c) (cs : List Char) :
    significantTokens (c :: cs) = significantTokens cs := by
  rw [significantTokens_blank hc]
  cases cs with
  | nil => rfl
  | cons d cs =>
      by_cases hd : isBlank d
      · rw [List.dropWhile_cons_of_pos hd, significantTokens_blank hd]
      · rw [List.dropWhile_cons_of_neg hd]

section Layout

variable {next : Token} {layout before after : List Char}

theorem significantTokens_layout (hlayout : LayoutBefore next layout)
    (hend : next = .newline ∨ next = .endOfText → Rule.comment.EndsBefore after) :
    significantTokens (layout ++ after) = significantTokens after := by
  cases hlayout with
  | blanks h =>
      induction layout with
      | nil => rfl
      | cons c cs ih =>
          obtain ⟨hc, hcs⟩ := List.forall_mem_cons.mp h
          rw [List.cons_append, significantTokens_cons_of_isBlank (isBlank_iff.mpr hc), ih hcs]
  | @comment body hnext hbody =>
      have hmatch : Rule.comment.Matches ('#' :: body) :=
        ⟨rfl, fun c hc => isCommentChar_iff.mpr (hbody c hc)⟩
      rw [significantTokens_append hmatch (by decide) (hend hnext)]
      rfl

/-- Only blanks and comments can go on with layout, and they take in all of it. -/
theorem LayoutBefore.mayContinue {c : Char} {cs : List Char} {rule : Rule}
    (hlayout : LayoutBefore next (c :: cs)) (hc : rule.mayContinue c) :
    (rule = .blank ∨ rule = .comment) ∧ ∀ d ∈ c :: cs, rule.mayContinue d := by
  cases hlayout with
  | blanks h =>
      cases rule with
      | blank => exact ⟨.inl rfl, fun d hd => isBlank_iff.mpr (h d hd)⟩
      | comment =>
          refine ⟨.inr rfl, fun d hd => ?_⟩
          rcases h d hd with rfl | rfl <;> rfl
      | _ => rcases h c List.mem_cons_self with rfl | rfl <;> exact absurd hc (by decide)
  | comment _ hbody =>
      cases rule with
      | comment =>
          have hall : ∀ d ∈ cs, isCommentChar d := fun d hd => isCommentChar_iff.mpr (hbody d hd)
          exact ⟨.inr rfl, List.forall_mem_cons.mpr ⟨rfl, hall⟩⟩
      | _ => exact absurd hc (by decide)

theorem LayoutBefore.ne_newline {c : Char} {cs : List Char}
    (hlayout : LayoutBefore next (c :: cs)) : c ≠ '\n' := by
  cases hlayout with
  | blanks h => rcases h c List.mem_cons_self with rfl | rfl <;> decide
  | comment => decide

/-- Where layout is put in, the token before it stays as it is, or it is a run that takes in
all of the layout. -/
theorem first?_insert {text : List Char} {x : Lexeme} (hx : Lexeme.first? text = some x)
    (hrest : x.rest = before ++ after) (hlayout : LayoutBefore next layout) :
    Lexeme.first? (x.spelling ++ (before ++ (layout ++ after))) =
        some ⟨x.token, x.spelling, before ++ (layout ++ after)⟩ ∨
      before = [] ∧ ∃ rule : Rule, (rule = .blank ∨ rule = .comment) ∧
        rule.Matches x.spelling ∧ rule.Matches (x.spelling ++ layout) := by
  cases before with
  | cons b before => exact .inl (Lexeme.first?_append_of_head?_eq hx (by simp [hrest]))
  | nil =>
      cases layout with
      | nil => exact .inl (Lexeme.first?_append_of_head?_eq hx (by simp [hrest]))
      | cons c cs =>
          by_cases hrun : ∃ rule : Rule, rule.Matches x.spelling ∧ rule.mayContinue c = true
          · obtain ⟨rule, hmatch, hc⟩ := hrun
            obtain ⟨hrule, hall⟩ := hlayout.mayContinue hc
            exact .inr ⟨rfl, rule, hrule, hmatch, hmatch.append hall⟩
          · refine .inl (Lexeme.first?_append_of_endsBefore hx ?_ ?_)
            · intro rule hmatch
              have hstop : rule.mayContinue c = false :=
                Bool.eq_false_iff.mpr fun hc => hrun ⟨rule, hmatch, hc⟩
              exact Rule.endsBefore_cons.mpr hstop
            · intro _ hhead
              exact hlayout.ne_newline (Option.some.inj hhead)

/-- Layout in front of a token is not seen among the tokens that count. -/
theorem significantTokens_insert (hcut : Cut before after) (hlayout : LayoutBefore next layout)
    (hend : next = .newline ∨ next = .endOfText → Rule.comment.EndsBefore after) :
    significantTokens (before ++ (layout ++ after)) = significantTokens (before ++ after) := by
  induction hcut with
  | start after => exact significantTokens_layout hlayout hend
  | @token text x before after hx hrest _ ih =>
      have hold : Lexeme.first? (x.spelling ++ (before ++ after)) = some x := by
        rw [← hrest, Lexeme.spelling_append_rest hx, hx]
      rw [List.append_assoc, List.append_assoc, significantTokens_of_first? hold, hrest]
      rcases first?_insert hx hrest hlayout with hnew | ⟨rfl, rule, hrule, hmatch, hmore⟩
      · rw [significantTokens_of_first? hnew, ih hend]
      · -- The run takes in the layout, and is skipped with it as it is without it.
        have hlongest := Lexeme.isLongest_of_first? hx
        have hany : rule ≠ .any := by rcases hrule with rfl | rfl <;> decide
        have hskipped : ∀ cs, (rule.token cs).isSkipped = true := by
          rcases hrule with rfl | rfl <;> exact fun _ => rfl
        have hafter : rule.EndsBefore after := by
          rw [List.nil_append] at hrest
          exact hrest ▸ hlongest.endsBefore hmatch
        rw [List.nil_append, List.nil_append, ← List.append_assoc,
          significantTokens_append hmore hany hafter, hlongest.token_eq hmatch hany,
          if_pos (hskipped _), if_pos (hskipped _)]

end Layout

/-! ## Streams on the same lines -/

/-- The places are on the same lines. -/
def Span.SameLines (a b : Span) : Prop :=
  a.lo.line = b.lo.line ∧ a.hi.line = b.hi.line

namespace TokenStream

theorem hi_ofReader (r : Reader) : (ofReader r).head.span.hi = (ofReader r).reader.position := by
  unfold ofReader
  fun_induction Reader.nextSignificant r with
  | case1 r _ ih => exact ih
  | case2 r _ =>
      cases hfirst : Lexeme.first? r.rest with
      | none => rw [Reader.next_of_nil (Lexeme.first?_eq_none_iff.mp hfirst)]
      | some x => rw [Reader.next_of_first? hfirst]

theorem token_ofReader (r : Reader) :
    (ofReader r).head.token = (significantTokens r.rest).head?.getD .endOfText := by
  rw [token_head, tokens_ofReader]

theorem significantTokens_reader (r : Reader) :
    significantTokens (ofReader r).reader.rest = (significantTokens r.rest).drop 1 := by
  rw [← tokens_ofReader, ← tokens_drop, drop_succ, drop_zero, tail]

theorem line_reader (r : Reader) : (ofReader r).reader.position.line =
    r.position.line + if (ofReader r).head.token = .newline then 1 else 0 := by
  rw [coherent_ofReader r, line_ofReader]

/-- The tokens tell the lines, so streams of the same tokens are on the same lines. -/
theorem alike_of_significantTokens_eq {r r' : Reader}
    (htokens : significantTokens r.rest = significantTokens r'.rest)
    (hline : r.position.line = r'.position.line) :
    (ofReader r).Alike Span.SameLines (ofReader r') := by
  intro n
  induction n generalizing r r' with
  | zero =>
      have htoken : (ofReader r).head.token = (ofReader r').head.token := by
        rw [token_ofReader, token_ofReader, htokens]
      have hlo : (ofReader r).line = (ofReader r').line := by
        rw [line_ofReader, line_ofReader, hline]
      refine ⟨htoken, hlo, ?_⟩
      rw [drop_zero, drop_zero, hi_ofReader, hi_ofReader, line_reader, line_reader, hline, htoken]
  | succ n ih =>
      rw [drop_succ, drop_succ]
      apply ih
      · rw [significantTokens_reader, significantTokens_reader, htokens]
      · rw [line_reader, line_reader, hline, token_ofReader, token_ofReader, htokens]

end TokenStream

/-- A text with layout put in between two of its tokens gives the same stream, line by line. -/
theorem TokenStream.alike_insert {before after layout : String} {n : Nat}
    (hplace : (tokenAt (before ++ after) n).span.lo.offset = before.utf8ByteSize)
    (hlayout : LayoutBefore (tokenAt (before ++ after) n).token layout.toList) :
    (ofText (before ++ after)).Alike Span.SameLines (ofText (before ++ layout ++ after)) := by
  have htext : (before ++ after).toList = before.toList ++ after.toList := by simp
  have hsize : utf8Length before.toList = before.utf8ByteSize := by
    rw [utf8Length_eq, String.ofList_toList]
  obtain ⟨hcut, hrest⟩ := cut_of_offset htext (hplace.trans hsize.symm)
  apply alike_of_significantTokens_eq
  · have hend := Reader.comment_endsBefore (r := Reader.afterTokens (before ++ after) n)
    rw [hrest] at hend
    have hinsert := significantTokens_insert hcut hlayout hend
    simpa [Reader.ofText] using hinsert.symm
  · rfl

end ForeignCall
