import ForeignCall.Proofs.Signature.Alike

/-! # Parsing texts in a row

Nothing of a text that is accepted reaches past its last line, so a text that is put under
it is parsed as if it stood alone, further down. The first text may end in a comment, in
blanks or in a line break: reading it leads to where the second one begins. -/

namespace ForeignCall

/-! ## Tokens of texts in a row -/

/-- No token takes in the line break of one character that stands after it. -/
theorem Rule.endsBefore_newline (rule : Rule) (rest : List Char) :
    rule.EndsBefore ('\n' :: rest) := by
  cases rule <;> exact Rule.endsBefore_cons.mpr rfl

namespace TokenStream

/-- Taking the tokens of a text leads to what stands after it. -/
theorem takes_significantTokens {cs more : List Char}
    (hstray : ∀ c, .stray c ∉ significantTokens cs)
    (hmore : ∀ rule : Rule, rule.EndsBefore more) (before : List Char) :
    (ofReader ⟨cs ++ more, .after before⟩).Takes (significantTokens cs)
      (ofReader ⟨more, .after (before ++ cs)⟩) := by
  fun_induction lexemes cs generalizing before with
  | case1 cs hfirst => simp [Lexeme.first?_eq_none_iff.mp hfirst]
  | case2 cs x hfirst ih =>
      have hx : ∀ c, x.token ≠ .stray c := by
        intro c hc
        apply hstray c
        rw [significantTokens_of_not_isSkipped hfirst (by simp [hc, Token.isSkipped]), hc]
        exact List.mem_cons_self
      have hnext := Reader.next_of_after (r := ⟨cs ++ more, .after before⟩)
        (Lexeme.first?_append_of_first? hfirst hx hmore) rfl
      have hafter : before ++ x.spelling ++ x.rest = before ++ cs := by
        rw [List.append_assoc, Lexeme.spelling_append_rest hfirst]
      by_cases hskipped : x.token.isSkipped
      · rw [significantTokens_of_isSkipped hfirst hskipped] at hstray ⊢
        rw [ofReader_of_isSkipped (by rwa [hnext]), hnext, ← hafter]
        exact ih hstray _
      · rw [significantTokens_of_not_isSkipped hfirst hskipped] at hstray ⊢
        have hend := Lexeme.token_ne_endOfText hfirst
        rw [ofReader_of_not_isSkipped (by rwa [hnext]), hnext, takes_cons_iff, ← hafter]
        exact ⟨rfl, hend, ih (fun c hc => hstray c (List.mem_cons_of_mem _ hc)) _⟩

/-- After the tokens of a text and the line break under it the next text begins. -/
theorem takes_line {cs : List Char} (hstray : ∀ c, .stray c ∉ significantTokens cs)
    (more before : List Char) :
    (ofReader ⟨cs ++ '\n' :: more, .after before⟩).Takes (significantTokens cs ++ [.newline])
      (ofReader ⟨more, .after (before ++ cs ++ ['\n'])⟩) := by
  have hbreak : Lexeme.first? ('\n' :: more) = some ⟨.newline, ['\n'], more⟩ := rfl
  have hnext := Reader.next_of_after (r := ⟨'\n' :: more, .after (before ++ cs)⟩) hbreak rfl
  refine (takes_append_iff _ _).mpr ⟨_, takes_significantTokens hstray
    (Rule.endsBefore_newline · more) before, ?_⟩
  rw [ofReader_of_not_isSkipped (by simp [hnext, Token.isSkipped]), hnext, takes_singleton_iff]
  exact ⟨rfl, by simp, rfl⟩

end TokenStream

/-- After a line break only the line and the offset tell that something stands before. -/
theorem Position.after_newline (cs : List Char) : Position.after (cs ++ ['\n']) =
    Position.start.shift (cs.count '\n' + 1) (utf8Length cs + 1) := by
  have hbytes : utf8Length ['\n'] = 1 := rfl
  simp [after, shift, start, utf8Length_append, hbytes]

/-! ## Signatures of texts in a row -/

namespace Parse

variable {d : Description} {t : Table} {s s' : TokenStream}

/-- Besides line breaks, an accepted text has only tokens of calls. -/
theorem isCallToken_of_signatures (h : d.Built t) {found : List Signature}
    (hfound : (signatures t s).1 = .ok found) :
    ∀ token ∈ s.tokens, token = .newline ∨ token.isCallToken := by
  fun_induction signatures t s generalizing found with
  | case1 s hend => simp [TokenStream.tokens_of_endOfText hend]
  | case2 s hend hnewline ih =>
      rw [TokenStream.tokens_of_ne_endOfText hend]
      exact List.forall_mem_cons.mpr ⟨.inl hnewline, ih hfound⟩
  | case3 | case4 => cases hfound
  | case5 s _ _ x after hx rest final hrest ih =>
      obtain ⟨-, tokens, hspells, htakes, -⟩ := (signature_eq_ok_iff h).mp hx
      rw [htakes.tokens_eq]
      exact List.forall_mem_append.mpr
        ⟨fun token htoken => .inr (hspells.isCallToken token htoken), ih (by rw [hrest])⟩

theorem signatures_of_newline (hnewline : s.head.token = .newline) :
    signatures t s = signatures t s.tail := by
  rw [signatures_eq, if_neg (by simp [hnewline]), if_pos hnewline]

/-- One signature after the other. -/
theorem signatures_of_signature {x : Signature} (hopen : ¬ s.atLineEnd)
    (hx : signature t s = (.ok x, s')) :
    (signatures t s).1 = (signatures t s').1.map (x :: ·) := by
  simp only [TokenStream.atLineEnd, decide_eq_true_eq, not_or] at hopen
  rw [signatures_eq, if_neg hopen.2, if_neg hopen.1, andThen_of_ok hx]
  cases hrest : signatures t s' with
  | mk result final =>
      cases result with
      | error e => rw [andThen_of_error hrest]; rfl
      | ok rest => rw [andThen_of_ok hrest]; rfl

/-- On a stream that goes on where the first one ends, with a line break, the signatures
of the first one come before those of the rest. -/
theorem signatures_of_takes (h : d.Built t) {u : TokenStream} (hs : s.Coherent)
    (hs' : s'.Coherent) (hline : s'.line = s.line)
    (htakes : s'.Takes (s.tokens ++ [.newline]) u) {found : List Signature}
    (hfound : (signatures t s).1 = .ok found) :
    (signatures t s').1 = (signatures t u).1.map (found ++ ·) := by
  fun_induction signatures t s generalizing s' found with
  | case1 s hend =>
      cases hfound
      rw [TokenStream.tokens_of_endOfText hend] at htakes
      obtain ⟨hnewline, -, rfl⟩ := TokenStream.takes_singleton_iff.mp htakes
      rw [signatures_of_newline hnewline]
      cases (signatures t s'.tail).1 <;> rfl
  | case2 s hend hnewline ih =>
      rw [TokenStream.tokens_of_ne_endOfText hend, hnewline] at htakes
      obtain ⟨hnewline', -, htail⟩ := TokenStream.takes_cons_iff.mp htakes
      rw [signatures_of_newline hnewline']
      have htailLine : s'.tail.line = s.tail.line := by
        rw [hs'.line_tail, hs.line_tail, hline, hnewline, hnewline']
      exact ih (TokenStream.coherent_ofReader _) (TokenStream.coherent_ofReader _) htailLine htail
        hfound
  | case3 | case4 => cases hfound
  | case5 s hend hnewline x after hx rest final hrest ih =>
      cases hfound
      have hopen : ¬ s'.atLineEnd := by
        rw [TokenStream.tokens_of_ne_endOfText hend] at htakes
        have htoken := (TokenStream.takes_cons_iff.mp htakes).1
        simp [TokenStream.atLineEnd, htoken, hend, hnewline]
      obtain ⟨hnumber, tokens, hspells, htaken, hafter⟩ := (signature_eq_ok_iff h).mp hx
      rw [htaken.tokens_eq, List.append_assoc] at htakes
      obtain ⟨after', htaken', hmore⟩ := (TokenStream.takes_append_iff _ _).mp htakes
      have hafter' : after'.atLineEnd := by
        rw [atLineEnd_iff] at hafter ⊢
        rw [hmore.tokens_eq]
        rcases hafter with hnil | ⟨tail, htail⟩
        · exact .inr ⟨u.tokens, by rw [hnil]; rfl⟩
        · exact .inr ⟨tail ++ [.newline] ++ u.tokens, by rw [htail]; rfl⟩
      have hx' : signature t s' = (.ok x, after') :=
        (signature_eq_ok_iff h).mpr ⟨hline ▸ hnumber, tokens, hspells, htaken', hafter'⟩
      obtain ⟨hcoherent, hafterLine⟩ := coherent_of_signature h hs hx
      obtain ⟨hcoherent', hafterLine'⟩ := coherent_of_signature h hs' hx'
      rw [signatures_of_signature hopen hx', ih hcoherent hcoherent'
        (by rw [hafterLine, hafterLine', hline]) hmore (by rw [hrest])]
      cases (signatures t u).1 <;> rfl

end Parse

/-- The rest of a longer text is the lower text itself, moved down. -/
theorem TokenStream.takes_ofText_append {a : String}
    (hstray : ∀ c, .stray c ∉ significantTokens a.toList) (b : String) :
    (ofText (a ++ "\n" ++ b)).Takes (significantTokens a.toList ++ [.newline])
      ((ofText b).shift (a.toList.count '\n' + 1) (a.utf8ByteSize + 1)) := by
  have htext : (a ++ "\n" ++ b).toList = a.toList ++ '\n' :: b.toList := by simp
  have hsize : utf8Length a.toList = a.utf8ByteSize := by
    rw [utf8Length_eq, String.ofList_toList]
  rw [ofText, ofText, ← ofReader_shift, Reader.ofText, htext, ← hsize]
  have hline := takes_line hstray b.toList []
  rwa [List.nil_append, Position.after_newline] at hline

/-- A text under one that is accepted adds its signatures, or fails, as it does on its own.
Only the lines and the offsets count what stands above it. -/
theorem signatures_append_line {d : Description} {t : Table} (hbuild : d.build = .ok t)
    {a : String} {xs : List Signature} (ha : t.signatures a = .ok xs) (b : String) :
    (∀ ys, t.signatures b = .ok ys → t.signatures (a ++ "\n" ++ b) =
      .ok (xs ++ ys.map (·.shift (a.toList.count '\n' + 1)))) ∧
    ∀ e, t.signatures b = .error e → t.signatures (a ++ "\n" ++ b) =
      .error ⟨e.fault, e.span.shift (a.toList.count '\n' + 1) (a.utf8ByteSize + 1)⟩ := by
  have h := Description.build_eq_ok_iff.mp hbuild
  have htokens := TokenStream.tokens_ofText a
  have hstray : ∀ c, .stray c ∉ significantTokens a.toList := by
    intro c hmem
    rw [← htokens] at hmem
    rcases Parse.isCallToken_of_signatures h ha _ hmem with hc | hc <;> cases hc
  have htakes := TokenStream.takes_ofText_append hstray b
  rw [← htokens] at htakes
  have hline : (TokenStream.ofText (a ++ "\n" ++ b)).line = (TokenStream.ofText a).line := by
    rw [TokenStream.line_ofText, TokenStream.line_ofText]
  have hupper : t.signatures (a ++ "\n" ++ b) = _ :=
    Parse.signatures_of_takes h (TokenStream.coherent_ofText a) (TokenStream.coherent_ofText _)
      hline htakes ha
  have hlower := Parse.agree_signatures t (fun _ _ hspan => congrArg (·.lo.line) hspan)
    (TokenStream.alike_shift (a.toList.count '\n' + 1) (a.utf8ByteSize + 1) (.ofText b))
  rw [hupper]
  constructor
  · intro ys hys
    rw [hlower.of_ok hys]
    rfl
  · intro e he
    obtain ⟨span, rfl, hresult⟩ := hlower.of_error he
    rw [hresult]
    rfl

/-- A call and a comment above a call without storages, and above a line that fails. -/
theorem signatures_append_line_sample :
    (Description.ofSteps "sample" sampleSteps).build = .ok sampleTable ∧
      sampleTable.signatures "gpr:1\n# one" = .ok [⟨1, [⟨0, 1⟩]⟩] ∧
      sampleTable.signatures "gpr:1\n# one\n\nvoid" = .ok [⟨1, [⟨0, 1⟩]⟩, ⟨4, []⟩] ∧
      ∃ e, sampleTable.signatures "vec 0" = .error e ∧
        sampleTable.signatures "gpr:1\n# one\nvec 0" = .error ⟨e.fault, e.span.shift 2 12⟩ := by
  have hupper : sampleTable.signatures "gpr:1\n# one" = .ok [⟨1, [⟨0, 1⟩]⟩] :=
    eq_ok_of_toOption (by decide +kernel)
  have hlower : sampleTable.signatures "\nvoid" = .ok [⟨2, []⟩] :=
    eq_ok_of_toOption (by decide +kernel)
  obtain ⟨e, he⟩ := exists_error_of_toOption
    (by decide +kernel : (sampleTable.signatures "vec 0").toOption = none)
  refine ⟨build_sample, hupper, ?_, e, he, ?_⟩
  · exact (signatures_append_line build_sample hupper "\nvoid").1 _ hlower
  · exact (signatures_append_line build_sample hupper "vec 0").2 e he

end ForeignCall
