import ForeignCall.Proofs.Text.Stream

/-! # Tokens as longest runs

What the tokens of a text are, said class by class: marks and line breaks have fixed
spellings, the other tokens are runs that are as long as they can be, and a character that
begins none of them stands for itself. There is one way to cut a text into such tokens, and
it is the one in which a reader and a stream give them out. -/

namespace ForeignCall

/-! ## Runs -/

def IsLetter (c : Char) : Prop :=
  'a' ≤ c ∧ c ≤ 'z' ∨ 'A' ≤ c ∧ c ≤ 'Z'

def IsDigit (c : Char) : Prop :=
  '0' ≤ c ∧ c ≤ '9'

instance (c : Char) : Decidable (IsLetter c) :=
  inferInstanceAs (Decidable (_ ∨ _))

instance (c : Char) : Decidable (IsDigit c) :=
  inferInstanceAs (Decidable (_ ∧ _))

/-- The text is the run and the rest, and no longer part at its start is within the class. -/
structure LongestRun (p : Char → Prop) (text run rest : List Char) : Prop where
  append_eq : run ++ rest = text
  within : ∀ c ∈ run, p c
  length_le : ∀ more, more <+: text → (∀ c ∈ more, p c) → more.length ≤ run.length

namespace LongestRun

variable {p : Char → Prop} {text run rest : List Char}

theorem not_head? (h : LongestRun p text run rest) : ∀ c ∈ rest.head?, ¬ p c := by
  intro c hc hp
  obtain ⟨rest', rfl⟩ := List.head?_eq_some_iff.mp hc
  have hstart : run ++ [c] <+: text := ⟨rest', by simp [← h.append_eq]⟩
  have hwithin : ∀ d ∈ run ++ [c], p d := by
    intro d hd
    rcases List.mem_append.mp hd with hd | hd
    · exact h.within d hd
    · rwa [List.mem_singleton.mp hd]
  have hle := h.length_le _ hstart hwithin
  rw [List.length_append, List.length_singleton] at hle
  omega

theorem endsBefore (h : LongestRun p text run rest) {rule : Rule}
    (hp : ∀ c, rule.mayContinue c = true → p c) : rule.EndsBefore rest :=
  fun c hc => Bool.eq_false_iff.mpr fun hcontinue => h.not_head? c hc (hp c hcontinue)

end LongestRun

theorem longestRun_takeWhile {p : Char → Prop} {q : Char → Bool} (hp : ∀ c, q c = true ↔ p c)
    (text : List Char) : LongestRun p text (text.takeWhile q) (text.dropWhile q) := by
  refine ⟨List.takeWhile_append_dropWhile, ?_, ?_⟩
  · intro c hc
    exact (hp c).mp (List.all_eq_true.mp List.all_takeWhile c hc)
  · intro more hstart hmore
    exact Lexeme.length_le_takeWhile hstart fun c hc => (hp c).mpr (hmore c hc)

/-! ## One token -/

/-- What stands at the start of a text, by its class. -/
inductive Munch : List Char → Lexeme → Prop where
  | colon (rest) : Munch (':' :: rest) ⟨.colon, [':'], rest⟩
  | comma (rest) : Munch (',' :: rest) ⟨.comma, [','], rest⟩
  | newline (rest) : Munch ('\n' :: rest) ⟨.newline, ['\n'], rest⟩
  | returnNewline (rest) : Munch ('\r' :: '\n' :: rest) ⟨.newline, ['\r', '\n'], rest⟩
  | blank {text run rest} : run ≠ [] → LongestRun (fun c => c = ' ' ∨ c = '\t') text run rest →
      Munch text ⟨.blank (String.ofList run), run, rest⟩
  | comment {text body rest} : LongestRun (fun c => c ≠ '\r' ∧ c ≠ '\n') text body rest →
      Munch ('#' :: text) ⟨.comment (String.ofList ('#' :: body)), '#' :: body, rest⟩
  | word {c text body rest} : IsLetter c ∨ c = '_' →
      LongestRun (fun c => IsLetter c ∨ IsDigit c ∨ c = '_') text body rest →
      Munch (c :: text) ⟨.word (String.ofList (c :: body)), c :: body, rest⟩
  | number {text run rest} : run ≠ [] → LongestRun IsDigit text run rest →
      Munch text ⟨.number (String.ofList run), run, rest⟩
  | stray {c text} : c ∉ [':', ',', '\n', ' ', '\t', '#', '_'] → ¬ IsLetter c → ¬ IsDigit c →
      (c = '\r' → text.head? ≠ some '\n') → Munch (c :: text) ⟨.stray c, [c], text⟩

/-! ### The classes of characters -/

theorem isBlank_iff {c : Char} : isBlank c = true ↔ c = ' ' ∨ c = '\t' := by
  simp [isBlank]

theorem isCommentChar_iff {c : Char} : isCommentChar c = true ↔ c ≠ '\r' ∧ c ≠ '\n' := by
  simp [isCommentChar]

theorem isDigit_iff {c : Char} : c.isDigit = true ↔ IsDigit c := by
  simp [Char.isDigit, IsDigit, Char.le_def]

theorem isAlpha_iff {c : Char} : c.isAlpha = true ↔ IsLetter c := by
  have hupper : c.isUpper = decide ('A' ≤ c ∧ c ≤ 'Z') := rfl
  have hlower : c.isLower = (decide ('a' ≤ c) && decide (c ≤ 'z')) := rfl
  have halpha : c.isAlpha = (c.isUpper || c.isLower) := rfl
  rw [halpha, hupper, hlower, Bool.or_eq_true, Bool.and_eq_true]
  simp only [decide_eq_true_eq, IsLetter, or_comm]

theorem isWordStart_iff {c : Char} : isWordStart c = true ↔ IsLetter c ∨ c = '_' := by
  simp [isWordStart, isAlpha_iff]

theorem isWordChar_iff {c : Char} : isWordChar c = true ↔ IsLetter c ∨ IsDigit c ∨ c = '_' := by
  simp [isWordChar, Char.isAlphanum, isAlpha_iff, isDigit_iff, or_assoc]

/-! ### One way to take a token -/

theorem Munch.first?_eq {text : List Char} {x : Lexeme} (h : Munch text x) :
    Lexeme.first? text = some x := by
  cases h with
  | colon | comma | newline | returnNewline => rfl
  | @blank text run rest hne hrun =>
      obtain ⟨c, body, rfl⟩ := List.exists_cons_of_ne_nil hne
      obtain ⟨hc, hbody⟩ := List.forall_mem_cons.mp hrun.within
      have hmatch : Rule.blank.Matches (c :: body) :=
        ⟨isBlank_iff.mpr hc, fun b hb => isBlank_iff.mpr (hbody b hb)⟩
      rw [← hrun.append_eq]
      exact Lexeme.first?_append hmatch (by decide) (hrun.endsBefore fun _ => isBlank_iff.mp)
  | @comment text body rest hrun =>
      have hmatch : Rule.comment.Matches ('#' :: body) :=
        ⟨rfl, fun b hb => isCommentChar_iff.mpr (hrun.within b hb)⟩
      rw [← hrun.append_eq]
      exact Lexeme.first?_append hmatch (by decide)
        (hrun.endsBefore fun _ => isCommentChar_iff.mp)
  | @word c text body rest hc hrun =>
      have hmatch : Rule.word.Matches (c :: body) :=
        ⟨isWordStart_iff.mpr hc, fun b hb => isWordChar_iff.mpr (hrun.within b hb)⟩
      rw [← hrun.append_eq]
      exact Lexeme.first?_append hmatch (by decide) (hrun.endsBefore fun _ => isWordChar_iff.mp)
  | @number text run rest hne hrun =>
      obtain ⟨c, body, rfl⟩ := List.exists_cons_of_ne_nil hne
      obtain ⟨hc, hbody⟩ := List.forall_mem_cons.mp hrun.within
      have hmatch : Rule.number.Matches (c :: body) :=
        ⟨isDigit_iff.mpr hc, fun b hb => isDigit_iff.mpr (hbody b hb)⟩
      rw [← hrun.append_eq]
      exact Lexeme.first?_append hmatch (by decide) (hrun.endsBefore fun _ => isDigit_iff.mp)
  | @stray c text hmark hletter hdigit hbreak =>
      simp only [List.mem_cons, List.not_mem_nil, or_false, not_or] at hmark
      have hstart : isWordStart c = false := by
        simp [Bool.eq_false_iff, isWordStart_iff, hletter, hmark]
      have hnumber : c.isDigit = false := by simp [Bool.eq_false_iff, isDigit_iff, hdigit]
      rw [Lexeme.first?_cons hbreak]
      simp [Lexeme.startingWith, hmark, isBlank, hstart, hnumber]

theorem exists_munch (c : Char) (text : List Char) : ∃ x, Munch (c :: text) x := by
  by_cases hbreak : c = '\r' ∧ text.head? = some '\n'
  · obtain ⟨rfl, hhead⟩ := hbreak
    obtain ⟨rest, rfl⟩ := List.head?_eq_some_iff.mp hhead
    exact ⟨_, .returnNewline rest⟩
  by_cases hletter : IsLetter c
  · exact ⟨_, .word (.inl hletter) (longestRun_takeWhile (fun _ => isWordChar_iff) text)⟩
  by_cases hdigit : IsDigit c
  · have hne : (c :: text).takeWhile Char.isDigit ≠ [] := by simp [isDigit_iff.mpr hdigit]
    exact ⟨_, .number hne (longestRun_takeWhile (fun _ => isDigit_iff) (c :: text))⟩
  by_cases hmark : c ∈ [':', ',', '\n', ' ', '\t', '#', '_']
  · have hblank : isBlank c = true → ∃ x, Munch (c :: text) x := by
      intro hc
      have hne : (c :: text).takeWhile isBlank ≠ [] := by simp [hc]
      exact ⟨_, .blank hne (longestRun_takeWhile (fun _ => isBlank_iff) (c :: text))⟩
    simp only [List.mem_cons, List.not_mem_nil, or_false] at hmark
    rcases hmark with rfl | rfl | rfl | rfl | rfl | rfl | rfl
    · exact ⟨_, .colon text⟩
    · exact ⟨_, .comma text⟩
    · exact ⟨_, .newline text⟩
    · exact hblank rfl
    · exact hblank rfl
    · exact ⟨_, .comment (longestRun_takeWhile (fun _ => isCommentChar_iff) text)⟩
    · exact ⟨_, .word (.inr rfl) (longestRun_takeWhile (fun _ => isWordChar_iff) text)⟩
  · exact ⟨_, .stray hmark hletter hdigit fun hc hhead => hbreak ⟨hc, hhead⟩⟩

theorem munch_iff {text : List Char} {x : Lexeme} :
    Munch text x ↔ Lexeme.first? text = some x := by
  constructor
  · exact Munch.first?_eq
  · intro h
    cases text with
    | nil => cases h
    | cons c text =>
        obtain ⟨y, hy⟩ := exists_munch c text
        obtain rfl := Option.some.inj (hy.first?_eq.symm.trans h)
        exact hy

/-- A token is taken whatever follows it, as long as nothing of that would be taken with it. -/
theorem Lexeme.first?_append_of_endsBefore {text rest : List Char} {x : Lexeme}
    (h : first? text = some x)
    (hrest : ∀ rule : Rule, rule.Matches x.spelling → rule.EndsBefore rest)
    (hreturn : x.token = .stray '\r' → rest.head? ≠ some '\n') :
    first? (x.spelling ++ rest) = some ⟨x.token, x.spelling, rest⟩ := by
  obtain ⟨rule, hmatch, htoken, -⟩ := (isLongest_of_first? h).exists_rule
  by_cases hany : rule = .any
  · subst hany
    cases munch_iff.mpr h with
    | stray hmark hletter hdigit _ =>
        refine (Munch.stray hmark hletter hdigit ?_).first?_eq
        rintro rfl
        exact hreturn rfl
    | _ => cases htoken
  · rw [htoken]
    exact first?_append hmatch hany (hrest rule hmatch)

/-- One character after a token decides that it ends there. -/
theorem Lexeme.first?_append_of_head?_eq {text rest : List Char} {x : Lexeme}
    (h : first? text = some x) (hhead : rest.head? = x.rest.head?) :
    first? (x.spelling ++ rest) = some ⟨x.token, x.spelling, rest⟩ := by
  apply first?_append_of_endsBefore h
  · intro rule hmatch c hc
    rw [hhead] at hc
    exact (isLongest_of_first? h).endsBefore hmatch c hc
  · intro hreturn
    rw [hhead]
    cases munch_iff.mpr h with
    | stray _ _ _ hbreak =>
        cases hreturn
        exact hbreak rfl
    | _ => cases hreturn

/-! ## All tokens -/

/-- Token after token is taken off the text, up to its end. -/
inductive Munches : List Char → List Token → Prop where
  | nil : Munches [] []
  | cons {text x tokens} : Munch text x → Munches x.rest tokens →
      Munches text (x.token :: tokens)

theorem munches_iff {text : List Char} {tokens : List Token} :
    Munches text tokens ↔ tokens = (lexemes text).map Lexeme.token := by
  constructor
  · intro h
    induction h with
    | nil => simp
    | cons hx _ ih => simp [lexemes_of_first? hx.first?_eq, ih]
  · rintro rfl
    fun_induction lexemes text with
    | case1 text hnone =>
        obtain rfl := Lexeme.first?_eq_none_iff.mp hnone
        exact .nil
    | case2 text x hfirst ih => exact .cons (munch_iff.mpr hfirst) ih

theorem TokenStream.token_drop (text : String) (n : Nat) :
    ((ofText text).drop n).head.token =
      (significantTokens text.toList)[n]?.getD .endOfText := by
  rw [token_head, ofText, tokens_drop, List.head?_drop]
  rfl

/-! ## The contract of the tokens -/

/-- The function takes the tokens of the classes, and nothing only at the end of the text. A
return without a line break behind it stands for itself, as does all beyond ASCII. -/
structure TakesMunches (take : List Char → Option Lexeme) : Prop where
  takes_iff : ∀ text x, take text = some x ↔ Munch text x
  stops_iff : ∀ text, take text = none ↔ text = []
  lone_return : ∀ text, text.head? ≠ some '\n' →
    take ('\r' :: text) = some ⟨.stray '\r', ['\r'], text⟩
  beyond_ascii : ∀ c text, 128 ≤ c.toNat → take (c :: text) = some ⟨.stray c, [c], text⟩

/-- The tokens are the only ones that the text can be cut into. A reader gives out all of
them, a stream those that are not skipped, and after them the end of the text each time. -/
structure MunchSpec (text : String) (tokens : List Token) : Prop where
  munches_iff : ∀ other, Munches text.toList other ↔ other = tokens
  read : ∀ n, (tokenAt text n).token = tokens[n]?.getD .endOfText
  popped : ∀ n, ((TokenStream.ofText text).drop n).head.token =
    (tokens.filter (!·.isSkipped))[n]?.getD .endOfText

theorem IsLetter.toNat_lt {c : Char} (h : IsLetter c) : c.toNat < 128 := by
  rcases h with ⟨-, h⟩ | ⟨-, h⟩
  · exact Nat.lt_of_le_of_lt (UInt32.le_iff_toNat_le.mp h) (by decide)
  · exact Nat.lt_of_le_of_lt (UInt32.le_iff_toNat_le.mp h) (by decide)

theorem IsDigit.toNat_lt {c : Char} (h : IsDigit c) : c.toNat < 128 :=
  Nat.lt_of_le_of_lt (UInt32.le_iff_toNat_le.mp h.2) (by decide)

/-- Only one function takes the tokens of the classes. -/
theorem takesMunches_iff {take : List Char → Option Lexeme} :
    TakesMunches take ↔ take = Lexeme.first? := by
  constructor
  · intro h
    funext text
    exact Option.ext fun x => (h.takes_iff text x).trans munch_iff
  · rintro rfl
    refine ⟨fun _ _ => munch_iff.symm, fun _ => Lexeme.first?_eq_none_iff, ?_, ?_⟩
    · intro text hbreak
      exact (Munch.stray (by decide) (by decide) (by decide) fun _ => hbreak).first?_eq
    · intro c text hc
      have hletter : ¬ IsLetter c := fun h => Nat.not_lt.mpr hc h.toNat_lt
      have hdigit : ¬ IsDigit c := fun h => Nat.not_lt.mpr hc h.toNat_lt
      have hmark : c ∉ [':', ',', '\n', ' ', '\t', '#', '_'] := by
        simp only [List.mem_cons, List.not_mem_nil, or_false]
        rintro (rfl | rfl | rfl | rfl | rfl | rfl | rfl) <;> exact absurd hc (by decide)
      have hreturn : c ≠ '\r' := by
        rintro rfl
        exact absurd hc (by decide)
      exact (Munch.stray hmark hletter hdigit fun h => absurd h hreturn).first?_eq

/-- To take longest matches is to take the tokens of the classes, and readers and streams
give out the tokens of every text. -/
theorem tokens_munched (text : String) :
    (∀ take, TakesLongest take ↔ TakesMunches take) ∧ ∃ tokens, MunchSpec text tokens := by
  constructor
  · intro take
    exact takesLongest_iff.trans takesMunches_iff.symm
  · exact ⟨_, fun _ => munches_iff, token_tokenAt text, TokenStream.token_drop text⟩

/-- A comment ends at a return, which stands alone here, and a number where letters begin. -/
example : Munches "1a#\r\r\n".toList
    [.number "1", .word "a", .comment "#", .stray '\r', .newline] := by
  exact munches_iff.mpr (by decide +kernel)

end ForeignCall
