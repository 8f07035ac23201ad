import ForeignCall.Text.Token

/-! # Longest matches

The format's tokens are given by rules, each a set of spellings. At the start of a text
the longest spelling of any rule counts, and of two rules with that spelling the earlier
one. This leaves no choice, and it is how a text's first token is cut off. -/

namespace ForeignCall

/-- The kinds of spelling, the earlier ones first. -/
inductive Rule where
  | colon
  | comma
  | newline
  | blank
  | comment
  | word
  | number
  /-- Any one character. -/
  | any
deriving DecidableEq

namespace Rule

/-- The rule's place; of two rules the one of lower rank comes first. -/
def rank : Rule → Nat
  | colon => 0
  | comma => 1
  | newline => 2
  | blank => 3
  | comment => 4
  | word => 5
  | number => 6
  | any => 7

/-- The spellings of a rule: no rule has an empty one. -/
def Matches : Rule → List Char → Prop
  | _, [] => False
  | colon, c :: cs => c = ':' ∧ cs = []
  | comma, c :: cs => c = ',' ∧ cs = []
  | newline, c :: cs => c = '\n' ∧ cs = [] ∨ c = '\r' ∧ cs = ['\n']
  | blank, c :: cs => isBlank c ∧ ∀ b ∈ cs, isBlank b
  | comment, c :: cs => c = '#' ∧ ∀ b ∈ cs, isCommentChar b
  | word, c :: cs => isWordStart c ∧ ∀ b ∈ cs, isWordChar b
  | number, c :: cs => c.isDigit ∧ ∀ b ∈ cs, b.isDigit
  | any, _ :: cs => cs = []

/-- The token that a spelling of the rule stands for. -/
def token : Rule → List Char → Token
  | colon, _ => .colon
  | comma, _ => .comma
  | newline, _ => .newline
  | blank, cs => .blank (String.ofList cs)
  | comment, cs => .comment (String.ofList cs)
  | word, cs => .word (String.ofList cs)
  | number, cs => .number (String.ofList cs)
  | any, cs => .stray (cs.headD '?')

theorem Matches.exists_cons {r : Rule} {cs : List Char} (h : r.Matches cs) :
    ∃ c body, cs = c :: body := by
  cases cs with
  | nil => cases r <;> exact h.elim
  | cons c body => exact ⟨c, body, rfl⟩

theorem rank_inj {r s : Rule} : r.rank = s.rank ↔ r = s := by
  cases r <;> cases s <;> simp [rank]

theorem rank_le_any (r : Rule) : r.rank ≤ any.rank := by
  cases r <;> decide

theorem not_mem_of_class {p : Char → Bool} {c d : Char} {cs : List Char} (hc : p c)
    (hcs : ∀ b ∈ cs, p b) (hd : p d = false) : d ∉ c :: cs := by
  intro hmem
  have hall : ∀ b ∈ c :: cs, p b := List.forall_mem_cons.mpr ⟨hc, hcs⟩
  simp [hall d hmem] at hd

theorem isWordChar_of_isWordStart {c : Char} (h : isWordStart c) : isWordChar c := by
  simp only [isWordStart, isWordChar, Char.isAlphanum, Bool.or_eq_true] at h ⊢
  exact h.imp_left .inl

/-- Besides the line break, only the rule of any character can take one in. -/
theorem Matches.newline_not_mem {r : Rule} {cs : List Char} (h : r.Matches cs)
    (hr : r ≠ newline) (hany : r ≠ any) : '\n' ∉ cs := by
  obtain ⟨c, body, rfl⟩ := h.exists_cons
  cases r with
  | colon | comma =>
      obtain ⟨rfl, rfl⟩ := h
      decide
  | newline => exact absurd rfl hr
  | blank => exact not_mem_of_class (p := isBlank) h.1 h.2 rfl
  | comment =>
      obtain ⟨rfl, hbody⟩ := h
      exact not_mem_of_class (p := isCommentChar) rfl hbody rfl
  | word => exact not_mem_of_class (p := isWordChar) (isWordChar_of_isWordStart h.1) h.2 rfl
  | number => exact not_mem_of_class (p := Char.isDigit) h.1 h.2 rfl
  | any => exact absurd rfl hany

/-- Whether a spelling of the rule can be continued with `c` to a longer one. -/
def mayContinue : Rule → Char → Bool
  | colon, _ | comma, _ | newline, _ | any, _ => false
  | blank, c => isBlank c
  | comment, c => isCommentChar c
  | word, c => isWordChar c
  | number, c => c.isDigit

/-- No spelling of the rule reaches into the text. -/
def EndsBefore (r : Rule) (rest : List Char) : Prop :=
  ∀ c ∈ rest.head?, r.mayContinue c = false

theorem endsBefore_cons {r : Rule} {c : Char} {rest : List Char} :
    r.EndsBefore (c :: rest) ↔ r.mayContinue c = false := by
  simp [EndsBefore]

theorem Matches.mayContinue_of_mem {r : Rule} {cs more : List Char} (h : r.Matches cs)
    (hmore : r.Matches (cs ++ more)) : ∀ c ∈ more, r.mayContinue c := by
  obtain ⟨c, body, rfl⟩ := h.exists_cons
  cases r with
  | colon | comma | any => simp_all [Matches]
  | newline => rcases h with ⟨rfl, rfl⟩ | ⟨rfl, rfl⟩ <;> simp_all [Matches]
  | blank | comment | word | number =>
      intro b hb
      exact hmore.2 b (List.mem_append_right body hb)

/-- A character that continues a spelling makes a longer one. -/
theorem Matches.concat {r : Rule} {cs : List Char} {c : Char} (h : r.Matches cs)
    (hc : r.mayContinue c) : r.Matches (cs ++ [c]) := by
  obtain ⟨first, body, rfl⟩ := h.exists_cons
  cases r with
  | colon | comma | newline | any => cases hc
  | blank | comment | word | number =>
      refine ⟨h.1, fun b hb => ?_⟩
      rcases List.mem_append.mp hb with hb | hb
      · exact h.2 b hb
      · rwa [List.mem_singleton.mp hb]

theorem Matches.append {r : Rule} {cs more : List Char} (h : r.Matches cs)
    (hmore : ∀ c ∈ more, r.mayContinue c) : r.Matches (cs ++ more) := by
  induction more generalizing cs with
  | nil => rwa [List.append_nil]
  | cons c more ih =>
      obtain ⟨hc, hmore⟩ := List.forall_mem_cons.mp hmore
      rw [List.append_cons]
      exact ih (h.concat hc) hmore

theorem EndsBefore.append {r : Rule} {rest more : List Char} (hrest : r.EndsBefore rest)
    (hmore : r.EndsBefore more) : r.EndsBefore (rest ++ more) := by
  cases rest with
  | nil => exact hmore
  | cons c rest => exact endsBefore_cons.mpr (endsBefore_cons.mp hrest)

/-- What does not continue a spelling leaves no longer one. -/
theorem Matches.eq_nil_of_endsBefore {r : Rule} {cs more rest : List Char} (h : r.Matches cs)
    (hmore : r.Matches (cs ++ more)) (hstart : more <+: rest) (hrest : r.EndsBefore rest) :
    more = [] := by
  cases more with
  | nil => rfl
  | cons c more =>
      obtain ⟨rest', rfl⟩ := hstart
      have hc := h.mayContinue_of_mem hmore c (List.mem_cons_self)
      simp [endsBefore_cons.mp hrest] at hc

/-! ## The first character -/

/-- The one rule, besides that of any character, whose spellings may begin with `c`. -/
def ofFirst (c : Char) : Rule :=
  if c = ':' then colon
  else if c = ',' then comma
  else if c = '\n' ∨ c = '\r' then newline
  else if isBlank c then blank
  else if c = '#' then comment
  else if isWordStart c then word
  else if c.isDigit then number
  else any

theorem not_isWordStart_of_isDigit {c : Char} (h : c.isDigit) : isWordStart c = false := by
  have hle : c.toNat ≤ 57 := (Char.isDigit_iff_toNat.mp h).2
  have hupper : c.isUpper = false := by
    refine decide_eq_false fun hc => ?_
    have : 65 ≤ c.toNat := UInt32.le_iff_toNat_le.mp hc.1
    omega
  have hlower : c.isLower = false := by
    have hc : ¬ 'a'.val ≤ c.val := by
      intro hc
      have : 97 ≤ c.toNat := UInt32.le_iff_toNat_le.mp hc
      omega
    change (decide ('a'.val ≤ c.val) && decide (c.val ≤ 'z'.val)) = false
    rw [decide_eq_false hc, Bool.false_and]
  have hne : c ≠ '_' := by
    rintro rfl
    simp at h
  change (c.isUpper || c.isLower || decide (c = '_')) = false
  rw [hupper, hlower, decide_eq_false hne]
  rfl

theorem eq_ofFirst {r : Rule} {c : Char} {cs : List Char} (h : r.Matches (c :: cs))
    (hr : r ≠ any) : r = ofFirst c := by
  cases r with
  | colon | comma | comment =>
      obtain ⟨rfl, -⟩ := h
      rfl
  | newline =>
      rcases h with ⟨rfl, -⟩ | ⟨rfl, -⟩ <;> rfl
  | blank =>
      obtain ⟨hc, -⟩ := h
      obtain rfl | rfl : c = ' ' ∨ c = '\t' := by simpa [isBlank] using hc
      · rfl
      · rfl
  | word =>
      obtain ⟨hc, -⟩ := h
      have hne : ∀ d, isWordStart d = false → c ≠ d := by
        rintro d hd rfl
        simp [hd] at hc
      have hblank : isBlank c = false := by simp [isBlank, hne ' ' rfl, hne '\t' rfl]
      simp [ofFirst, hne ':' rfl, hne ',' rfl, hne '\n' rfl, hne '\r' rfl, hne '#' rfl, hblank, hc]
  | number =>
      obtain ⟨hc, -⟩ := h
      have hne : ∀ d, d.isDigit = false → c ≠ d := by
        rintro d hd rfl
        simp [hd] at hc
      have hblank : isBlank c = false := by simp [isBlank, hne ' ' rfl, hne '\t' rfl]
      simp [ofFirst, hne ':' rfl, hne ',' rfl, hne '\n' rfl, hne '\r' rfl, hne '#' rfl, hblank,
        not_isWordStart_of_isDigit hc, hc]
  | any => exact absurd rfl hr

end Rule

/-! ## The longest spelling -/

/-- The lexeme's spelling is the longest with which the text begins, and its token is that
of the first rule with this spelling. -/
structure Lexeme.IsLongest (x : Lexeme) (cs : List Char) : Prop where
  append_eq : x.spelling ++ x.rest = cs
  exists_rule : ∃ rule : Rule, rule.Matches x.spelling ∧ x.token = rule.token x.spelling ∧
    ∀ (other : Rule) (spelling : List Char), other.Matches spelling → spelling <+: cs →
      spelling.length < x.spelling.length ∨
        spelling.length = x.spelling.length ∧ rule.rank ≤ other.rank

namespace Lexeme

/-- At most one lexeme is the longest. -/
theorem IsLongest.unique {x y : Lexeme} {cs : List Char} (hx : x.IsLongest cs)
    (hy : y.IsLongest cs) : x = y := by
  obtain ⟨happendX, r, hr, htokenX, hlongX⟩ := hx
  obtain ⟨happendY, s, hs, htokenY, hlongY⟩ := hy
  have hstartX : x.spelling <+: cs := ⟨_, happendX⟩
  have hstartY : y.spelling <+: cs := ⟨_, happendY⟩
  have hboundY := hlongX s y.spelling hs hstartY
  have hboundX := hlongY r x.spelling hr hstartX
  have hlength : x.spelling.length = y.spelling.length := by omega
  have hspelling : x.spelling = y.spelling :=
    (List.prefix_of_prefix_length_le hstartX hstartY (Nat.le_of_eq hlength)).eq_of_length hlength
  obtain rfl : r = s := Rule.rank_inj.mp (by omega)
  have hrest : x.rest = y.rest := by
    rw [← happendY, hspelling] at happendX
    exact List.append_cancel_left happendX
  cases x
  cases y
  simp_all

/-- A run in a character class is the longest prefix within the class. -/
theorem length_le_takeWhile {p : Char → Bool} {body cs : List Char} (hstart : body <+: cs)
    (hp : ∀ b ∈ body, p b) : body.length ≤ (cs.takeWhile p).length := by
  obtain ⟨rest, rfl⟩ := hstart
  rw [List.takeWhile_append_of_pos hp, List.length_append]
  omega

/-- Since the first character decides the rule, a lexeme only has to be the longest of
its own rule. -/
theorem isLongest_of_rule (rule : Rule) {token : Token} {c : Char} {body cs rest : List Char}
    (happend : body ++ rest = cs) (hmatch : rule.Matches (c :: body)) (hrule : rule ≠ .any)
    (htoken : token = rule.token (c :: body))
    (hlong : ∀ more, rule.Matches (c :: more) → more <+: cs → more.length ≤ body.length) :
    IsLongest ⟨token, c :: body, rest⟩ (c :: cs) := by
  refine ⟨by simp [happend], rule, hmatch, htoken, ?_⟩
  intro other spelling hother hstart
  obtain ⟨c', more, rfl⟩ := hother.exists_cons
  obtain ⟨rfl, hmore⟩ := List.cons_prefix_cons.mp hstart
  by_cases hany : other = .any
  · -- One character is no longer than any match, and comes last.
    subst hany
    obtain rfl : more = [] := hother
    have := rule.rank_le_any
    simp only [List.length_cons, List.length_nil]
    omega
  · obtain rfl : other = rule :=
      (Rule.eq_ofFirst hother hany).trans (Rule.eq_ofFirst hmatch hrule).symm
    have := hlong more hother hmore
    simp only [List.length_cons]
    omega

theorem isLongest_run (rule : Rule) {token : String → Token} {p : Char → Bool} {c : Char}
    {cs : List Char} (hrule : rule ≠ .any)
    (hmatch : ∀ more, rule.Matches (c :: more) ↔ ∀ b ∈ more, p b)
    (htoken : ∀ spelling, rule.token spelling = token (String.ofList spelling)) :
    (run token p c cs).IsLongest (c :: cs) := by
  refine isLongest_of_rule rule List.takeWhile_append_dropWhile ?_ hrule (htoken _).symm ?_
  · rw [hmatch]
    intro b hb
    exact List.all_eq_true.mp List.all_takeWhile b hb
  · intro more hmore hstart
    exact length_le_takeWhile hstart ((hmatch more).mp hmore)

/-! ## The first token -/

/-- Apart from the line break of two characters, the first character decides the token. -/
theorem isLongest_startingWith {c : Char} {cs : List Char}
    (hbreak : ∀ rest, c = '\r' → cs ≠ '\n' :: rest) :
    (startingWith c cs).IsLongest (c :: cs) := by
  unfold startingWith
  split
  · rename_i hc
    refine isLongest_of_rule .colon rfl ⟨hc, rfl⟩ (by decide) rfl ?_
    rintro more ⟨-, rfl⟩ -
    exact Nat.le_refl _
  split
  · rename_i hc
    refine isLongest_of_rule .comma rfl ⟨hc, rfl⟩ (by decide) rfl ?_
    rintro more ⟨-, rfl⟩ -
    exact Nat.le_refl _
  split
  · rename_i hc
    refine isLongest_of_rule .newline rfl (.inl ⟨hc, rfl⟩) (by decide) rfl ?_
    rintro more (⟨-, rfl⟩ | ⟨rfl, -⟩) -
    · exact Nat.le_refl _
    · cases hc
  split
  · rename_i hc
    exact isLongest_run .blank (by decide) (by simp [Rule.Matches, hc]) fun _ => rfl
  split
  · rename_i hc
    exact isLongest_run .comment (by decide) (by simp [Rule.Matches, hc]) fun _ => rfl
  split
  · rename_i hc
    exact isLongest_run .word (by decide) (by simp [Rule.Matches, hc]) fun _ => rfl
  split
  · rename_i hc
    exact isLongest_run .number (by decide) (by simp [Rule.Matches, hc]) fun _ => rfl
  · -- No other rule has a spelling that begins with this character.
    refine ⟨rfl, .any, rfl, rfl, ?_⟩
    intro other spelling hother hstart
    obtain ⟨c', more, rfl⟩ := hother.exists_cons
    obtain ⟨rfl, hmore⟩ := List.cons_prefix_cons.mp hstart
    cases other with
    | any =>
        obtain rfl : more = [] := hother
        exact .inr ⟨rfl, Nat.le_refl _⟩
    | newline =>
        obtain ⟨hc, -⟩ | ⟨hc, rfl⟩ := hother
        · contradiction
        · obtain ⟨rest, rfl⟩ := hmore
          exact absurd rfl (hbreak rest hc)
    | colon | comma | blank | comment | word | number =>
        exact absurd hother.1 (by assumption)

theorem isLongest_of_first? {cs : List Char} {x : Lexeme} (h : first? cs = some x) :
    x.IsLongest cs := by
  unfold first? at h
  split at h
  · cases h
  · cases h
    refine isLongest_of_rule .newline rfl (.inr ⟨rfl, rfl⟩) (by decide) rfl ?_
    rintro more (⟨hc, -⟩ | ⟨-, rfl⟩) -
    · cases hc
    · exact Nat.le_refl _
  · rename_i c cs hbreak
    cases h
    exact isLongest_startingWith hbreak

theorem first?_eq_none_iff {cs : List Char} : first? cs = none ↔ cs = [] := by
  unfold first?
  split <;> simp

/-- Where no line break of two characters begins, one character decides. -/
theorem first?_cons {c : Char} {cs : List Char} (h : c = '\r' → cs.head? ≠ some '\n') :
    first? (c :: cs) = some (startingWith c cs) := by
  unfold first?
  split
  · contradiction
  · rename_i heq
    cases heq
    simp at h
  · rename_i heq
    cases heq
    rfl

theorem first?_eq_some_iff {cs : List Char} {x : Lexeme} :
    first? cs = some x ↔ x.IsLongest cs := by
  constructor
  · exact isLongest_of_first?
  · intro h
    cases hfirst : first? cs with
    | some y => rw [(isLongest_of_first? hfirst).unique h]
    | none =>
        obtain ⟨rule, hmatch, -⟩ := h.exists_rule
        obtain ⟨c, body, hspelling⟩ := hmatch.exists_cons
        have hnil := h.append_eq.trans (first?_eq_none_iff.mp hfirst)
        simp [hspelling] at hnil

/-- A spelling that nothing continues is cut off the text that begins with it. -/
theorem first?_append {rule : Rule} {spelling rest : List Char} (hmatch : rule.Matches spelling)
    (hrule : rule ≠ .any) (hrest : rule.EndsBefore rest) :
    first? (spelling ++ rest) = some ⟨rule.token spelling, spelling, rest⟩ := by
  obtain ⟨c, body, rfl⟩ := hmatch.exists_cons
  refine first?_eq_some_iff.mpr (isLongest_of_rule rule rfl hmatch hrule rfl ?_)
  intro more hmore hstart
  -- A longer spelling would continue this one with characters of what follows.
  rcases Nat.le_total more.length body.length with hle | hle
  · exact hle
  · obtain ⟨tail, rfl⟩ :=
      List.prefix_of_prefix_length_le (List.prefix_append body rest) hstart hle
    have htail : tail <+: rest := (List.prefix_append_right_inj body).mp hstart
    obtain rfl := hmatch.eq_nil_of_endsBefore hmore htail hrest
    exact Nat.le_of_eq (congrArg List.length (List.append_nil body))

/-! ## What follows a token -/

/-- Nothing continues the longest spelling. -/
theorem IsLongest.endsBefore {x : Lexeme} {cs : List Char} (h : x.IsLongest cs) {rule : Rule}
    (hmatch : rule.Matches x.spelling) : rule.EndsBefore x.rest := by
  obtain ⟨_, -, -, hlong⟩ := h.exists_rule
  intro c hc
  refine Bool.eq_false_iff.mpr fun hcontinue => ?_
  obtain ⟨rest, hrest⟩ := List.head?_eq_some_iff.mp hc
  have hstart : x.spelling ++ [c] <+: cs := ⟨rest, by simp [← h.append_eq, hrest]⟩
  have hlonger := hlong rule _ (hmatch.concat hcontinue) hstart
  rw [List.length_append, List.length_singleton] at hlonger
  omega

/-- Of the rules besides that of any character, only one has the spelling, and it gives the
token. -/
theorem IsLongest.token_eq {x : Lexeme} {cs : List Char} (h : x.IsLongest cs) {rule : Rule}
    (hmatch : rule.Matches x.spelling) (hrule : rule ≠ .any) :
    x.token = rule.token x.spelling := by
  obtain ⟨other, hother, htoken, hlong⟩ := h.exists_rule
  obtain ⟨c, body, hspelling⟩ := hmatch.exists_cons
  have hany : other ≠ .any := by
    rintro rfl
    have hrank := hlong rule x.spelling hmatch ⟨x.rest, h.append_eq⟩
    have hle := rule.rank_le_any
    exact hrule (Rule.rank_inj.mp (by omega))
  rw [htoken, hspelling]
  rw [hspelling] at hmatch hother
  rw [Rule.eq_ofFirst hother hany, Rule.eq_ofFirst hmatch hrule]

/-- A token of the format stays the first one where the text goes on with characters that
continue no token. -/
theorem first?_append_of_first? {cs more : List Char} {x : Lexeme} (h : first? cs = some x)
    (hx : ∀ c, x.token ≠ .stray c) (hmore : ∀ rule : Rule, rule.EndsBefore more) :
    first? (cs ++ more) = some ⟨x.token, x.spelling, x.rest ++ more⟩ := by
  have hlongest := isLongest_of_first? h
  obtain ⟨rule, hmatch, htoken, -⟩ := hlongest.exists_rule
  have hends := hlongest.endsBefore hmatch
  have hrule : rule ≠ .any := by
    rintro rfl
    exact hx _ htoken
  rw [← hlongest.append_eq, List.append_assoc, htoken]
  exact first?_append hmatch hrule (hends.append (hmore rule))

/-! ## Line breaks in spellings -/

theorem IsLongest.spelling_of_newline {x : Lexeme} {cs : List Char} (h : x.IsLongest cs)
    (hx : x.token = .newline) : x.spelling = ['\n'] ∨ x.spelling = ['\r', '\n'] := by
  obtain ⟨rule, hmatch, htoken, -⟩ := h.exists_rule
  obtain rfl : rule = .newline := by
    cases rule <;> simp_all [Rule.token]
  obtain ⟨c, body, hspelling⟩ := hmatch.exists_cons
  rw [hspelling] at hmatch ⊢
  rcases hmatch with ⟨rfl, rfl⟩ | ⟨rfl, rfl⟩
  · exact .inl rfl
  · exact .inr rfl

theorem IsLongest.newline_not_mem {x : Lexeme} {cs : List Char} (h : x.IsLongest cs)
    (hx : x.token ≠ .newline) : '\n' ∉ x.spelling := by
  obtain ⟨rule, hmatch, htoken, hlong⟩ := h.exists_rule
  have hrule : rule ≠ .newline := by
    rintro rfl
    exact hx htoken
  by_cases hany : rule = .any
  · -- A break of one character is one for an earlier rule.
    subst hany
    intro hmem
    obtain ⟨c, body, hspelling⟩ := hmatch.exists_cons
    rw [hspelling] at hmatch hmem
    obtain rfl : body = [] := hmatch
    obtain rfl := List.mem_singleton.mp hmem
    have hlonger := hlong .newline ['\n'] (.inl ⟨rfl, rfl⟩) ⟨x.rest, hspelling ▸ h.append_eq⟩
    simp [hspelling, Rule.rank] at hlonger
  · exact hmatch.newline_not_mem hrule hany

end Lexeme

/-- The function cuts off the longest spelling, and stops only at the end of the text. -/
structure TakesLongest (take : List Char → Option Lexeme) : Prop where
  isLongest : ∀ cs x, take cs = some x → x.IsLongest cs
  stops : ∀ cs, take cs = none → cs = []

/-- Only one function takes longest matches. -/
theorem takesLongest_iff {take : List Char → Option Lexeme} :
    TakesLongest take ↔ take = Lexeme.first? := by
  constructor
  · intro h
    funext cs
    cases htake : take cs with
    | some x => exact (Lexeme.first?_eq_some_iff.mpr (h.isLongest cs x htake)).symm
    | none => rw [h.stops cs htake]; rfl
  · rintro rfl
    exact ⟨fun _ _ => Lexeme.isLongest_of_first?, fun _ => Lexeme.first?_eq_none_iff.mp⟩

end ForeignCall
