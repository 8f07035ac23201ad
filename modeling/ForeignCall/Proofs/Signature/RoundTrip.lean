import ForeignCall.Proofs.Signature.Acceptance

/-! # Written signatures are read back

There are several ways to write a storage, and so a line and a text. Nothing that may
follow a spelling continues it, so each of them is cut off whole, and the tokens of the
text spell the storages that were written. -/

namespace ForeignCall

/-! ## Ways to write signatures -/

/-- The decimal digits, after any number of zeros. -/
def WritesNumber (n : UInt32) (cs : List Char) : Prop :=
  ∃ zeros, cs = List.replicate zeros '0' ++ (toString n).toList

/-- For the number of a class its name can stand, in any case, where it is a word. -/
inductive WritesKind (t : Table) (kind : UInt32) : List Char → Prop where
  | number {cs} : WritesNumber kind cs → WritesKind t kind cs
  | name {c word} : t.class? kind = some c → SameName c.name word →
      Rule.word.Matches word.toList → WritesKind t kind word.toList

inductive WritesStorage (t : Table) (s : Storage) : List Char → Prop where
  | mk {kind index} : WritesKind t s.kind kind → WritesNumber s.index index →
      WritesStorage t s (kind ++ ':' :: index)

/-- What may stand between two storages. -/
inductive Separates : List Char → Prop where
  | comma : Separates [',']
  | commaBlank : Separates [',', ' ']
  | blanks {cs} : Rule.blank.Matches cs → Separates cs

/-- Storages that follow another one, each after a separator. -/
inductive WritesMore (t : Table) : List Storage → List Char → Prop where
  | nil : WritesMore t [] []
  | cons {between storage more s rest} : Separates between → WritesStorage t s storage →
      WritesMore t rest more → WritesMore t (s :: rest) (between ++ (storage ++ more))

/-- A line with storages must not begin with the word for none, also where a class has
this name. -/
inductive WritesLine (t : Table) : List Storage → List Char → Prop where
  | void : WritesLine t [] "void".toList
  | storages {storage more s rest} : ¬ "void:".toList <+: storage → WritesStorage t s storage →
      WritesMore t rest more → WritesLine t (s :: rest) (storage ++ more)

/-- One line for each list; after the last one the line break may be left out. -/
inductive WritesText (t : Table) : List (List Storage) → List Char → Prop where
  | nil : WritesText t [] []
  | last {l line} : WritesLine t l line → WritesText t [l] line
  | cons {l rest line newline more} : WritesLine t l line → Rule.newline.Matches newline →
      WritesText t rest more → WritesText t (l :: rest) (line ++ (newline ++ more))

/-- Both numbers are within the bound on numbers that are read. -/
def Storage.InRange (s : Storage) : Prop :=
  s.kind.toNat ≤ 2 ^ 31 - 1 ∧ s.index.toNat ≤ 2 ^ 31 - 1

/-! ## Numbers -/

namespace WritesNumber

variable {n : UInt32} {cs : List Char}

theorem eq_toDigits (h : WritesNumber n cs) :
    ∃ zeros, cs = List.replicate zeros '0' ++ Nat.toDigits 10 n.toNat := by
  obtain ⟨zeros, rfl⟩ := h
  exact ⟨zeros, by rw [← Nat.toList_repr]; rfl⟩

theorem matches_number (h : WritesNumber n cs) : Rule.number.Matches cs := by
  have hdigit : ∀ c ∈ cs, c.isDigit := by
    obtain ⟨zeros, rfl⟩ := h.eq_toDigits
    intro c hc
    rcases List.mem_append.mp hc with hzero | hdigit
    · rw [List.eq_of_mem_replicate hzero]
      rfl
    · exact Nat.isDigit_of_mem_toDigits (by decide) (by decide) hdigit
  cases cs with
  | nil =>
      obtain ⟨zeros, hnil⟩ := h.eq_toDigits
      exact absurd (List.append_eq_nil_iff.mp hnil.symm).2 Nat.toDigits_ne_nil
  | cons c cs => exact List.forall_mem_cons.mp hdigit

theorem ofDigitChars_eq (h : WritesNumber n cs) : Nat.ofDigitChars 10 cs 0 = n.toNat := by
  obtain ⟨zeros, rfl⟩ := h.eq_toDigits
  rw [Nat.ofDigitChars_append, Nat.ofDigitChars_replicate_zero, Nat.mul_zero,
    Nat.ofDigitChars_ten_toDigits]

/-- The zeros in front do not count, and the digits are those of the number. -/
theorem spells (h : WritesNumber n cs) (hrange : n.toNat ≤ 2 ^ 31 - 1) :
    SpellsNumber (String.ofList cs) n := by
  rw [SpellsNumber, String.toList_ofList, h.ofDigitChars_eq]
  exact ⟨hrange, rfl⟩

end WritesNumber

/-! ## What is shown can be read -/

/-- A call as it is shown, with a comma between two storages. -/
def shownCall : List Storage → String
  | [] => "void"
  | s :: l => ",".intercalate ((s :: l).map Storage.text)

/-- Calls as they are shown, each on a line of its own. -/
def shownCalls (lists : List (List Storage)) : String :=
  String.join (lists.map fun l => shownCall l ++ "\n")

theorem Storage.toList_text (s : Storage) :
    s.text.toList = (toString s.kind).toList ++ ':' :: (toString s.index).toList := by
  simp [Storage.text]

theorem toList_shownCall_cons (s : Storage) (l : List Storage) :
    (shownCall (s :: l)).toList = s.text.toList ++ l.flatMap fun s => ',' :: s.text.toList := by
  change (",".intercalate (s.text :: l.map Storage.text)).toList = _
  induction l generalizing s with
  | nil => simp
  | cons s' l ih =>
      rw [List.map_cons, String.intercalate_cons_cons, String.toList_append, ih,
        String.toList_append, List.append_assoc]
      rfl

theorem shownCalls_cons (l : List Storage) (lists : List (List Storage)) :
    shownCalls (l :: lists) = shownCall l ++ "\n" ++ shownCalls lists := by
  rw [shownCalls, List.map_cons, String.join_cons, shownCalls]

section Shown

variable (t : Table)

/-- As a storage is shown, so it can be written. -/
theorem writesStorage_text (s : Storage) : WritesStorage t s s.text.toList := by
  rw [Storage.toList_text]
  exact .mk (.number ⟨0, rfl⟩) ⟨0, rfl⟩

theorem writesMore_text (l : List Storage) :
    WritesMore t l (l.flatMap fun s => ',' :: s.text.toList) := by
  induction l with
  | nil => exact .nil
  | cons s l ih => exact .cons .comma (writesStorage_text t s) ih

theorem writesLine_shownCall (l : List Storage) : WritesLine t l (shownCall l).toList := by
  cases l with
  | nil => exact .void
  | cons s l =>
      rw [toList_shownCall_cons]
      refine .storages ?_ (writesStorage_text t s) (writesMore_text t l)
      -- What is shown begins with a digit.
      have hnumber : WritesNumber s.kind (toString s.kind).toList := ⟨0, rfl⟩
      have hdigits := hnumber.matches_number
      obtain ⟨c, cs, hkind⟩ := hdigits.exists_cons
      rw [hkind] at hdigits
      rw [Storage.toList_text, hkind]
      intro hvoid
      obtain ⟨rfl, -⟩ := List.cons_prefix_cons.mp hvoid
      exact absurd hdigits.1 (by decide)

/-- As calls are shown, so they can be written. -/
theorem writesText_shownCalls (lists : List (List Storage)) :
    WritesText t lists (shownCalls lists).toList := by
  induction lists with
  | nil => exact .nil
  | cons l lists ih =>
      have hbreak : Rule.newline.Matches ['\n'] := .inl ⟨rfl, rfl⟩
      rw [shownCalls_cons, String.toList_append, String.toList_append, List.append_assoc]
      exact .cons (writesLine_shownCall t l) hbreak ih

end Shown

/-! ## Tokens of written text -/

/-- The text has these tokens, whatever follows that does not continue a spelling of the
rule. -/
def HasTokens (rule : Rule) (cs : List Char) (tokens : List Token) : Prop :=
  ∀ rest, rule.EndsBefore rest → significantTokens (cs ++ rest) = tokens ++ significantTokens rest

theorem hasTokens_of_matches (rule : Rule) {cs : List Char} (h : rule.Matches cs)
    (hrule : rule ≠ .any) :
    HasTokens rule cs (if (rule.token cs).isSkipped then [] else [rule.token cs]) :=
  fun _ hrest => significantTokens_append h hrule hrest

theorem HasTokens.append {rule rule' : Rule} {cs cs' : List Char} {tokens tokens' : List Token}
    (h : HasTokens rule cs tokens) (h' : HasTokens rule' cs' tokens')
    (hbetween : ∀ rest, rule'.EndsBefore rest → rule.EndsBefore (cs' ++ rest)) :
    HasTokens rule' (cs ++ cs') (tokens ++ tokens') := by
  intro rest hrest
  rw [List.append_assoc, h _ (hbetween rest hrest), h' _ hrest, List.append_assoc]

/-! ### Storages -/

theorem isWordChar_of_isDigit {c : Char} (h : c.isDigit) : isWordChar c := by
  simp [isWordChar, Char.isAlphanum, h]

theorem not_isWordChar_of_isBlank {c : Char} (h : isBlank c) : isWordChar c = false := by
  obtain rfl | rfl : c = ' ' ∨ c = '\t' := by simpa [isBlank] using h
  · rfl
  · rfl

/-- What does not continue a word does not continue a number. -/
theorem Rule.EndsBefore.number_of_word {rest : List Char} (h : word.EndsBefore rest) :
    number.EndsBefore rest := by
  intro c hc
  refine Bool.eq_false_iff.mpr fun hdigit => ?_
  have hword : isWordChar c = false := h c hc
  rw [isWordChar_of_isDigit hdigit] at hword
  cases hword

section Storages

variable {t : Table} {s : Storage} {l : List Storage} {cs : List Char}

theorem WritesKind.exists_token {kind : UInt32} (h : WritesKind t kind cs)
    (hrange : kind.toNat ≤ 2 ^ 31 - 1) :
    ∃ token, SpellsKind t token kind ∧ (cs ≠ "void".toList → token ≠ .word "void") ∧
      HasTokens .colon (cs ++ [':']) [token, .colon] := by
  have hcolon : HasTokens .colon [':'] [.colon] :=
    hasTokens_of_matches .colon ⟨rfl, rfl⟩ (by decide)
  cases h with
  | number hnumber =>
      have hdigits := hasTokens_of_matches .number hnumber.matches_number (by decide)
      exact ⟨_, .number (hnumber.spells hrange), nofun,
        hdigits.append hcolon fun _ _ => Rule.endsBefore_cons.mpr rfl⟩
  | @name c word hclass hcase hword =>
      have hkind : c.kind = kind := by simpa using List.find?_some hclass
      refine ⟨.word word, hkind ▸ .name (List.mem_of_find?_eq_some hclass) hcase, ?_, ?_⟩
      · rintro hne ⟨⟩
        exact hne rfl
      · have htoken : HasTokens .word word.toList [.word word] := by
          simpa [Rule.token, Token.isSkipped] using hasTokens_of_matches .word hword (by decide)
        exact htoken.append hcolon fun _ _ => Rule.endsBefore_cons.mpr rfl

/-- A written storage has the three tokens that spell it, where nothing continues its
index. -/
theorem WritesStorage.exists_tokens (h : WritesStorage t s cs) (hrange : s.InRange) :
    ∃ tokens, SpellsStorage t tokens s ∧
      (¬ "void:".toList <+: cs → tokens.head? ≠ some (.word "void")) ∧
      HasTokens .number cs tokens := by
  obtain @⟨kind, index, hkind, hindex⟩ := h
  obtain ⟨token, hspells, hvoid, htokens⟩ := hkind.exists_token hrange.1
  refine ⟨_, .mk hspells (hindex.spells hrange.2), ?_, ?_⟩
  · intro hstart htoken
    refine hvoid ?_ (Option.some.inj htoken)
    rintro rfl
    exact hstart ⟨index, rfl⟩
  · have hnumber := hasTokens_of_matches .number hindex.matches_number (by decide)
    have hboth := htokens.append hnumber fun _ _ _ _ => rfl
    rwa [List.append_assoc] at hboth

/-- A class begins with a letter or a digit. -/
theorem WritesKind.exists_cons {kind : UInt32} (h : WritesKind t kind cs) :
    ∃ c rest, cs = c :: rest ∧ isWordChar c := by
  cases h with
  | number hnumber =>
      have hdigits := hnumber.matches_number
      obtain ⟨c, rest, rfl⟩ := hdigits.exists_cons
      exact ⟨c, rest, rfl, isWordChar_of_isDigit hdigits.1⟩
  | name _ _ hword =>
      obtain ⟨c, rest, hcs⟩ := hword.exists_cons
      rw [hcs] at hword
      exact ⟨c, rest, hcs, Rule.isWordChar_of_isWordStart hword.1⟩

theorem WritesStorage.endsBefore (h : WritesStorage t s cs) (rest : List Char) :
    Rule.blank.EndsBefore (cs ++ rest) := by
  obtain ⟨hkind, -⟩ := h
  obtain ⟨c, more, rfl, hword⟩ := hkind.exists_cons
  refine Rule.endsBefore_cons.mpr (Bool.eq_false_iff.mpr fun hblank => ?_)
  rw [not_isWordChar_of_isBlank hblank] at hword
  cases hword

theorem Separates.endsBefore (h : Separates cs) (rest : List Char) :
    Rule.number.EndsBefore (cs ++ rest) := by
  refine Rule.EndsBefore.number_of_word ?_
  cases h with
  | comma | commaBlank => exact Rule.endsBefore_cons.mpr rfl
  | blanks hblank =>
      obtain ⟨c, more, rfl⟩ := hblank.exists_cons
      exact Rule.endsBefore_cons.mpr (not_isWordChar_of_isBlank hblank.1)

theorem Separates.exists_tokens (h : Separates cs) :
    ∃ tokens, (tokens = [] ∨ tokens = [.comma]) ∧ HasTokens .blank cs tokens := by
  have hcomma : HasTokens .comma [','] [.comma] :=
    hasTokens_of_matches .comma ⟨rfl, rfl⟩ (by decide)
  cases h with
  | comma => exact ⟨_, .inr rfl, fun rest _ => hcomma rest fun _ _ => rfl⟩
  | commaBlank =>
      have hblank : HasTokens .blank [' '] [] :=
        hasTokens_of_matches .blank ⟨rfl, nofun⟩ (by decide)
      exact ⟨_, .inr rfl, hcomma.append hblank fun _ _ _ _ => rfl⟩
  | blanks hblank => exact ⟨_, .inl rfl, hasTokens_of_matches .blank hblank (by decide)⟩

theorem WritesMore.exists_tokens (h : WritesMore t l cs) (hrange : ∀ s ∈ l, s.InRange) :
    ∃ tokens, SpellsMore t tokens l ∧ HasTokens .number cs tokens ∧
      ∀ rest, Rule.number.EndsBefore rest → Rule.number.EndsBefore (cs ++ rest) := by
  induction h with
  | nil => exact ⟨[], .nil, fun _ _ => rfl, fun _ => id⟩
  | @cons between storage more s l hbetween hstorage hmore ih =>
      obtain ⟨hs, hl⟩ := List.forall_mem_cons.mp hrange
      obtain ⟨separator, hseparator, hseparated⟩ := hbetween.exists_tokens
      obtain ⟨tokens, hspells, -, htokens⟩ := hstorage.exists_tokens hs
      obtain ⟨rest, hspellsRest, htokensRest, hends⟩ := ih hl
      have hall := hseparated.append (htokens.append htokensRest hends) fun rest _ => by
        rw [List.append_assoc]
        exact hstorage.endsBefore _
      refine ⟨separator ++ (tokens ++ rest), ?_, hall, ?_⟩
      · rcases hseparator with rfl | rfl
        · change SpellsMore t (tokens ++ rest) _
          exact .cons hspells hspellsRest
        · change SpellsMore t (.comma :: (tokens ++ rest)) _
          exact .comma hspells hspellsRest
      · intro rest _
        rw [List.append_assoc]
        exact hbetween.endsBefore _

/-! ### Lines -/

theorem WritesLine.exists_tokens (h : WritesLine t l cs) (hrange : ∀ s ∈ l, s.InRange) :
    ∃ tokens, SpellsCall t tokens l ∧ HasTokens .word cs tokens := by
  cases h with
  | void =>
      have hvoid : Rule.word.Matches "void".toList := by
        simp [Rule.Matches, isWordStart, isWordChar]
      exact ⟨_, .void, hasTokens_of_matches .word hvoid (by decide)⟩
  | storages hstart hstorage hmore =>
      obtain ⟨hs, hl⟩ := List.forall_mem_cons.mp hrange
      obtain ⟨tokens, hspells, hvoid, htokens⟩ := hstorage.exists_tokens hs
      obtain ⟨rest, hspellsRest, htokensRest, hends⟩ := hmore.exists_tokens hl
      refine ⟨tokens ++ rest, .storages ?_ hspells hspellsRest, ?_⟩
      · obtain ⟨-, -⟩ := hspells
        exact hvoid hstart
      · intro rest hrest
        exact htokens.append htokensRest hends rest hrest.number_of_word

end Storages

/-! ## Texts -/

theorem endsBefore_of_newline {newline : List Char} (h : Rule.newline.Matches newline)
    (rest : List Char) : Rule.word.EndsBefore (newline ++ rest) := by
  obtain ⟨c, cs, rfl⟩ := h.exists_cons
  refine Rule.endsBefore_cons.mpr ?_
  rcases h with ⟨rfl, -⟩ | ⟨rfl, -⟩ <;> rfl

theorem WritesText.spellsLines {t : Table} {lists : List (List Storage)} {cs : List Char}
    (h : WritesText t lists cs) (hrange : ∀ l ∈ lists, ∀ s ∈ l, s.InRange) (first : Nat) :
    SpellsLines t first (lines (significantTokens cs))
      (lists.mapIdx fun i l => ⟨i + first, l⟩) := by
  induction h generalizing first with
  | nil =>
      rw [significantTokens_nil, lines_nil, spellsLines_empty_iff, spellsLines_nil_iff]
      rfl
  | last hline =>
      obtain ⟨tokens, hspells, htokens⟩ := hline.exists_tokens (List.forall_mem_singleton.mp hrange)
      have hcs := htokens [] nofun
      obtain ⟨_, hlines, hnone⟩ := lines_append hspells.newline_not_mem (.inl rfl)
      rw [lines_nil, List.cons.injEq] at hnone
      obtain ⟨-, rfl⟩ := hnone
      rw [List.append_nil, significantTokens_nil] at hcs
      rw [hcs, hlines, spellsLines_cons_iff hspells.ne_nil]
      exact ⟨_, [], rfl, ⟨Nat.zero_add first, hspells⟩, spellsLines_nil_iff.mpr rfl⟩
  | @cons l rest line newline more hline hnewline _ ih =>
      obtain ⟨hl, hrest⟩ := List.forall_mem_cons.mp hrange
      obtain ⟨tokens, hspells, htokens⟩ := hline.exists_tokens hl
      have hbreak : significantTokens (newline ++ more) = .newline :: significantTokens more :=
        hasTokens_of_matches .newline hnewline (by decide) more fun _ _ => rfl
      rw [htokens _ (endsBefore_of_newline hnewline more), hbreak, List.mapIdx_cons]
      obtain ⟨_, hlines, hafter⟩ := lines_append hspells.newline_not_mem (.inr ⟨_, rfl⟩)
      rw [lines_newline, List.cons.injEq] at hafter
      obtain ⟨-, rfl⟩ := hafter
      rw [hlines, spellsLines_cons_iff hspells.ne_nil]
      have hmore := ih hrest (first + 1)
      refine ⟨_, _, rfl, ⟨Nat.zero_add first, hspells⟩, ?_⟩
      simpa only [Nat.add_right_comm, ← Nat.add_assoc] using hmore

/-! ## The contract of reading back -/

theorem Description.Built.signatures_of_writesText {d : Description} {t : Table}
    (h : d.Built t) {lists : List (List Storage)} {text : String}
    (hrange : ∀ l ∈ lists, ∀ s ∈ l, s.InRange) (hwrites : WritesText t lists text.toList) :
    t.signatures text = .ok (lists.mapIdx fun i l => ⟨i + 1, l⟩) :=
  h.signatures_eq_ok_iff.mpr (hwrites.spellsLines hrange 1)

/-- A text in which the calls are written is read as these calls, numbered by their lines.
The text in which they are shown is one of these. -/
structure RoundTripSpec (t : Table) (lists : List (List Storage)) : Prop where
  signatures_eq : ∀ text : String, WritesText t lists text.toList →
    t.signatures text = .ok (lists.mapIdx fun i l => ⟨i + 1, l⟩)
  writes_shown : WritesText t lists (shownCalls lists).toList

theorem signatures_roundTrip {d : Description} {t : Table} (hbuild : d.build = .ok t)
    {lists : List (List Storage)} (hrange : ∀ l ∈ lists, ∀ s ∈ l, s.InRange) :
    RoundTripSpec t lists := by
  have hbuilt := Description.build_eq_ok_iff.mp hbuild
  refine ⟨?_, writesText_shownCalls t lists⟩
  intro text hwrites
  exact hbuilt.signatures_of_writesText hrange hwrites

/-- What is written has a name in another case, zeros in front, each separator, both line
breaks, and the largest number. -/
theorem signatures_roundTrip_sample :
    (Description.ofSteps "sample" sampleSteps).build = .ok sampleTable ∧
      (∀ l ∈ [[⟨0, 7⟩, ⟨1, 1⟩, ⟨5, 0⟩], [], [⟨9, 3⟩, ⟨2147483647, 0⟩]],
        ∀ s ∈ l, Storage.InRange s) ∧
      WritesText sampleTable [[⟨0, 7⟩, ⟨1, 1⟩, ⟨5, 0⟩], [], [⟨9, 3⟩, ⟨2147483647, 0⟩]]
        "GPR:007, 01:1,5:0\nvoid\r\n9:3 \t2147483647:0".toList ∧
      sampleTable.signatures "GPR:007, 01:1,5:0\nvoid\r\n9:3 \t2147483647:0" =
        .ok [⟨1, [⟨0, 7⟩, ⟨1, 1⟩, ⟨5, 0⟩]⟩, ⟨2, []⟩, ⟨3, [⟨9, 3⟩, ⟨2147483647, 0⟩]⟩] ∧
      shownCalls [[⟨0, 7⟩, ⟨1, 1⟩, ⟨5, 0⟩], [], [⟨9, 3⟩, ⟨2147483647, 0⟩]] =
        "0:7,1:1,5:0\nvoid\n9:3,2147483647:0\n" ∧
      sampleTable.signatures "0:7,1:1,5:0\nvoid\n9:3,2147483647:0\n" =
        .ok [⟨1, [⟨0, 7⟩, ⟨1, 1⟩, ⟨5, 0⟩]⟩, ⟨2, []⟩, ⟨3, [⟨9, 3⟩, ⟨2147483647, 0⟩]⟩] := by
  have hrange : ∀ l ∈ [[⟨0, 7⟩, ⟨1, 1⟩, ⟨5, 0⟩], [], [⟨9, 3⟩, ⟨2147483647, 0⟩]],
      ∀ s ∈ l, Storage.InRange s := by
    simp [Storage.InRange]
  have hfirst : WritesLine sampleTable [⟨0, 7⟩, ⟨1, 1⟩, ⟨5, 0⟩] "GPR:007, 01:1,5:0".toList := by
    have hclass : sampleTable.class? 0 = some ⟨0, "gpr", .registers 0 3 2⟩ := rfl
    have hword : Rule.word.Matches "GPR".toList := by
      simp [Rule.Matches, isWordStart, isWordChar]
    have hcase : SameName "gpr" "GPR" := caseFold_eq_iff.mp rfl
    have hkind : WritesKind sampleTable 0 "GPR".toList := .name hclass hcase hword
    have hindex : WritesNumber 7 "007".toList := ⟨2, rfl⟩
    have hgpr : WritesStorage sampleTable ⟨0, 7⟩ "GPR:007".toList := by
      change WritesStorage _ _ ("GPR".toList ++ ':' :: "007".toList)
      exact .mk hkind hindex
    have hvec : WritesStorage sampleTable ⟨1, 1⟩ "01:1".toList := .mk (.number ⟨1, rfl⟩) ⟨0, rfl⟩
    have hnone : WritesStorage sampleTable ⟨5, 0⟩ "5:0".toList := writesStorage_text _ ⟨5, 0⟩
    exact .storages (by decide) hgpr (.cons .commaBlank hvec (.cons .comma hnone .nil))
  have hlast : WritesLine sampleTable [⟨9, 3⟩, ⟨2147483647, 0⟩] "9:3 \t2147483647:0".toList := by
    have hblank : Separates [' ', '\t'] := .blanks (by simp [Rule.Matches, isBlank])
    have hnine : WritesStorage sampleTable ⟨9, 3⟩ "9:3".toList := writesStorage_text _ ⟨9, 3⟩
    have hlargest : WritesStorage sampleTable ⟨2147483647, 0⟩ "2147483647:0".toList :=
      writesStorage_text _ ⟨2147483647, 0⟩
    exact .storages (by decide) hnine (.cons hblank hlargest .nil)
  have hwrites : WritesText sampleTable
      [[⟨0, 7⟩, ⟨1, 1⟩, ⟨5, 0⟩], [], [⟨9, 3⟩, ⟨2147483647, 0⟩]]
      "GPR:007, 01:1,5:0\nvoid\r\n9:3 \t2147483647:0".toList := by
    change WritesText _ _ ("GPR:007, 01:1,5:0".toList ++ (['\n'] ++
      ("void".toList ++ (['\r', '\n'] ++ "9:3 \t2147483647:0".toList))))
    exact .cons hfirst (.inl ⟨rfl, rfl⟩) (.cons .void (.inr ⟨rfl, rfl⟩) (.last hlast))
  have hshown : shownCalls [[⟨0, 7⟩, ⟨1, 1⟩, ⟨5, 0⟩], [], [⟨9, 3⟩, ⟨2147483647, 0⟩]] =
      "0:7,1:1,5:0\nvoid\n9:3,2147483647:0\n" := by decide +kernel
  have hspec := signatures_roundTrip build_sample hrange
  refine ⟨build_sample, hrange, hwrites, hspec.signatures_eq _ hwrites, hshown, ?_⟩
  exact hspec.signatures_eq _ (hshown ▸ hspec.writes_shown)

end ForeignCall
