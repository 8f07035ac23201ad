import ForeignCall.Proofs.Signature.Earliest
import ForeignCall.Proofs.Signature.RoundTrip
import ForeignCall.Proofs.Text.Skipping

/-! # Between storages

What stands between the index of a storage and the class of the next one. -/

namespace ForeignCall

/-! ## Text between tokens -/

/-- The text from the end of one token to the start of another one. -/
def StandsBetween (gap text : String) (a b : LocatedToken) : Prop :=
  ∃ before after, text = before ++ gap ++ after ∧ a.span.hi.offset = before.utf8ByteSize ∧
    b.span.lo.offset = (before ++ gap).utf8ByteSize

theorem StandsBetween.eq_empty_iff {gap text : String} {a b : LocatedToken}
    (h : StandsBetween gap text a b) : gap = "" ↔ a.span.hi.offset = b.span.lo.offset := by
  obtain ⟨before, after, -, ha, hb⟩ := h
  rw [ha, hb, String.utf8ByteSize_append, ← String.utf8ByteSize_eq_zero_iff]
  omega

theorem standsBetween_of_after {text : String} {a b : LocatedToken} {before gap after : List Char}
    (htext : text.toList = before ++ gap ++ after) (ha : a.span.hi = .after before)
    (hb : b.span.lo = .after (before ++ gap)) :
    StandsBetween (String.ofList gap) text a b := by
  refine ⟨String.ofList before, String.ofList after, ?_, ?_, ?_⟩
  · rw [← String.ofList_append, ← String.ofList_append, ← htext, String.ofList_toList]
  · rw [ha]
    exact utf8Length_eq before
  · rw [hb, ← String.ofList_append]
    exact utf8Length_eq (before ++ gap)

/-- Nothing but blanks and at most one comma; and something, unless a word follows. -/
structure IsGap (next : Token) (gap : String) : Prop where
  separators : ∀ c ∈ gap.toList, c = ',' ∨ c = ' ' ∨ c = '\t'
  comma_le : gap.toList.count ',' ≤ 1
  eq_empty : gap = "" → ∃ name, next = .word name

theorem not_endsComment_of_isCallToken {token : Token} (h : token.isCallToken) :
    ¬ token.endsComment := by
  cases token <;> simp_all [Token.isCallToken, Token.endsComment]

theorem count_comma_of_blank {cs : List Char} (h : ∀ c ∈ cs, c = ' ' ∨ c = '\t') :
    cs.count ',' = 0 := by
  refine List.count_eq_zero.mpr fun hcomma => ?_
  rcases h _ hcomma with hc | hc <;> exact absurd hc (by decide)

section

variable {t : Table} {text : String} {k : Nat} {kind : UInt32}

/-- Between an index and a class right after it there are blanks. Two numbers do not meet. -/
theorem exists_gap_of_number {digits : String}
    (hindex : (significantAt text k).token = .number digits)
    (hclass : SpellsKind t (significantAt text (k + 1)).token kind) :
    ∃ gap, StandsBetween gap text (significantAt text k) (significantAt text (k + 1)) ∧
      IsGap (significantAt text (k + 1)).token gap := by
  obtain ⟨before, skipped, spelling, h⟩ := TokenStream.exists_skips_drop text k
  obtain ⟨gap, next, h'⟩ := h.tail
  have htext := h'.hasRead.append_eq
  rw [significantAt_succ] at hclass ⊢
  have hblank := h'.blank (not_endsComment_of_isCallToken hclass.isCallToken)
  rw [List.append_assoc] at htext
  refine ⟨String.ofList gap, standsBetween_of_after htext.symm ?_ ?_, ?_, ?_, ?_⟩
  · rw [significantAt, h.span_eq]
  · rw [h'.span_eq]
  · rw [String.toList_ofList]
    exact fun c hc => .inr (hblank c hc)
  · rw [String.toList_ofList, count_comma_of_blank hblank]
    exact Nat.zero_le _
  · intro hempty
    obtain rfl : gap = [] := by simpa using hempty
    -- The digits of an index reach as far as they can, so what follows is no digit.
    have hends := h.endsBefore .number (hindex ▸ h.spelled).matches_number
    rw [h.rest_eq h', List.nil_append] at hends
    generalize hnext : ((TokenStream.ofText text).drop k).tail.head.token = token at hclass ⊢
    cases hclass with
    | name => exact ⟨_, rfl⟩
    | number =>
        have hdigits := (hnext ▸ h'.spelled).matches_number
        obtain ⟨c, body, rfl⟩ := hdigits.exists_cons
        have hc : c.isDigit = false := Rule.endsBefore_cons.mp hends
        rw [hdigits.1] at hc
        cases hc

/-- With a comma before the class there are blanks around the comma. -/
theorem exists_gap_of_comma (hcomma : (significantAt text (k + 1)).token = .comma)
    (hclass : SpellsKind t (significantAt text (k + 2)).token kind) :
    ∃ gap, StandsBetween gap text (significantAt text k) (significantAt text (k + 2)) ∧
      IsGap (significantAt text (k + 2)).token gap := by
  obtain ⟨before, skipped, spelling, h⟩ := TokenStream.exists_skips_drop text k
  obtain ⟨gap, comma, h₁⟩ := h.tail
  obtain ⟨gap', next, h₂⟩ := h₁.tail
  have hsecond : significantAt text (k + 2) =
      ((TokenStream.ofText text).drop k).tail.tail.head := by
    rw [significantAt, TokenStream.drop_add]
    rfl
  rw [significantAt_succ] at hcomma
  rw [hsecond] at hclass ⊢
  obtain rfl := (hcomma ▸ h₁.spelled).eq_comma
  have hblank := h₁.blank (by simp [hcomma, Token.endsComment])
  have hblank' := h₂.blank (not_endsComment_of_isCallToken hclass.isCallToken)
  have htext : text.toList = before ++ skipped ++ spelling ++ (gap ++ ',' :: gap') ++
      (next ++ ((TokenStream.ofText text).drop k).tail.tail.reader.rest) := by
    simp [← h₂.hasRead.append_eq]
  refine ⟨String.ofList (gap ++ ',' :: gap'), standsBetween_of_after htext ?_ ?_, ?_, ?_, ?_⟩
  · rw [significantAt, h.span_eq]
  · rw [h₂.span_eq]
    simp
  · rw [String.toList_ofList]
    refine List.forall_mem_append.mpr ⟨fun c hc => .inr (hblank c hc), ?_⟩
    exact List.forall_mem_cons.mpr ⟨.inl rfl, fun c hc => .inr (hblank' c hc)⟩
  · rw [String.toList_ofList, List.count_append, List.count_cons_self, count_comma_of_blank hblank,
      count_comma_of_blank hblank']
  · intro hempty
    simp at hempty

end

/-! ## Storages of a line -/

/-- A storage is spelled by the token of that number and the two after it. -/
def Table.HasStorageAt (t : Table) (text : String) (k : Nat) : Prop :=
  ∃ a, SpellsStorage t [(significantAt text k).token, (significantAt text (k + 1)).token,
    (significantAt text (k + 2)).token] a

/-- The storage at `k` is followed by the one at `m`, on the same line. -/
structure Table.NextStorage (t : Table) (text : String) (k m : Nat) : Prop where
  first : t.HasStorageAt text k
  second : t.HasStorageAt text m
  lt : k < m
  same_line : ∀ j, k < j → j < m → (significantAt text j).token ≠ .newline
  next : ∀ j, k < j → j < m → ¬ t.HasStorageAt text j

theorem Table.hasStorageAt_iff {t : Table} {text : String} {k : Nat} :
    t.HasStorageAt text k ↔ (∃ kind, SpellsKind t (significantAt text k).token kind) ∧
      (significantAt text (k + 1)).token = .colon ∧
      ∃ digits index, (significantAt text (k + 2)).token = .number digits ∧
        SpellsNumber digits index := by
  constructor
  · rintro ⟨a, h⟩
    generalize (significantAt text k).token = token at h
    generalize (significantAt text (k + 1)).token = second at h
    generalize (significantAt text (k + 2)).token = third at h
    cases h with
    | mk hkind hnumber => exact ⟨⟨_, hkind⟩, rfl, _, _, rfl, hnumber⟩
  · rintro ⟨⟨kind, hkind⟩, hcolon, digits, index, hindex, hnumber⟩
    rw [Table.HasStorageAt, hcolon, hindex]
    exact ⟨_, .mk hkind hnumber⟩

section

variable {d : Description} {t : Table} {text : String} {found : List Signature} {k m : Nat}
  {place : Place}

theorem token_significantAt (text : String) (k : Nat) :
    (significantAt text k).token = (significantTokens text.toList)[k]?.getD .endOfText :=
  TokenStream.token_drop text k

theorem endOfText_not_mem_significantTokens (cs : List Char) :
    .endOfText ∉ significantTokens cs := by
  intro hend
  simp only [significantTokens, List.mem_filter, List.mem_map] at hend
  obtain ⟨⟨x, hx, htoken⟩, -⟩ := hend
  obtain ⟨cs', hfirst⟩ := exists_first?_of_mem_lexemes hx
  exact Lexeme.token_ne_endOfText hfirst htoken

theorem significantAt_eq_endOfText_iff :
    (significantAt text k).token = .endOfText ↔ (significantTokens text.toList).length ≤ k := by
  rw [token_significantAt, ← List.getElem?_eq_none_iff]
  cases htoken : (significantTokens text.toList)[k]? with
  | none => simp
  | some token =>
      have hmem := List.mem_of_getElem? htoken
      have hne : token ≠ .endOfText := by
        rintro rfl
        exact endOfText_not_mem_significantTokens _ hmem
      simp [hne]

theorem getElem?_tokenSequence (hk : k ≤ (significantTokens text.toList).length) :
    (tokenSequence text)[k]? = some (significantAt text k).token := by
  rw [token_significantAt, tokenSequence]
  rcases Nat.lt_or_eq_of_le hk with hlt | rfl
  · rw [List.getElem?_append_left hlt, List.getElem?_eq_getElem hlt, Option.getD_some]
  · simp

/-! ### Places in an accepted text -/

/-- The tokens before this one lead to the place. -/
def StandsAt (t : Table) (text : String) (k : Nat) (place : Place) : Prop :=
  Leads t .lineStart ((tokenSequence text).take k) place

theorem Description.Built.exists_standsAt (h : d.Built t) (hfound : t.signatures text = .ok found)
    (k : Nat) : ∃ place, StandsAt t text k place := by
  have hleads := h.leads_of_accepts ⟨text, found, rfl, hfound⟩
  rw [← List.take_append_drop k (tokenSequence text), leads_append_iff] at hleads
  obtain ⟨place, hplace, -⟩ := hleads
  exact ⟨place, hplace⟩

theorem Description.Built.le_length_of_standsAt (h : d.Built t)
    (hfound : t.signatures text = .ok found) (hplace : StandsAt t text k place)
    (hended : place ≠ .ended) : k ≤ (significantTokens text.toList).length := by
  by_contra hlt
  rw [StandsAt, List.take_of_length_le (by simp [tokenSequence]; omega)] at hplace
  exact hended (hplace.unique (h.leads_of_accepts ⟨text, found, rfl, hfound⟩))

/-- In an accepted text each token follows at its place. -/
theorem Description.Built.exists_follows (h : d.Built t) (hfound : t.signatures text = .ok found)
    (hplace : StandsAt t text k place) (hk : k ≤ (significantTokens text.toList).length) :
    ∃ next, Follows t place (significantAt text k).token next ∧ StandsAt t text (k + 1) next := by
  obtain ⟨next, hnext⟩ := h.exists_standsAt hfound (k + 1)
  have hstep := hnext
  rw [StandsAt, List.take_add_one, getElem?_tokenSequence hk, Option.toList_some,
    leads_append_iff] at hstep
  obtain ⟨between, hbetween, hlast⟩ := hstep
  obtain ⟨last, hfollows, ⟨⟩⟩ := leads_cons_iff.mp hlast
  exact ⟨next, hplace.unique hbetween ▸ hfollows, hnext⟩

theorem Description.Built.follows_of_standsAt (h : d.Built t)
    (hfound : t.signatures text = .ok found) (hplace : StandsAt t text k place)
    (hended : place ≠ .ended) :
    ∃ next, Follows t place (significantAt text k).token next ∧ StandsAt t text (k + 1) next :=
  h.exists_follows hfound hplace (h.le_length_of_standsAt hfound hplace hended)

/-- After a class the text goes on with a colon and an index. -/
theorem Description.Built.colon_of_standsAt (h : d.Built t)
    (hfound : t.signatures text = .ok found) (hplace : StandsAt t text k .colon) :
    (significantAt text k).token = .colon ∧ StandsAt t text (k + 1) .index := by
  obtain ⟨next, hfollows, hnext⟩ := h.follows_of_standsAt hfound hplace nofun
  generalize (significantAt text k).token = token at hfollows ⊢
  cases hfollows with
  | storageClass hbegin _ => cases hbegin
  | colon => exact ⟨rfl, hnext⟩
  | newline hend | endOfText hend => cases hend

theorem Description.Built.index_of_standsAt (h : d.Built t)
    (hfound : t.signatures text = .ok found) (hplace : StandsAt t text k .index) :
    (∃ digits index, (significantAt text k).token = .number digits ∧ SpellsNumber digits index) ∧
      StandsAt t text (k + 1) .nextStorage := by
  obtain ⟨next, hfollows, hnext⟩ := h.follows_of_standsAt hfound hplace nofun
  generalize (significantAt text k).token = token at hfollows ⊢
  cases hfollows with
  | storageClass hbegin _ => cases hbegin
  | index hnumber => exact ⟨⟨_, _, rfl, hnumber⟩, hnext⟩
  | newline hend | endOfText hend => cases hend

/-- Where a class stands, there is a storage. -/
theorem Description.Built.hasStorageAt_of_class (h : d.Built t)
    (hfound : t.signatures text = .ok found) (hplace : StandsAt t text k place)
    (hbegin : place.mayBegin (significantAt text k).token) {kind : UInt32}
    (hclass : SpellsKind t (significantAt text k).token kind) :
    t.HasStorageAt text k ∧ StandsAt t text (k + 3) .nextStorage := by
  have hended : place ≠ .ended := by
    rintro rfl
    cases hbegin
  obtain ⟨next, hfollows, hnext⟩ := h.follows_of_standsAt hfound hplace hended
  obtain rfl := hfollows.unique (.storageClass hbegin hclass)
  obtain ⟨hcolon, hnext⟩ := h.colon_of_standsAt hfound hnext
  obtain ⟨hindex, hnext⟩ := h.index_of_standsAt hfound hnext
  exact ⟨Table.hasStorageAt_iff.mpr ⟨⟨kind, hclass⟩, hcolon, hindex⟩, hnext⟩

theorem follows_colon_iff {next : Place} :
    Follows t place .colon next ↔ place = .colon ∧ next = .index := by
  constructor
  · intro hfollows
    cases hfollows with
    | storageClass _ hkind => cases hkind
    | colon => exact ⟨rfl, rfl⟩
  · rintro ⟨rfl, rfl⟩
    exact .colon

/-- A colon stands only after a class, so the storages spelled in the text are those of its
calls. -/
theorem Description.Built.standsAt_of_hasStorageAt (h : d.Built t)
    (hfound : t.signatures text = .ok found) (hstorage : t.HasStorageAt text k) :
    StandsAt t text (k + 3) .nextStorage := by
  obtain ⟨-, hcolon, -⟩ := Table.hasStorageAt_iff.mp hstorage
  obtain ⟨place, hplace⟩ := h.exists_standsAt hfound (k + 1)
  have hlt : ¬ (significantTokens text.toList).length ≤ k + 1 := by
    rw [← significantAt_eq_endOfText_iff, hcolon]
    nofun
  obtain ⟨next, hfollows, hnext⟩ := h.exists_follows hfound hplace (by omega)
  rw [hcolon, follows_colon_iff] at hfollows
  obtain ⟨rfl, rfl⟩ := hfollows
  exact (h.index_of_standsAt hfound hnext).2

/-- After a comma there is a storage. -/
theorem Description.Built.hasStorageAt_of_standsAt (h : d.Built t)
    (hfound : t.signatures text = .ok found) (hplace : StandsAt t text k .storageClass) :
    t.HasStorageAt text k := by
  obtain ⟨next, hfollows, -⟩ := h.follows_of_standsAt hfound hplace nofun
  rw [follows_class_iff rfl (by simp [Place.mayEnd]) (by simp)] at hfollows
  obtain ⟨-, kind, hclass⟩ := hfollows
  exact (h.hasStorageAt_of_class hfound hplace rfl hclass).1

theorem not_spellsKind_colon {kind : UInt32} : ¬ SpellsKind t .colon kind :=
  nofun

/-- The next storage comes right after this one, or a comma stands between them. -/
theorem Description.Built.nextStorage_cases (h : d.Built t)
    (hfound : t.signatures text = .ok found) (hpair : t.NextStorage text k m) :
    m = k + 3 ∨ (significantAt text (k + 3)).token = .comma ∧ m = k + 4 := by
  obtain ⟨hfirst, hsecond, hlt, hline, hleast⟩ := hpair
  have hplace := h.standsAt_of_hasStorageAt hfound hfirst
  obtain ⟨next, hfollows, hnext⟩ := h.follows_of_standsAt hfound hplace nofun
  obtain ⟨-, hcolon, -⟩ := Table.hasStorageAt_iff.mp hfirst
  obtain ⟨⟨kind, hclass⟩, hcolon', -⟩ := Table.hasStorageAt_iff.mp hsecond
  have hne₁ : m ≠ k + 1 := by
    rintro rfl
    rw [hcolon] at hclass
    exact not_spellsKind_colon hclass
  have hne₂ : m ≠ k + 2 := by
    rintro rfl
    rw [hcolon', follows_colon_iff] at hfollows
    cases hfollows.1
  by_cases hm : m = k + 3
  · exact .inl hm
  have hnot := hleast (k + 3) (by omega) (by omega)
  refine .inr ?_
  generalize htoken : (significantAt text (k + 3)).token = token at hfollows
  cases hfollows with
  | storageClass hbegin hkind =>
      rw [← htoken] at hkind
      exact absurd (h.hasStorageAt_of_class hfound hplace rfl hkind).1 hnot
  | comma =>
      refine ⟨rfl, ?_⟩
      by_contra hne
      exact hleast (k + 4) (by omega) (by omega) (h.hasStorageAt_of_standsAt hfound hnext)
  | newline => exact absurd htoken (hline (k + 3) (by omega) (by omega))
  | endOfText =>
      rw [significantAt_eq_endOfText_iff] at htoken
      have hend : (significantAt text m).token = .endOfText :=
        significantAt_eq_endOfText_iff.mpr (by omega)
      rw [hend] at hclass
      cases hclass

end

/-! ## Text between storages -/

/-- Between two storages on a line of the text there is a comma or a blank. -/
def Table.Separated (t : Table) (text : String) : Prop :=
  ∀ k m, t.NextStorage text k m → ∃ gap,
    StandsBetween gap text (significantAt text (k + 2)) (significantAt text m) ∧
      ∃ c ∈ gap.toList, c = ',' ∨ c = ' ' ∨ c = '\t'

/-- Nothing but separators stands between two storages of an accepted text, and they are
left out only in front of a name. -/
structure Table.GapsSpec (t : Table) (text : String) : Prop where
  gap : ∀ k m, t.NextStorage text k m → ∃ gap,
    StandsBetween gap text (significantAt text (k + 2)) (significantAt text m) ∧
      IsGap (significantAt text m).token gap
  separated_iff : t.Separated text ↔ ∀ k m name, t.NextStorage text k m →
    (significantAt text m).token = .word name →
      (significantAt text (k + 2)).span.hi.offset ≠ (significantAt text m).span.lo.offset

theorem Description.Built.exists_gap {d : Description} {t : Table} {text : String}
    {found : List Signature} {k m : Nat} (h : d.Built t) (hfound : t.signatures text = .ok found)
    (hpair : t.NextStorage text k m) : ∃ gap,
      StandsBetween gap text (significantAt text (k + 2)) (significantAt text m) ∧
        IsGap (significantAt text m).token gap := by
  obtain ⟨-, -, digits, index, hindex, -⟩ := Table.hasStorageAt_iff.mp hpair.first
  obtain ⟨⟨kind, hclass⟩, -⟩ := Table.hasStorageAt_iff.mp hpair.second
  rcases h.nextStorage_cases hfound hpair with rfl | ⟨hcomma, rfl⟩
  · exact exists_gap_of_number hindex hclass
  · exact exists_gap_of_comma hcomma hclass

theorem Description.Built.gapsSpec {d : Description} {t : Table} {text : String}
    {found : List Signature} (h : d.Built t) (hfound : t.signatures text = .ok found) :
    t.GapsSpec text := by
  refine ⟨fun k m hpair => h.exists_gap hfound hpair, ?_⟩
  constructor
  · intro hseparated k m name hpair hname hoffset
    obtain ⟨gap, hbetween, c, hc, -⟩ := hseparated k m hpair
    rw [hbetween.eq_empty_iff.mpr hoffset] at hc
    cases hc
  · intro hnames k m hpair
    obtain ⟨gap, hbetween, hgap⟩ := h.exists_gap hfound hpair
    refine ⟨gap, hbetween, ?_⟩
    have hne : gap ≠ "" := by
      intro hempty
      obtain ⟨name, hname⟩ := hgap.eq_empty hempty
      exact hnames k m name hpair hname (hbetween.eq_empty_iff.mp hempty)
    obtain ⟨c, hc⟩ := List.exists_mem_of_ne_nil gap.toList (by simpa using hne)
    exact ⟨c, hc, hgap.separators c hc⟩

/-- A storage written by the name of its class may touch the index before it. -/
theorem Description.Built.signatures_of_glued {d : Description} {t : Table} (h : d.Built t)
    {text : String} {a b : Storage} {first second : List Char} (ha : a.InRange) (hb : b.InRange)
    (htext : text.toList = first ++ second) (hstart : ¬ "void:".toList <+: first)
    (hfirst : WritesStorage t a first) (hsecond : WritesStorage t b second)
    (hname : ∃ c ∈ second.head?, isWordStart c) :
    t.signatures text = .ok [⟨1, [a, b]⟩] := by
  obtain ⟨tokens, hspells, hvoid, htokens⟩ := hfirst.exists_tokens ha
  obtain ⟨tokens', hspells', -, htokens'⟩ := hsecond.exists_tokens hb
  obtain ⟨c, hc, hword⟩ := hname
  obtain ⟨rest, rfl⟩ := List.head?_eq_some_iff.mp hc
  have hends : Rule.number.EndsBefore (c :: rest) := by
    refine Rule.endsBefore_cons.mpr (Bool.eq_false_iff.mpr fun hdigit => ?_)
    rw [Rule.not_isWordStart_of_isDigit hdigit] at hword
    cases hword
  have hall : significantTokens (first ++ c :: rest) = tokens ++ (tokens' ++ []) := by
    have hlast := htokens' [] nofun
    rw [significantTokens_nil, List.append_nil] at hlast
    rw [htokens _ hends, hlast]
  have hcall : SpellsCall t (tokens ++ (tokens' ++ [])) [a, b] := by
    refine .storages ?_ hspells (.cons hspells' .nil)
    obtain ⟨-, -⟩ := hspells
    exact hvoid hstart
  obtain ⟨_, hlines, hnone⟩ := lines_append hcall.newline_not_mem (.inl rfl)
  rw [lines_nil, List.cons.injEq] at hnone
  obtain ⟨-, rfl⟩ := hnone
  rw [List.append_nil] at hlines
  rw [h.signatures_eq_ok_iff, htext, hall, hlines, spellsLines_cons_iff hcall.ne_nil]
  exact ⟨_, [], rfl, ⟨rfl, hcall⟩, spellsLines_nil_iff.mpr rfl⟩

/-! ## The contract of separators -/

/-- Between the storages of an accepted text there are only separators, and any text where a
class follows an index by its name is accepted without one. -/
theorem gaps_spec {d : Description} {t : Table} (hbuild : d.build = .ok t) :
    (∀ text found, t.signatures text = .ok found → t.GapsSpec text) ∧
      ∀ (text : String) (a b : Storage) (first second : List Char), a.InRange → b.InRange →
        text.toList = first ++ second → ¬ "void:".toList <+: first → WritesStorage t a first →
          WritesStorage t b second → (∃ c ∈ second.head?, isWordStart c) →
            t.signatures text = .ok [⟨1, [a, b]⟩] := by
  have h := Description.build_eq_ok_iff.mp hbuild
  refine ⟨fun text found hfound => h.gapsSpec hfound, ?_⟩
  intro text a b first second ha hb htext hstart hfirst hsecond hname
  exact h.signatures_of_glued ha hb htext hstart hfirst hsecond hname

theorem writesStorage_sample : WritesStorage sampleTable ⟨0, 1⟩ "gpr:1".toList ∧
    WritesStorage sampleTable ⟨1, 0⟩ "vec:0".toList := by
  have hgpr : Rule.word.Matches "gpr".toList := by simp [Rule.Matches, isWordStart, isWordChar]
  have hvec : Rule.word.Matches "vec".toList := by simp [Rule.Matches, isWordStart, isWordChar]
  have hfirst : sampleTable.class? 0 = some ⟨0, "gpr", .registers 0 3 2⟩ := rfl
  have hsecond : sampleTable.class? 1 = some ⟨1, "vec", .registers 6 2 1⟩ := rfl
  constructor
  · change WritesStorage _ _ ("gpr".toList ++ ':' :: "1".toList)
    exact .mk (.name hfirst (.refl "gpr") hgpr) ⟨0, rfl⟩
  · change WritesStorage _ _ ("vec".toList ++ ':' :: "0".toList)
    exact .mk (.name hsecond (.refl "vec") hvec) ⟨0, rfl⟩

theorem gaps_sample :
    (Description.ofSteps "sample" sampleSteps).build = .ok sampleTable ∧
      WritesStorage sampleTable ⟨0, 1⟩ "gpr:1".toList ∧
      WritesStorage sampleTable ⟨1, 0⟩ "vec:0".toList ∧
      sampleTable.signatures "gpr:1vec:0" = .ok [⟨1, [⟨0, 1⟩, ⟨1, 0⟩]⟩] ∧
      sampleTable.GapsSpec "gpr:1vec:0" := by
  obtain ⟨hfirst, hsecond⟩ := writesStorage_sample
  obtain ⟨hgaps, hglued⟩ := gaps_spec build_sample
  have hfound := hglued "gpr:1vec:0" ⟨0, 1⟩ ⟨1, 0⟩ _ _ (by simp [Storage.InRange])
    (by simp [Storage.InRange]) rfl (by decide) hfirst hsecond ⟨'v', rfl, rfl⟩
  exact ⟨build_sample, hfirst, hsecond, hfound, hgaps _ _ hfound⟩

/-- The name of the second class touches the index of the first storage. -/
theorem not_separated_sample :
    (Description.ofSteps "sample" sampleSteps).build = .ok sampleTable ∧
      sampleTable.signatures "gpr:1vec:0" = .ok [⟨1, [⟨0, 1⟩, ⟨1, 0⟩]⟩] ∧
      ¬ sampleTable.Separated "gpr:1vec:0" := by
  have hbuilt := Description.build_eq_ok_iff.mp build_sample
  obtain ⟨hfirst, hsecond⟩ := writesStorage_sample
  have hfound : sampleTable.signatures "gpr:1vec:0" = .ok [⟨1, [⟨0, 1⟩, ⟨1, 0⟩]⟩] :=
    hbuilt.signatures_of_glued (by simp [Storage.InRange]) (by simp [Storage.InRange]) rfl
      (by decide) hfirst hsecond ⟨'v', rfl, rfl⟩
  have htokens : (List.range 6).map (fun k => (significantAt "gpr:1vec:0" k).token) =
      [.word "gpr", .colon, .number "1", .word "vec", .colon, .number "0"] := by
    decide +kernel
  have hoffset : (significantAt "gpr:1vec:0" 2).span.hi.offset =
      (significantAt "gpr:1vec:0" 3).span.lo.offset := by
    decide +kernel
  simp only [List.range, List.range.loop, List.map_cons, List.map_nil, List.cons.injEq, and_true]
    at htokens
  obtain ⟨h₀, h₁, h₂, h₃, h₄, h₅⟩ := htokens
  have hzero : SpellsNumber "0" 0 := ⟨by decide, rfl⟩
  have hone : SpellsNumber "1" 1 := ⟨by decide, rfl⟩
  have hgpr : SpellsKind sampleTable (.word "gpr") 0 :=
    .name (c := ⟨0, "gpr", .registers 0 3 2⟩) (by simp [sampleTable]) (.refl "gpr")
  have hvec : SpellsKind sampleTable (.word "vec") 1 :=
    .name (c := ⟨1, "vec", .registers 6 2 1⟩) (by simp [sampleTable]) (.refl "vec")
  have hpair : sampleTable.NextStorage "gpr:1vec:0" 0 3 := by
    refine ⟨?_, ?_, by decide, ?_, ?_⟩
    · exact Table.hasStorageAt_iff.mpr ⟨⟨0, h₀ ▸ hgpr⟩, h₁, "1", 1, h₂, hone⟩
    · exact Table.hasStorageAt_iff.mpr ⟨⟨1, h₃ ▸ hvec⟩, h₄, "0", 0, h₅, hzero⟩
    · intro j hlo hhi
      obtain rfl | rfl : j = 1 ∨ j = 2 := by omega
      · simp [h₁]
      · simp [h₂]
    · intro j hlo hhi hstorage
      obtain ⟨⟨kind, hclass⟩, hcolon, -⟩ := Table.hasStorageAt_iff.mp hstorage
      obtain rfl | rfl : j = 1 ∨ j = 2 := by omega
      · exact not_spellsKind_colon (h₁ ▸ hclass)
      · rw [h₃] at hcolon
        cases hcolon
  refine ⟨build_sample, hfound, ?_⟩
  rw [(hbuilt.gapsSpec hfound).separated_iff]
  exact fun hnames => hnames 0 3 "vec" hpair h₃ hoffset

end ForeignCall
