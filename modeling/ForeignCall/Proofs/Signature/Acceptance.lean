import ForeignCall.Proofs.Signature.Grammar
import ForeignCall.Proofs.Table.Numbering
import ForeignCall.Proofs.Text.Stream
import ForeignCall.Signature.Parser

/-! # What the parsers accept

Each parser succeeds exactly where it can take a spelling of its result off the stream,
and it takes no more than that. A whole text is accepted line by line. -/

namespace ForeignCall

/-! ## Results

Errors cannot be compared, because of the places that they carry. -/

theorem eq_ok_of_toOption {ε α : Type} {result : Except ε α} {a : α}
    (h : result.toOption = some a) : result = .ok a := by
  cases result with
  | error e => cases h
  | ok b => exact congrArg Except.ok (Option.some.inj h)

theorem exists_error_of_toOption {ε α : Type} {result : Except ε α}
    (h : result.toOption = none) : ∃ e, result = .error e := by
  cases result with
  | error e => exact ⟨e, rfl⟩
  | ok a => cases h

namespace Parse

section

variable {α β : Type} {p : Parse α} {q : α → Parse β} {s s' : TokenStream}

theorem andThen_of_ok {a : α} (h : p s = (.ok a, s')) : (p >>= q) s = q a s' := by
  change andThen p q s = _
  rw [andThen, h]

theorem andThen_of_error {e : ParseError} (h : p s = (.error e, s')) :
    (p >>= q) s = (.error e, s') := by
  change andThen p q s = _
  rw [andThen, h]

theorem andThen_eq_ok_iff {b : β} : (p >>= q) s = (.ok b, s') ↔
    ∃ a between, p s = (.ok a, between) ∧ q a between = (.ok b, s') := by
  constructor
  · exact andThen_eq_ok
  · rintro ⟨a, between, hp, hq⟩
    rw [andThen_of_ok hp, hq]

end

theorem pure_eq_ok_iff {α : Type} {a b : α} {s s' : TokenStream} :
    (pure a : Parse α) s = (.ok b, s') ↔ a = b ∧ s = s' := by
  change (Except.ok a, s) = (.ok b, s') ↔ _
  rw [Prod.mk.injEq, Except.ok.injEq]

theorem numberOf_eq_ok_iff {digits : String} {span : Span} {n : UInt32} :
    numberOf digits span = .ok n ↔ SpellsNumber digits n := by
  unfold numberOf SpellsNumber
  by_cases hle : Nat.ofDigitChars 10 digits.toList 0 ≤ largestNumber
  · have hvalue : (Nat.ofDigitChars 10 digits.toList 0).toUInt32.toNat =
        Nat.ofDigitChars 10 digits.toList 0 :=
      toNat_toUInt32_of_lt (Nat.lt_of_le_of_lt hle (by decide))
    have hbound : Nat.ofDigitChars 10 digits.toList 0 ≤ 2 ^ 31 - 1 := hle
    rw [if_pos hle, Except.ok.injEq, ← UInt32.toNat_inj, hvalue]
    simp only [hbound, true_and, eq_comm]
  · have hbound : ¬ Nat.ofDigitChars 10 digits.toList 0 ≤ 2 ^ 31 - 1 := hle
    simp only [hle, hbound, ite_false, reduceCtorEq, false_and]

variable {d : Description} {t : Table} {s s' : TokenStream}

/-! ## One storage -/

theorem kind_eq_ok_iff (h : d.Built t) {k : UInt32} :
    kind t s = (.ok k, s') ↔ ∃ token, SpellsKind t token k ∧ s.Takes [token] s' := by
  constructor
  · intro hkind
    unfold kind at hkind
    split at hkind
    · rename_i name htoken
      split at hkind
      · rename_i c hclass
        cases hkind
        obtain ⟨hmem, hname⟩ := h.classNamed?_eq_some_iff.mp hclass
        exact ⟨_, .name hmem hname, TokenStream.takes_singleton_iff.mpr ⟨htoken, nofun, rfl⟩⟩
      · cases hkind
    · rename_i digits htoken
      obtain ⟨hnumber, rfl⟩ := Prod.mk.inj hkind
      exact ⟨_, .number (numberOf_eq_ok_iff.mp hnumber),
        TokenStream.takes_singleton_iff.mpr ⟨htoken, nofun, rfl⟩⟩
    · cases hkind
  · rintro ⟨token, hspells, htakes⟩
    obtain ⟨htoken, -, rfl⟩ := TokenStream.takes_singleton_iff.mp htakes
    unfold kind
    cases hspells with
    | name hmem hname => simp only [htoken, h.classNamed?_eq_some_iff.mpr ⟨hmem, hname⟩]
    | number hnumber => simp only [htoken, numberOf_eq_ok_iff.mpr hnumber]

theorem colon_eq_ok_iff {u : Unit} : colon s = (.ok u, s') ↔ s.Takes [.colon] s' := by
  rw [TokenStream.takes_singleton_iff, colon]
  by_cases htoken : s.head.token = .colon
  · simp [htoken, eq_comm]
  · simp [htoken]

theorem index_eq_ok_iff {n : UInt32} :
    index s = (.ok n, s') ↔ ∃ digits, SpellsNumber digits n ∧ s.Takes [.number digits] s' := by
  constructor
  · intro hindex
    unfold index at hindex
    split at hindex
    · rename_i digits htoken
      obtain ⟨hnumber, rfl⟩ := Prod.mk.inj hindex
      exact ⟨digits, numberOf_eq_ok_iff.mp hnumber,
        TokenStream.takes_singleton_iff.mpr ⟨htoken, nofun, rfl⟩⟩
    · cases hindex
  · rintro ⟨digits, hnumber, htakes⟩
    obtain ⟨htoken, -, rfl⟩ := TokenStream.takes_singleton_iff.mp htakes
    simp only [index, htoken, numberOf_eq_ok_iff.mpr hnumber]

theorem storage_eq_ok_iff (h : d.Built t) {a : Storage} :
    storage t s = (.ok a, s') ↔ ∃ tokens, SpellsStorage t tokens a ∧ s.Takes tokens s' := by
  unfold storage
  simp only [andThen_eq_ok_iff, pure_eq_ok_iff, kind_eq_ok_iff h, colon_eq_ok_iff,
    index_eq_ok_iff]
  constructor
  · rintro ⟨k, s₁, ⟨token, hkind, htoken⟩, -, s₂, hcolon, i, _, ⟨digits, hindex, hdigits⟩, rfl, rfl⟩
    refine ⟨[token] ++ ([.colon] ++ [.number digits]), .mk hkind hindex, ?_⟩
    exact (TokenStream.takes_append_iff _ _).mpr
      ⟨s₁, htoken, (TokenStream.takes_append_iff _ _).mpr ⟨s₂, hcolon, hdigits⟩⟩
  · rintro ⟨-, @⟨token, digits, k, i, hkind, hindex⟩, htakes⟩
    obtain ⟨s₁, htoken, htakes⟩ := (TokenStream.takes_append_iff [token] _).mp htakes
    obtain ⟨s₂, hcolon, hdigits⟩ := (TokenStream.takes_append_iff [.colon] _).mp htakes
    exact ⟨k, s₁, ⟨token, hkind, htoken⟩, (), s₂, hcolon, i, s', ⟨digits, hindex, hdigits⟩,
      rfl, rfl⟩

/-! ## One line -/

/-- A storage begins with a token that neither ends a line nor separates. -/
theorem head_of_spellsStorage {tokens : List Token} {a : Storage}
    (h : SpellsStorage t tokens a) (htakes : s.Takes tokens s') :
    ¬ s.atLineEnd ∧ skipComma s = s := by
  obtain ⟨hkind, -⟩ := h
  obtain ⟨htoken, -⟩ := TokenStream.takes_cons_iff.mp htakes
  rw [← htoken] at hkind
  cases hhead : s.head.token <;> rw [hhead] at hkind <;> cases hkind <;>
    simp [TokenStream.atLineEnd, skipComma, hhead]

/-- The loop over a line as one storage and the rest. -/
theorem storagesToLineEnd_eq (t : Table) (s : TokenStream) : storagesToLineEnd t s =
    if s.atLineEnd then (.ok [], s)
    else (storage t >>= fun a => storagesToLineEnd t >>= fun rest => pure (a :: rest))
      (skipComma s) := by
  rw [storagesToLineEnd]
  split
  · rfl
  · split
    · rename_i hread
      rw [andThen_of_error hread]
    · rename_i a after hread
      rw [andThen_of_ok hread]
      split
      · rename_i hrest
        rw [andThen_of_error hrest]
      · rename_i hrest
        rw [andThen_of_ok hrest]
        rfl

theorem storagesToLineEnd_of_atLineEnd (hend : s.atLineEnd) :
    storagesToLineEnd t s = (.ok [], s) := by
  rw [storagesToLineEnd_eq, if_pos hend]

theorem storagesToLineEnd_of_storage {between : TokenStream} {a : Storage} {rest : List Storage}
    (hend : ¬ s.atLineEnd) (hfirst : storage t (skipComma s) = (.ok a, between))
    (hrest : storagesToLineEnd t between = (.ok rest, s')) :
    storagesToLineEnd t s = (.ok (a :: rest), s') := by
  rw [storagesToLineEnd_eq, if_neg hend, andThen_of_ok hfirst, andThen_of_ok hrest]
  rfl

theorem storagesToLineEnd_of_spellsMore (h : d.Built t) {tokens : List Token}
    {l : List Storage} (hspells : SpellsMore t tokens l) (htakes : s.Takes tokens s')
    (hend : s'.atLineEnd) : storagesToLineEnd t s = (.ok l, s') := by
  induction hspells generalizing s with
  | nil =>
      obtain rfl := TokenStream.takes_nil_iff.mp htakes
      exact storagesToLineEnd_of_atLineEnd hend
  | @cons tokens more a rest hspells _ ih =>
      obtain ⟨between, hfirst, hmore⟩ := (TokenStream.takes_append_iff _ _).mp htakes
      obtain ⟨hopen, hskip⟩ := head_of_spellsStorage hspells hfirst
      refine storagesToLineEnd_of_storage hopen ?_ (ih hmore)
      rw [hskip]
      exact (storage_eq_ok_iff h).mpr ⟨tokens, hspells, hfirst⟩
  | @comma tokens more a rest hspells _ ih =>
      obtain ⟨hcomma, -, htail⟩ := TokenStream.takes_cons_iff.mp htakes
      obtain ⟨between, hfirst, hmore⟩ := (TokenStream.takes_append_iff _ _).mp htail
      refine storagesToLineEnd_of_storage ?_ ?_ (ih hmore)
      · simp [TokenStream.atLineEnd, hcomma]
      · rw [skipComma, if_pos hcomma]
        exact (storage_eq_ok_iff h).mpr ⟨tokens, hspells, hfirst⟩

theorem storagesToLineEnd_eq_ok_iff (h : d.Built t) {l : List Storage} :
    storagesToLineEnd t s = (.ok l, s') ↔
      ∃ tokens, SpellsMore t tokens l ∧ s.Takes tokens s' ∧ s'.atLineEnd := by
  constructor
  · intro hread
    fun_induction storagesToLineEnd t s generalizing l s' with
    | case1 s hend =>
        cases hread
        exact ⟨[], .nil, .nil s, hend⟩
    | case2 => cases hread
    | case3 => cases hread
    | case4 s hopen a between hfirst rest final hrest ih =>
        cases hread
        obtain ⟨more, hmore, htakesMore, hend⟩ := ih hrest
        obtain ⟨tokens, hspells, htakes⟩ := (storage_eq_ok_iff h).mp hfirst
        have hboth := (TokenStream.takes_append_iff _ _).mpr ⟨between, htakes, htakesMore⟩
        by_cases hcomma : s.head.token = .comma
        · rw [skipComma, if_pos hcomma] at hboth
          exact ⟨_, .comma hspells hmore,
            TokenStream.takes_cons_iff.mpr ⟨hcomma, by decide, hboth⟩, hend⟩
        · rw [skipComma, if_neg hcomma] at hboth
          exact ⟨_, .cons hspells hmore, hboth, hend⟩
  · rintro ⟨tokens, hspells, htakes, hend⟩
    exact storagesToLineEnd_of_spellsMore h hspells htakes hend

theorem storages_eq_ok_iff (h : d.Built t) {l : List Storage} :
    storages t s = (.ok l, s') ↔
      ∃ tokens more a rest, SpellsStorage t tokens a ∧ SpellsMore t more rest ∧ l = a :: rest ∧
        s.Takes (tokens ++ more) s' ∧ s'.atLineEnd := by
  constructor
  · intro hread
    obtain ⟨a, s₁, hfirst, hread⟩ := andThen_eq_ok hread
    obtain ⟨rest, s₂, hrest, hread⟩ := andThen_eq_ok hread
    obtain ⟨rfl, rfl⟩ := pure_eq_ok_iff.mp hread
    obtain ⟨tokens, ha, htokens⟩ := (storage_eq_ok_iff h).mp hfirst
    obtain ⟨more, hmore, htakes, hend⟩ := (storagesToLineEnd_eq_ok_iff h).mp hrest
    exact ⟨tokens, more, a, rest, ha, hmore, rfl,
      (TokenStream.takes_append_iff _ _).mpr ⟨s₁, htokens, htakes⟩, hend⟩
  · rintro ⟨tokens, more, a, rest, ha, hmore, rfl, htakes, hend⟩
    obtain ⟨s₁, htokens, htakes⟩ := (TokenStream.takes_append_iff _ _).mp htakes
    have hfirst := (storage_eq_ok_iff h).mpr ⟨tokens, ha, htokens⟩
    have hrest := (storagesToLineEnd_eq_ok_iff h).mpr ⟨more, hmore, htakes, hend⟩
    exact andThen_eq_ok_iff.mpr ⟨a, s₁, hfirst,
      andThen_eq_ok_iff.mpr ⟨rest, s', hrest, pure_eq_ok_iff.mpr ⟨rfl, rfl⟩⟩⟩

theorem void_eq_ok_iff {l : List Storage} :
    void s = (.ok l, s') ↔ l = [] ∧ s' = s.tail ∧ s'.atLineEnd := by
  by_cases hend : s.tail.atLineEnd
  · have hvoid : void s = (.ok [], s.tail) := if_pos hend
    rw [hvoid, Prod.mk.injEq, Except.ok.injEq]
    constructor
    · rintro ⟨rfl, rfl⟩
      exact ⟨rfl, rfl, hend⟩
    · rintro ⟨rfl, rfl, -⟩
      exact ⟨rfl, rfl⟩
  · have hvoid : void s = (.error (unexpected .endOfLine s.tail), s.tail) := if_neg hend
    rw [hvoid]
    constructor
    · intro hread
      cases hread
    · rintro ⟨-, rfl, hend'⟩
      exact absurd hend' hend

/-- The storages of a line, on either branch, are those that its tokens spell. -/
theorem body_eq_ok_iff (h : d.Built t) {l : List Storage} :
    (if s.head.token = .word "void" then void else storages t) s = (.ok l, s') ↔
      ∃ tokens, SpellsCall t tokens l ∧ s.Takes tokens s' ∧ s'.atLineEnd := by
  by_cases hvoid : s.head.token = .word "void"
  · rw [if_pos hvoid, void_eq_ok_iff]
    constructor
    · rintro ⟨rfl, rfl, hend⟩
      exact ⟨_, .void, TokenStream.takes_singleton_iff.mpr ⟨hvoid, nofun, rfl⟩, hend⟩
    · rintro ⟨tokens, hspells, htakes, hend⟩
      cases hspells with
      | void =>
          obtain ⟨-, -, rfl⟩ := TokenStream.takes_singleton_iff.mp htakes
          exact ⟨rfl, rfl, hend⟩
      | storages hstart hfirst _ =>
          obtain ⟨-, -⟩ := hfirst
          obtain ⟨rfl, -⟩ := TokenStream.takes_cons_iff.mp htakes
          exact absurd (congrArg some hvoid) hstart
  · rw [if_neg hvoid, storages_eq_ok_iff h]
    constructor
    · rintro ⟨tokens, more, a, rest, ha, hmore, rfl, htakes, hend⟩
      refine ⟨tokens ++ more, .storages ?_ ha hmore, htakes, hend⟩
      obtain ⟨-, -⟩ := ha
      obtain ⟨rfl, -⟩ := TokenStream.takes_cons_iff.mp htakes
      exact fun hstart => hvoid (Option.some.inj hstart)
    · rintro ⟨tokens, hspells, htakes, hend⟩
      cases hspells with
      | void => exact absurd (TokenStream.takes_cons_iff.mp htakes).1 hvoid
      | storages _ ha hmore => exact ⟨_, _, _, _, ha, hmore, rfl, htakes, hend⟩

theorem signature_eq_ok_iff (h : d.Built t) {x : Signature} :
    signature t s = (.ok x, s') ↔ x.line = s.line ∧
      ∃ tokens, SpellsCall t tokens x.storages ∧ s.Takes tokens s' ∧ s'.atLineEnd := by
  unfold signature
  constructor
  · intro hread
    obtain ⟨l, s₁, hbody, hread⟩ := andThen_eq_ok hread
    obtain ⟨rfl, rfl⟩ := pure_eq_ok_iff.mp hread
    exact ⟨rfl, (body_eq_ok_iff h).mp hbody⟩
  · rintro ⟨hline, hspells⟩
    have hx : (⟨s.line, x.storages⟩ : Signature) = x :=
      congrArg (Signature.mk · x.storages) hline.symm
    exact andThen_eq_ok_iff.mpr
      ⟨x.storages, s', (body_eq_ok_iff h).mpr hspells, pure_eq_ok_iff.mpr ⟨hx, rfl⟩⟩

/-! ## All lines -/

/-- The loop over the lines as one line and the rest. -/
theorem signatures_eq (t : Table) (s : TokenStream) : signatures t s =
    if s.head.token = .endOfText then (.ok [], s)
    else if s.head.token = .newline then signatures t s.tail
    else (signature t >>= fun x => signatures t >>= fun rest => pure (x :: rest)) s := by
  rw [signatures]
  split
  · rfl
  · split
    · rfl
    · split
      · rename_i hread
        rw [andThen_of_error hread]
      · rename_i x after hread
        rw [andThen_of_ok hread]
        split
        · rename_i hrest
          rw [andThen_of_error hrest]
        · rename_i hrest
          rw [andThen_of_ok hrest]
          rfl

theorem atLineEnd_iff : s.atLineEnd ↔ EndsLine s.tokens := by
  by_cases hend : s.head.token = .endOfText
  · simp [TokenStream.atLineEnd, EndsLine, TokenStream.tokens_of_endOfText hend, hend]
  · simp [TokenStream.atLineEnd, EndsLine, TokenStream.tokens_of_ne_endOfText hend, hend]

theorem coherent_of_signature (h : d.Built t) (hs : s.Coherent) {x : Signature}
    (hx : signature t s = (.ok x, s')) : s'.Coherent ∧ s'.line = s.line := by
  obtain ⟨-, tokens, hspells, htakes, -⟩ := (signature_eq_ok_iff h).mp hx
  exact htakes.line_eq hs hspells.newline_not_mem

/-- Inside a line, the first line that is left is read as one signature, and the stream
after it begins with the rest of that line, which is empty. -/
theorem spellsLines_iff_signature (h : d.Built t) (hs : s.Coherent) (hopen : ¬ s.atLineEnd)
    {found : List Signature} :
    SpellsLines t s.line (lines s.tokens) found ↔
      ∃ x after rest, signature t s = (.ok x, after) ∧ found = x :: rest ∧
        SpellsLines t after.line (lines after.tokens) rest := by
  constructor
  · intro hfound
    obtain ⟨line, more, hlines⟩ :=
      List.exists_cons_of_ne_nil (List.splitOn_ne_nil .newline s.tokens)
    change lines s.tokens = line :: more at hlines
    obtain ⟨left, htokens, hend⟩ := exists_of_lines_eq_cons hlines
    have hline : line ≠ [] := by
      rintro rfl
      exact hopen (atLineEnd_iff.mpr (htokens ▸ hend))
    rw [hlines, spellsLines_cons_iff hline] at hfound
    obtain ⟨x, rest, rfl, ⟨hnumber, hspells⟩, hrest⟩ := hfound
    obtain ⟨after, htakes, rfl⟩ := TokenStream.exists_takes htokens
    have hx := (signature_eq_ok_iff h).mpr
      ⟨hnumber, line, hspells, htakes, atLineEnd_iff.mpr hend⟩
    refine ⟨x, after, rest, hx, rfl, ?_⟩
    obtain ⟨more', hlines', hafter⟩ := lines_append hspells.newline_not_mem hend
    rw [← htokens, hlines, List.cons.injEq] at hlines'
    obtain ⟨-, rfl⟩ := hlines'
    rwa [(coherent_of_signature h hs hx).2, hafter, spellsLines_empty_iff]
  · rintro ⟨x, after, rest, hx, rfl, hrest⟩
    obtain ⟨hnumber, tokens, hspells, htakes, hend⟩ := (signature_eq_ok_iff h).mp hx
    obtain ⟨more, hlines, hafter⟩ :=
      lines_append hspells.newline_not_mem (atLineEnd_iff.mp hend)
    rw [(coherent_of_signature h hs hx).2, hafter, spellsLines_empty_iff] at hrest
    rw [htakes.tokens_eq, hlines, spellsLines_cons_iff hspells.ne_nil]
    exact ⟨x, rest, rfl, ⟨hnumber, hspells⟩, hrest⟩

theorem signatures_eq_ok_iff (h : d.Built t) (hs : s.Coherent) {found : List Signature} :
    (signatures t s).1 = .ok found ↔ SpellsLines t s.line (lines s.tokens) found := by
  fun_induction signatures t s generalizing found with
  | case1 s hend =>
      rw [TokenStream.tokens_of_endOfText hend, lines_nil, spellsLines_empty_iff,
        spellsLines_nil_iff, Except.ok.injEq, eq_comm]
  | case2 s hend hnewline ih =>
      rw [ih (TokenStream.coherent_ofReader _), TokenStream.tokens_of_ne_endOfText hend, hnewline,
        lines_newline, spellsLines_empty_iff, hs.line_tail, if_pos hnewline]
  | case3 s hend hnewline e after hx =>
      rw [spellsLines_iff_signature h hs (by simp [TokenStream.atLineEnd, hend, hnewline])]
      simp [hx]
  | case4 s hend hnewline x after hx e final hrest ih =>
      have hafter := (coherent_of_signature h hs hx).1
      rw [spellsLines_iff_signature h hs (by simp [TokenStream.atLineEnd, hend, hnewline])]
      simp [hx, ← ih hafter, hrest]
  | case5 s hend hnewline x after hx rest final hrest ih =>
      have hafter := (coherent_of_signature h hs hx).1
      rw [spellsLines_iff_signature h hs (by simp [TokenStream.atLineEnd, hend, hnewline])]
      simp [hx, ← ih hafter, hrest, eq_comm]

end Parse

theorem Description.Built.signatures_eq_ok_iff {d : Description} {t : Table} (h : d.Built t)
    {text : String} {found : List Signature} :
    t.signatures text = .ok found ↔
      SpellsLines t 1 (lines (significantTokens text.toList)) found := by
  rw [Table.signatures, Parse.signatures_eq_ok_iff h (TokenStream.coherent_ofText text),
    TokenStream.line_ofText, TokenStream.tokens_ofText]

/-! ## The contract of the format -/

/-- A text is accepted where each of its lines is empty or spells a call, and what is
found are the calls that the lines spell, with the lines' numbers. -/
structure Table.AcceptanceSpec (t : Table) (text : String) : Prop where
  accepts_iff : (∃ found, t.signatures text = .ok found) ↔
    ∀ line ∈ lines (significantTokens text.toList), line = [] ∨ ∃ l, SpellsCall t line l
  found_iff : ∀ found, t.signatures text = .ok found ↔
    SpellsLines t 1 (lines (significantTokens text.toList)) found

theorem signatures_spec {d : Description} {t : Table} (hbuild : d.build = .ok t)
    (text : String) : t.AcceptanceSpec text := by
  have h := Description.build_eq_ok_iff.mp hbuild
  refine ⟨?_, fun found => h.signatures_eq_ok_iff⟩
  simp only [h.signatures_eq_ok_iff]
  exact exists_spellsLines_iff

/-- A class in another case, a number with zeros in front, an unknown class, a line that
is left out, and a call without storages before a comment. -/
theorem signatures_sample :
    (Description.ofSteps "sample" sampleSteps).build = .ok sampleTable ∧
      sampleTable.signatures "GPR:007 vec:1, 9:3\r\n\nvoid # none" =
        .ok [⟨1, [⟨0, 7⟩, ⟨1, 1⟩, ⟨9, 3⟩]⟩, ⟨3, []⟩] ∧
      SpellsLines sampleTable 1
        [[.word "GPR", .colon, .number "007", .word "vec", .colon, .number "1", .comma,
          .number "9", .colon, .number "3"], [], [.word "void"]]
        [⟨1, [⟨0, 7⟩, ⟨1, 1⟩, ⟨9, 3⟩]⟩, ⟨3, []⟩] := by
  have hlines : lines (significantTokens "GPR:007 vec:1, 9:3\r\n\nvoid # none".toList) =
      [[.word "GPR", .colon, .number "007", .word "vec", .colon, .number "1", .comma,
        .number "9", .colon, .number "3"], [], [.word "void"]] := by
    decide +kernel
  have hfound : sampleTable.signatures "GPR:007 vec:1, 9:3\r\n\nvoid # none" =
      .ok [⟨1, [⟨0, 7⟩, ⟨1, 1⟩, ⟨9, 3⟩]⟩, ⟨3, []⟩] := by
    have hoption : (sampleTable.signatures "GPR:007 vec:1, 9:3\r\n\nvoid # none").toOption =
        some [⟨1, [⟨0, 7⟩, ⟨1, 1⟩, ⟨9, 3⟩]⟩, ⟨3, []⟩] := by
      decide +kernel
    cases hread : sampleTable.signatures "GPR:007 vec:1, 9:3\r\n\nvoid # none" <;>
      simp_all [Except.toOption]
  refine ⟨build_sample, hfound, ?_⟩
  rw [← hlines]
  exact ((signatures_spec build_sample _).found_iff _).mp hfound

end ForeignCall
