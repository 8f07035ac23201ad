import ForeignCall.Proofs.Signature.Places
import ForeignCall.Proofs.Signature.Sharing

/-! # Errors at the earliest token

Each parser follows the places of the format: it takes tokens as long as they lead on, and
it fails at the first one that may not come next. Up to this token the text can be
completed, and with it there is no way. -/

namespace ForeignCall

namespace Parse

/-- The error is about the next token of the stream. A word that is no class and a number
that is too large have been taken, other tokens have not. -/
inductive Reports (t : Table) (s : TokenStream) : ParseError → TokenStream → Prop where
  | unexpected (wanted : Expectation) : Reports t s (unexpected wanted s) s
  | unknownClass {name} : s.head.token = .word name →
      Reports t s ⟨.unknownClass name t.name, s.head.span⟩ s.tail
  | outOfRange {digits} : s.head.token = .number digits →
      Reports t s ⟨.outOfRange digits, s.head.span⟩ s.tail

theorem Reports.span_eq {t : Table} {s s' : TokenStream} {e : ParseError}
    (h : Reports t s e s') : e.span = s.head.span := by
  cases h <;> rfl

/-- A parser's result, where it has started at a place of the format: the tokens taken lead
to a place of the goal, or the next one would lead nowhere and is reported. -/
inductive Tracks {α : Type} (t : Table) (place : Place) (s : TokenStream) (goal : Place → Prop) :
    Except ParseError α × TokenStream → Prop where
  | ok {taken last a s'} : s.Takes taken s' → Leads t place taken last → goal last →
      Tracks t place s goal (.ok a, s')
  | error {taken last stop e s'} : s.Takes taken stop → Leads t place taken last →
      Stuck t last stop.head.token → Reports t stop e s' → Tracks t place s goal (.error e, s')

section

variable {α β : Type} {d : Description} {t : Table} {place last : Place} {s s' : TokenStream}
  {goal goal' : Place → Prop}

theorem Tracks.after {taken : List Token} (htakes : s.Takes taken s')
    (hleads : Leads t place taken last) {result : Except ParseError α × TokenStream}
    (h : Tracks t last s' goal result) : Tracks t place s goal result := by
  cases h with
  | ok hmore hnext hgoal =>
      exact .ok ((TokenStream.takes_append_iff _ _).mpr ⟨s', htakes, hmore⟩)
        ((leads_append_iff _ _).mpr ⟨last, hleads, hnext⟩) hgoal
  | error hmore hnext hstuck hreports =>
      exact .error ((TokenStream.takes_append_iff _ _).mpr ⟨s', htakes, hmore⟩)
        ((leads_append_iff _ _).mpr ⟨last, hleads, hnext⟩) hstuck hreports

theorem Tracks.andThen {p : Parse α} {q : α → Parse β} (hp : Tracks t place s goal (p s'))
    (hq : ∀ a between last, p s' = (.ok a, between) → goal last →
      Tracks t last between goal' (q a between)) :
    Tracks t place s goal' ((p >>= q) s') := by
  generalize hread : p s' = result at hp
  cases hp with
  | ok htakes hleads hgoal =>
      rw [andThen_of_ok hread]
      exact (hq _ _ _ hread hgoal).after htakes hleads
  | error htakes hleads hstuck hreports =>
      rw [andThen_of_error hread]
      exact .error htakes hleads hstuck hreports

theorem tracks_pure (a : α) (hgoal : goal place) : Tracks t place s goal ((pure a : Parse α) s) :=
  .ok (.nil s) (.nil place) hgoal

/-! ## One token -/

/-- A parser of one token does what the place says about this token. -/
theorem tracks_token {p : Parse α} {next : Place}
    (hok : ∀ a s', p s = (.ok a, s') →
      Follows t place s.head.token next ∧ s.Takes [s.head.token] s')
    (herror : ∀ e s', p s = (.error e, s') → Stuck t place s.head.token ∧ Reports t s e s') :
    Tracks t place s (· = next) (p s) := by
  cases hread : p s with
  | mk result s' =>
      cases result with
      | ok a =>
          obtain ⟨hnext, htakes⟩ := hok a s' hread
          exact .ok htakes (.cons hnext (.nil next)) rfl
      | error e =>
          obtain ⟨hstuck, hreports⟩ := herror e s' hread
          exact .error (.nil s) (.nil place) hstuck hreports

theorem eq_of_numberOf_error {digits : String} {span : Span} {e : ParseError}
    (h : numberOf digits span = .error e) : e = ⟨.outOfRange digits, span⟩ := by
  unfold numberOf at h
  dsimp only at h
  split at h <;> cases h
  rfl

theorem reports_kind {e : ParseError} (h : kind t s = (.error e, s')) : Reports t s e s' := by
  unfold kind at h
  split at h
  · rename_i name htoken
    split at h <;> cases h
    exact .unknownClass htoken
  · rename_i digits htoken
    obtain ⟨hnumber, rfl⟩ := Prod.mk.inj h
    exact eq_of_numberOf_error hnumber ▸ .outOfRange htoken
  · cases h
    exact .unexpected _

theorem reports_index {e : ParseError} (h : index s = (.error e, s')) : Reports t s e s' := by
  unfold index at h
  split at h
  · rename_i digits htoken
    obtain ⟨hnumber, rfl⟩ := Prod.mk.inj h
    exact eq_of_numberOf_error hnumber ▸ .outOfRange htoken
  · cases h
    exact .unexpected _

theorem tracks_kind (h : d.Built t) (hclass : ∀ next, Follows t place s.head.token next ↔
      next = .colon ∧ ∃ kind, SpellsKind t s.head.token kind) :
    Tracks t place s (· = .colon) (kind t s) := by
  apply tracks_token
  · intro k s' hread
    obtain ⟨token, hspells, htakes⟩ := (kind_eq_ok_iff h).mp hread
    obtain ⟨rfl, -⟩ := TokenStream.takes_singleton_iff.mp htakes
    exact ⟨(hclass _).mpr ⟨rfl, k, hspells⟩, htakes⟩
  · intro e s' hread
    refine ⟨?_, reports_kind hread⟩
    intro next hnext
    obtain ⟨-, k, hspells⟩ := (hclass next).mp hnext
    have hend : s.head.token ≠ .endOfText := by
      intro hend
      rw [hend] at hspells
      cases hspells
    have hok := (kind_eq_ok_iff h).mpr
      ⟨_, hspells, TokenStream.takes_singleton_iff.mpr ⟨rfl, hend, rfl⟩⟩
    rw [hread] at hok
    cases hok

theorem tracks_colon : Tracks t .colon s (· = .index) (colon s) := by
  apply tracks_token
  · intro u s' hread
    have htakes := colon_eq_ok_iff.mp hread
    obtain ⟨htoken, -⟩ := TokenStream.takes_singleton_iff.mp htakes
    rw [htoken]
    exact ⟨.colon, htakes⟩
  · intro e s' hread
    unfold colon at hread
    split at hread
    · cases hread
    · rename_i htoken
      cases hread
      refine ⟨?_, .unexpected _⟩
      intro next hnext
      generalize s.head.token = token at htoken hnext
      cases hnext with
      | storageClass hplace _ => cases hplace
      | colon => exact htoken rfl
      | newline hend | endOfText hend => cases hend

theorem tracks_index : Tracks t .index s (· = .nextStorage) (index s) := by
  apply tracks_token
  · intro n s' hread
    obtain ⟨digits, hspells, htakes⟩ := index_eq_ok_iff.mp hread
    obtain ⟨htoken, -⟩ := TokenStream.takes_singleton_iff.mp htakes
    rw [htoken]
    exact ⟨.index hspells, htakes⟩
  · intro e s' hread
    refine ⟨?_, reports_index hread⟩
    intro next hnext
    generalize htoken : s.head.token = token at hnext
    cases hnext with
    | storageClass hplace _ => cases hplace
    | index hspells =>
        have hok := index_eq_ok_iff.mpr
          ⟨_, hspells, TokenStream.takes_singleton_iff.mpr ⟨htoken, nofun, rfl⟩⟩
        rw [hread] at hok
        cases hok
    | newline hend | endOfText hend => cases hend

/-! ## One line -/

theorem tracks_storage (h : d.Built t) (hclass : ∀ next, Follows t place s.head.token next ↔
      next = .colon ∧ ∃ kind, SpellsKind t s.head.token kind) :
    Tracks t place s (· = .nextStorage) (storage t s) := by
  refine (tracks_kind h hclass).andThen ?_
  rintro kind s₁ _ - rfl
  refine tracks_colon.andThen ?_
  rintro - s₂ _ - rfl
  refine tracks_index.andThen ?_
  rintro index s₃ _ - rfl
  exact tracks_pure _ rfl

/-- A storage that follows another one, after a comma or without it. -/
theorem tracks_nextStorage (h : d.Built t) (hopen : ¬ s.atLineEnd) :
    Tracks t .nextStorage s (· = .nextStorage) (storage t (skipComma s)) := by
  by_cases hcomma : s.head.token = .comma
  · rw [skipComma, if_pos hcomma]
    have htakes := TokenStream.takes_singleton_iff.mpr ⟨hcomma, by decide, rfl⟩
    refine Tracks.after htakes (.cons .comma (.nil _)) (tracks_storage h ?_)
    exact fun _ => follows_class_iff rfl (by simp [Place.mayEnd]) (by simp)
  · rw [skipComma, if_neg hcomma]
    simp only [TokenStream.atLineEnd, decide_eq_true_eq, not_or] at hopen
    exact tracks_storage h fun _ => follows_class_iff rfl (fun _ => hopen) fun _ => hcomma

theorem tracks_storagesToLineEnd (h : d.Built t) (s : TokenStream) :
    Tracks t .nextStorage s (· = .nextStorage) (storagesToLineEnd t s) := by
  induction hsize : s.size using Nat.strongRecOn generalizing s with
  | ind n ih =>
      rw [storagesToLineEnd_eq]
      by_cases hend : s.atLineEnd
      · rw [if_pos hend]
        exact .ok (.nil s) (.nil _) rfl
      · rw [if_neg hend]
        refine (tracks_nextStorage h hend).andThen ?_
        rintro a between _ hread rfl
        have hless := size_storage_lt hread
        have hskip := size_skipComma_le s
        refine (ih between.size (by omega) between rfl).andThen ?_
        rintro rest final _ - rfl
        exact tracks_pure _ rfl

theorem tracks_void (hvoid : s.head.token = .word "void") :
    Tracks t .lineStart s (·.mayEnd) (void s) := by
  have htakes : s.Takes [.word "void"] s.tail :=
    TokenStream.takes_singleton_iff.mpr ⟨hvoid, by decide, rfl⟩
  have hleads : Leads t .lineStart [.word "void"] .lineEnd := .cons .void (.nil _)
  unfold void
  dsimp only
  split
  · exact .ok htakes hleads rfl
  · rename_i hend
    refine .error htakes hleads ?_ (.unexpected _)
    simp only [TokenStream.atLineEnd, decide_eq_true_eq, not_or] at hend
    intro next hnext
    generalize s.tail.head.token = token at hend hnext
    cases hnext with
    | storageClass hplace _ => cases hplace
    | newline => exact hend.1 rfl
    | endOfText => exact hend.2 rfl

theorem tracks_signature (h : d.Built t) (hopen : ¬ s.atLineEnd) :
    Tracks t .lineStart s (·.mayEnd) (signature t s) := by
  have hbody : Tracks t .lineStart s (·.mayEnd)
      ((if s.head.token = .word "void" then void else storages t) s) := by
    by_cases hvoid : s.head.token = .word "void"
    · rw [if_pos hvoid]
      exact tracks_void hvoid
    · rw [if_neg hvoid]
      simp only [TokenStream.atLineEnd, decide_eq_true_eq, not_or] at hopen
      refine (tracks_storage h fun _ => ?_).andThen ?_
      · exact follows_class_iff (by simpa [Place.mayBegin] using hvoid) (fun _ => hopen) (by simp)
      · rintro first between _ - rfl
        refine (tracks_storagesToLineEnd h between).andThen ?_
        rintro rest final _ - rfl
        exact tracks_pure _ rfl
  exact hbody.andThen fun l final last _ hlast => tracks_pure _ hlast

/-! ## All lines -/

/-- Between two lines, the first one has been read and its end has not, or the next one
begins. -/
theorem tracks_signatures (h : d.Built t) (hplace : place.mayEnd)
    (hstart : place = .lineStart ∨ s.atLineEnd) :
    Tracks t place s (·.mayEnd) (signatures t s) := by
  induction hsize : s.size using Nat.strongRecOn generalizing s place with
  | ind n ih =>
      rw [signatures_eq]
      by_cases hend : s.head.token = .endOfText
      · rw [if_pos hend]
        exact .ok (.nil s) (.nil place) hplace
      · rw [if_neg hend]
        by_cases hnewline : s.head.token = .newline
        · rw [if_pos hnewline]
          have hless := TokenStream.size_tail_lt hend
          have htakes := TokenStream.takes_singleton_iff.mpr ⟨hnewline, by decide, rfl⟩
          exact Tracks.after htakes (.cons (.newline hplace) (.nil _))
            (ih s.tail.size (by omega) rfl (.inl rfl) rfl)
        · rw [if_neg hnewline]
          have hopen : ¬ s.atLineEnd := by simp [TokenStream.atLineEnd, hend, hnewline]
          obtain rfl := hstart.resolve_right hopen
          refine (tracks_signature h hopen).andThen ?_
          intro x between last hread hlast
          have hless := size_signature_lt hread
          obtain ⟨-, -, -, -, hafter⟩ := (signature_eq_ok_iff h).mp hread
          refine (ih between.size (by omega) hlast (.inr hafter) rfl).andThen ?_
          intro rest final last _ hfinal
          exact tracks_pure _ hfinal

end

end Parse

/-! ## Texts -/

/-- The tokens of a text that count, with the one for its end. -/
def tokenSequence (text : String) : List Token :=
  significantTokens text.toList ++ [.endOfText]

/-- The tokens are those of a text that is accepted. -/
def Table.Accepts (t : Table) (sequence : List Token) : Prop :=
  ∃ text found, tokenSequence text = sequence ∧ t.signatures text = .ok found

theorem TokenStream.exists_tokens_append (s : TokenStream) :
    ∃ rest, s.tokens ++ [.endOfText] = s.head.token :: rest := by
  by_cases hend : s.head.token = .endOfText
  · exact ⟨[], by rw [tokens_of_endOfText hend, hend, List.nil_append]⟩
  · exact ⟨_, by rw [tokens_of_ne_endOfText hend, List.cons_append]⟩

section

variable {d : Description} {t : Table} {text : String}

theorem Description.Built.tracks_text (h : d.Built t) (text : String) :
    Parse.Tracks t .lineStart (.ofText text) (·.mayEnd) (Parse.signatures t (.ofText text)) :=
  Parse.tracks_signatures h rfl (.inl rfl)

/-- The tokens that have been taken when a text is refused, and the one that is next. -/
structure Refused (t : Table) (text : String) (taken : List Token) (last : Place)
    (stop : TokenStream) : Prop where
  takes : (TokenStream.ofText text).Takes taken stop
  leads : Leads t .lineStart taken last
  stuck : Stuck t last stop.head.token

theorem Description.Built.exists_refused (h : d.Built t) {e : ParseError}
    (he : t.signatures text = .error e) : ∃ taken last stop, Refused t text taken last stop ∧
      Parse.Reports t stop e (Parse.signatures t (.ofText text)).2 := by
  have htracks := h.tracks_text text
  have hread : Parse.signatures t (.ofText text) =
      (.error e, (Parse.signatures t (.ofText text)).2) := Prod.ext he rfl
  rw [hread] at htracks
  obtain _ | ⟨htakes, hleads, hstuck, hreports⟩ := htracks
  exact ⟨_, _, _, ⟨htakes, hleads, hstuck⟩, hreports⟩

namespace Refused

variable {taken : List Token} {last : Place} {stop : TokenStream}

theorem exists_tokenSequence_eq (h : Refused t text taken last stop) :
    ∃ rest, tokenSequence text = taken ++ stop.head.token :: rest := by
  obtain ⟨rest, hrest⟩ := stop.exists_tokens_append
  refine ⟨rest, ?_⟩
  rw [tokenSequence, ← TokenStream.tokens_ofText, h.takes.tokens_eq, List.append_assoc, hrest]

theorem not_leads (h : Refused t text taken last stop) (rest : List Token) (place : Place) :
    ¬ Leads t .lineStart (taken ++ stop.head.token :: rest) place :=
  h.stuck.not_leads h.leads rest

end Refused

/-- The tokens of an accepted text lead through the format to its end. -/
theorem Description.Built.leads_of_accepts (h : d.Built t) {sequence : List Token}
    (haccepts : t.Accepts sequence) : Leads t .lineStart sequence .ended := by
  obtain ⟨text, found, rfl, hfound⟩ := haccepts
  have htracks := h.tracks_text text
  have hread : Parse.signatures t (.ofText text) =
      (.ok found, (Parse.signatures t (.ofText text)).2) := Prod.ext hfound rfl
  rw [hread] at htracks
  obtain ⟨htakes, hleads, hend⟩ | _ := htracks
  have hlast := TokenStream.tokens_of_endOfText (Parse.endOfText_of_signatures t hread)
  rw [tokenSequence, ← TokenStream.tokens_ofText, htakes.tokens_eq, hlast, List.append_nil]
  exact (leads_append_iff _ _).mpr ⟨_, hleads, .cons (.endOfText hend) (.nil _)⟩

/-- Tokens that can be written and lead to the end are those of an accepted text. -/
theorem Description.Built.accepts_of_leads (h : d.Built t) {tokens : List Token}
    (hwritable : ∀ token ∈ tokens, token.Writable)
    (hleads : Leads t .lineStart (tokens ++ [.endOfText]) .ended) :
    t.Accepts (tokens ++ [.endOfText]) := by
  obtain ⟨cs, hcs, -⟩ := exists_significantTokens hwritable
  have hsequence : tokenSequence (String.ofList cs) = tokens ++ [.endOfText] := by
    rw [tokenSequence, String.toList_ofList, hcs]
  cases hread : t.signatures (String.ofList cs) with
  | ok found => exact ⟨_, found, hsequence, hread⟩
  | error e =>
      obtain ⟨taken, last, stop, hrefused, -⟩ := h.exists_refused hread
      obtain ⟨rest, hrest⟩ := hrefused.exists_tokenSequence_eq
      rw [← hsequence, hrest] at hleads
      exact absurd hleads (hrefused.not_leads rest _)

/-- Up to the token that a text is refused for, it can be completed. -/
theorem Refused.exists_accepts {taken : List Token} {last : Place} {stop : TokenStream}
    (h : Refused t text taken last stop) (hbuilt : d.Built t) :
    ∃ rest, t.Accepts (taken ++ rest) := by
  have hend := h.takes.endOfText_not_mem
  obtain ⟨rest, hrest, hleads⟩ := exists_leads_ended t (h.leads.ne_ended nofun hend)
  refine ⟨rest ++ [.endOfText], ?_⟩
  rw [← List.append_assoc]
  apply hbuilt.accepts_of_leads
  · refine List.forall_mem_append.mpr ⟨?_, ?_⟩
    · intro token htoken
      have hmem : token ∈ significantTokens text.toList := by
        rw [← TokenStream.tokens_ofText, h.takes.tokens_eq]
        exact List.mem_append_left _ htoken
      apply writable_of_mem_significantTokens hmem
      rintro c rfl
      rcases h.leads.isCallToken hend _ htoken with hnewline | hcall
      · cases hnewline
      · cases hcall
    · intro token htoken
      rcases hrest token htoken with rfl | rfl
      · exact ⟨.colon, [':'], ⟨rfl, rfl⟩, rfl, by decide, by decide⟩
      · exact ⟨.number, ['0'], ⟨rfl, nofun⟩, rfl, by decide, by decide⟩
  · rw [List.append_assoc]
    exact (leads_append_iff _ _).mpr ⟨last, h.leads, hleads⟩

/-! ## The contract of errors -/

/-- The error is about the token of number `k`, which is next in the stream `stop`: some text
with the same tokens before it is accepted, and no text with the same tokens up to it is. -/
structure EarliestSpec (t : Table) (text : String) (e : ParseError) (after : TokenStream)
    (k : Nat) (stop : TokenStream) : Prop where
  stop_eq : stop = (TokenStream.ofText text).drop k
  token_eq : (tokenSequence text)[k]? = some stop.head.token
  is_tokenAt : ∃ n, stop.head = tokenAt text n
  span_eq : e.span = stop.head.span
  continues : ∃ rest, t.Accepts ((tokenSequence text).take k ++ rest)
  stops : ∀ rest, ¬ t.Accepts ((tokenSequence text).take (k + 1) ++ rest)
  reports :
    (∃ wanted : Expectation, after = stop ∧
      e.message = "expected " ++ wanted.text ++ " but found " ++ stop.head.token.text) ∨
    (∃ name, after = stop.tail ∧ stop.head.token = .word name ∧
      e.message = "no storage class " ++ name ++ " in register table " ++ t.name) ∨
    ∃ digits, after = stop.tail ∧ stop.head.token = .number digits ∧
      e.message = "'" ++ digits ++ "' is out of range"

theorem signatures_error_earliest (hbuild : d.build = .ok t) {e : ParseError}
    (he : t.signatures text = .error e) :
    ∃ k stop, EarliestSpec t text e (Parse.signatures t (.ofText text)).2 k stop := by
  have h := Description.build_eq_ok_iff.mp hbuild
  obtain ⟨taken, last, stop, hrefused, hreports⟩ := h.exists_refused he
  obtain ⟨rest, hsequence⟩ := hrefused.exists_tokenSequence_eq
  have hstop := hrefused.takes.eq_drop
  refine ⟨taken.length, stop, hstop, ?_, ?_, hreports.span_eq, ?_, ?_, ?_⟩
  · rw [hsequence]
    simp
  · obtain ⟨n, hn⟩ := TokenStream.exists_drop_eq text taken.length
    exact ⟨n, by rw [hstop, hn]⟩
  · rw [hsequence, List.take_left]
    exact hrefused.exists_accepts h
  · intro more haccepts
    have htake : (tokenSequence text).take (taken.length + 1) = taken ++ [stop.head.token] := by
      rw [hsequence, List.take_length_add_append]
      rfl
    rw [htake, List.append_assoc] at haccepts
    exact hrefused.not_leads more _ (h.leads_of_accepts haccepts)
  · generalize (Parse.signatures t (.ofText text)).2 = after at hreports
    cases hreports with
    | unexpected wanted => exact .inl ⟨wanted, rfl, rfl⟩
    | unknownClass htoken => exact .inr (.inl ⟨_, rfl, htoken, rfl⟩)
    | outOfRange htoken => exact .inr (.inr ⟨_, rfl, htoken, rfl⟩)

/-- The comma is no reason to refuse the text, since a storage might follow it. -/
theorem signatures_error_earliest_sample :
    (Description.ofSteps "sample" sampleSteps).build = .ok sampleTable ∧
      ∃ e, sampleTable.signatures "vec:0,\nvoid" = .error e ∧
        e.message = "expected a storage class but found newline" ∧
        ∃ k stop, EarliestSpec sampleTable "vec:0,\nvoid" e
          (Parse.signatures sampleTable (.ofText "vec:0,\nvoid")).2 k stop := by
  have hmessage : (sampleTable.signatures "vec:0,\nvoid").mapError ParseError.message =
      .error "expected a storage class but found newline" := by
    decide +kernel
  cases hread : sampleTable.signatures "vec:0,\nvoid" with
  | ok found =>
      rw [hread] at hmessage
      cases hmessage
  | error e =>
      rw [hread] at hmessage
      exact ⟨build_sample, e, rfl, Except.error.inj hmessage,
        signatures_error_earliest build_sample hread⟩

end

end ForeignCall
