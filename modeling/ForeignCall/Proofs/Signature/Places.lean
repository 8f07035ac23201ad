import ForeignCall.Proofs.Signature.Grammar
import ForeignCall.Proofs.Text.Stream

/-! # Places in a text of signatures

What may come next depends only on where one stands: at the start of a line, after a
storage, before an index. The tokens that are possible at a place lead to one place each,
and from every place the text can be brought to an end. -/

namespace ForeignCall

inductive Place where
  | lineStart
  /-- After the word for none. -/
  | lineEnd
  | storageClass
  | colon
  | index
  | nextStorage
  /-- After the end of the text. -/
  | ended

/-- Whether a line may end here. -/
def Place.mayEnd : Place → Bool
  | lineStart | lineEnd | nextStorage => true
  | _ => false

/-- Whether the token may be the class of a storage here, if it is a class at all. -/
def Place.mayBegin : Place → Token → Bool
  | lineStart, token => token ≠ .word "void"
  | storageClass, _ | nextStorage, _ => true
  | _, _ => false

/-- The token may come next at a place, and leads to another one. -/
inductive Follows (t : Table) : Place → Token → Place → Prop where
  | void : Follows t .lineStart (.word "void") .lineEnd
  | storageClass {place token kind} : place.mayBegin token → SpellsKind t token kind →
      Follows t place token .colon
  | colon : Follows t .colon .colon .index
  | index {digits n} : SpellsNumber digits n → Follows t .index (.number digits) .nextStorage
  | comma : Follows t .nextStorage .comma .storageClass
  | newline {place} : place.mayEnd → Follows t place .newline .lineStart
  | endOfText {place} : place.mayEnd → Follows t place .endOfText .ended

/-- The tokens lead from one place to another, one after the other. -/
inductive Leads (t : Table) : Place → List Token → Place → Prop where
  | nil (place) : Leads t place [] place
  | cons {place token next tokens last} : Follows t place token next → Leads t next tokens last →
      Leads t place (token :: tokens) last

/-- The token may not come next. -/
def Stuck (t : Table) (place : Place) (token : Token) : Prop :=
  ∀ next, ¬ Follows t place token next

section

variable {t : Table} {place next next' last : Place} {token : Token} {tokens : List Token}

/-! ## One way on -/

theorem Follows.unique (h : Follows t place token next) (h' : Follows t place token next') :
    next = next' := by
  cases h with
  | void =>
      cases h' with
      | void => rfl
      | storageClass hplace _ => simp [Place.mayBegin] at hplace
  | storageClass hplace hkind =>
      cases h' with
      | void => simp [Place.mayBegin] at hplace
      | storageClass => rfl
      | colon | comma | newline | endOfText => cases hkind
      | index => cases hplace
  | colon =>
      cases h' with
      | storageClass hplace _ => cases hplace
      | colon => rfl
  | index =>
      cases h' with
      | storageClass hplace _ => cases hplace
      | index => rfl
  | comma =>
      cases h' with
      | storageClass _ hkind => cases hkind
      | comma => rfl
  | newline =>
      cases h' with
      | storageClass _ hkind => cases hkind
      | newline => rfl
  | endOfText =>
      cases h' with
      | storageClass _ hkind => cases hkind
      | endOfText => rfl

theorem leads_cons_iff :
    Leads t place (token :: tokens) last ↔
      ∃ next, Follows t place token next ∧ Leads t next tokens last := by
  constructor
  · rintro (_ | ⟨hnext, hlast⟩)
    exact ⟨_, hnext, hlast⟩
  · rintro ⟨next, hnext, hlast⟩
    exact .cons hnext hlast

theorem leads_append_iff (before after : List Token) :
    Leads t place (before ++ after) last ↔
      ∃ between, Leads t place before between ∧ Leads t between after last := by
  induction before generalizing place with
  | nil =>
      constructor
      · intro h
        exact ⟨place, .nil place, h⟩
      · rintro ⟨_, ⟨⟩, h⟩
        exact h
  | cons token before ih =>
      rw [List.cons_append, leads_cons_iff]
      simp only [leads_cons_iff, ih]
      constructor
      · rintro ⟨next, hnext, between, hbefore, hafter⟩
        exact ⟨between, ⟨next, hnext, hbefore⟩, hafter⟩
      · rintro ⟨between, ⟨next, hnext, hbefore⟩, hafter⟩
        exact ⟨next, hnext, between, hbefore, hafter⟩

theorem Leads.unique (h : Leads t place tokens next) (h' : Leads t place tokens next') :
    next = next' := by
  induction h with
  | nil =>
      cases h'
      rfl
  | cons hnext _ ih =>
      obtain ⟨between, hbetween, hrest⟩ := leads_cons_iff.mp h'
      obtain rfl := hnext.unique hbetween
      exact ih hrest

/-- Nothing that comes later makes up for a token that may not come next. -/
theorem Stuck.not_leads (h : Stuck t next token) (hnext : Leads t place tokens next)
    (rest : List Token) : ¬ Leads t place (tokens ++ token :: rest) last := by
  intro hlast
  obtain ⟨between, hbetween, hrest⟩ := (leads_append_iff _ _).mp hlast
  obtain rfl := hnext.unique hbetween
  obtain ⟨after, hafter, -⟩ := leads_cons_iff.mp hrest
  exact h after hafter

/-- Where a class is possible and nothing else, every way on goes by the class. -/
theorem follows_class_iff (hbegin : place.mayBegin token)
    (hline : place.mayEnd → token ≠ .newline ∧ token ≠ .endOfText)
    (hcomma : place = .nextStorage → token ≠ .comma) :
    Follows t place token next ↔ next = .colon ∧ ∃ kind, SpellsKind t token kind := by
  constructor
  · intro h
    cases h with
    | void => simp [Place.mayBegin] at hbegin
    | storageClass _ hkind => exact ⟨rfl, _, hkind⟩
    | colon | index => cases hbegin
    | comma => exact absurd rfl (hcomma rfl)
    | newline hend => exact absurd rfl (hline hend).1
    | endOfText hend => exact absurd rfl (hline hend).2
  · rintro ⟨rfl, kind, hkind⟩
    exact .storageClass hbegin hkind

/-! ## Ways to the end -/

/-- Apart from line breaks and the end of the text, there are only tokens of calls. -/
theorem Follows.isCallToken (h : Follows t place token next) (hend : token ≠ .endOfText) :
    token = .newline ∨ token.isCallToken := by
  cases h with
  | void | colon | index | comma => exact .inr rfl
  | storageClass _ hkind => exact .inr hkind.isCallToken
  | newline => exact .inl rfl
  | endOfText => exact absurd rfl hend

theorem Leads.isCallToken (h : Leads t place tokens last) (hend : .endOfText ∉ tokens) :
    ∀ token ∈ tokens, token = .newline ∨ token.isCallToken := by
  induction h with
  | nil => exact List.forall_mem_nil _
  | cons hnext _ ih =>
      rw [List.mem_cons, not_or] at hend
      exact List.forall_mem_cons.mpr ⟨hnext.isCallToken (Ne.symm hend.1), ih hend.2⟩

/-- The text goes on up to the token for its end. -/
theorem Leads.ne_ended (h : Leads t place tokens last) (hplace : place ≠ .ended)
    (hend : .endOfText ∉ tokens) : last ≠ .ended := by
  induction h with
  | nil => exact hplace
  | cons hnext _ ih =>
      rw [List.mem_cons, not_or] at hend
      refine ih ?_ hend.2
      rintro rfl
      cases hnext
      exact hend.1 rfl

/-- Wherever a text breaks off, a few tokens complete its last line. -/
theorem exists_leads_ended (t : Table) (hplace : place ≠ .ended) :
    ∃ rest, (∀ token ∈ rest, token = .colon ∨ token = .number "0") ∧
      Leads t place (rest ++ [.endOfText]) .ended := by
  have hzero : SpellsNumber "0" 0 := ⟨by decide, rfl⟩
  have hend : Leads t .nextStorage [.endOfText] .ended := .cons (.endOfText rfl) (.nil _)
  have hindex : Leads t .index [.number "0", .endOfText] .ended := .cons (.index hzero) hend
  have hcolon : Leads t .colon [.colon, .number "0", .endOfText] .ended := .cons .colon hindex
  cases place with
  | lineStart | lineEnd => exact ⟨[], by simp, .cons (.endOfText rfl) (.nil _)⟩
  | storageClass =>
      exact ⟨[.number "0", .colon, .number "0"], by simp,
        .cons (.storageClass rfl (.number hzero)) hcolon⟩
  | colon => exact ⟨[.colon, .number "0"], by simp, hcolon⟩
  | index => exact ⟨[.number "0"], by simp, hindex⟩
  | nextStorage => exact ⟨[], by simp, hend⟩
  | ended => exact absurd rfl hplace

end

end ForeignCall
