import ForeignCall.Signature.Basic
import ForeignCall.Table.Basic

/-!
# Parsing call signatures

A line is the word `void`, for a call without storages, or a list of storages with optional commas
between them. A storage is a class, by name or by kind, a colon and an index. Each parser answers
with the stream after what it has read, also where it fails: a token that names no class or is out
of range has been read, one that may not stand in its place has not.
-/

namespace ForeignCall

/-- A parser's result comes with the rest of the stream, whether it succeeds or fails. -/
def Parse (α : Type) : Type :=
  TokenStream → Except ParseError α × TokenStream

namespace Parse

/-- Reads with `p` and goes on with what it has read. -/
def andThen (p : Parse α) (q : α → Parse β) : Parse β := fun s =>
  match p s with
  | (.ok a, s) => q a s
  | (.error e, s) => (.error e, s)

instance : Monad Parse where
  pure a := fun s => (.ok a, s)
  bind := andThen

/-- If two parsers in a row succeed, each has on the way. -/
theorem andThen_eq_ok {p : Parse α} {q : α → Parse β} {s s' : TokenStream} {b : β}
    (h : (p >>= q) s = (.ok b, s')) :
    ∃ a between, p s = (.ok a, between) ∧ q a between = (.ok b, s') := by
  change andThen p q s = _ at h
  unfold andThen at h
  split at h
  · exact ⟨_, _, by assumption, h⟩
  · cases h

/-- Numbers are bounded as the signed numbers of managed code are. -/
def largestNumber : Nat :=
  0x7FFFFFFF

/-- The value of a token made of digits. -/
def numberOf (digits : String) (span : Span) : Except ParseError UInt32 :=
  let value := Nat.ofDigitChars 10 digits.toList 0
  if value ≤ largestNumber then .ok value.toUInt32 else .error ⟨.outOfRange digits, span⟩

/-- The error that the stream's next token is not what is wanted. -/
def unexpected (wanted : Expectation) (s : TokenStream) : ParseError :=
  ⟨.unexpected wanted s.head.token, s.head.span⟩

/-- A storage class, by its name or by its kind; a kind need not be one of the table's. -/
def kind (t : Table) : Parse UInt32 := fun s =>
  match s.head.token with
  | .word name =>
    match t.classNamed? name with
    | some c => (.ok c.kind, s.tail)
    | none => (.error ⟨.unknownClass name t.name, s.head.span⟩, s.tail)
  | .number digits => (numberOf digits s.head.span, s.tail)
  | _ => (.error (unexpected .storageClass s), s)

def colon : Parse Unit := fun s =>
  if s.head.token = .colon then (.ok (), s.tail) else (.error (unexpected .colon s), s)

def index : Parse UInt32 := fun s =>
  match s.head.token with
  | .number digits => (numberOf digits s.head.span, s.tail)
  | _ => (.error (unexpected .storageIndex s), s)

def storage (t : Table) : Parse Storage := do
  let kind ← kind t
  colon
  let index ← index
  return ⟨kind, index⟩

def skipComma (s : TokenStream) : TokenStream :=
  if s.head.token = .comma then s.tail else s

/-! ## Progress -/

theorem size_kind_lt {t : Table} {s s' : TokenStream} {a : UInt32} (h : kind t s = (.ok a, s')) :
    s'.size < s.size := by
  unfold kind at h
  split at h
  · rename_i htoken
    have := TokenStream.size_tail_lt (s := s) (by simp [htoken])
    split at h <;> cases h
    exact this
  · rename_i htoken
    have := TokenStream.size_tail_lt (s := s) (by simp [htoken])
    rw [Prod.mk.injEq] at h
    exact h.2 ▸ this
  · cases h

theorem size_colon_le (s : TokenStream) : (colon s).2.size ≤ s.size := by
  unfold colon
  split
  · exact s.size_tail_le
  · exact Nat.le_refl _

theorem size_index_le (s : TokenStream) : (index s).2.size ≤ s.size := by
  unfold index
  split
  · exact s.size_tail_le
  · exact Nat.le_refl _

theorem size_skipComma_le (s : TokenStream) : (skipComma s).size ≤ s.size := by
  unfold skipComma
  split
  · exact s.size_tail_le
  · exact Nat.le_refl _

theorem size_storage_lt {t : Table} {s s' : TokenStream} {a : Storage}
    (h : storage t s = (.ok a, s')) : s'.size < s.size := by
  obtain ⟨_, s₁, hkind, h⟩ := Parse.andThen_eq_ok h
  obtain ⟨_, s₂, hcolon, h⟩ := Parse.andThen_eq_ok h
  obtain ⟨_, s₃, hindex, h⟩ := Parse.andThen_eq_ok h
  have h₁ := size_kind_lt hkind
  have h₂ := size_colon_le s₁
  have h₃ := size_index_le s₂
  rw [hcolon] at h₂
  rw [hindex] at h₃
  cases h
  dsimp only at h₂ h₃
  omega

/-! ## Lines -/

/-- The storages up to the end of the line, each with an optional comma before it. -/
def storagesToLineEnd (t : Table) (s : TokenStream) :
    Except ParseError (List Storage) × TokenStream :=
  if s.atLineEnd then (.ok [], s)
  else
    match _ : storage t (skipComma s) with
    | (.error e, after) => (.error e, after)
    | (.ok a, after) =>
      match storagesToLineEnd t after with
      | (.error e, final) => (.error e, final)
      | (.ok rest, final) => (.ok (a :: rest), final)
termination_by s.size
decreasing_by
  have := size_storage_lt (by assumption)
  have := size_skipComma_le s
  omega

/-- The word for a call without storages stands alone on its line. -/
def void : Parse (List Storage) := fun s =>
  let after := s.tail
  if after.atLineEnd then (.ok [], after) else (.error (unexpected .endOfLine after), after)

def storages (t : Table) : Parse (List Storage) := do
  let first ← storage t
  let rest ← storagesToLineEnd t
  return first :: rest

/-- One line, up to the line break or the end of the text. -/
def signature (t : Table) : Parse Signature := fun s =>
  let line := s.head.span.lo.line
  let body := if s.head.token = .word "void" then void else storages t
  (body >>= fun storages => pure ⟨line, storages⟩) s

/-! ## Texts -/

theorem size_storagesToLineEnd_le {t : Table} {s s' : TokenStream} {l : List Storage}
    (h : storagesToLineEnd t s = (.ok l, s')) : s'.size ≤ s.size := by
  fun_induction storagesToLineEnd t s generalizing l s' with
  | case1 =>
    cases h
    exact Nat.le_refl _
  | case2 => cases h
  | case3 => cases h
  | case4 s _ a after hstorage rest final hrest ih =>
    cases h
    have := size_storage_lt hstorage
    have := size_skipComma_le s
    have := ih hrest
    omega

theorem size_void_lt {s s' : TokenStream} {l : List Storage} (hs : s.head.token ≠ .endOfText)
    (h : void s = (.ok l, s')) : s'.size < s.size := by
  unfold void at h
  dsimp only at h
  split at h <;> cases h
  exact TokenStream.size_tail_lt hs

theorem size_storages_lt {t : Table} {s s' : TokenStream} {l : List Storage}
    (h : storages t s = (.ok l, s')) : s'.size < s.size := by
  obtain ⟨_, s₁, hfirst, h⟩ := andThen_eq_ok h
  obtain ⟨_, s₂, hrest, h⟩ := andThen_eq_ok h
  have := size_storage_lt hfirst
  have := size_storagesToLineEnd_le hrest
  cases h
  omega

theorem size_signature_lt {t : Table} {s s' : TokenStream} {x : Signature}
    (h : signature t s = (.ok x, s')) : s'.size < s.size := by
  unfold signature at h
  obtain ⟨_, s₁, hbody, h⟩ := andThen_eq_ok h
  cases h
  split at hbody
  · rename_i hvoid
    exact size_void_lt (by simp [hvoid]) hbody
  · exact size_storages_lt hbody

/-- All lines up to the end of the text; empty ones count for nothing. -/
def signatures (t : Table) (s : TokenStream) : Except ParseError (List Signature) × TokenStream :=
  if s.head.token = .endOfText then (.ok [], s)
  else if s.head.token = .newline then signatures t s.tail
  else
    match _ : signature t s with
    | (.error e, after) => (.error e, after)
    | (.ok x, after) =>
      match signatures t after with
      | (.error e, final) => (.error e, final)
      | (.ok rest, final) => (.ok (x :: rest), final)
termination_by s.size
decreasing_by
  · exact TokenStream.size_tail_lt (by assumption)
  · exact size_signature_lt (by assumption)

end Parse

/-- The signatures that a text lists for calls on the machine of the table. -/
def Table.signatures (t : Table) (text : String) : Except ParseError (List Signature) :=
  (Parse.signatures t (TokenStream.ofText text)).1

end ForeignCall
