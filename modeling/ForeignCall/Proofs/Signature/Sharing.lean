import Mathlib.Order.Monotone.Basic
import ForeignCall.Proofs.Signature.Acceptance

/-! # One stream for several readers

Tokens can be taken from a stream one by one or by the parsers, in any order and also after
errors. The invariant is that the stream stands at some token of its text, and that the
number of this token never goes down. -/

namespace ForeignCall

namespace Parse

/-! ## What the parsers take -/

/-- Whether it succeeds or fails, the parser takes tokens off the stream one after another,
and never the end of the text. -/
def Advances {α : Type} (p : Parse α) (s : TokenStream) : Prop :=
  ∃ taken, s.Takes taken (p s).2

section

variable {α β : Type} {p : Parse α} {q : α → Parse β} {s s' : TokenStream}

theorem Advances.andThen (hp : Advances p s) (hq : ∀ a s', Advances (q a) s') :
    Advances (p >>= q) s := by
  obtain ⟨taken, htaken⟩ := hp
  cases hread : p s with
  | mk result between =>
      rw [hread] at htaken
      cases result with
      | ok a =>
          obtain ⟨more, hmore⟩ := hq a between
          refine ⟨taken ++ more, ?_⟩
          rw [andThen_of_ok hread]
          exact (TokenStream.takes_append_iff _ _).mpr ⟨between, htaken, hmore⟩
      | error e =>
          refine ⟨taken, ?_⟩
          rwa [andThen_of_error hread]

theorem advances_of_eq (h : (p s).2 = s) : Advances p s :=
  ⟨[], TokenStream.takes_nil_iff.mpr h⟩

theorem advances_of_eq_tail (h : (p s).2 = s.tail) (hend : s.head.token ≠ .endOfText) :
    Advances p s :=
  ⟨[s.head.token], h ▸ .cons hend (.nil _)⟩

theorem advances_pure (a : α) (s : TokenStream) : Advances (pure a) s :=
  advances_of_eq rfl

variable (t : Table)

theorem advances_kind (s : TokenStream) : Advances (kind t) s := by
  cases htoken : s.head.token with
  | word name =>
      apply advances_of_eq_tail
      · simp only [kind, htoken]
        split <;> rfl
      · simp [htoken]
  | number digits => exact advances_of_eq_tail (by simp [kind, htoken]) (by simp [htoken])
  | _ => exact advances_of_eq (by simp [kind, htoken])

theorem advances_colon (s : TokenStream) : Advances colon s := by
  by_cases htoken : s.head.token = .colon
  · exact advances_of_eq_tail (by simp [colon, htoken]) (by simp [htoken])
  · exact advances_of_eq (by simp [colon, htoken])

theorem advances_index (s : TokenStream) : Advances index s := by
  cases htoken : s.head.token with
  | number digits => exact advances_of_eq_tail (by simp [index, htoken]) (by simp [htoken])
  | _ => exact advances_of_eq (by simp [index, htoken])

theorem advances_storage (s : TokenStream) : Advances (storage t) s :=
  (advances_kind t s).andThen fun _ s => (advances_colon s).andThen fun _ s =>
    (advances_index s).andThen fun _ s => advances_pure _ s

/-- An optional comma comes off before the storage. -/
theorem takes_nextStorage (s : TokenStream) :
    ∃ taken, s.Takes taken (storage t (skipComma s)).2 := by
  obtain ⟨taken, htaken⟩ := advances_storage t (skipComma s)
  by_cases hcomma : s.head.token = .comma
  · rw [skipComma, if_pos hcomma] at htaken ⊢
    exact ⟨s.head.token :: taken, .cons (by simp [hcomma]) htaken⟩
  · rw [skipComma, if_neg hcomma] at htaken ⊢
    exact ⟨taken, htaken⟩

theorem advances_storagesToLineEnd (s : TokenStream) : Advances (storagesToLineEnd t) s := by
  unfold Advances
  fun_induction storagesToLineEnd t s with
  | case1 s => exact ⟨[], .nil s⟩
  | case2 s _ e after hstorage => simpa [hstorage] using takes_nextStorage t s
  | case3 s _ a after hstorage e final hrest ih
  | case4 s _ a after hstorage rest final hrest ih =>
      obtain ⟨taken, htaken⟩ := takes_nextStorage t s
      obtain ⟨more, hmore⟩ := ih
      rw [hstorage] at htaken
      rw [hrest] at hmore
      exact ⟨taken ++ more, (TokenStream.takes_append_iff _ _).mpr ⟨after, htaken, hmore⟩⟩

theorem advances_storages (s : TokenStream) : Advances (storages t) s :=
  (advances_storage t s).andThen fun _ s => (advances_storagesToLineEnd t s).andThen fun _ s =>
    advances_pure _ s

/-- The word for none is not the end of the text, so it can be taken. -/
theorem advances_void (hend : s.head.token ≠ .endOfText) : Advances void s := by
  refine advances_of_eq_tail ?_ hend
  simp only [void]
  split <;> rfl

theorem advances_signature (s : TokenStream) : Advances (signature t) s := by
  have hbody : Advances (if s.head.token = .word "void" then void else storages t) s := by
    by_cases hvoid : s.head.token = .word "void"
    · rw [if_pos hvoid]
      exact advances_void (by simp [hvoid])
    · rw [if_neg hvoid]
      exact advances_storages t s
  exact hbody.andThen fun _ s => advances_pure _ s

theorem advances_signatures (s : TokenStream) : Advances (signatures t) s := by
  unfold Advances
  fun_induction signatures t s with
  | case1 s => exact ⟨[], .nil s⟩
  | case2 s hend _ ih =>
      obtain ⟨taken, htaken⟩ := ih
      exact ⟨s.head.token :: taken, .cons hend htaken⟩
  | case3 s _ _ e after hx => simpa [Advances, hx] using advances_signature t s
  | case4 s _ _ x after hx e final hrest ih | case5 s _ _ x after hx rest final hrest ih =>
      obtain ⟨taken, htaken⟩ := advances_signature t s
      obtain ⟨more, hmore⟩ := ih
      rw [hx] at htaken
      rw [hrest] at hmore
      exact ⟨taken ++ more, (TokenStream.takes_append_iff _ _).mpr ⟨after, htaken, hmore⟩⟩

/-- All lines have been read only when nothing is left. -/
theorem endOfText_of_signatures {l : List Signature} (h : signatures t s = (.ok l, s')) :
    s'.head.token = .endOfText := by
  fun_induction signatures t s generalizing l s' with
  | case1 s hend =>
      cases h
      exact hend
  | case2 s _ _ ih => exact ih h
  | case3 => cases h
  | case4 => cases h
  | case5 s _ _ x after _ rest final hrest ih =>
      cases h
      exact ih hrest

end

end Parse

/-! ## Operations on a shared stream -/

/-- What a reader may do to a stream that it shares with others. -/
inductive Operation where
  | pop
  | peek
  | storage
  | signature
  | signatures
deriving DecidableEq

namespace Operation

/-- What the reader gets to see. -/
def Answer : Operation → Type
  | pop | peek => LocatedToken
  | storage => Except ParseError Storage
  | signature => Except ParseError Signature
  | signatures => Except ParseError (List Signature)

/-- The answer, and the stream that is left for the readers after it. -/
def perform (t : Table) : (o : Operation) → TokenStream → o.Answer × TokenStream
  | pop, s => (s.head, s.tail)
  | peek, s => (s.head, s)
  | storage, s => Parse.storage t s
  | signature, s => Parse.signature t s
  | signatures, s => Parse.signatures t s

/-- The number of tokens that the operation takes. The end of the text counts where it is
popped; the parsers never take it. -/
def taken (t : Table) (o : Operation) (s : TokenStream) : Nat :=
  match o with
  | pop => 1
  | peek => 0
  | _ => s.tokens.length - (o.perform t s).2.tokens.length

end Operation

/-- The number of tokens taken can be told from what is left. -/
theorem Parse.Advances.eq_drop {α : Type} {p : Parse α} {s : TokenStream} (h : Advances p s) :
    (p s).2 = s.drop (s.tokens.length - (p s).2.tokens.length) ∧
      ∀ i < s.tokens.length - (p s).2.tokens.length, (s.drop i).head.token ≠ .endOfText := by
  obtain ⟨taken, htaken⟩ := h
  have hlength : s.tokens.length - (p s).2.tokens.length = taken.length := by
    simp [htaken.tokens_eq]
  rw [hlength]
  exact ⟨htaken.eq_drop, fun i hi => htaken.token_ne_endOfText hi⟩

namespace Operation

variable {d : Description} {t : Table} {s : TokenStream}

theorem perform_eq_drop (t : Table) (o : Operation) (s : TokenStream) :
    (o.perform t s).2 = s.drop (o.taken t s) := by
  cases o with
  | pop => rfl
  | peek => rfl
  | storage => exact (Parse.advances_storage t s).eq_drop.1
  | signature => exact (Parse.advances_signature t s).eq_drop.1
  | signatures => exact (Parse.advances_signatures t s).eq_drop.1

/-- Only popping takes the end of the text. -/
theorem token_ne_endOfText {o : Operation} (ho : o ≠ pop) {i : Nat} (hi : i < o.taken t s) :
    (s.drop i).head.token ≠ .endOfText := by
  cases o with
  | pop => exact absurd rfl ho
  | peek => simp [taken] at hi
  | storage => exact (Parse.advances_storage t s).eq_drop.2 i hi
  | signature => exact (Parse.advances_signature t s).eq_drop.2 i hi
  | signatures => exact (Parse.advances_signatures t s).eq_drop.2 i hi

/-- A storage that is read is a class, a colon and an index. -/
theorem taken_storage (h : d.Built t) {a : Storage} (ha : (Parse.storage t s).1 = .ok a) :
    storage.taken t s = 3 := by
  have hread : Parse.storage t s = (.ok a, (Parse.storage t s).2) := Prod.ext ha rfl
  obtain ⟨tokens, hspells, htakes⟩ := (Parse.storage_eq_ok_iff h).mp hread
  obtain ⟨-, -⟩ := hspells
  have htaken : storage.taken t s =
      s.tokens.length - (Parse.storage t s).2.tokens.length := rfl
  rw [htaken, htakes.tokens_eq, List.length_append]
  exact Nat.add_sub_cancel 3 _

theorem atLineEnd_of_signature (h : d.Built t) {x : Signature}
    (hx : (Parse.signature t s).1 = .ok x) : (signature.perform t s).2.atLineEnd := by
  obtain ⟨-, tokens, -, -, hend⟩ := (Parse.signature_eq_ok_iff h).mp (Prod.ext hx rfl)
  exact hend

end Operation

/-! ## Runs -/

/-- The stream of the text after the first `i` of the operations. -/
def streamAfter (t : Table) (operations : List Operation) (text : String) (i : Nat) :
    TokenStream :=
  (operations.take i).foldl (fun s o => (o.perform t s).2) (.ofText text)

theorem streamAfter_succ {t : Table} {operations : List Operation} {text : String} {i : Nat}
    {o : Operation} (ho : operations[i]? = some o) :
    streamAfter t operations text (i + 1) = (o.perform t (streamAfter t operations text i)).2 := by
  simp [streamAfter, List.take_add_one, ho]

theorem streamAfter_succ_of_none {t : Table} {operations : List Operation} {text : String}
    {i : Nat} (hi : operations[i]? = none) :
    streamAfter t operations text (i + 1) = streamAfter t operations text i := by
  simp [streamAfter, List.take_add_one, hi]

/-- The number of tokens that the first `i` of the operations take from the text. -/
def takenAfter (t : Table) (operations : List Operation) (text : String) : Nat → Nat
  | 0 => 0
  | i + 1 =>
    takenAfter t operations text i +
      (operations[i]?.elim 0 fun o => o.taken t (streamAfter t operations text i))

theorem takenAfter_succ {t : Table} {operations : List Operation} {text : String} {i : Nat}
    {o : Operation} (ho : operations[i]? = some o) :
    takenAfter t operations text (i + 1) =
      takenAfter t operations text i + o.taken t (streamAfter t operations text i) := by
  simp [takenAfter, ho]

/-- However the readers take turns, the stream is the one of the text with as many tokens
popped as they have taken. -/
theorem streamAfter_eq_drop (t : Table) (operations : List Operation) (text : String) (i : Nat) :
    streamAfter t operations text i =
      (TokenStream.ofText text).drop (takenAfter t operations text i) := by
  induction i with
  | zero => rfl
  | succ i ih =>
      cases ho : operations[i]? with
      | none => rw [streamAfter_succ_of_none ho, ih, takenAfter, ho, Option.elim_none, Nat.add_zero]
      | some o =>
          rw [streamAfter_succ ho, Operation.perform_eq_drop, takenAfter_succ ho,
            TokenStream.drop_add, ← ih]

/-! ## The contract of sharing -/

/-- After `i` operations the stream stands at the token of number `count i`. -/
structure SharingSpec (t : Table) (operations : List Operation) (text : String)
    (count : Nat → Nat) : Prop where
  starts : count 0 = 0
  monotone : Monotone count
  stream_eq : ∀ i, streamAfter t operations text i = (TokenStream.ofText text).drop (count i)
  tokens_eq : ∀ i, (streamAfter t operations text i).tokens =
    (significantTokens text.toList).drop (count i)
  peek : ∀ i, operations[i]? = some .peek → count (i + 1) = count i ∧
    (Operation.peek.perform t (streamAfter t operations text i)).1 =
      (Operation.pop.perform t (streamAfter t operations text (i + 1))).1
  pop : ∀ i, operations[i]? = some .pop → count (i + 1) = count i + 1
  storage : ∀ i a, operations[i]? = some .storage →
    (Parse.storage t (streamAfter t operations text i)).1 = .ok a → count (i + 1) = count i + 3
  signature : ∀ i x, operations[i]? = some .signature →
    (Parse.signature t (streamAfter t operations text i)).1 = .ok x →
    (streamAfter t operations text (i + 1)).atLineEnd
  signatures : ∀ i l, operations[i]? = some .signatures →
    (Parse.signatures t (streamAfter t operations text i)).1 = .ok l →
    (streamAfter t operations text (i + 1)).head.token = .endOfText
  endOfText_not_taken : ∀ i o, operations[i]? = some o → o ≠ .pop →
    ∀ k, count i ≤ k → k < count (i + 1) →
      ((TokenStream.ofText text).drop k).head.token ≠ .endOfText

theorem sharing_spec {d : Description} {t : Table} (hbuild : d.build = .ok t)
    (operations : List Operation) (text : String) :
    ∃ count, SharingSpec t operations text count := by
  have h := Description.build_eq_ok_iff.mp hbuild
  refine ⟨takenAfter t operations text, rfl, monotone_nat_of_le_succ fun i => Nat.le_add_right _ _,
    streamAfter_eq_drop t operations text, ?_, ?_, ?_, ?_, ?_, ?_, ?_⟩
  · intro i
    rw [streamAfter_eq_drop]
    exact TokenStream.tokens_drop _ _
  · intro i ho
    rw [takenAfter_succ ho, streamAfter_succ ho]
    exact ⟨rfl, rfl⟩
  · intro i ho
    exact takenAfter_succ ho
  · intro i a ho ha
    rw [takenAfter_succ ho, Operation.taken_storage h ha]
  · intro i x ho hx
    rw [streamAfter_succ ho]
    exact Operation.atLineEnd_of_signature h hx
  · intro i l ho hl
    rw [streamAfter_succ ho]
    exact Parse.endOfText_of_signatures t (Prod.ext hl rfl)
  · intro i o ho hpop k hle hlt
    obtain ⟨more, rfl⟩ := Nat.exists_eq_add_of_le hle
    rw [takenAfter_succ ho] at hlt
    rw [TokenStream.drop_add, ← streamAfter_eq_drop]
    exact Operation.token_ne_endOfText hpop (Nat.lt_of_add_lt_add_left hlt)

/-- Two readers fail on the way, and the end of the text is popped twice. -/
def sampleOperations : List Operation :=
  [.peek, .storage, .signature, .pop, .signatures, .pop, .signatures, .pop, .pop]

/-- The first storage is read after a look at its class, which counts for nothing. -/
theorem sharing_sample :
    (Description.ofSteps "sample" sampleSteps).build = .ok sampleTable ∧
      (Parse.storage sampleTable (.ofText "gpr:1 x:2\nvoid")).1 = .ok ⟨0, 1⟩ ∧
      ∃ count, SharingSpec sampleTable sampleOperations "gpr:1 x:2\nvoid" count ∧ count 2 = 3 := by
  obtain ⟨count, hcount⟩ := sharing_spec build_sample sampleOperations "gpr:1 x:2\nvoid"
  have hread : (Parse.storage sampleTable (.ofText "gpr:1 x:2\nvoid")).1 = .ok ⟨0, 1⟩ :=
    eq_ok_of_toOption (by decide +kernel)
  have hpeek : count 1 = 0 := by rw [(hcount.peek 0 rfl).1, hcount.starts]
  have hstorage := hcount.storage 1 ⟨0, 1⟩ rfl hread
  exact ⟨build_sample, hread, count, hcount, by rw [hstorage, hpeek]⟩

end ForeignCall
