import ForeignCall.Proofs.Signature.Acceptance
import ForeignCall.Proofs.Text.Alike

/-! # Parsing streams with the same tokens

On two streams that are alike a parser does the same: it finds the same storages, or it
fails with the same fault at related places. All that is asked of the relation is how far
apart the lines are. -/

namespace ForeignCall

def Signature.shift (x : Signature) (n : Nat) : Signature :=
  ⟨x.line + n, x.storages⟩

namespace Parse

/-- A parser's results on two streams: values that correspond, or one fault at related
places. What is left of the streams is alike. -/
inductive Agree {α : Type} (related : Span → Span → Prop) (f : α → α) :
    Except ParseError α × TokenStream → Except ParseError α × TokenStream → Prop where
  | ok {a s s'} : s.Alike related s' → Agree related f (.ok a, s) (.ok (f a), s')
  | error {fault span span' s s'} : related span span' → s.Alike related s' →
      Agree related f (.error ⟨fault, span⟩, s) (.error ⟨fault, span'⟩, s')

section

variable {α β : Type} {related : Span → Span → Prop} {s s' : TokenStream}

/-- Parsers that agree can be put in a row where each step agrees. -/
theorem Agree.andThen {p : Parse α} {q q' : α → Parse β} {f : α → α} {g : β → β}
    (hp : Agree related f (p s) (p s'))
    (hq : ∀ a s₁ s₁', p s = (.ok a, s₁) → s₁.Alike related s₁' →
      Agree related g (q a s₁) (q' (f a) s₁')) :
    Agree related g ((p >>= q) s) ((p >>= q') s') := by
  change Agree related g (Parse.andThen p q s) (Parse.andThen p q' s')
  unfold Parse.andThen
  generalize hread : p s = first at hp hq
  generalize p s' = second at hp
  cases hp with
  | ok halike => exact hq _ _ _ rfl halike
  | error hspan halike => exact .error hspan halike

theorem Agree.of_ok {f : α → α} {o o' : Except ParseError α × TokenStream}
    (h : Agree related f o o') {a : α} (ha : o.1 = .ok a) : o'.1 = .ok (f a) := by
  cases h with
  | ok _ => cases ha; rfl
  | error _ _ => cases ha

theorem Agree.of_error {f : α → α} {o o' : Except ParseError α × TokenStream}
    (h : Agree related f o o') {e : ParseError} (he : o.1 = .error e) :
    ∃ span, related e.span span ∧ o'.1 = .error ⟨e.fault, span⟩ := by
  cases h with
  | ok _ => cases he
  | error hspan _ =>
      cases he
      exact ⟨_, hspan, rfl⟩

/-! ## One storage -/

theorem agree_unexpected (wanted : Expectation) (h : s.Alike related s') :
    Agree related (id : α → α) (.error (unexpected wanted s), s)
      (.error (unexpected wanted s'), s') := by
  unfold unexpected
  rw [h.token_eq]
  exact .error h.span h

theorem agree_numberOf (digits : String) (h : s.Alike related s') :
    Agree related id (numberOf digits s.head.span, s.tail)
      (numberOf digits s'.head.span, s'.tail) := by
  unfold numberOf
  dsimp only
  split
  · exact .ok h.tail
  · exact .error h.span h.tail

variable (t : Table)

theorem agree_kind (h : s.Alike related s') : Agree related id (kind t s) (kind t s') := by
  unfold kind
  rw [← h.token_eq]
  split
  · split
    · exact .ok h.tail
    · exact .error h.span h.tail
  · exact agree_numberOf _ h
  · exact agree_unexpected _ h

theorem agree_colon (h : s.Alike related s') : Agree related id (colon s) (colon s') := by
  unfold colon
  rw [← h.token_eq]
  split
  · exact .ok h.tail
  · exact agree_unexpected _ h

theorem agree_index (h : s.Alike related s') : Agree related id (index s) (index s') := by
  unfold index
  rw [← h.token_eq]
  split
  · exact agree_numberOf _ h
  · exact agree_unexpected _ h

theorem agree_storage (h : s.Alike related s') : Agree related id (storage t s) (storage t s') :=
  (agree_kind t h).andThen fun _ _ _ _ h => (agree_colon h).andThen fun _ _ _ _ h =>
    (agree_index h).andThen fun _ _ _ _ h => .ok h

/-! ## One line -/

theorem alike_skipComma (h : s.Alike related s') : (skipComma s).Alike related (skipComma s') := by
  unfold skipComma
  rw [← h.token_eq]
  split
  · exact h.tail
  · exact h

theorem agree_storagesToLineEnd (h : s.Alike related s') :
    Agree related id (storagesToLineEnd t s) (storagesToLineEnd t s') := by
  induction hsize : s.size using Nat.strongRecOn generalizing s s' with
  | ind n ih =>
      rw [storagesToLineEnd_eq, storagesToLineEnd_eq t s', ← h.atLineEnd_eq]
      split
      · exact .ok h
      · refine (agree_storage t (alike_skipComma h)).andThen fun a s₁ s₁' hread h₁ => ?_
        have hless := size_storage_lt hread
        have hskip := size_skipComma_le s
        have hrest := ih s₁.size (by omega) h₁ rfl
        exact hrest.andThen fun _ _ _ _ h => .ok h

theorem agree_storages (h : s.Alike related s') :
    Agree related id (storages t s) (storages t s') :=
  (agree_storage t h).andThen fun _ _ _ _ h => (agree_storagesToLineEnd t h).andThen
    fun _ _ _ _ h => .ok h

theorem agree_void (h : s.Alike related s') : Agree related id (void s) (void s') := by
  unfold void
  dsimp only
  rw [← h.tail.atLineEnd_eq]
  split
  · exact .ok h.tail
  · exact agree_unexpected _ h.tail

variable {n : Nat} (hline : ∀ span span', related span span' → span'.lo.line = span.lo.line + n)

include hline

theorem agree_signature (h : s.Alike related s') :
    Agree related (·.shift n) (signature t s) (signature t s') := by
  have hbody : Agree related id ((if s.head.token = .word "void" then void else storages t) s)
      ((if s.head.token = .word "void" then void else storages t) s') := by
    split
    · exact agree_void h
    · exact agree_storages t h
  unfold signature
  dsimp only
  rw [← h.token_eq, hline _ _ h.span]
  exact hbody.andThen fun l _ _ _ h => .ok (a := Signature.mk s.head.span.lo.line l) h

/-! ## All lines -/

theorem agree_signatures (h : s.Alike related s') :
    Agree related (List.map (·.shift n)) (signatures t s) (signatures t s') := by
  induction hsize : s.size using Nat.strongRecOn generalizing s s' with
  | ind size ih =>
      rw [signatures_eq, signatures_eq t s', ← h.token_eq]
      split
      · exact .ok h
      · rename_i hend
        split
        · have hless := TokenStream.size_tail_lt hend
          exact ih s.tail.size (by omega) h.tail rfl
        · refine (agree_signature t hline h).andThen fun x s₁ s₁' hread h₁ => ?_
          have hless := size_signature_lt hread
          have hrest := ih s₁.size (by omega) h₁ rfl
          exact hrest.andThen fun rest _ _ _ h => .ok (a := x :: rest) h

end

end Parse

end ForeignCall
