import ForeignCall.Proofs.Text.Alike
import ForeignCall.Proofs.Text.Munch

/-! # The two spellings of line breaks

A text without returns can have one put before each of its line breaks. A reader of the
longer text takes the same tokens, at the same lines and columns: the invariant is that it
has before it what the other reader has, with the returns. -/

namespace ForeignCall

/-- The text with a return before each line break. -/
def addReturns (cs : List Char) : List Char :=
  cs.flatMap fun c => if c = '\n' then ['\r', '\n'] else [c]

@[simp] theorem addReturns_nil : addReturns [] = [] := rfl

@[simp] theorem addReturns_newline (cs : List Char) :
    addReturns ('\n' :: cs) = '\r' :: '\n' :: addReturns cs := rfl

theorem addReturns_cons {c : Char} (hc : c ≠ '\n') (cs : List Char) :
    addReturns (c :: cs) = c :: addReturns cs := by
  simp [addReturns, hc]

theorem addReturns_append {cs : List Char} (hcs : '\n' ∉ cs) (rest : List Char) :
    addReturns (cs ++ rest) = cs ++ addReturns rest := by
  induction cs with
  | nil => rfl
  | cons c cs ih =>
      rw [List.mem_cons, not_or] at hcs
      rw [List.cons_append, addReturns_cons (Ne.symm hcs.1), ih hcs.2, List.cons_append]

theorem head?_addReturns_ne_newline (cs : List Char) : (addReturns cs).head? ≠ some '\n' := by
  cases cs with
  | nil => simp
  | cons c cs =>
      by_cases hc : c = '\n'
      · simp [hc]
      · simp [addReturns_cons hc, hc]

/-- No token goes on with a return. -/
theorem Rule.EndsBefore.addReturns {rule : Rule} {cs : List Char} (h : rule.EndsBefore cs) :
    rule.EndsBefore (addReturns cs) := by
  cases cs with
  | nil => exact h
  | cons c cs =>
      by_cases hc : c = '\n'
      · rw [hc, addReturns_newline, Rule.endsBefore_cons]
        cases rule <;> rfl
      · rw [addReturns_cons hc]
        exact Rule.endsBefore_cons.mpr (Rule.endsBefore_cons.mp h)

/-! ## One token -/

/-- The first token stays the same, and only a line break is spelled in another way. -/
theorem Lexeme.exists_first?_addReturns {cs : List Char} {x : Lexeme} (h : first? cs = some x)
    (hreturn : '\r' ∉ cs) : ∃ y, first? (addReturns cs) = some y ∧ y.token = x.token ∧
      y.rest = addReturns x.rest ∧ (x.token ≠ .newline → y.spelling = x.spelling) := by
  have hlongest := isLongest_of_first? h
  by_cases hx : x.token = .newline
  · refine ⟨⟨.newline, ['\r', '\n'], addReturns x.rest⟩, ?_, hx.symm, rfl, (absurd hx ·)⟩
    rcases hlongest.spelling_of_newline hx with hspelling | hspelling
    · rw [← spelling_append_rest h, hspelling]
      rfl
    · rw [← spelling_append_rest h, hspelling] at hreturn
      simp at hreturn
  · refine ⟨⟨x.token, x.spelling, addReturns x.rest⟩, ?_, rfl, rfl, fun _ => rfl⟩
    rw [← spelling_append_rest h, addReturns_append (hlongest.newline_not_mem hx)]
    apply first?_append_of_endsBefore h
    · intro rule hmatch
      exact (hlongest.endsBefore hmatch).addReturns
    · intro _
      exact head?_addReturns_ne_newline x.rest

/-! ## Places -/

/-- The same line and column, whatever the number of bytes before it. -/
def Position.SamePlace (p q : Position) : Prop :=
  p.line = q.line ∧ p.column = q.column

def Span.SamePlaces (a b : Span) : Prop :=
  a.lo.SamePlace b.lo ∧ a.hi.SamePlace b.hi

/-- A line break leads to the start of the next line, however it is spelled. -/
theorem Position.SamePlace.positionAfter {p q : Position} (h : p.SamePlace q) {x y : Lexeme}
    (htoken : y.token = x.token) (hspelling : x.token ≠ .newline → y.spelling = x.spelling) :
    (Reader.positionAfter p x).SamePlace (Reader.positionAfter q y) := by
  obtain ⟨hline, hcolumn⟩ := h
  unfold Reader.positionAfter
  rw [htoken]
  split
  · exact ⟨congrArg (· + 1) hline, rfl⟩
  · rename_i hx
    rw [hspelling hx]
    exact ⟨hline, congrArg (· + x.spelling.length) hcolumn⟩

/-! ## Readers -/

/-- The second reader has the same before it, with the returns, and stands at the same
place. -/
structure Reader.Returned (r r' : Reader) : Prop where
  rest_eq : r'.rest = addReturns r.rest
  return_not_mem : '\r' ∉ r.rest
  place : r.position.SamePlace r'.position

theorem Reader.Returned.step {r r' : Reader} (h : r.Returned r') :
    r.StepsAlike Span.SamePlaces Returned r' := by
  cases hfirst : Lexeme.first? r.rest with
  | none =>
      have hnil := Lexeme.first?_eq_none_iff.mp hfirst
      have hnil' : r'.rest = [] := by rw [h.rest_eq, hnil, addReturns_nil]
      refine ⟨?_, ?_, ?_⟩
      · rw [next_of_nil hnil, next_of_nil hnil']
      · rw [next_of_nil hnil, next_of_nil hnil']
        exact ⟨h.place, h.place⟩
      · rwa [next_of_nil hnil, next_of_nil hnil']
  | some x =>
      obtain ⟨y, hfirst', htoken, hrest, hspelling⟩ :=
        Lexeme.exists_first?_addReturns hfirst h.return_not_mem
      rw [← h.rest_eq] at hfirst'
      have hplace := h.place.positionAfter htoken hspelling
      have hreturn : '\r' ∉ x.rest := by
        intro hmem
        apply h.return_not_mem
        rw [← Lexeme.spelling_append_rest hfirst]
        exact List.mem_append_right _ hmem
      refine ⟨?_, ?_, ?_⟩
      · rw [next_of_first? hfirst, next_of_first? hfirst', htoken]
      · rw [next_of_first? hfirst, next_of_first? hfirst']
        exact ⟨h.place, hplace⟩
      · rw [next_of_first? hfirst, next_of_first? hfirst']
        exact ⟨hrest, hreturn, hplace⟩

/-- Read with either spelling of its line breaks, a text gives the same tokens at the same
lines and columns. -/
theorem TokenStream.alike_addReturns {text : String} (h : '\r' ∉ text.toList) :
    (ofText text).Alike Span.SamePlaces (ofText (String.ofList (addReturns text.toList))) := by
  apply alike_of_steps fun _ _ => Reader.Returned.step
  exact ⟨String.toList_ofList, h, rfl, rfl⟩

end ForeignCall
