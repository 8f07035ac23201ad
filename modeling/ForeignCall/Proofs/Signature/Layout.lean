import ForeignCall.Proofs.Signature.Alike
import ForeignCall.Proofs.Text.Layout
import ForeignCall.Proofs.Text.LineBreaks

/-! # Parsing texts of another layout

How a text is laid out does not change what it says: blanks between tokens, comments at the
ends of lines and the spelling of line breaks only move the tokens about, and a parser that
reads the same tokens on the same lines ends in the same way. -/

namespace ForeignCall

/-- Two texts give the same signatures, or the same fault, with its message, at related
places. -/
inductive SameOutcome (related : Span → Span → Prop) :
    Except ParseError (List Signature) → Except ParseError (List Signature) → Prop where
  | ok (found) : SameOutcome related (.ok found) (.ok found)
  | error {fault span span'} : related span span' →
      SameOutcome related (.error ⟨fault, span⟩) (.error ⟨fault, span'⟩)

theorem sameOutcome_of_alike (t : Table) {related : Span → Span → Prop} {text text' : String}
    (hline : ∀ a b, related a b → a.lo.line = b.lo.line)
    (h : (TokenStream.ofText text).Alike related (.ofText text')) :
    SameOutcome related (t.signatures text) (t.signatures text') := by
  have hagree := Parse.agree_signatures (n := 0) t (fun a b hab => (hline a b hab).symm) h
  cases hresult : t.signatures text with
  | ok found =>
      have hshift : found.map (·.shift 0) = found := List.map_id found
      rw [Table.signatures, hagree.of_ok hresult, hshift]
      exact .ok found
  | error e =>
      obtain ⟨span, hspan, hresult'⟩ := hagree.of_error hresult
      rw [Table.signatures, hresult']
      exact .error hspan

/-- Layout put in where a token begins, be it a skipped one or the end of the text, changes
neither the signatures nor the fault and its lines. -/
theorem signatures_insert (t : Table) {before after layout : String} {n : Nat}
    (hplace : (tokenAt (before ++ after) n).span.lo.offset = before.utf8ByteSize)
    (hlayout : LayoutBefore (tokenAt (before ++ after) n).token layout.toList) :
    SameOutcome Span.SameLines (t.signatures (before ++ after))
      (t.signatures (before ++ layout ++ after)) :=
  sameOutcome_of_alike t (fun _ _ h => h.1) (TokenStream.alike_insert hplace hlayout)

/-- A comment is put in at the end of a line, above a line that fails. -/
theorem signatures_insert_sample :
    (tokenAt ("gpr:1" ++ "\nvec 0") 3).span.lo.offset = "gpr:1".utf8ByteSize ∧
      LayoutBefore (tokenAt ("gpr:1" ++ "\nvec 0") 3).token "# one".toList ∧
      SameOutcome Span.SameLines (sampleTable.signatures ("gpr:1" ++ "\nvec 0"))
        (sampleTable.signatures ("gpr:1" ++ "# one" ++ "\nvec 0")) := by
  have hplace : (tokenAt ("gpr:1" ++ "\nvec 0") 3).span.lo.offset = "gpr:1".utf8ByteSize := by
    decide +kernel
  have hbody : ∀ c ∈ [' ', 'o', 'n', 'e'], c ≠ '\r' ∧ c ≠ '\n' := by simp
  have hlayout : LayoutBefore (tokenAt ("gpr:1" ++ "\nvec 0") 3).token "# one".toList :=
    .comment (.inl (by decide +kernel)) hbody
  exact ⟨hplace, hlayout, signatures_insert sampleTable hplace hlayout⟩

/-- With a return before each line break, a text says the same, and fails at the same line
and column. -/
theorem signatures_addReturns (t : Table) {text : String} (h : '\r' ∉ text.toList) :
    SameOutcome Span.SamePlaces (t.signatures text)
      (t.signatures (String.ofList (addReturns text.toList))) :=
  sameOutcome_of_alike t (fun _ _ h => h.1.1) (TokenStream.alike_addReturns h)

theorem signatures_addReturns_sample :
    '\r' ∉ "gpr:1\nvec:\n".toList ∧
      SameOutcome Span.SamePlaces (sampleTable.signatures "gpr:1\nvec:\n")
        (sampleTable.signatures "gpr:1\r\nvec:\r\n") :=
  ⟨by decide, signatures_addReturns sampleTable (by decide)⟩

end ForeignCall
