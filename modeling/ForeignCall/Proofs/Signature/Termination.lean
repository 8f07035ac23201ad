import ForeignCall.Proofs.Signature.Counted
import ForeignCall.Proofs.Text.Skipping

/-! # Reading comes to an end

The bytes that are left, and then whether a token is ahead, get less with every token that is
popped, and a loop goes on only after a pass that has popped one. So no loop goes on more often
than the text has characters. -/

namespace ForeignCall

/-! ## What is left to read -/

/-- The number of bytes of the text after the position. -/
def bytesAfter (text : String) (p : Position) : Nat :=
  text.utf8ByteSize - p.offset

namespace Reader

variable {r : Reader} {before : List Char} {text : String}

theorem HasRead.bytesAfter_eq (h : r.HasRead before text.toList) :
    bytesAfter text r.position = utf8Length r.rest := by
  have hsize : text.utf8ByteSize = utf8Length before + utf8Length r.rest := by
    rw [← utf8Length_append, h.append_eq, utf8Length_eq, String.ofList_toList]
  rw [bytesAfter, h.position_eq, hsize]
  exact Nat.add_sub_cancel_left _ _

/-- A token takes bytes, unless it is the end of the text. -/
theorem HasRead.bytesAfter_next_lt (h : r.HasRead before text.toList)
    (hend : r.next.1.token ≠ .endOfText) :
    bytesAfter text r.next.2.position < bytesAfter text r.position := by
  obtain ⟨spelling, hspelled, -, hnext⟩ := h.next
  have hpos := utf8Length_pos (hspelled.ne_nil hend)
  rw [h.bytesAfter_eq, hnext.bytesAfter_eq, h.rest_eq hnext, utf8Length_append]
  omega

end Reader

namespace TokenStream

/-- The bytes left, and whether a token is ahead. After the last token has been looked at no
bytes are left, and it can still be popped. -/
def measure (s : TokenStream) (text : String) : Nat × Nat :=
  (bytesAfter text s.reader.position, if s.head.token = .endOfText then 0 else 1)

/-- The stream stands at one of the tokens of the text, or at its end. -/
def IsOf (s : TokenStream) (text : String) : Prop :=
  ∃ k, s = (ofText text).drop k

variable {s s' : TokenStream} {text : String}

theorem IsOf.exists_skips (h : s.IsOf text) :
    ∃ before skipped spelling, s.Skips before text.toList skipped spelling := by
  obtain ⟨k, rfl⟩ := h
  exact exists_skips_drop text k

theorem measure_tail_lt (h : s.IsOf text) (hend : s.head.token ≠ .endOfText) :
    Prod.Lex (· < ·) (· < ·) (s.tail.measure text) (s.measure text) := by
  obtain ⟨before, skipped, spelling, hskips⟩ := h.exists_skips
  obtain ⟨skipped', spelling', hskips'⟩ := hskips.tail
  have hbytes := hskips.hasRead.bytesAfter_eq
  have hbytes' := hskips'.hasRead.bytesAfter_eq
  rw [hskips.rest_eq hskips', utf8Length_append, utf8Length_append] at hbytes
  rw [Prod.lex_def]
  simp only [measure, if_neg hend]
  by_cases hlast : s.tail.head.token = .endOfText
  · rw [if_pos hlast]
    omega
  · have hpos := utf8Length_pos (hskips'.spelled.ne_nil hlast)
    omega

theorem size_drop_le (s : TokenStream) (k : Nat) : (s.drop k).size ≤ s.size := by
  induction k generalizing s with
  | zero => exact Nat.le_refl _
  | succ k ih => exact Nat.le_trans (ih s.tail) s.size_tail_le

theorem IsOf.size_le (h : s.IsOf text) : s.size ≤ text.length := by
  obtain ⟨k, rfl⟩ := h
  have hsize := size_ofReader_le (Reader.ofText text)
  exact Nat.le_trans (size_drop_le _ k) hsize

/-- Each token that is taken is a part of what was left. -/
theorem Takes.length_add_size_le {taken : List Token} (h : s.Takes taken s') :
    taken.length + s'.size ≤ s.size := by
  induction h with
  | nil => simp
  | cons hend _ ih =>
      have := size_tail_lt hend
      rw [List.length_cons]
      omega

end TokenStream

/-! ## The contract of termination -/

/-- Whatever the limit, if it is above the number of characters, no loop reaches it: the
passes of each loop bring the end of the text nearer, and they pop tokens of the text. -/
structure Table.TerminationSpec (t : Table) (text : String) : Prop where
  skipping : ∀ n, (tokenAt text n).token.isSkipped →
    bytesAfter text (Reader.afterTokens text (n + 1)).position <
      bytesAfter text (Reader.afterTokens text n).position
  popping : ∀ s : TokenStream, s.IsOf text → s.head.token ≠ .endOfText →
    Prod.Lex (· < ·) (· < ·) (s.tail.measure text) (s.measure text)
  opens : ∀ limit, text.length < limit →
    (Reader.ofText text).skip limit = some (Reader.ofText text).nextSignificant
  pops : ∀ s : TokenStream, s.IsOf text → ∀ limit, text.length < limit →
    Counted.pop limit s = some ⟨[s.head.token], .ok s.head, s.tail⟩
  line_pass : ∀ s : TokenStream, s.IsOf text → ∀ limit, text.length < limit →
    ∃ run, Counted.linePass t limit s = some run ∧ .endOfText ∉ run.popped ∧
      ∀ items, run.result = .ok (some items) → run.popped ≠ []
  text_pass : ∀ s : TokenStream, s.IsOf text → ∀ limit, text.length < limit →
    ∃ run, Counted.textPass t limit s = some run ∧ .endOfText ∉ run.popped ∧
      ∀ items, run.result = .ok (some items) → run.popped ≠ []
  signature : ∀ s : TokenStream, s.IsOf text → ∀ limit, text.length < limit →
    Counted.Gives (Counted.signature t) limit s (Parse.signature t s)
  signatures : ∀ s : TokenStream, s.IsOf text → ∀ limit, text.length < limit →
    Counted.Gives (Counted.signatures t) limit s (Parse.signatures t s)
  popped_le : ∀ s : TokenStream, s.IsOf text → ∀ limit, text.length < limit →
    ∀ run, Counted.signatures t limit s = some run → run.popped.length ≤ text.length

theorem Table.termination_spec (t : Table) (text : String) : t.TerminationSpec text := by
  have hsize : ∀ {s : TokenStream} {limit : Nat}, s.IsOf text → text.length < limit →
      s.size < limit :=
    fun hs hlimit => Nat.lt_of_le_of_lt hs.size_le hlimit
  refine ⟨?_, fun s hs => TokenStream.measure_tail_lt hs,
    fun _ hlimit => Reader.skip_eq hlimit, ?_, ?_, ?_, ?_, ?_, ?_⟩
  · intro n hskipped
    obtain ⟨before, hread⟩ := Reader.exists_hasRead text n
    exact hread.bytesAfter_next_lt (Reader.ne_endOfText_of_isSkipped hskipped)
  · intro s hs limit hlimit
    have hrest : s.reader.rest.length < limit :=
      Nat.lt_of_le_of_lt (Nat.le_add_right _ _) (hsize hs hlimit)
    rw [Counted.pop, Reader.skip_eq hrest]
    rfl
  · intro s hs limit hlimit
    exact (Counted.gives_linePass (hsize hs hlimit)).exists_run
      fun _ _ => Counted.size_lineStep_lt
  · intro s hs limit hlimit
    exact (Counted.gives_textPass (hsize hs hlimit)).exists_run
      fun _ _ => Counted.size_textStep_lt
  · intro s hs limit hlimit
    exact Counted.gives_signature (hsize hs hlimit)
  · intro s hs limit hlimit
    exact Counted.gives_signatures (hsize hs hlimit)
  · intro s hs limit hlimit run hrun
    obtain ⟨popped, hgives, htakes⟩ := Counted.gives_signatures (t := t) (hsize hs hlimit)
    obtain rfl := Option.some.inj (hgives.symm.trans hrun)
    have hlength := htakes.length_add_size_le
    have hle := hs.size_le
    dsimp only
    omega

/-- What is skipped is not popped, and neither is the end. -/
example : (Counted.signatures sampleTable 12 (.ofText "void # none")).map Run.popped =
    some [.word "void"] := by
  decide +kernel

end ForeignCall
