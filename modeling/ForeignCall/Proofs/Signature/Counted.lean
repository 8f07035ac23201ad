import ForeignCall.Proofs.Signature.Acceptance

/-! # Counted runs

The parsers as runs that record what they pop and that may go through each loop a limited
number of times only. Popping the end of the text would leave the stream as it is, so only the
record tells that it is never popped. Where the limit is above the size of the stream, a run
ends as the parser does. -/

namespace ForeignCall

/-! ## Skipping -/

/-- The next token that is not skipped, found in fewer than so many steps. -/
def Reader.skip : Nat → Reader → Option (LocatedToken × Reader)
  | 0, _ => none
  | n + 1, r => if r.next.1.token.isSkipped then skip n r.next.2 else some r.next

theorem Reader.skip_eq {r : Reader} {n : Nat} (h : r.rest.length < n) :
    r.skip n = some r.nextSignificant := by
  induction n generalizing r with
  | zero => omega
  | succ n ih =>
      rw [skip, nextSignificant]
      by_cases hskipped : r.next.1.token.isSkipped
      · have hless := length_rest_next_lt (ne_endOfText_of_isSkipped hskipped)
        rw [if_pos hskipped, if_pos hskipped]
        exact ih (by omega)
      · rw [if_neg hskipped, if_neg hskipped]

/-! ## Counted runs -/

/-- What a run has popped, its result, and the stream that is left. -/
structure Run (α : Type) where
  popped : List Token
  result : Except ParseError α
  stream : TokenStream

/-- A parser that gives up where a loop takes more passes than the limit allows. -/
def Counted (α : Type) : Type :=
  Nat → TokenStream → Option (Run α)

namespace Counted

def andThen (p : Counted α) (q : α → Counted β) : Counted β := fun limit s =>
  (p limit s).bind fun run =>
    match run.result with
    | .ok a => (q a limit run.stream).map fun more =>
        ⟨run.popped ++ more.popped, more.result, more.stream⟩
    | .error e => some ⟨run.popped, .error e, run.stream⟩

/-- Ends at once, without popping. -/
def answer (result : Except ParseError α) : Counted α := fun _ s =>
  some ⟨[], result, s⟩

instance : Monad Counted where
  pure a := answer (.ok a)
  bind := andThen

def peek : Counted LocatedToken := fun _ s =>
  some ⟨[], .ok s.head, s⟩

/-- Gives the token ahead and reads on to the next one that is not skipped. -/
def pop : Counted LocatedToken := fun limit s =>
  (s.reader.skip limit).map fun next => ⟨[s.head.token], .ok s.head, ⟨next.1, next.2⟩⟩

/-- Makes passes up to one without a result, which ends the loop, and puts all results
together. -/
def passes (pass : Counted (Option (List α))) : Nat → Counted (List α)
  | 0 => fun _ _ => none
  | n + 1 => do
    match ← pass with
    | none => pure []
    | some items => return items ++ (← passes pass n)

def loop (pass : Counted (Option (List α))) : Counted (List α) := fun limit =>
  passes pass limit limit

/-! ### The parsers -/

def kind (t : Table) : Counted UInt32 := do
  let next ← peek
  match next.token with
  | .word name => do
    let _ ← pop
    match t.classNamed? name with
    | some c => pure c.kind
    | none => answer (.error ⟨.unknownClass name t.name, next.span⟩)
  | .number digits => do
    let _ ← pop
    answer (Parse.numberOf digits next.span)
  | token => answer (.error ⟨.unexpected .storageClass token, next.span⟩)

def colon : Counted Unit := do
  let next ← peek
  if next.token = .colon then do
    let _ ← pop
    pure ()
  else answer (.error ⟨.unexpected .colon next.token, next.span⟩)

def index : Counted UInt32 := do
  let next ← peek
  match next.token with
  | .number digits => do
    let _ ← pop
    answer (Parse.numberOf digits next.span)
  | token => answer (.error ⟨.unexpected .storageIndex token, next.span⟩)

def storage (t : Table) : Counted Storage := do
  let kind ← kind t
  colon
  let index ← index
  return ⟨kind, index⟩

def skipComma : Counted Unit := do
  let next ← peek
  if next.token = .comma then do
    let _ ← pop
    pure ()
  else pure ()

def atLineEnd : Counted Bool := do
  let next ← peek
  return next.token = .newline ∨ next.token = .endOfText

/-- One pass of the loop over a line. -/
def linePass (t : Table) : Counted (Option (List Storage)) := do
  if ← atLineEnd then pure none
  else do
    skipComma
    let a ← storage t
    return some [a]

def void : Counted (List Storage) := do
  let _ ← pop
  pure []

def storages (t : Table) : Counted (List Storage) := do
  let first ← storage t
  let rest ← loop (linePass t)
  return first :: rest

def signature (t : Table) : Counted Signature := do
  let first ← peek
  let storages ← if first.token = .word "void" then void else storages t
  if ← atLineEnd then pure ⟨first.span.lo.line, storages⟩
  else do
    let next ← peek
    answer (.error ⟨.unexpected .endOfLine next.token, next.span⟩)

/-- One pass of the loop over a text. -/
def textPass (t : Table) : Counted (Option (List Signature)) := do
  let next ← peek
  match next.token with
  | .endOfText => pure none
  | .newline => do
    let _ ← pop
    pure (some [])
  | _ => do
    let x ← signature t
    return some [x]

def signatures (t : Table) : Counted (List Signature) :=
  loop (textPass t)

/-! ## Runs within the limit -/

/-- The run comes to an end, with this outcome. What it has popped are tokens of the text,
one after another, and its end is never among them. -/
def Gives {α : Type} (p : Counted α) (limit : Nat) (s : TokenStream)
    (outcome : Except ParseError α × TokenStream) : Prop :=
  ∃ popped, p limit s = some ⟨popped, outcome.1, outcome.2⟩ ∧ s.Takes popped outcome.2

section

variable {α β : Type} {p : Counted α} {q : α → Counted β} {limit : Nat} {s s' : TokenStream}

theorem gives_answer (result : Except ParseError α) : Gives (answer result) limit s (result, s) :=
  ⟨[], rfl, .nil s⟩

theorem gives_pure (a : α) : Gives (pure a) limit s (.ok a, s) :=
  gives_answer (.ok a)

theorem Gives.bind_of_ok {a : α} {outcome : Except ParseError β × TokenStream}
    (hp : Gives p limit s (.ok a, s')) (hq : Gives (q a) limit s' outcome) :
    Gives (p >>= q) limit s outcome := by
  obtain ⟨popped, hrun, htakes⟩ := hp
  obtain ⟨more, hmore, htakesMore⟩ := hq
  refine ⟨popped ++ more, ?_, (TokenStream.takes_append_iff _ _).mpr ⟨s', htakes, htakesMore⟩⟩
  change andThen p q limit s = _
  simp only [andThen, hrun, Option.bind_some, hmore, Option.map_some]

theorem Gives.bind_of_error {e : ParseError} (hp : Gives p limit s (.error e, s')) :
    Gives (p >>= q) limit s (.error e, s') := by
  obtain ⟨popped, hrun, htakes⟩ := hp
  refine ⟨popped, ?_, htakes⟩
  change andThen p q limit s = _
  rw [andThen, hrun]
  rfl

/-- Runs one after the other give what the parsers give one after the other. -/
theorem Gives.andThen {f : Parse α} {g : α → Parse β} (hp : Gives p limit s (f s))
    (hq : ∀ a s', f s = (.ok a, s') → Gives (q a) limit s' (g a s')) :
    Gives (p >>= q) limit s ((f >>= g) s) := by
  cases hread : f s with
  | mk result between =>
      rw [hread] at hp
      cases result with
      | ok a =>
          rw [Parse.andThen_of_ok hread]
          exact hp.bind_of_ok (hq a between hread)
      | error e =>
          rw [Parse.andThen_of_error hread]
          exact hp.bind_of_error

theorem Gives.peek {q : LocatedToken → Counted β} {outcome : Except ParseError β × TokenStream}
    (hq : Gives (q s.head) limit s outcome) : Gives (Counted.peek >>= q) limit s outcome :=
  Gives.bind_of_ok ⟨[], rfl, .nil s⟩ hq

/-- A token is popped, unless the text is at its end. -/
theorem gives_pop (hlimit : s.size < limit) (hend : s.head.token ≠ .endOfText) :
    Gives pop limit s (.ok s.head, s.tail) := by
  have hrest : s.reader.rest.length ≤ s.size := Nat.le_add_right _ _
  refine ⟨[s.head.token], ?_, .cons hend (.nil _)⟩
  rw [pop, Reader.skip_eq (Nat.lt_of_le_of_lt hrest hlimit)]
  rfl

theorem Gives.pop {q : LocatedToken → Counted β} {outcome : Except ParseError β × TokenStream}
    (hlimit : s.size < limit) (hend : s.head.token ≠ .endOfText)
    (hq : Gives (q s.head) limit s.tail outcome) : Gives (Counted.pop >>= q) limit s outcome :=
  (gives_pop hlimit hend).bind_of_ok hq

/-! ### Loops -/

/-- After a pass without a result the loop has ended, after another one it goes on as `f`. -/
def afterPass (f : Parse (List α)) : Option (List α) → Parse (List α)
  | none => pure []
  | some items => f >>= fun rest => pure (items ++ rest)

theorem andThen_congr {f g : Parse α} {h : α → Parse β} (heq : f s = g s') :
    (f >>= h) s = (g >>= h) s' := by
  change Parse.andThen f h s = Parse.andThen g h s'
  rw [Parse.andThen, Parse.andThen, heq]

theorem afterPass_nil (f : Parse (List α)) (s : TokenStream) : afterPass f (some []) s = f s := by
  cases hread : f s with
  | mk result after =>
      cases result with
      | ok l => exact Parse.andThen_of_ok hread
      | error e => exact Parse.andThen_of_error hread

/-- After a pass with one result the loop puts the others behind it. -/
theorem afterPass_single (f : Parse α) (g : Parse (List α)) (s : TokenStream) :
    ((f >>= fun a => pure (some [a])) >>= afterPass g) s =
      (f >>= fun a => g >>= fun rest => pure (a :: rest)) s := by
  cases hread : f s with
  | mk result after =>
      cases result with
      | ok a =>
          have hpass : (f >>= fun a => pure (some [a])) s = (.ok (some [a]), after) :=
            Parse.andThen_of_ok hread
          rw [Parse.andThen_of_ok hpass, Parse.andThen_of_ok hread]
          rfl
      | error e =>
          have hpass : (f >>= fun a => pure (some [a])) s = (.error e, after) :=
            Parse.andThen_of_error hread
          rw [Parse.andThen_of_error hpass, Parse.andThen_of_error hread]

/-- A loop that goes on only after passes that took something ends within the limit. -/
theorem gives_passes {pass : Counted (Option (List α))} {step : Parse (Option (List α))}
    {f : Parse (List α)}
    (hpass : ∀ s : TokenStream, s.size < limit → Gives pass limit s (step s))
    (hless : ∀ s items s', step s = (.ok (some items), s') → s'.size < s.size)
    (hunroll : ∀ s, f s = (step >>= afterPass f) s)
    {n : Nat} (hn : s.size < n) (hlimit : s.size < limit) :
    Gives (passes pass n) limit s (f s) := by
  induction n generalizing s with
  | zero => omega
  | succ n ih =>
      rw [passes, hunroll]
      refine Gives.andThen (hpass s hlimit) fun found s' hstep => ?_
      cases found with
      | none => exact gives_pure []
      | some items =>
          have := hless s items s' hstep
          refine Gives.andThen (ih (by omega) (by omega)) fun rest s'' _ => ?_
          exact gives_pure _

/-- A pass after which the loop goes on has popped something. -/
theorem Gives.exists_run {pass : Counted (Option (List α))} {step : Parse (Option (List α))}
    (h : Gives pass limit s (step s))
    (hless : ∀ items s', step s = (.ok (some items), s') → s'.size < s.size) :
    ∃ run, pass limit s = some run ∧ .endOfText ∉ run.popped ∧
      ∀ items, run.result = .ok (some items) → run.popped ≠ [] := by
  obtain ⟨popped, hrun, htakes⟩ := h
  refine ⟨_, hrun, htakes.endOfText_not_mem, ?_⟩
  rintro items hitems rfl
  have hstay := TokenStream.takes_nil_iff.mp htakes
  have := hless items (step s).2 (Prod.ext hitems rfl)
  rw [hstay] at this
  omega

/-! ### The parsers -/

variable {t : Table}

theorem gives_kind (hlimit : s.size < limit) : Gives (kind t) limit s (Parse.kind t s) := by
  refine Gives.peek ?_
  unfold Parse.kind
  cases htoken : s.head.token with
  | word name =>
      refine Gives.pop hlimit (by simp [htoken]) ?_
      dsimp only
      cases hclass : t.classNamed? name with
      | some c => exact gives_pure c.kind
      | none => exact gives_answer _
  | number digits =>
      refine Gives.pop hlimit (by simp [htoken]) ?_
      exact gives_answer _
  | _ =>
      simp only [Parse.unexpected, htoken]
      exact gives_answer _

theorem gives_colon (hlimit : s.size < limit) : Gives colon limit s (Parse.colon s) := by
  refine Gives.peek ?_
  unfold Parse.colon
  by_cases htoken : s.head.token = .colon
  · rw [if_pos htoken, if_pos htoken]
    exact Gives.pop hlimit (by simp [htoken]) (gives_pure ())
  · rw [if_neg htoken, if_neg htoken]
    exact gives_answer _

theorem gives_index (hlimit : s.size < limit) : Gives index limit s (Parse.index s) := by
  refine Gives.peek ?_
  unfold Parse.index
  cases htoken : s.head.token with
  | number digits =>
      refine Gives.pop hlimit (by simp [htoken]) ?_
      exact gives_answer _
  | _ =>
      simp only [Parse.unexpected, htoken]
      exact gives_answer _

theorem gives_storage (hlimit : s.size < limit) :
    Gives (storage t) limit s (Parse.storage t s) := by
  refine Gives.andThen (gives_kind hlimit) fun kind s₁ hkind => ?_
  have h₁ := Parse.size_kind_lt hkind
  refine Gives.andThen (gives_colon (by omega)) fun _ s₂ hcolon => ?_
  have h₂ := Parse.size_colon_le s₁
  rw [hcolon] at h₂
  dsimp only at h₂
  refine Gives.andThen (gives_index (by omega)) fun index s₃ _ => ?_
  exact gives_pure _

theorem gives_skipComma (hlimit : s.size < limit) :
    Gives skipComma limit s (.ok (), Parse.skipComma s) := by
  refine Gives.peek ?_
  unfold Parse.skipComma
  by_cases htoken : s.head.token = .comma
  · rw [if_pos htoken, if_pos htoken]
    exact Gives.pop hlimit (by simp [htoken]) (gives_pure ())
  · rw [if_neg htoken, if_neg htoken]
    exact gives_pure ()

theorem gives_atLineEnd : Gives atLineEnd limit s (.ok s.atLineEnd, s) :=
  Gives.peek (gives_pure _)

/-! ### Lines -/

/-- What one pass of the loop over a line gives. -/
def lineStep (t : Table) : Parse (Option (List Storage)) := fun s =>
  if s.atLineEnd then (.ok none, s)
  else (Parse.storage t >>= fun a => pure (some [a])) (Parse.skipComma s)

theorem gives_linePass (hlimit : s.size < limit) :
    Gives (linePass t) limit s (lineStep t s) := by
  refine gives_atLineEnd.bind_of_ok ?_
  unfold lineStep
  by_cases hend : s.atLineEnd
  · rw [if_pos hend, if_pos hend]
    exact gives_pure none
  · rw [if_neg hend, if_neg hend]
    have hsize := Parse.size_skipComma_le s
    refine (gives_skipComma hlimit).bind_of_ok ?_
    refine Gives.andThen (gives_storage (by omega)) fun a s' _ => ?_
    exact gives_pure _

theorem size_lineStep_lt {items : List Storage} (h : lineStep t s = (.ok (some items), s')) :
    s'.size < s.size := by
  unfold lineStep at h
  split at h
  · cases h
  · obtain ⟨a, between, hread, h⟩ := Parse.andThen_eq_ok h
    have hless := Parse.size_storage_lt hread
    have hsize := Parse.size_skipComma_le s
    cases h
    omega

theorem storagesToLineEnd_unroll (s : TokenStream) : Parse.storagesToLineEnd t s =
    (lineStep t >>= afterPass (Parse.storagesToLineEnd t)) s := by
  rw [Parse.storagesToLineEnd_eq]
  by_cases hend : s.atLineEnd
  · have hstep : lineStep t s = (.ok none, s) := if_pos hend
    rw [if_pos hend, Parse.andThen_of_ok hstep]
    rfl
  · rw [if_neg hend]
    have hstep : (Parse.storage t >>= fun a => pure (some [a])) (Parse.skipComma s) =
        lineStep t s := (if_neg hend).symm
    exact (afterPass_single _ _ _).symm.trans (andThen_congr hstep)

theorem gives_storagesToLineEnd (hlimit : s.size < limit) :
    Gives (loop (linePass t)) limit s (Parse.storagesToLineEnd t s) :=
  gives_passes (fun _ => gives_linePass) (fun _ _ _ => size_lineStep_lt) storagesToLineEnd_unroll
    hlimit hlimit

theorem gives_storages (hlimit : s.size < limit) :
    Gives (storages t) limit s (Parse.storages t s) := by
  refine Gives.andThen (gives_storage hlimit) fun first s₁ hfirst => ?_
  have h₁ := Parse.size_storage_lt hfirst
  refine Gives.andThen (gives_storagesToLineEnd (by omega)) fun rest s₂ _ => ?_
  exact gives_pure _

theorem atLineEnd_of_storagesToLineEnd {l : List Storage}
    (h : Parse.storagesToLineEnd t s = (.ok l, s')) : s'.atLineEnd := by
  fun_induction Parse.storagesToLineEnd t s generalizing l s' with
  | case1 s hend =>
      cases h
      exact hend
  | case2 | case3 => cases h
  | case4 s _ a after _ rest final hrest ih =>
      cases h
      exact ih hrest

theorem atLineEnd_of_storages {l : List Storage} (h : Parse.storages t s = (.ok l, s')) :
    s'.atLineEnd := by
  obtain ⟨_, s₁, -, h⟩ := Parse.andThen_eq_ok h
  obtain ⟨_, s₂, hrest, h⟩ := Parse.andThen_eq_ok h
  cases h
  exact atLineEnd_of_storagesToLineEnd hrest

/-- The end of the line is looked for once more after the storages, where it has been found. -/
theorem gives_signature (hlimit : s.size < limit) :
    Gives (signature t) limit s (Parse.signature t s) := by
  refine Gives.peek ?_
  unfold Parse.signature
  by_cases hvoid : s.head.token = .word "void"
  · have hend : s.head.token ≠ .endOfText := by simp [hvoid]
    have hpop : Gives void limit s (.ok [], s.tail) := Gives.pop hlimit hend (gives_pure [])
    rw [if_pos hvoid, if_pos hvoid]
    refine hpop.bind_of_ok (gives_atLineEnd.bind_of_ok ?_)
    by_cases hline : s.tail.atLineEnd
    · have hread : Parse.void s = (.ok [], s.tail) := if_pos hline
      rw [if_pos hline, Parse.andThen_of_ok hread]
      exact gives_pure _
    · have hread : Parse.void s = (.error (Parse.unexpected .endOfLine s.tail), s.tail) :=
        if_neg hline
      rw [if_neg hline, Parse.andThen_of_error hread]
      exact Gives.peek (gives_answer _)
  · rw [if_neg hvoid, if_neg hvoid]
    refine Gives.andThen (gives_storages hlimit) fun l after hread => ?_
    refine gives_atLineEnd.bind_of_ok ?_
    rw [if_pos (atLineEnd_of_storages hread)]
    exact gives_pure _

/-! ### Texts -/

/-- What one pass of the loop over a text gives. -/
def textStep (t : Table) : Parse (Option (List Signature)) := fun s =>
  if s.head.token = .endOfText then (.ok none, s)
  else if s.head.token = .newline then (.ok (some []), s.tail)
  else (Parse.signature t >>= fun x => pure (some [x])) s

theorem gives_textPass (hlimit : s.size < limit) :
    Gives (textPass t) limit s (textStep t s) := by
  refine Gives.peek ?_
  unfold textStep
  cases htoken : s.head.token with
  | endOfText => exact gives_pure none
  | newline => exact Gives.pop hlimit (by simp [htoken]) (gives_pure (some []))
  | _ =>
      refine Gives.andThen (gives_signature hlimit) fun x after _ => ?_
      exact gives_pure _

theorem size_textStep_lt {items : List Signature} (h : textStep t s = (.ok (some items), s')) :
    s'.size < s.size := by
  unfold textStep at h
  split at h
  · cases h
  · rename_i hend
    split at h
    · cases h
      exact TokenStream.size_tail_lt hend
    · obtain ⟨x, between, hread, h⟩ := Parse.andThen_eq_ok h
      cases h
      exact Parse.size_signature_lt hread

theorem signatures_unroll (s : TokenStream) : Parse.signatures t s =
    (textStep t >>= afterPass (Parse.signatures t)) s := by
  rw [Parse.signatures_eq]
  by_cases hend : s.head.token = .endOfText
  · have hstep : textStep t s = (.ok none, s) := if_pos hend
    rw [if_pos hend, Parse.andThen_of_ok hstep]
    rfl
  · rw [if_neg hend]
    by_cases hnewline : s.head.token = .newline
    · have hstep : textStep t s = (.ok (some []), s.tail) := by
        rw [textStep, if_neg hend, if_pos hnewline]
      rw [if_pos hnewline, Parse.andThen_of_ok hstep]
      exact (afterPass_nil _ _).symm
    · have hstep : textStep t s = (Parse.signature t >>= fun x => pure (some [x])) s := by
        rw [textStep, if_neg hend, if_neg hnewline]
      rw [if_neg hnewline]
      exact (afterPass_single _ _ _).symm.trans (andThen_congr hstep.symm)

theorem gives_signatures (hlimit : s.size < limit) :
    Gives (signatures t) limit s (Parse.signatures t s) :=
  gives_passes (fun _ => gives_textPass) (fun _ _ _ => size_textStep_lt) signatures_unroll
    hlimit hlimit

end

end Counted

end ForeignCall
