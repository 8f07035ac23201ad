import Mathlib.Algebra.Group.Nat.Defs
import Mathlib.Data.List.Forall2
import ForeignCall.Proofs.Table.Case
import ForeignCall.Signature.Basic

/-! # The grammar of call signatures

Which tokens spell which storages and calls, said without a reader: a line of tokens
spells the storages of a call, and the lines of a text spell its signatures. -/

namespace ForeignCall

/-! ## Spellings -/

/-- The digits have the value `n`, which is not above the largest signed number. -/
def SpellsNumber (digits : String) (n : UInt32) : Prop :=
  Nat.ofDigitChars 10 digits.toList 0 ≤ 2 ^ 31 - 1 ∧
    n.toNat = Nat.ofDigitChars 10 digits.toList 0

/-- A class is spelled by its name in any case, or by a number, defined or not. -/
inductive SpellsKind (t : Table) : Token → UInt32 → Prop where
  | name {c word} : c ∈ t.classes → SameName c.name word →
      SpellsKind t (.word word) c.kind
  | number {digits kind} : SpellsNumber digits kind → SpellsKind t (.number digits) kind

inductive SpellsStorage (t : Table) : List Token → Storage → Prop where
  | mk {token digits kind index} : SpellsKind t token kind → SpellsNumber digits index →
      SpellsStorage t [token, .colon, .number digits] ⟨kind, index⟩

/-- Storages that follow another one, each with an optional comma before it. -/
inductive SpellsMore (t : Table) : List Token → List Storage → Prop where
  | nil : SpellsMore t [] []
  | cons {tokens more s rest} : SpellsStorage t tokens s → SpellsMore t more rest →
      SpellsMore t (tokens ++ more) (s :: rest)
  | comma {tokens more s rest} : SpellsStorage t tokens s → SpellsMore t more rest →
      SpellsMore t (.comma :: (tokens ++ more)) (s :: rest)

/-- A line spells the storages of a call. The word for none cannot begin another line,
also where a class has it as its name. -/
inductive SpellsCall (t : Table) : List Token → List Storage → Prop where
  | void : SpellsCall t [.word "void"] []
  | storages {tokens more s rest} : (tokens ++ more).head? ≠ some (.word "void") →
      SpellsStorage t tokens s → SpellsMore t more rest →
      SpellsCall t (tokens ++ more) (s :: rest)

/-- The tokens between the line breaks. -/
def lines (tokens : List Token) : List (List Token) :=
  tokens.splitOn .newline

/-- The lines that are not empty spell the signatures, which carry their numbers. -/
def SpellsLines (t : Table) (first : Nat) (lines : List (List Token))
    (signatures : List Signature) : Prop :=
  List.Forall₂ (fun (line : List Token × Nat) x => x.line = line.2 ∧ SpellsCall t line.1 x.storages)
    ((lines.zipIdx first).filter (·.1 ≠ [])) signatures

/-! ### The tokens of a call -/

/-- Words, numbers, colons and commas are what calls are spelled with. -/
def Token.isCallToken : Token → Bool
  | word _ | number _ | colon | comma => true
  | _ => false

theorem SpellsKind.isCallToken {t : Table} {token : Token} {kind : UInt32}
    (h : SpellsKind t token kind) : token.isCallToken := by
  cases h <;> rfl

theorem SpellsStorage.isCallToken {t : Table} {tokens : List Token} {s : Storage}
    (h : SpellsStorage t tokens s) : ∀ token ∈ tokens, token.isCallToken := by
  cases h with
  | mk hkind _ => exact List.forall_mem_cons.mpr ⟨hkind.isCallToken, by simp [Token.isCallToken]⟩

theorem SpellsMore.isCallToken {t : Table} {tokens : List Token} {l : List Storage}
    (h : SpellsMore t tokens l) : ∀ token ∈ tokens, token.isCallToken := by
  induction h with
  | nil => simp
  | cons hs _ ih => exact List.forall_mem_append.mpr ⟨hs.isCallToken, ih⟩
  | comma hs _ ih =>
      exact List.forall_mem_cons.mpr ⟨rfl, List.forall_mem_append.mpr ⟨hs.isCallToken, ih⟩⟩

theorem SpellsCall.isCallToken {t : Table} {tokens : List Token} {l : List Storage}
    (h : SpellsCall t tokens l) : ∀ token ∈ tokens, token.isCallToken := by
  cases h with
  | void => simp [Token.isCallToken]
  | storages _ hs hmore => exact List.forall_mem_append.mpr ⟨hs.isCallToken, hmore.isCallToken⟩

theorem SpellsCall.newline_not_mem {t : Table} {tokens : List Token} {l : List Storage}
    (h : SpellsCall t tokens l) : .newline ∉ tokens := by
  intro hmem
  cases h.isCallToken _ hmem

theorem SpellsCall.ne_nil {t : Table} {tokens : List Token} {l : List Storage}
    (h : SpellsCall t tokens l) : tokens ≠ [] := by
  cases h with
  | void => simp
  | storages _ hs _ =>
      obtain ⟨-, -⟩ := hs
      simp

/-! ## Lines -/

/-- Nothing is left, or a line break comes first. -/
def EndsLine (tokens : List Token) : Prop :=
  tokens = [] ∨ ∃ rest, tokens = .newline :: rest

theorem lines_nil : lines [] = [[]] :=
  List.splitOn_nil _

theorem lines_newline (tokens : List Token) : lines (.newline :: tokens) = [] :: lines tokens :=
  List.splitOn_append_cons_self_of_not_mem (List.not_mem_nil) tokens

/-- Tokens before the end of a line belong to that line. -/
theorem lines_append {tokens after : List Token} (hnewline : .newline ∉ tokens)
    (hafter : EndsLine after) :
    ∃ rest, lines (tokens ++ after) = tokens :: rest ∧ lines after = [] :: rest := by
  rcases hafter with rfl | ⟨rest, rfl⟩
  · rw [List.append_nil]
    exact ⟨[], List.splitOn_eq_singleton hnewline, lines_nil⟩
  · exact ⟨lines rest, List.splitOn_append_cons_self_of_not_mem hnewline rest,
      lines_newline rest⟩

/-- The first line begins the tokens and reaches up to the end of a line. -/
theorem exists_of_lines_eq_cons {tokens line : List Token} {rest : List (List Token)}
    (h : lines tokens = line :: rest) : ∃ after, tokens = line ++ after ∧ EndsLine after := by
  induction tokens generalizing line rest with
  | nil =>
      rw [lines_nil, List.cons.injEq] at h
      exact ⟨[], by rw [← h.1]; rfl, .inl rfl⟩
  | cons token tokens ih =>
      by_cases hnewline : token = .newline
      · subst hnewline
        rw [lines_newline, List.cons.injEq] at h
        exact ⟨_, by rw [← h.1]; rfl, .inr ⟨tokens, rfl⟩⟩
      · rw [lines, List.splitOn_cons_eq_if_modifyHead, if_neg (by simpa using hnewline)] at h
        cases htail : tokens.splitOn .newline with
        | nil => exact absurd htail (List.splitOn_ne_nil _ _)
        | cons line' rest' =>
            rw [htail, List.modifyHead_cons, List.cons.injEq] at h
            obtain ⟨after, hafter, hend⟩ := ih htail
            exact ⟨after, by rw [← h.1, hafter]; rfl, hend⟩

section SpellsLines

variable {t : Table} {n : Nat} {line : List Token} {rest : List (List Token)}
  {signatures : List Signature}

theorem spellsLines_nil_iff : SpellsLines t n [] signatures ↔ signatures = [] := by
  simp [SpellsLines]

theorem spellsLines_empty_iff :
    SpellsLines t n ([] :: rest) signatures ↔ SpellsLines t (n + 1) rest signatures := by
  simp [SpellsLines, List.zipIdx_cons]

theorem spellsLines_cons_iff (hline : line ≠ []) :
    SpellsLines t n (line :: rest) signatures ↔
      ∃ x more, signatures = x :: more ∧ (x.line = n ∧ SpellsCall t line x.storages) ∧
        SpellsLines t (n + 1) rest more := by
  simp only [SpellsLines, List.zipIdx_cons, List.filter_cons, decide_eq_true_eq, ne_eq, hline,
    not_false_eq_true, ite_true, List.forall₂_cons_left_iff]
  constructor
  · rintro ⟨x, more, hx, hmore, rfl⟩
    exact ⟨x, more, rfl, hx, hmore⟩
  · rintro ⟨x, more, rfl, hx, hmore⟩
    exact ⟨x, more, hx, hmore, rfl⟩

/-- Lines spell signatures where each of them is empty or spells a call. -/
theorem exists_spellsLines_iff {all : List (List Token)} :
    (∃ signatures, SpellsLines t n all signatures) ↔
      ∀ line ∈ all, line = [] ∨ ∃ l, SpellsCall t line l := by
  induction all generalizing n with
  | nil => simp [spellsLines_nil_iff]
  | cons line rest ih =>
      rw [List.forall_mem_cons, ← ih (n := n + 1)]
      by_cases hline : line = []
      · simp [hline, spellsLines_empty_iff]
      · simp only [spellsLines_cons_iff hline, hline, false_or]
        constructor
        · rintro ⟨_, x, more, rfl, ⟨-, hx⟩, hmore⟩
          exact ⟨⟨x.storages, hx⟩, more, hmore⟩
        · rintro ⟨⟨l, hl⟩, more, hmore⟩
          exact ⟨⟨n, l⟩ :: more, ⟨n, l⟩, more, rfl, ⟨rfl, hl⟩, hmore⟩

end SpellsLines

end ForeignCall
