/-! # Tilings

Blocks of numbers that follow each other without a gap. Slots of a table and slots of a
save area are laid out in this way, so no two of them overlap and none of the numbers up to
the end is left out. -/

namespace ForeignCall

/-- Each block starts where the one before it ends, and the last one ends at `stop`. -/
def Tiles : Nat → List (Nat × Nat) → Nat → Prop
  | start, [], stop => start = stop
  | start, (base, size) :: rest, stop => base = start ∧ Tiles (start + size) rest stop

namespace Tiles

variable {start stop : Nat} {blocks : List (Nat × Nat)}

/-- Blocks start at or past the start of the tiling, and each past the end of those before it. -/
theorem le_and_pairwise (h : Tiles start blocks stop) :
    (∀ b ∈ blocks, start ≤ b.1) ∧ blocks.Pairwise fun b b' => b.1 + b.2 ≤ b'.1 := by
  induction blocks generalizing start with
  | nil => simp
  | cons block rest ih =>
      obtain ⟨base, size⟩ := block
      obtain ⟨rfl, hrest⟩ := h
      obtain ⟨hle, hapart⟩ := ih hrest
      constructor
      · intro b hb
        rcases List.mem_cons.mp hb with rfl | hb
        · exact Nat.le_refl _
        · exact Nat.le_trans (Nat.le_add_right _ _) (hle b hb)
      · exact List.pairwise_cons.mpr ⟨hle, hapart⟩

theorem start_le_stop (h : Tiles start blocks stop) : start ≤ stop := by
  induction blocks generalizing start with
  | nil => exact Nat.le_of_eq h
  | cons block rest ih => exact Nat.le_trans (Nat.le_add_right _ _) (ih h.2)

/-- Between its start and its end a tiling leaves nothing out, and it covers nothing else. -/
theorem covered_iff (h : Tiles start blocks stop) {i : Nat} :
    (start ≤ i ∧ i < stop) ↔ ∃ b ∈ blocks, b.1 ≤ i ∧ i < b.1 + b.2 := by
  induction blocks generalizing start with
  | nil =>
      have hstop : start = stop := h
      simp only [List.not_mem_nil, false_and, exists_false, iff_false]
      omega
  | cons block rest ih =>
      obtain ⟨base, size⟩ := block
      obtain ⟨rfl, hrest⟩ := h
      have hle := hrest.start_le_stop
      simp only [List.mem_cons, exists_eq_or_imp, ← ih hrest]
      omega

theorem base_eq_start (h : Tiles start blocks stop) {b : Nat × Nat} (hb : blocks[0]? = some b) :
    b.1 = start := by
  cases blocks with
  | nil => cases hb
  | cons block rest =>
      cases hb
      exact h.1

/-- A block starts where the one before it ends. -/
theorem base_eq_end (h : Tiles start blocks stop) {i : Nat} {b b' : Nat × Nat}
    (hb : blocks[i]? = some b) (hb' : blocks[i + 1]? = some b') : b'.1 = b.1 + b.2 := by
  induction blocks generalizing start i with
  | nil => cases hb
  | cons block rest ih =>
      cases i with
      | zero =>
          cases hb
          rw [List.getElem?_cons_succ] at hb'
          rw [h.2.base_eq_start hb', h.1]
      | succ i => exact ih h.2 hb hb'

end Tiles

end ForeignCall
