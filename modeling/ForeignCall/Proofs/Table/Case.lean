import Mathlib.Data.List.Forall2
import ForeignCall.Table.Basic

/-! # Names in any case

Class names are compared by a fold. Two names have the same fold where they are equal up to
the case of ASCII letters, character by character, so letters beyond ASCII keep their case. -/

namespace ForeignCall

/-- The letters stand at the same place in the two ASCII alphabets. -/
def LetterCases (upper lower : Char) : Prop :=
  'A' ≤ upper ∧ upper ≤ 'Z' ∧ lower.toNat + 'A'.toNat = upper.toNat + 'a'.toNat

/-- The same character, or the same ASCII letter in the other case. -/
def SameLetter (c d : Char) : Prop :=
  c = d ∨ LetterCases c d ∨ LetterCases d c

/-- Names of one length that have the same letters, in any case. -/
def SameName (a b : String) : Prop :=
  List.Forall₂ SameLetter a.toList b.toList

theorem upper_iff {c : Char} : 'A' ≤ c ∧ c ≤ 'Z' ↔ 65 ≤ c.toNat ∧ c.toNat ≤ 90 := by
  rw [Char.le_def, Char.le_def, UInt32.le_iff_toNat_le, UInt32.le_iff_toNat_le]
  rfl

theorem letterCases_iff {upper lower : Char} : LetterCases upper lower ↔
    (65 ≤ upper.toNat ∧ upper.toNat ≤ 90) ∧ lower.toNat = upper.toNat + 32 := by
  rw [LetterCases, ← and_assoc, upper_iff]
  change _ ∧ lower.toNat + 65 = upper.toNat + 97 ↔ _
  omega

theorem toNat_toLower (c : Char) :
    c.toLower.toNat = if 65 ≤ c.toNat ∧ c.toNat ≤ 90 then c.toNat + 32 else c.toNat := by
  by_cases h : 'A' ≤ c ∧ c ≤ 'Z'
  · have hlower : c.toLower.val = c.val + 32 := congrArg Char.val (dif_pos h)
    have hbound := upper_iff.mp h
    rw [if_pos hbound]
    change c.toLower.val.toNat = c.val.toNat + 32
    change 65 ≤ c.val.toNat ∧ c.val.toNat ≤ 90 at hbound
    rw [hlower, UInt32.toNat_add]
    change (c.val.toNat + 32) % 2 ^ 32 = _
    omega
  · have hsame : c.toLower = c := dif_neg h
    rw [hsame, if_neg (mt upper_iff.mpr h)]

theorem toLower_eq_toLower_iff {c d : Char} : c.toLower = d.toLower ↔ SameLetter c d := by
  rw [SameLetter, letterCases_iff, letterCases_iff, ← Char.toNat_inj, ← Char.toNat_inj,
    toNat_toLower, toNat_toLower]
  split <;> split <;> omega

/-- The fold forgets the case of ASCII letters and nothing else. -/
theorem caseFold_eq_iff {a b : String} : caseFold a = caseFold b ↔ SameName a b := by
  rw [caseFold, caseFold, ← List.forall₂_eq_eq_eq, List.forall₂_map_left_iff,
    List.forall₂_map_right_iff, SameName]
  simp only [toLower_eq_toLower_iff]

theorem SameName.refl (name : String) : SameName name name :=
  caseFold_eq_iff.mp rfl

/-- Folds without repetition are those of names that differ in more than case. -/
theorem nodup_map_caseFold_iff {α : Type} {name : α → String} {xs : List α} :
    (xs.map fun x => caseFold (name x)).Nodup ↔
      xs.Pairwise fun x y => ¬ SameName (name x) (name y) := by
  simp only [List.Nodup, List.pairwise_map, ne_eq, caseFold_eq_iff]

end ForeignCall
