import Mathlib.Algebra.Group.Nat.Defs
import ForeignCall.Storage

/-! # Numbers of slots and registers

Slots and registers are 32-bit numbers, so they correspond to the positions below `2 ^ 32`. -/

namespace ForeignCall

theorem toNat_toUInt32_of_lt {n : Nat} (h : n < 2 ^ 32) : n.toUInt32.toNat = n :=
  UInt32.toNat_ofNat_of_lt' h

/-- In a block that fits into 32 bits, the place of an index is exact. -/
theorem toNat_add_mul_of_fits {base index count width : UInt32} (hindex : index < count)
    (hfits : base.toNat + count.toNat * width.toNat < 2 ^ 32) :
    (base + index * width).toNat = base.toNat + index.toNat * width.toNat := by
  have hlt : index.toNat < count.toNat := UInt32.lt_iff_toNat_lt.mp hindex
  have hmul := Nat.mul_le_mul_right width.toNat (Nat.le_of_lt hlt)
  rw [UInt32.toNat_add, UInt32.toNat_mul, Nat.add_mod_mod, Nat.mod_eq_of_lt (by omega)]

theorem VMSlot.exists_number {n : Nat} (h : n < 2 ^ 32) :
    ∃ slot : VMSlot, slot.number.toNat = n :=
  ⟨⟨n.toUInt32⟩, toNat_toUInt32_of_lt h⟩

namespace Register

@[simp] theorem ofNat_position (r : Register) : ofNat r.position = r := by
  simp [ofNat, position]

theorem position_ofNat {n : Nat} (h : n < 2 ^ 32) : (ofNat n).position = n :=
  toNat_toUInt32_of_lt h

theorem position_lt (r : Register) : r.position < 2 ^ 32 :=
  r.number.toNat_lt

theorem position_next {r : Register} (h : r.position + 1 < 2 ^ 32) :
    r.next.position = r.position + 1 := by
  rw [next, position, position, UInt32.toNat_add, UInt32.toNat_one]
  exact Nat.mod_eq_of_lt h

/-- Positions that fit into 32 bits are the registers in their order. -/
theorem pairwise_map_ofNat {positions : List Nat} (h : positions.Pairwise (· < ·))
    (hlt : ∀ i ∈ positions, i < 2 ^ 32) :
    (positions.map ofNat).Pairwise (·.number < ·.number) := by
  rw [List.pairwise_map]
  refine h.imp_of_mem ?_
  intro i j hi hj hij
  rw [UInt32.lt_iff_toNat_lt]
  change (ofNat i).position < (ofNat j).position
  rwa [position_ofNat (hlt i hi), position_ofNat (hlt j hj)]

theorem mem_map_ofNat_iff {positions : List Nat} (hlt : ∀ i ∈ positions, i < 2 ^ 32)
    {r : Register} : r ∈ positions.map ofNat ↔ r.position ∈ positions := by
  rw [List.mem_map]
  constructor
  · rintro ⟨i, hi, rfl⟩
    rwa [position_ofNat (hlt i hi)]
  · intro hr
    exact ⟨r.position, hr, r.ofNat_position⟩

theorem position_inj {r s : Register} : r.position = s.position ↔ r = s := by
  constructor
  · intro h
    rw [← ofNat_position r, h, ofNat_position]
  · rintro rfl
    rfl

end Register

end ForeignCall
