import Mathlib.Data.List.Nodup
import ForeignCall.X86.Register

/-! # Registers of x86-64 by number

Each general register has its place in the order of the encodings, and each number of eight
bits is that of one vector register. So a storage says which register it names. -/

namespace ForeignCall.X86

/-! ## General registers -/

namespace Gpr

theorem getElem?_all (r : Gpr) : all[r.encoding.toNat]? = some r := by
  cases r <;> rfl

theorem mem_all (r : Gpr) : r ∈ all :=
  List.mem_of_getElem? r.getElem?_all

theorem pairwise_all : all.Pairwise (·.encoding < ·.encoding) := by
  decide

theorem nodup_all : all.Nodup := by
  decide

/-- No two registers share an encoding. -/
theorem ofEncoding?_eq_some_iff {encoding : UInt32} {r : Gpr} :
    ofEncoding? encoding = some r ↔ r.encoding = encoding := by
  constructor
  · intro h
    obtain ⟨hlt, -⟩ := List.getElem?_eq_some_iff.mp r.getElem?_all
    exact UInt32.toNat_inj.mp ((List.getElem?_inj hlt nodup_all).mp (r.getElem?_all.trans h.symm))
  · rintro rfl
    exact r.getElem?_all

theorem storage_eq_iff {r : Gpr} {s : Storage} :
    r.storage = s ↔ s.kind = integerKind ∧ r.encoding = s.index := by
  cases s
  simp [storage, eq_comm]

end Gpr

/-! ## Vector registers -/

namespace Xmm

variable {x : Xmm} {n : Nat}

theorem toNat_toUInt8_of_lt {i : Nat} (h : i < count) : i.toUInt8.toNat = i :=
  UInt8.toNat_ofNat_of_lt' (Nat.lt_trans h (by decide))

/-- The machine's registers are those whose numbers are small enough. -/
theorem mem_take_all_iff (hn : n ≤ count) : x ∈ all.take n ↔ x.number.toNat < n := by
  rw [all, ← List.map_take, List.take_range, Nat.min_eq_left hn, List.mem_map]
  constructor
  · rintro ⟨i, hi, rfl⟩
    have hlt := List.mem_range.mp hi
    rwa [toNat_toUInt8_of_lt (Nat.lt_of_lt_of_le hlt hn)]
  · intro h
    refine ⟨x.number.toNat, List.mem_range.mpr h, ?_⟩
    rw [Nat.toUInt8_eq, UInt8.ofNat_toNat]

theorem pairwise_take_all (n : Nat) : (all.take n).Pairwise (·.number < ·.number) := by
  have hall : all.Pairwise (·.number < ·.number) := by decide
  exact hall.sublist (List.take_sublist n all)

theorem storage_eq_iff {s : Storage} :
    x.storage = s ↔ s.kind = vectorKind ∧ x.encoding = s.index := by
  cases s
  simp [storage, eq_comm]

/-- An index of eight bits is the number of one vector register. -/
theorem storage_eq_iff_of_lt {s : Storage} (hs : s.kind = vectorKind)
    (hindex : s.index.toNat < 256) : x.storage = s ↔ x = ⟨s.index.toUInt8⟩ := by
  rw [storage_eq_iff, and_iff_right hs]
  constructor
  · intro h
    rw [← h, encoding, UInt8.toUInt8_toUInt32]
  · rintro rfl
    apply UInt32.toNat_inj.mp
    rw [encoding, UInt8.toNat_toUInt32, UInt32.toNat_toUInt8, Nat.mod_eq_of_lt hindex]

end Xmm

end ForeignCall.X86
