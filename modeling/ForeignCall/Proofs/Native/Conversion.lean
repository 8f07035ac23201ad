import Mathlib.Data.List.Forall2
import ForeignCall.Proofs.Native.Agreement

/-! # Signed pairs as storages

A policy is asked for in signed pairs, and all of them are converted before any storage is
mapped. So the first negative pair decides, whatever is wrong with the pairs before it. A
list without one is the list of the storages with the same numbers. -/

namespace ForeignCall

/-! ## One pair -/

/-- The value of a signed word, by the value of its bits without sign. -/
theorem toInt_eq_toNat_toUInt32 (n : Int32) : n.toInt =
    if n.toUInt32.toNat < 2 ^ 31 then (n.toUInt32.toNat : Int)
    else (n.toUInt32.toNat : Int) - 2 ^ 32 := by
  have hvalue : n.toInt = if 2 * n.toUInt32.toNat < 2 ^ 32 then (n.toUInt32.toNat : Int)
      else (n.toUInt32.toNat : Int) - (2 ^ 32 : Nat) :=
    BitVec.toInt_eq_toNat_cond n.toUInt32.toBitVec
  rw [hvalue]
  split <;> split <;> omega

theorem toNat_toUInt32_of_nonneg {n : Int32} (h : 0 ≤ n.toInt) :
    (n.toUInt32.toNat : Int) = n.toInt := by
  have hlt := n.toUInt32.toNat_lt
  rw [toInt_eq_toNat_toUInt32] at h ⊢
  split at h <;> split <;> omega

namespace RawStorage

/-- One of the pair's numbers is below zero. -/
def IsNegative (raw : RawStorage) : Prop :=
  raw.kind.toInt < 0 ∨ raw.index.toInt < 0

/-- The storage has the pair's numbers. -/
structure Denotes (raw : RawStorage) (s : Storage) : Prop where
  kind_eq : (s.kind.toNat : Int) = raw.kind.toInt
  index_eq : (s.index.toNat : Int) = raw.index.toInt

variable {raw : RawStorage} {s : Storage}

theorem Denotes.not_isNegative (h : raw.Denotes s) : ¬ raw.IsNegative := by
  have hkind := h.kind_eq
  have hindex := h.index_eq
  unfold IsNegative
  omega

theorem Denotes.unique {s' : Storage} (h : raw.Denotes s) (h' : raw.Denotes s') : s = s' := by
  have hkind : s.kind.toNat = s'.kind.toNat :=
    Int.natCast_inj.mp (h.kind_eq.trans h'.kind_eq.symm)
  have hindex : s.index.toNat = s'.index.toNat :=
    Int.natCast_inj.mp (h.index_eq.trans h'.index_eq.symm)
  cases s
  cases s'
  rw [Storage.mk.injEq]
  exact ⟨UInt32.toNat_inj.mp hkind, UInt32.toNat_inj.mp hindex⟩

/-- The two words of a pair that is not negative have the pair's numbers. -/
theorem denotes_toUInt32 (h : ¬ raw.IsNegative) :
    raw.Denotes ⟨raw.kind.toUInt32, raw.index.toUInt32⟩ := by
  obtain ⟨hkind, hindex⟩ := not_or.mp h
  constructor
  · exact toNat_toUInt32_of_nonneg (Int.not_lt.mp hkind)
  · exact toNat_toUInt32_of_nonneg (Int.not_lt.mp hindex)

theorem ofRaw?_of_isNegative (h : raw.IsNegative) : Storage.ofRaw? raw = none := by
  apply if_pos
  rw [Int32.lt_iff_toInt_lt, Int32.lt_iff_toInt_lt]
  exact h

theorem ofRaw?_of_not_isNegative (h : ¬ raw.IsNegative) :
    Storage.ofRaw? raw = some ⟨raw.kind.toUInt32, raw.index.toUInt32⟩ := by
  apply if_neg
  rw [Int32.lt_iff_toInt_lt, Int32.lt_iff_toInt_lt]
  exact h

/-- A pair is converted to the one storage that has its numbers. -/
theorem ofRaw?_eq_some_iff : Storage.ofRaw? raw = some s ↔ raw.Denotes s := by
  constructor
  · intro hs
    by_cases h : raw.IsNegative
    · rw [ofRaw?_of_isNegative h] at hs
      cases hs
    · rw [ofRaw?_of_not_isNegative h] at hs
      exact Option.some.inj hs ▸ denotes_toUInt32 h
  · intro hs
    rw [ofRaw?_of_not_isNegative hs.not_isNegative,
      (denotes_toUInt32 hs.not_isNegative).unique hs]

end RawStorage

/-! ## Lists of pairs -/

section Lists

variable {raws : List RawStorage} {storages : List Storage}

theorem map_ofRaw?_iff : raws.map Storage.ofRaw? = storages.map some ↔
    List.Forall₂ RawStorage.Denotes raws storages := by
  rw [← List.forall₂_eq_eq_eq, List.forall₂_map_left_iff, List.forall₂_map_right_iff]
  simp only [RawStorage.ofRaw?_eq_some_iff]

/-- Pairs that are not negative stand for a list of storages. -/
theorem exists_denotes (h : ∀ raw ∈ raws, ¬ raw.IsNegative) :
    ∃ storages, List.Forall₂ RawStorage.Denotes raws storages := by
  refine ⟨raws.map fun raw => ⟨raw.kind.toUInt32, raw.index.toUInt32⟩, ?_⟩
  rw [List.forall₂_map_right_iff, List.forall₂_same]
  intro raw hraw
  exact RawStorage.denotes_toUInt32 (h raw hraw)

end Lists

namespace Table

variable {t : Table} {raws : List RawStorage} {log : Log}

/-- Pairs before the first negative one are converted and then forgotten. -/
theorem mapM_storageOfRaw_of_first {before after : List RawStorage} {raw : RawStorage}
    (hbefore : ∀ b ∈ before, ¬ b.IsNegative) (hraw : raw.IsNegative) :
    (before ++ raw :: after).mapM t.storageOfRaw = .error ⟨.negativeStorage raw, t.name⟩ := by
  obtain ⟨storages, hstorages⟩ := exists_denotes hbefore
  have hconverted : before.mapM t.storageOfRaw = .ok storages :=
    mapM_storageOfRaw_eq_ok_iff.mpr (map_ofRaw?_iff.mpr hstorages)
  have hrefused : t.storageOfRaw raw = .error ⟨.negativeStorage raw, t.name⟩ := by
    rw [storageOfRaw, RawStorage.ofRaw?_of_isNegative hraw]
  rw [List.mapM_append, hconverted, List.mapM_cons, hrefused]
  rfl

/-- Converted pairs have the policy of their storages. -/
theorem nativePolicy_of_denotes {storages : List Storage}
    (h : List.Forall₂ RawStorage.Denotes raws storages) (log : Log) :
    t.nativePolicy raws log =
      ((t.savePolicy storages log).1.map Policy.text, (t.savePolicy storages log).2) := by
  simp only [nativePolicy, mapM_storageOfRaw_eq_ok_iff.mpr (map_ofRaw?_iff.mpr h)]
  cases t.savePolicy storages log with
  | mk result after => cases result <;> rfl

/-! ## The contract of the conversion -/

/-- The first negative pair is the error, and nothing is written for it. Without one, the
policy, its errors and the log are those of the storages that the pairs stand for. -/
structure ConversionSpec (t : Table) (raws : List RawStorage) (log : Log) : Prop where
  fails_of_negative : (∃ raw ∈ raws, raw.IsNegative) →
    ∃ before raw after, raws = before ++ raw :: after ∧ (∀ b ∈ before, ¬ b.IsNegative) ∧
      raw.IsNegative ∧ t.nativePolicy raws log = (.error ⟨.negativeStorage raw, t.name⟩, log)
  policy_of_not_negative : (∀ raw ∈ raws, ¬ raw.IsNegative) →
    ∃ storages, List.Forall₂ RawStorage.Denotes raws storages ∧
      t.nativePolicy raws log =
        ((t.savePolicy storages log).1.map Policy.text, (t.savePolicy storages log).2)

end Table

/-- Pairs that the table does not define do not hide a negative pair after them. -/
theorem nativePolicy_converts (t : Table) (raws : List RawStorage) (log : Log) :
    t.ConversionSpec raws log := by
  constructor
  · intro hnegative
    obtain ⟨before, raw, after, rfl, hbefore, hraw⟩ :=
      exists_first_not (p := fun raw : RawStorage => ¬ raw.IsNegative)
        (by simpa only [Classical.not_not] using hnegative)
    have hraw := Classical.not_not.mp hraw
    refine ⟨before, raw, after, rfl, hbefore, hraw, ?_⟩
    rw [Table.nativePolicy, Table.mapM_storageOfRaw_of_first hbefore hraw]
  · intro hall
    obtain ⟨storages, hstorages⟩ := exists_denotes hall
    exact ⟨storages, hstorages, Table.nativePolicy_of_denotes hstorages log⟩

/-- The first pair is not defined and the second lies on the stack, but the third is negative. -/
example : sampleTable.nativePolicy [⟨9, 0⟩, ⟨2, 3⟩, ⟨0, -1⟩, ⟨-5, 0⟩] (.buffer "before") =
    (.error ⟨.negativeStorage ⟨0, -1⟩, "sample"⟩, .buffer "before") :=
  rfl

end ForeignCall
