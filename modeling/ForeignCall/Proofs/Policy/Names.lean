import Mathlib.Data.List.Dedup
import ForeignCall.Proofs.Policy.Logging

/-! # Policies by name

A policy lists its classes by position. Where the class of each register can be told from its
name, the policy is the list of the names with their classes in place of them, and the
registers of a class are those whose names have it. -/

namespace ForeignCall

namespace Table

variable {t : Table} {classOf : String → SaveClass} {r : Register} {name : String}

/-- The policy that gives each register the class of its name. -/
def policyByName (t : Table) (classOf : String → SaveClass) : Policy :=
  ⟨t.names.map classOf⟩

/-- The policy has the class for the register of that name. -/
def Assigns (t : Table) (p : Policy) (name : String) (c : SaveClass) : Prop :=
  ∃ r, t.registerName? r = some name ∧ p.get? r = some c

theorem get?_policyByName (hr : t.registerName? r = some name) :
    (t.policyByName classOf).get? r = some (classOf name) := by
  rw [registerName?] at hr
  rw [policyByName, Policy.get?, List.getElem?_map, hr, Option.map_some]

theorem assigns_policyByName (hname : ∃ r, t.registerName? r = some name) {c : SaveClass}
    (hc : classOf name = c) : t.Assigns (t.policyByName classOf) name c := by
  obtain ⟨r, hr⟩ := hname
  exact ⟨r, hr, hc ▸ get?_policyByName hr⟩

theorem classify_eq_policyByName (hsize : t.names.length < 2 ^ 32) {set : BitSet}
    (h : ∀ r name, t.registerName? r = some name → t.saveClass set r = classOf name) :
    t.classify set = t.policyByName classOf := by
  rw [classify, policyByName, toNat_registerCount hsize, Policy.mk.injEq]
  apply List.ext_getElem (by simp)
  intro i hi hi'
  have hlt : i < t.names.length := by simpa using hi'
  simp only [List.getElem_map, List.getElem_range]
  apply h
  rw [registerName?, Register.position_ofNat (Nat.lt_trans hlt hsize), List.getElem?_eq_getElem]

/-- The registers of a class have the names of that class, in the order of the table. -/
theorem map_registerName?_registersIn (hsize : t.names.length < 2 ^ 32) (c : SaveClass) :
    ((t.policyByName classOf).registersIn c).map t.registerName? =
      (t.names.filter (classOf · = c)).map some := by
  have hplaces : t.names.filter (classOf · = c) =
      (t.names.zipIdx.filter (classOf ·.1 = c)).map Prod.fst := by
    conv_lhs => rw [← List.zipIdx_map_fst 0 t.names]
    rw [List.filter_map]
    rfl
  rw [hplaces, Policy.registersIn, policyByName, List.zipIdx_map, List.filter_map, List.map_map,
    List.map_map, List.map_map]
  apply List.map_congr_left
  rintro ⟨name, i⟩ hplace
  have hname : t.names[i]? = some name :=
    List.mem_zipIdx_iff_getElem?.mp (List.mem_of_mem_filter hplace)
  obtain ⟨hlt, -⟩ := List.getElem?_eq_some_iff.mp hname
  change t.registerName? (Register.ofNat i) = some name
  rw [registerName?, Register.position_ofNat (Nat.lt_trans hlt hsize), hname]

/-- Names of registers that are all names of a class belong to one register of it each. -/
theorem perm_registersIn (hnodup : t.names.Nodup) (hsize : t.names.length < 2 ^ 32)
    {c : SaveClass} {names : List String} (hclass : ∀ name, classOf name = c ↔ name ∈ names)
    (hnames : ∀ name ∈ names, ∃ r, t.registerName? r = some name) :
    (((t.policyByName classOf).registersIn c).map t.registerName?).Perm
      (names.dedup.map some) := by
  rw [map_registerName?_registersIn hsize]
  apply List.Perm.map
  apply (List.perm_ext_iff_of_nodup (hnodup.filter _) names.nodup_dedup).mpr
  intro name
  rw [List.mem_filter, List.mem_dedup, decide_eq_true_iff, hclass, and_iff_right_iff_imp]
  intro hname
  obtain ⟨r, hr⟩ := hnames name hname
  exact List.mem_of_getElem? hr

end Table

end ForeignCall
