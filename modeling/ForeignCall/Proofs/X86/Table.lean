import ForeignCall.Proofs.Machine
import ForeignCall.Proofs.Policy.Renumbering
import ForeignCall.Proofs.X86.Register

/-! # Registers in the table of x86-64

The register classes list registers by encoding and the allocation order lists them as the
allocator prefers them. What the two have in common is the name of the low slot, which says of
each storage which register it resolves to. -/

namespace ForeignCall.X86

/-! ## Names of registers -/

/-- The name of the register's low slot in the register table. -/
def Xmm.tableName (x : Xmm) : String :=
  "XMM" ++ toString x.number.toNat

namespace Gpr

theorem tableName_inj {g g' : Gpr} : g.tableName = g'.tableName ↔ g = g' := by
  have hnodup : (all.map tableName).Nodup := by decide
  constructor
  · exact List.inj_on_of_nodup_map hnodup g.mem_all g'.mem_all
  · exact congrArg tableName

theorem isStem_tableName (g : Gpr) : isStem g.tableName := by
  have hall : ∀ g ∈ all, isStem g.tableName := by decide
  exact hall g g.mem_all

theorem head?_tableName (g : Gpr) : g.tableName.toList.head? = some 'R' := by
  cases g <;> rfl

end Gpr

namespace Xmm

theorem tableName_inj {x x' : Xmm} : x.tableName = x'.tableName ↔ x = x' := by
  constructor
  · intro h
    have hnumber := toString_nat_inj ((String.append_right_inj "XMM").mp h)
    cases x
    cases x'
    exact congrArg mk (UInt8.toNat_inj.mp hnumber)
  · exact congrArg tableName

theorem isStem_tableName (x : Xmm) : isStem x.tableName := by
  have hmem : x.tableName ∈ numbered "XMM" (x.number.toNat + 1) :=
    List.mem_map_of_mem (List.mem_range.mpr (Nat.lt_succ_self _))
  exact isStem_of_mem_numbered (by decide) hmem

end Xmm

/-- The slots of vector registers have another first letter than those of general registers. -/
theorem ne_xmm_append {slot : String} (h : slot.toList.head? = some 'R') (rest : String) :
    "XMM" ++ rest ≠ slot := by
  rintro rfl
  rw [String.toList_append] at h
  cases h

/-! ## Registers of the table -/

theorem getElem?_vectorNames {x : Xmm} (hx : x.number.toNat < Xmm.count) :
    vectorNames[x.number.toNat]? = some x.tableName := by
  simp [vectorNames, numbered, hx, Xmm.tableName]

theorem exists_built : ∃ t, table? = some t ∧ description.Built t := by
  refine ⟨_, ?_, built_table⟩
  rw [table?, Description.build_eq_ok_iff.mpr built_table, Except.toOption]

section Table

variable {t : Table} (h : description.Built t)

include h

theorem addressable : t.Addressable := by
  have hlength : description.effectiveOrder.length = 559 := by
    rw [hasBlocks.length_order]
    rfl
  constructor
  · rw [h.length_slots]
    have hslots : description.slotNames.length ≤ description.knownNames.length := by
      rw [Description.knownNames, List.length_append]
      exact Nat.le_add_right _ _
    rw [← hasBlocks.order_perm.length_eq] at hslots
    omega
  · rw [h.names_eq]
    omega

/-- Every slot of a block stands for a register. -/
theorem exists_slot {b : SlotBlock} (hb : b ∈ blocks) {name suffix : String}
    (hname : name ∈ b.names) (hsuffix : suffix ∈ b.suffixes) :
    ∃ r, t.registerName? r = some (name ++ suffix) := by
  apply (h.mem_effectiveOrder_iff (addressable h).names_lt).mp
  apply hasBlocks.order_perm.mem_iff.mpr
  rw [knownNames_eq]
  exact List.mem_flatMap.mpr ⟨b, hb, mem_slotNames_iff.mpr ⟨name, hname, suffix, hsuffix, rfl⟩⟩

theorem exists_gpr_slot (g : Gpr) {suffix : String} (hsuffix : suffix ∈ gprSuffixes) :
    ∃ r, t.registerName? r = some (g.tableName ++ suffix) :=
  exists_slot h (b := ⟨Gpr.all.map Gpr.tableName, gprSuffixes⟩) (by simp [blocks])
    (List.mem_map_of_mem g.mem_all) hsuffix

theorem exists_xmm_slot {x : Xmm} (hx : x.number.toNat < Xmm.count) {suffix : String}
    (hsuffix : suffix ∈ vectorSuffixes) : ∃ r, t.registerName? r = some (x.tableName ++ suffix) :=
  exists_slot h (b := ⟨vectorNames, vectorSuffixes⟩) (by simp [blocks])
    (List.mem_of_getElem? (getElem?_vectorNames hx)) hsuffix

theorem exists_gpr_lowSlot (g : Gpr) : ∃ r, t.registerName? r = some g.tableName := by
  have hslot := exists_gpr_slot h g List.mem_cons_self
  rwa [String.append_empty] at hslot

theorem exists_xmm_lowSlot {x : Xmm} (hx : x.number.toNat < Xmm.count) :
    ∃ r, t.registerName? r = some x.tableName := by
  have hslot := exists_xmm_slot h hx List.mem_cons_self
  rwa [String.append_empty] at hslot

theorem exists_frame_slot {name : String} (hname : name = "RSP" ∨ name = "RSP_H") :
    ∃ r, t.registerName? r = some name := by
  rcases hname with rfl | rfl
  · exact exists_gpr_lowSlot h .rsp
  · have hhigh : "_H" ∈ gprSuffixes := by decide
    exact exists_gpr_slot h .rsp hhigh

/-! ## Storages of registers -/

theorem registerOf_gpr_iff {g : Gpr} {r : Register} :
    t.registerOf g.storage = .ok r ↔ t.registerName? r = some g.tableName := by
  have hclass : ⟨integerKind, "integer", .registers (Gpr.all.map Gpr.tableName) gprSuffixes⟩ ∈
      description.classes := by simp [classes_eq]
  rw [Gpr.storage, h.registerOf_registers_iff (addressable h) hclass, List.getElem?_map,
    g.getElem?_all]
  simp [gprSuffixes]

theorem registerOf_xmm_iff {x : Xmm} {r : Register} :
    t.registerOf x.storage = .ok r ↔
      x.number.toNat < Xmm.count ∧ t.registerName? r = some x.tableName := by
  have hclass : ⟨vectorKind, "vector", .registers vectorNames vectorSuffixes⟩ ∈
      description.classes := by simp [classes_eq]
  rw [Xmm.storage, h.registerOf_registers_iff (addressable h) hclass]
  have hindex : x.encoding.toNat = x.number.toNat := UInt8.toNat_toUInt32 _
  rw [hindex]
  by_cases hx : x.number.toNat < Xmm.count
  · simp [getElem?_vectorNames hx, hx, vectorSuffixes]
  · simp [vectorNames, numbered, hx]

theorem touchable_gpr (g : Gpr) : t.Touchable g.storage := by
  obtain ⟨r, hr⟩ := exists_gpr_lowSlot h g
  exact ⟨r, (registerOf_gpr_iff h).mpr hr,
    (Table.lt_registerCount_iff (addressable h).names_lt).mpr ⟨_, hr⟩⟩

theorem touchable_xmm_iff {x : Xmm} : t.Touchable x.storage ↔ x.number.toNat < Xmm.count := by
  constructor
  · rintro ⟨r, hr, -⟩
    exact ((registerOf_xmm_iff h).mp hr).1
  · intro hx
    obtain ⟨r, hr⟩ := exists_xmm_lowSlot h hx
    exact ⟨r, (registerOf_xmm_iff h).mpr ⟨hx, hr⟩,
      (Table.lt_registerCount_iff (addressable h).names_lt).mpr ⟨_, hr⟩⟩

/-- The stack pointer's two slots end the general registers of the order. -/
theorem isFrame_iff {name : String} {r : Register} (hr : t.registerName? r = some name) :
    t.IsFrame r ↔ name = "RSP" ∨ name = "RSP_H" := by
  have hsize := (addressable h).names_lt
  have hhalf : ["RSP", "RSP_H"] <:+: description.effectiveOrder := by
    rw [effectiveOrder_eq]
    exact ⟨slotNames (gprOrder.dropLast.map Gpr.tableName) gprSuffixes, _, rfl⟩
  have hpointer : description.framePointer = some ⟨"RSP", true⟩ := rfl
  rw [h.isFrame_iff_name hsize hpointer (fun _ => hhalf) ((h.lookup?_eq_some_iff hsize).mpr hr)]
  simp

end Table

end ForeignCall.X86
