import Mathlib.Data.List.Pairwise
import ForeignCall.Proofs.Mapping
import ForeignCall.Proofs.Table.WellFormed

/-! # Storages that stay apart

Numbers of slots and of stack slots are computed in 32 bits and never checked again. What
makes this safe was checked when the table was built: the blocks of the register classes
tile the slots, and the slots of each stack class end below `2 ^ 32`. So every sum is exact,
registers and stack slots never meet, and two storages share a number at most where two
stack classes share the stack. -/

namespace ForeignCall

/-! ## Blocks -/

/-- Neither of two blocks, each given by its first slot and its size, reaches into the other. -/
def BlocksApart (b b' : Nat × Nat) : Prop :=
  b.1 + b.2 ≤ b'.1 ∨ b'.1 + b'.2 ≤ b.1

theorem BlocksApart.symm {b b' : Nat × Nat} (h : BlocksApart b b') : BlocksApart b' b :=
  Or.symm h

/-- What an index below the count takes up ends within the block. -/
theorem index_mul_add_le {index count : UInt32} (h : index < count) (width : UInt32) :
    index.toNat * width.toNat + width.toNat ≤ count.toNat * width.toNat := by
  rw [← Nat.succ_mul]
  exact Nat.mul_le_mul_right _ (UInt32.lt_iff_toNat_lt.mp h)

namespace Table

variable {t : Table} {s : Storage}

/-! ## Registers and the stack -/

/-- The storage's class has registers. -/
def InRegisters (t : Table) (s : Storage) : Prop :=
  ∃ className base count width,
    t.class? s.kind = some ⟨s.kind, className, .registers base count width⟩

/-- The storage's class has stack slots. -/
def OnStack (t : Table) (s : Storage) : Prop :=
  ∃ className width limit, t.class? s.kind = some ⟨s.kind, className, .stack width limit⟩

theorem InRegisters.not_onStack (h : t.InRegisters s) : ¬ t.OnStack s := by
  obtain ⟨_, _, _, _, hclass⟩ := h
  rintro ⟨_, _, _, hstack⟩
  simp [hclass] at hstack

theorem mem_of_class? {kind : UInt32} {c : StorageClass} (h : t.class? kind = some c) :
    c ∈ t.classes :=
  List.mem_of_find?_eq_some h

theorem slotOf_of_registers {kind base count width : UInt32} {className : String}
    (hclass : t.class? s.kind = some ⟨kind, className, .registers base count width⟩)
    (hindex : s.index < count) : t.slotOf s = .ok ⟨base + s.index * width⟩ := by
  simp only [slotOf, hclass, hindex, ite_true]

end Table

namespace Description.Built

variable {d : Description} {t : Table}

/-! ## Register classes -/

section Registers

variable {kind base count width index : UInt32} {className : String}

/-- The slots of a register lie among the table's. -/
theorem slots_of_register_le (h : d.Built t) (hsize : t.slots.length < 2 ^ 32)
    (hclass : t.class? kind = some ⟨kind, className, .registers base count width⟩)
    (hindex : index < count) :
    base.toNat + index.toNat * width.toNat + width.toNat ≤ t.slots.length := by
  obtain ⟨names, suffixes, -, hblock⟩ := h.registerBlock_of_class? hsize hclass
  have hfits := hblock.fits
  have hend := index_mul_add_le hindex width
  rw [h.length_slots]
  omega

/-- The number of a register's low slot is exact. -/
theorem toNat_low_slot (h : d.Built t) (hsize : t.slots.length < 2 ^ 32)
    (hclass : t.class? kind = some ⟨kind, className, .registers base count width⟩)
    (hindex : index < count) :
    (base + index * width).toNat = base.toNat + index.toNat * width.toNat := by
  obtain ⟨names, suffixes, -, hblock⟩ := h.registerBlock_of_class? hsize hclass
  exact hblock.toNat_low_slot (h.length_slots ▸ hsize) hindex

/-- The low slot of a register lies in the block of its class. -/
theorem low_slot_mem_block (h : d.Built t) (hsize : t.slots.length < 2 ^ 32)
    (hclass : t.class? kind = some ⟨kind, className, .registers base count width⟩)
    (hindex : index < count) :
    base.toNat ≤ (base + index * width).toNat ∧
      (base + index * width).toNat < base.toNat + count.toNat * width.toNat := by
  have hcount : 0 < count := Nat.zero_lt_of_lt hindex
  have hwidth := h.width_pos hsize (Table.mem_of_class? hclass) rfl hcount
  have hend := index_mul_add_le hindex width
  rw [h.toNat_low_slot hsize hclass hindex]
  rw [UInt32.lt_iff_toNat_lt, UInt32.toNat_zero] at hwidth
  omega

/-- Classes whose blocks have a slot in common are one class. -/
theorem class_eq_of_common_slot (h : d.Built t) (hsize : t.slots.length < 2 ^ 32)
    {c c' : StorageClass} (hc : c ∈ t.classes) (hc' : c' ∈ t.classes) {b b' : Nat × Nat}
    (hb : c.block? = some b) (hb' : c'.block? = some b') {slot : Nat}
    (hslot : b.1 ≤ slot ∧ slot < b.1 + b.2) (hslot' : b'.1 ≤ slot ∧ slot < b'.1 + b'.2) :
    c = c' := by
  have htaken : slotsTaken d.classes = t.slots.length := h.length_slots.symm
  have htiles := tiles_assignSlots 0 d.classes h.classes_sound (by omega)
  rw [← h.classes_eq] at htiles
  have hapart : (t.classes.filterMap StorageClass.block?).Pairwise BlocksApart :=
    htiles.le_and_pairwise.2.imp .inl
  have hpairwise := List.pairwise_filterMap.mp hapart
  have hsymm : Std.Symm fun c c' : StorageClass =>
      ∀ b, c.block? = some b → ∀ b', c'.block? = some b' → BlocksApart b b' :=
    ⟨fun _ _ hapart b hb b' hb' => (hapart b' hb' b hb).symm⟩
  by_contra hne
  rcases hpairwise.forall hc hc' hne b hb b' hb' with hle | hle <;> omega

/-- Register storages that share a low slot are one storage. -/
theorem eq_of_low_slot_eq (h : d.Built t) (hsize : t.slots.length < 2 ^ 32) {a b : Storage}
    {name name' : String} {base' count' width' : UInt32}
    (ha : t.class? a.kind = some ⟨a.kind, name, .registers base count width⟩)
    (hb : t.class? b.kind = some ⟨b.kind, name', .registers base' count' width'⟩)
    (hindex : a.index < count) (hindex' : b.index < count')
    (hslot : base + a.index * width = base' + b.index * width') : a = b := by
  have hmem := h.low_slot_mem_block hsize ha hindex
  have hmem' := h.low_slot_mem_block hsize hb hindex'
  rw [← hslot] at hmem'
  have hclass := h.class_eq_of_common_slot hsize (Table.mem_of_class? ha)
    (Table.mem_of_class? hb) rfl rfl hmem hmem'
  rw [StorageClass.mk.injEq, Layout.registers.injEq] at hclass
  obtain ⟨hkind, -, rfl, rfl, rfl⟩ := hclass
  have hwidth := h.width_pos hsize (Table.mem_of_class? ha) rfl (Nat.zero_lt_of_lt hindex)
  have hindices : a.index.toNat * width.toNat = b.index.toNat * width.toNat := by
    have hsum := congrArg UInt32.toNat hslot
    rw [h.toNat_low_slot hsize ha hindex, h.toNat_low_slot hsize hb hindex'] at hsum
    exact Nat.add_left_cancel hsum
  have hindexEq := Nat.eq_of_mul_eq_mul_right (UInt32.lt_iff_toNat_lt.mp hwidth) hindices
  cases a
  cases b
  rw [Storage.mk.injEq]
  exact ⟨hkind, UInt32.toNat_inj.mp hindexEq⟩

end Registers

/-! ## Stack classes -/

section Stack

variable {kind width limit : UInt32} {className : String}

/-- A stack slot is numbered exactly, and all that its index covers is below `2 ^ 32`. -/
theorem exists_stack_slot (h : d.Built t)
    (hclass : t.class? kind = some ⟨kind, className, .stack width limit⟩) {index : UInt32}
    (hindex : index < limit) :
    ∃ r, t.registerOf ⟨kind, index⟩ = .ok r ∧
      r.position = t.stackBase.toNat + index.toNat * width.toNat ∧
      r.position + width.toNat ≤ 2 ^ 32 - 1 := by
  have hmem := h.class?_stack_iff.mp hclass
  have hposition := h.toNat_stack_slot hmem hindex
  have hfits := h.stack_lt hmem
  have hend := index_mul_add_le hindex width
  refine ⟨⟨t.stackBase + index * width⟩, ?_, hposition, ?_⟩
  · rw [Table.registerOf_of_stack (s := ⟨kind, index⟩) hclass, if_pos hindex]
  · change (t.stackBase + index * width).toNat + width.toNat ≤ _
    omega

/-- In one stack class, slots are as far apart as their indices. -/
theorem exists_stack_slots (h : d.Built t)
    (hclass : t.class? kind = some ⟨kind, className, .stack width limit⟩) {i j : UInt32}
    (hle : i ≤ j) (hlt : j < limit) :
    ∃ r r', t.registerOf ⟨kind, i⟩ = .ok r ∧ t.registerOf ⟨kind, j⟩ = .ok r' ∧
      r'.position = r.position + (j.toNat - i.toNat) * width.toNat := by
  obtain ⟨r, hr, hposition, -⟩ := h.exists_stack_slot hclass (UInt32.lt_of_le_of_lt hle hlt)
  obtain ⟨r', hr', hposition', -⟩ := h.exists_stack_slot hclass hlt
  refine ⟨r, r', hr, hr', ?_⟩
  have hindices := UInt32.le_iff_toNat_le.mp hle
  rw [hposition, hposition', Nat.add_assoc, ← Nat.add_mul, Nat.add_sub_cancel' hindices]

theorem stack_index_eq (h : d.Built t)
    (hclass : t.class? kind = some ⟨kind, className, .stack width limit⟩) {i j : UInt32}
    {r : Register} (hi : t.registerOf ⟨kind, i⟩ = .ok r) (hj : t.registerOf ⟨kind, j⟩ = .ok r) :
    i = j := by
  have hmem := h.class?_stack_iff.mp hclass
  obtain ⟨-, hposition⟩ := (h.registerOf_stack_iff hmem).mp hi
  obtain ⟨-, hposition'⟩ := (h.registerOf_stack_iff hmem).mp hj
  have hwidth := (h.stack_of_mem (Table.mem_of_class? hclass) rfl).1
  have hsums := Nat.add_left_cancel (hposition.symm.trans hposition')
  exact UInt32.toNat_inj.mp (Nat.eq_of_mul_eq_mul_right (UInt32.lt_iff_toNat_lt.mp hwidth) hsums)

end Stack

/-! ## Registers below the stack -/

variable {s : Storage} {r : Register}

theorem register_lt_of_inRegisters (h : d.Built t) (hsize : t.names.length < 2 ^ 32)
    (hs : t.InRegisters s) (hr : t.registerOf s = .ok r) : r.number < t.registerCount := by
  rcases Table.registerOf_eq_ok_iff.mp hr with
    ⟨_, _, _, _, -, -, hslot⟩ | ⟨className, width, limit, hclass, -⟩
  · exact h.register?_lt hsize hslot
  · exact absurd ⟨className, width, limit, hclass⟩ hs.not_onStack

theorem registerCount_le_of_onStack (h : d.Built t) (hs : t.OnStack s)
    (hr : t.registerOf s = .ok r) : t.registerCount ≤ r.number := by
  obtain ⟨className, width, limit, hclass⟩ := hs
  have hmem := h.class?_stack_iff.mp hclass
  obtain ⟨-, hposition⟩ := (h.registerOf_stack_iff hmem).mp hr
  have hbase := UInt32.le_iff_toNat_le.mp h.registerCount_le_stackBase
  rw [UInt32.le_iff_toNat_le]
  omega

/-- Two storages that resolve to one number are one storage, unless they lie in two stack
classes. -/
theorem eq_or_onStack_of_registerOf (h : d.Built t) (hsize : t.Addressable) {a b : Storage}
    (ha : t.registerOf a = .ok r) (hb : t.registerOf b = .ok r) :
    a = b ∨ (a.kind ≠ b.kind ∧ t.OnStack a ∧ t.OnStack b) := by
  rcases Table.registerOf_eq_ok_iff.mp ha with
    ⟨name, base, count, width, hclass, hindex, hslot⟩ | ⟨name, width, limit, hclass, -⟩ <;>
  rcases Table.registerOf_eq_ok_iff.mp hb with
    ⟨name', base', count', width', hclass', hindex', hslot'⟩ | ⟨name', width', limit', hclass', -⟩
  · have hslots := h.register?_inj hsize.names_lt hslot hslot'
    exact .inl (h.eq_of_low_slot_eq hsize.slots_lt hclass hclass' hindex hindex'
      (congrArg VMSlot.number hslots))
  · have hlt := h.register?_lt hsize.names_lt hslot
    have hle := h.registerCount_le_of_onStack ⟨name', width', limit', hclass'⟩ hb
    exact absurd hlt (UInt32.not_lt.mpr hle)
  · have hlt := h.register?_lt hsize.names_lt hslot'
    have hle := h.registerCount_le_of_onStack ⟨name, width, limit, hclass⟩ ha
    exact absurd hlt (UInt32.not_lt.mpr hle)
  · by_cases hkind : a.kind = b.kind
    · obtain ⟨kind, i⟩ := a
      obtain ⟨kind', j⟩ := b
      obtain rfl : kind = kind' := hkind
      exact .inl (congrArg (Storage.mk kind) (h.stack_index_eq hclass ha hb))
    · exact .inr ⟨hkind, ⟨name, width, limit, hclass⟩, ⟨name', width', limit', hclass'⟩⟩

end Description.Built

/-! ## A table with all of its stack in use -/

/-- The first stack class ends at the last number, and the second one shares the stack with
it. -/
def fullStackSteps : List Description.Step :=
  [.registerClass 0 "gpr" ["A", "B"] ["", "_H"], .stackClass 1 "stack" 2 0x7FFFFFFD,
    .stackClass 2 "wide" 3 5, .framePointer "B" true, .stackBase 5]

def fullStackTable : Table where
  name := "full"
  classes := [⟨0, "gpr", .registers 0 2 2⟩, ⟨1, "stack", .stack 2 0x7FFFFFFD⟩,
    ⟨2, "wide", .stack 3 5⟩]
  slots := [some ⟨0⟩, some ⟨1⟩, some ⟨2⟩, some ⟨3⟩]
  names := ["A", "A_H", "B", "B_H"]
  framePointer := ⟨2⟩
  framePaired := true
  stackBase := 5

theorem build_fullStack :
    (Description.ofSteps "full" fullStackSteps).build = .ok fullStackTable := rfl

theorem addressable_fullStackTable : fullStackTable.Addressable :=
  ⟨by decide, by decide⟩

/-! ## Exact numbers -/

/-- The sums of the mapping, taken without a bound, are the numbers that the machine words
hold, and each is on its side of the register count. -/
structure Table.ExactNumbers (t : Table) : Prop where
  slot_exact : ∀ c ∈ t.classes, ∀ base count width, c.layout = .registers base count width →
    ∀ index < count, ∃ slot, t.slotOf ⟨c.kind, index⟩ = .ok slot ∧
      slot.number.toNat = base.toNat + index.toNat * width.toNat
  slot_lt : ∀ c ∈ t.classes, ∀ base count width, c.layout = .registers base count width →
    ∀ index < count, ∀ j < width,
      base.toNat + index.toNat * width.toNat + j.toNat < t.slotCount.toNat
  stack_exact : ∀ c ∈ t.classes, ∀ width limit, c.layout = .stack width limit →
    ∀ index < limit, ∃ r, t.registerOf ⟨c.kind, index⟩ = .ok r ∧
      r.position = t.stackBase.toNat + index.toNat * width.toNat
  stack_le : ∀ c ∈ t.classes, ∀ width limit, c.layout = .stack width limit →
    ∀ index < limit,
      t.stackBase.toNat + index.toNat * width.toNat + width.toNat ≤ 2 ^ 32 - 1
  framePair_exact : t.framePaired = true →
    t.framePointer.next.position = t.framePointer.position + 1
  register_lt : ∀ s r, t.InRegisters s → t.registerOf s = .ok r → r.number < t.registerCount
  registerCount_le : ∀ s r, t.OnStack s → t.registerOf s = .ok r → t.registerCount ≤ r.number

/-- No sum of a built table's numbers wraps around, and neither does the 64-bit sum that
decided it, whatever the 32-bit numbers in it. -/
theorem exactNumbers_of_build {d : Description} {t : Table} (hbuild : d.build = .ok t)
    (hsize : t.Addressable) :
    t.ExactNumbers ∧ ∀ stackBase limit width : UInt32,
      (limit.toUInt64 * width.toUInt64 + stackBase.toUInt64).toNat =
        limit.toNat * width.toNat + stackBase.toNat ∧
      ∀ kind className, Description.stackFits stackBase ⟨kind, className, .stack width limit⟩ ↔
        limit.toNat * width.toNat + stackBase.toNat ≤ 2 ^ 32 - 1 := by
  have h := Description.build_eq_ok_iff.mp hbuild
  have hslots := hsize.slots_lt
  refine ⟨⟨?_, ?_, ?_, ?_, ?_, ?_, ?_⟩, ?_⟩
  · rintro ⟨kind, className, _⟩ hc base count width rfl index hindex
    have hclass := h.class?_of_mem hc
    exact ⟨_, Table.slotOf_of_registers (s := ⟨kind, index⟩) hclass hindex,
      h.toNat_low_slot hslots hclass hindex⟩
  · rintro ⟨kind, className, _⟩ hc base count width rfl index hindex j hj
    have hend := h.slots_of_register_le hslots (h.class?_of_mem hc) hindex
    have hlt := UInt32.lt_iff_toNat_lt.mp hj
    rw [Table.toNat_slotCount hslots]
    omega
  · rintro ⟨kind, className, _⟩ hc width limit rfl index hindex
    obtain ⟨r, hr, hposition, -⟩ := h.exists_stack_slot (h.class?_of_mem hc) hindex
    exact ⟨r, hr, hposition⟩
  · rintro ⟨kind, className, _⟩ hc width limit rfl index hindex
    obtain ⟨r, -, hposition, hend⟩ := h.exists_stack_slot (h.class?_of_mem hc) hindex
    rwa [hposition] at hend
  · intro hpaired
    exact (h.framePair_lt hsize.names_lt hpaired).2
  · intro s r hs hr
    exact h.register_lt_of_inRegisters hsize.names_lt hs hr
  · intro s r hs hr
    exact h.registerCount_le_of_onStack hs hr
  · intro stackBase limit width
    refine ⟨Description.toNat_mul_add_toUInt64 limit width stackBase, ?_⟩
    intro kind className
    rw [Description.stackFits_stack_iff]
    omega

/-- The last stack slot and the one before it have the last numbers that fit, and with one
index more the stack would not. -/
theorem exactNumbers_fullStack :
    (Description.ofSteps "full" fullStackSteps).build = .ok fullStackTable ∧
      fullStackTable.Addressable ∧ fullStackTable.ExactNumbers ∧
      (∃ r, fullStackTable.registerOf ⟨1, 0x7FFFFFFC⟩ = .ok r ∧ r.position = 2 ^ 32 - 3) ∧
      Description.stackFits 5 ⟨1, "stack", .stack 2 0x7FFFFFFD⟩ ∧
      ¬ Description.stackFits 5 ⟨1, "stack", .stack 2 0x7FFFFFFE⟩ := by
  obtain ⟨hexact, hsum⟩ := exactNumbers_of_build build_fullStack addressable_fullStackTable
  have hstack : ⟨1, "stack", .stack 2 0x7FFFFFFD⟩ ∈ fullStackTable.classes := by
    simp [fullStackTable]
  refine ⟨build_fullStack, addressable_fullStackTable, hexact, ?_, ?_, ?_⟩
  · exact hexact.stack_exact _ hstack 2 0x7FFFFFFD rfl 0x7FFFFFFC (by decide)
  · exact ((hsum 5 0x7FFFFFFD 2).2 1 "stack").mpr (by decide)
  · rw [(hsum 5 0x7FFFFFFE 2).2 1 "stack"]
    decide

/-! ## Separate storages -/

/-- Storages of registers have a number to themselves, and so have storages of one stack
class. The numbers of slots and names have to be exact only where registers come in. -/
structure Table.Separates (t : Table) : Prop where
  shared : t.Addressable → ∀ a b r, t.registerOf a = .ok r → t.registerOf b = .ok r →
    a = b ∨ (a.kind ≠ b.kind ∧ t.OnStack a ∧ t.OnStack b)
  registers_unique : t.Addressable → ∀ a b r, t.InRegisters a →
    t.registerOf a = .ok r → t.registerOf b = .ok r → a = b
  stack_unique : ∀ kind i j r, t.OnStack ⟨kind, i⟩ →
    t.registerOf ⟨kind, i⟩ = .ok r → t.registerOf ⟨kind, j⟩ = .ok r → i = j
  stack_distance : ∀ kind className width limit,
    t.class? kind = some ⟨kind, className, .stack width limit⟩ → ∀ i j, i ≤ j → j < limit →
    ∃ r r', t.registerOf ⟨kind, i⟩ = .ok r ∧ t.registerOf ⟨kind, j⟩ = .ok r' ∧
      r'.position = r.position + (j.toNat - i.toNat) * width.toNat

theorem separates_of_build {d : Description} {t : Table} (hbuild : d.build = .ok t) :
    t.Separates := by
  have h := Description.build_eq_ok_iff.mp hbuild
  refine ⟨?_, ?_, ?_, ?_⟩
  · intro hsize a b r ha hb
    exact h.eq_or_onStack_of_registerOf hsize ha hb
  · intro hsize a b r hs ha hb
    rcases h.eq_or_onStack_of_registerOf hsize ha hb with heq | ⟨-, hstack, -⟩
    · exact heq
    · exact absurd hstack hs.not_onStack
  · rintro kind i j r ⟨className, width, limit, hclass⟩ hi hj
    exact h.stack_index_eq hclass hi hj
  · intro kind className width limit hclass i j hle hlt
    exact h.exists_stack_slots hclass hle hlt

/-- A stack slot may belong to two classes, and neighbours in one class are its width apart. -/
theorem separates_fullStack :
    (Description.ofSteps "full" fullStackSteps).build = .ok fullStackTable ∧
      fullStackTable.Addressable ∧ fullStackTable.Separates ∧
      fullStackTable.registerOf ⟨1, 3⟩ = .ok ⟨11⟩ ∧ fullStackTable.registerOf ⟨2, 2⟩ = .ok ⟨11⟩ ∧
      fullStackTable.OnStack ⟨1, 3⟩ ∧ fullStackTable.OnStack ⟨2, 2⟩ ∧
      ∃ r r', fullStackTable.registerOf ⟨1, 3⟩ = .ok r ∧
        fullStackTable.registerOf ⟨1, 4⟩ = .ok r' ∧ r'.position = r.position + 2 := by
  have hseparates := separates_of_build build_fullStack
  have hstack : fullStackTable.registerOf ⟨1, 3⟩ = .ok ⟨11⟩ := rfl
  have hwide : fullStackTable.registerOf ⟨2, 2⟩ = .ok ⟨11⟩ := rfl
  have hshared := hseparates.shared addressable_fullStackTable _ _ _ hstack hwide
  obtain heq | ⟨-, hon, hon'⟩ := hshared
  · cases heq
  · exact ⟨build_fullStack, addressable_fullStackTable, hseparates, hstack, hwide, hon, hon',
      hseparates.stack_distance 1 "stack" 2 0x7FFFFFFD rfl 3 4 (by decide) (by decide)⟩

end ForeignCall
