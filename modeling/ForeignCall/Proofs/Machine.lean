import ForeignCall.Machine
import ForeignCall.Proofs.Table.Numbering
import ForeignCall.Proofs.Table.SlotNames

/-! # The machines' tables

Each machine's description is consistent: its registers have names of their own, each of
them is in the allocation order once, and the frame pointer is followed by its second half.
So every machine has a table. -/

namespace ForeignCall

/-- What the tables of all machines have in common: they are built, and their numbers stay
below the sign bit. -/
structure Table.OfMachine (t : Table) : Prop where
  built : ∃ d : Description, d.Built t
  names_lt : t.names.length < 2 ^ 32
  kinds_le : ∀ c ∈ t.classes, c.kind.toNat ≤ 2 ^ 31 - 1

/-- Numbers that are small in a description are small in the table that is built from it. -/
theorem Description.Built.exists_ofMachine {d : Description} {t : Table} (h : d.Built t)
    (hsize : d.effectiveOrder.length < 2 ^ 32)
    (hkinds : ∀ c ∈ d.classes, c.kind.toNat ≤ 2 ^ 31 - 1) :
    ∃ t, d.build.toOption = some t ∧ t.name = d.name ∧ t.OfMachine := by
  refine ⟨t, by rw [build_eq_ok_iff.mpr h, Except.toOption], h.name_eq, ⟨d, h⟩, ?_, ?_⟩
  · rwa [h.names_eq]
  · intro c hc
    rw [h.classes_eq] at hc
    obtain ⟨before, described, after, hsplit, rfl⟩ := mem_assignSlots_iff.mp hc
    apply hkinds described
    simp [hsplit]

/-! ## 64-bit x86 -/

namespace X86

def maskNames : List String :=
  ["K7", "K6", "K5", "K4", "K3", "K2", "K1"]

def blocks : List SlotBlock :=
  [⟨Gpr.all.map Gpr.tableName, gprSuffixes⟩, ⟨vectorNames, vectorSuffixes⟩,
    ⟨maskNames, gprSuffixes⟩, ⟨["RFLAGS"], [""]⟩]

theorem classes_eq : description.classes =
    [⟨integerKind, "integer", .registers (Gpr.all.map Gpr.tableName) gprSuffixes⟩,
      ⟨vectorKind, "vector", .registers vectorNames vectorSuffixes⟩,
      ⟨x87Kind, "x87", .registers [] gprSuffixes⟩,
      ⟨stackKind, "stack", .stack 2 stackLimit⟩] :=
  Description.classes_ofSteps _ _

theorem allocatorOnly_eq : description.allocatorOnly = [maskSlots, ["RFLAGS"]].flatten :=
  Description.allocatorOnly_ofSteps _ _

theorem order_eq : description.order =
    [⟨gprOrder.map Gpr.tableName, gprSuffixes⟩, ⟨vectorNames, vectorSuffixes⟩,
      ⟨maskNames, gprSuffixes⟩, ⟨["RFLAGS"], [""]⟩].flatMap SlotBlock.slots :=
  Description.order_ofSteps _ _

theorem knownNames_eq : description.knownNames = blocks.flatMap SlotBlock.slots := by
  rw [Description.knownNames, Description.slotNames, classes_eq, allocatorOnly_eq]
  simp only [blocks, List.flatMap_cons, List.flatMap_nil, List.append_nil, List.append_assoc,
    ClassDescription.slotNames]
  rfl

theorem effectiveOrder_eq : description.effectiveOrder =
    slotNames (gprOrder.map Gpr.tableName) gprSuffixes ++
      [⟨vectorNames, vectorSuffixes⟩, ⟨maskNames, gprSuffixes⟩,
        ⟨["RFLAGS"], [""]⟩].flatMap SlotBlock.slots := by
  rw [Description.effectiveOrder_of_ne_nil, order_eq, List.flatMap_cons, SlotBlock.slots]
  rw [order_eq]
  exact List.cons_ne_nil _ _

theorem perm_gprOrder : gprOrder.Perm Gpr.all := by
  decide

theorem readable_blocks : ∀ b ∈ blocks, b.Readable := by
  intro b hb
  simp only [blocks, List.mem_cons, List.not_mem_nil, or_false] at hb
  obtain rfl | rfl | rfl | rfl := hb
  · constructor <;> decide
  · exact ⟨fun _ => isStem_of_mem_numbered (by decide), by decide, by decide⟩
  · constructor <;> decide
  · constructor <;> decide

/-- The vector registers are the only ones called `XMM`. -/
theorem nodup_names : (blocks.flatMap SlotBlock.names).Nodup := by
  apply (List.perm_append_comm_assoc _ _ _).nodup_iff.mpr
  apply nodup_numbered_append
  · decide
  · decide

theorem hasBlocks : description.HasBlocks blocks := by
  refine ⟨knownNames_eq, readable_blocks, nodup_names, ?_⟩
  rw [effectiveOrder_eq, knownNames_eq]
  exact (perm_slotNames (perm_gprOrder.map _) _).append_right _

theorem registerCount_eq : description.registerCount = 559 := by
  rw [Description.registerCount, hasBlocks.length_order]
  rfl

theorem locateFramePointer_eq : description.locateFramePointer = .ok (⟨30⟩, true) := by
  rw [Description.locateFramePointer_eq_ok_iff]
  refine ⟨Gpr.rsp.tableName, rfl, ?_, ?_⟩
  · rw [registerNamed?_eq_some_iff hasBlocks.order_nodup, effectiveOrder_eq]
    · rfl
    · rw [hasBlocks.length_order]
      decide
  · rw [registerCount_eq]
    decide

theorem firstStackSlot_eq : description.firstStackSlot = 560 := by
  have hnone : description.stackBase = none := rfl
  rw [Description.firstStackSlot, registerCount_eq, hnone]
  rfl

theorem built_table : description.Built (description.toTable ⟨30⟩ true) := by
  apply hasBlocks.built
  · decide
  · decide
  · simp [classes_eq, ClassDescription.Sound, gprSuffixes, vectorSuffixes]
  · rw [registerCount_eq]
    decide
  · exact locateFramePointer_eq
  · rw [registerCount_eq, firstStackSlot_eq]
    decide
  · rw [firstStackSlot_eq, classes_eq]
    decide

theorem exists_table : ∃ t, table? = some t ∧ t.name = platform ∧ t.OfMachine := by
  apply built_table.exists_ofMachine
  · rw [hasBlocks.length_order]
    decide
  · rw [classes_eq]
    decide

end X86

/-! ## 64-bit ARM -/

namespace Arm64

def blocks : List SlotBlock :=
  [⟨numbered "R" 32, gprSuffixes⟩, ⟨numbered "V" 32, vectorSuffixes⟩, ⟨["RFLAGS"], [""]⟩]

theorem classes_eq : description.classes =
    [⟨0, "integer", .registers (numbered "R" 32) gprSuffixes⟩,
      ⟨1, "vector", .registers (numbered "V" 32) vectorSuffixes⟩,
      ⟨3, "stack", .stack 2 65536⟩] :=
  Description.classes_ofSteps _ _

theorem allocatorOnly_eq : description.allocatorOnly = [["RFLAGS"]].flatten :=
  Description.allocatorOnly_ofSteps _ _

theorem order_eq : description.order =
    [⟨gprOrder, gprSuffixes⟩, ⟨vectorOrder, vectorSuffixes⟩,
      ⟨["RFLAGS"], [""]⟩].flatMap SlotBlock.slots :=
  Description.order_ofSteps _ _

theorem knownNames_eq : description.knownNames = blocks.flatMap SlotBlock.slots := by
  rw [Description.knownNames, Description.slotNames, classes_eq, allocatorOnly_eq]
  simp only [blocks, List.flatMap_cons, List.flatMap_nil, List.append_nil, List.append_assoc,
    ClassDescription.slotNames]
  rfl

theorem effectiveOrder_eq : description.effectiveOrder =
    slotNames gprOrder gprSuffixes ++ (slotNames vectorOrder vectorSuffixes ++
      [⟨["RFLAGS"], [""]⟩].flatMap SlotBlock.slots) := by
  rw [Description.effectiveOrder_of_ne_nil, order_eq, List.flatMap_cons, List.flatMap_cons,
    SlotBlock.slots, SlotBlock.slots]
  rw [order_eq]
  exact List.cons_ne_nil _ _

/-- The order begins with other registers, and leaves none out. -/
theorem perm_gprOrder : gprOrder.Perm (numbered "R" 32) := by
  simp only [gprOrder, registers, ← List.map_append]
  exact List.Perm.map _ (by decide)

theorem perm_vectorOrder : vectorOrder.Perm (numbered "V" 32) := by
  simp only [vectorOrder, registers, ← List.map_append]
  exact List.Perm.map _ (by decide)

theorem readable_blocks : ∀ b ∈ blocks, b.Readable := by
  intro b hb
  simp only [blocks, List.mem_cons, List.not_mem_nil, or_false] at hb
  obtain rfl | rfl | rfl := hb
  · exact ⟨fun _ => isStem_of_mem_numbered (by decide), by decide, by decide⟩
  · exact ⟨fun _ => isStem_of_mem_numbered (by decide), by decide, by decide⟩
  · constructor <;> decide

theorem nodup_names : (blocks.flatMap SlotBlock.names).Nodup := by
  apply nodup_numbered_append
  · apply nodup_numbered_append
    · decide
    · decide
  · intro name hname
    rcases List.mem_append.mp hname with hvector | hflags
    · rw [lettersOf_of_mem_numbered hvector]
      decide
    · revert name
      decide

theorem hasBlocks : description.HasBlocks blocks := by
  refine ⟨knownNames_eq, readable_blocks, nodup_names, ?_⟩
  rw [effectiveOrder_eq, knownNames_eq]
  apply (perm_slotNames perm_gprOrder _).append
  exact (perm_slotNames perm_vectorOrder _).append_right _

theorem registerCount_eq : description.registerCount = 193 := by
  rw [Description.registerCount, hasBlocks.length_order]
  rfl

theorem locateFramePointer_eq : description.locateFramePointer = .ok (⟨58⟩, true) := by
  rw [Description.locateFramePointer_eq_ok_iff]
  refine ⟨"R31", rfl, ?_, ?_⟩
  · rw [registerNamed?_eq_some_iff hasBlocks.order_nodup, effectiveOrder_eq]
    · have hplace : gprOrder[29]? = some "R31" := rfl
      have hslot := getElem?_slotNames hplace (rfl : gprSuffixes[0]? = some "")
      rw [List.getElem?_append_left (by decide)]
      exact hslot
    · rw [hasBlocks.length_order]
      decide
  · rw [registerCount_eq]
    decide

theorem firstStackSlot_eq : description.firstStackSlot = 194 := by
  have hnone : description.stackBase = none := rfl
  rw [Description.firstStackSlot, registerCount_eq, hnone]
  rfl

theorem built_table : description.Built (description.toTable ⟨58⟩ true) := by
  apply hasBlocks.built
  · decide
  · decide
  · simp [classes_eq, ClassDescription.Sound, gprSuffixes, vectorSuffixes]
  · rw [registerCount_eq]
    decide
  · exact locateFramePointer_eq
  · rw [registerCount_eq, firstStackSlot_eq]
    decide
  · rw [firstStackSlot_eq, classes_eq]
    decide

theorem exists_table : ∃ t, table? = some t ∧ t.name = platform ∧ t.OfMachine := by
  apply built_table.exists_ofMachine
  · rw [hasBlocks.length_order]
    decide
  · rw [classes_eq]
    decide

end Arm64

/-! ## Machines by name -/

def X86.machineNames : List String :=
  ["x86_64", "amd64", "x64"]

def machineNames : List String :=
  X86.machineNames ++ ["aarch64", "arm64"]

theorem X86.exists_machineTable {name : String} (h : name ∈ X86.machineNames) :
    ∃ t, machineTable? name = some t ∧ t.name = X86.platform ∧ t.OfMachine := by
  simp only [X86.machineNames, List.mem_cons, List.not_mem_nil, or_false] at h
  obtain rfl | rfl | rfl := h <;> exact X86.exists_table

/-- There is a table under each of the names that machines go by. -/
theorem exists_machineTable {name : String} (h : name ∈ machineNames) :
    ∃ t, machineTable? name = some t ∧ t.OfMachine := by
  rcases List.mem_append.mp h with h | h
  · obtain ⟨t, ht, -, hmachine⟩ := X86.exists_machineTable h
    exact ⟨t, ht, hmachine⟩
  · obtain ⟨t, ht, -, hmachine⟩ := Arm64.exists_table
    simp only [List.mem_cons, List.not_mem_nil, or_false] at h
    obtain rfl | rfl := h <;> exact ⟨t, ht, hmachine⟩

/-- There are no other tables. -/
theorem ofMachine_of_machineTable {name : String} {t : Table} (h : machineTable? name = some t) :
    t.OfMachine := by
  have hx86 : X86.table? = some t → t.OfMachine := by
    intro ht
    obtain ⟨t', ht', -, hmachine⟩ := X86.exists_table
    exact Option.some.inj (ht'.symm.trans ht) ▸ hmachine
  have harm64 : Arm64.table? = some t → t.OfMachine := by
    intro ht
    obtain ⟨t', ht', -, hmachine⟩ := Arm64.exists_table
    exact Option.some.inj (ht'.symm.trans ht) ▸ hmachine
  unfold machineTable? at h
  split at h
  exacts [hx86 h, hx86 h, hx86 h, harm64 h, harm64 h, nomatch h]

end ForeignCall
