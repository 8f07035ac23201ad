import ForeignCall.Proofs.Table.Slots

/-! # The two numberings of a table

A slot and a register belong together when they have one name. Distinct names on both
sides make the slot map a partial bijection and name look-up an inverse of naming. -/

namespace ForeignCall

/-! ## Places in an order -/

theorem idxOf?_eq_some_iff_of_nodup {order : List String} (hnodup : order.Nodup) {name : String}
    {i : Nat} : order.idxOf? name = some i ↔ order[i]? = some name := by
  constructor
  · intro h
    obtain ⟨hlt, hname, -⟩ := List.idxOf?_eq_some_iff.mp h
    rw [List.getElem?_eq_getElem hlt, hname]
  · intro h
    obtain ⟨hlt, hname⟩ := List.getElem?_eq_some_iff.mp h
    refine List.idxOf?_eq_some_iff.mpr ⟨hlt, hname, ?_⟩
    intro j hj heq
    have hij := (List.getElem?_inj hlt hnodup (j := j)).mp (by
      rw [List.getElem?_eq_getElem hlt, List.getElem?_eq_getElem (by omega), heq, hname])
    omega

theorem registerNamed?_eq_none_iff {order : List String} {name : String} :
    registerNamed? order name = none ↔ name ∉ order := by
  rw [registerNamed?, Option.map_eq_none_iff, List.idxOf?_eq_none_iff]

/-- In an order without repetitions whose places fit into 32 bits, a name's register is
its place. -/
theorem registerNamed?_eq_some_iff {order : List String} (hnodup : order.Nodup)
    (hsize : order.length < 2 ^ 32) {name : String} {r : Register} :
    registerNamed? order name = some r ↔ order[r.position]? = some name := by
  rw [registerNamed?, Option.map_eq_some_iff]
  constructor
  · rintro ⟨i, hi, rfl⟩
    rw [idxOf?_eq_some_iff_of_nodup hnodup] at hi
    obtain ⟨hlt, -⟩ := List.getElem?_eq_some_iff.mp hi
    rwa [Register.position_ofNat (by omega)]
  · intro h
    exact ⟨r.position, (idxOf?_eq_some_iff_of_nodup hnodup).mpr h, r.ofNat_position⟩

/-- The numbers of slots and of registers fit into 32 bits, so that both counts are exact. -/
structure Table.Addressable (t : Table) : Prop where
  slots_lt : t.slots.length < 2 ^ 32
  names_lt : t.names.length < 2 ^ 32

theorem Table.toNat_registerCount {t : Table} (hsize : t.names.length < 2 ^ 32) :
    t.registerCount.toNat = t.names.length :=
  toNat_toUInt32_of_lt hsize

theorem Table.toNat_slotCount {t : Table} (hsize : t.slots.length < 2 ^ 32) :
    t.slotCount.toNat = t.slots.length :=
  toNat_toUInt32_of_lt hsize

/-- A register is one of the table's own exactly when it has a name. -/
theorem Table.lt_registerCount_iff {t : Table} (hsize : t.names.length < 2 ^ 32) {r : Register} :
    r.number < t.registerCount ↔ ∃ name, t.registerName? r = some name := by
  rw [UInt32.lt_iff_toNat_lt, toNat_registerCount hsize, registerName?]
  constructor
  · intro h
    exact ⟨_, List.getElem?_eq_getElem h⟩
  · rintro ⟨name, h⟩
    exact (List.getElem?_eq_some_iff.mp h).1

namespace Description.Built

variable {d : Description} {t : Table}

/-! ## Names and registers -/

theorem lookup?_eq_some_iff (h : d.Built t) (hsize : t.names.length < 2 ^ 32) {name : String}
    {r : Register} : t.lookup? name = some r ↔ t.registerName? r = some name := by
  rw [h.names_eq] at hsize
  rw [Table.lookup?, Table.registerName?, h.names_eq]
  exact registerNamed?_eq_some_iff h.order_nodup hsize

/-- The order's places are the registers that have its names. -/
theorem idxOf?_effectiveOrder_iff (h : d.Built t) {name : String} {r : Register} :
    d.effectiveOrder.idxOf? name = some r.position ↔ t.registerName? r = some name := by
  rw [Table.registerName?, h.names_eq]
  exact idxOf?_eq_some_iff_of_nodup h.order_nodup

/-- The order's names are the names of registers. -/
theorem mem_effectiveOrder_iff (h : d.Built t) (hsize : t.names.length < 2 ^ 32) {name : String} :
    name ∈ d.effectiveOrder ↔ ∃ r, t.registerName? r = some name := by
  rw [h.names_eq] at hsize
  rw [List.mem_iff_getElem?, ← h.names_eq]
  constructor
  · rintro ⟨i, hi⟩
    obtain ⟨hlt, -⟩ := List.getElem?_eq_some_iff.mp hi
    rw [h.names_eq] at hlt
    refine ⟨Register.ofNat i, ?_⟩
    rwa [Table.registerName?, Register.position_ofNat (by omega)]
  · rintro ⟨r, hr⟩
    exact ⟨r.position, hr⟩

theorem names_nodup (h : d.Built t) : t.names.Nodup :=
  h.names_eq ▸ h.order_nodup

/-! ## The frame pointer -/

theorem framePointer_lt (h : d.Built t) (hsize : t.names.length < 2 ^ 32) :
    t.framePointer.number < t.registerCount := by
  obtain ⟨name, -, hregister, -⟩ := locateFramePointer_eq_ok_iff.mp h.framePointer_located
  rw [← h.names_eq] at hregister
  exact (Table.lt_registerCount_iff hsize).mpr
    ⟨name, (h.lookup?_eq_some_iff hsize).mp hregister⟩

/-- The second half of a paired frame pointer is a register, and its number is exact. -/
theorem framePair_lt (h : d.Built t) (hsize : t.names.length < 2 ^ 32)
    (hpaired : t.framePaired = true) :
    t.framePointer.position + 1 < t.registerCount.toNat ∧
      t.framePointer.next.position = t.framePointer.position + 1 := by
  obtain ⟨name, -, -, hroom⟩ := locateFramePointer_eq_ok_iff.mp h.framePointer_located
  have hlt : t.framePointer.position < t.registerCount.toNat :=
    UInt32.lt_iff_toNat_lt.mp (h.framePointer_lt hsize)
  have hcount := t.registerCount.toNat_lt
  have hnext := Register.position_next (r := t.framePointer) (by omega)
  refine ⟨?_, hnext⟩
  have hpair := UInt32.lt_iff_toNat_lt.mp (hroom hpaired)
  rw [← hnext, Table.registerCount, h.names_eq]
  exact hpair

theorem next_lt (h : d.Built t) (hsize : t.names.length < 2 ^ 32) (hpaired : t.framePaired = true) :
    t.framePointer.next.number < t.registerCount := by
  obtain ⟨hlt, hnext⟩ := h.framePair_lt hsize hpaired
  rw [UInt32.lt_iff_toNat_lt]
  change t.framePointer.next.position < _
  rwa [hnext]

/-! ## Slots and registers -/

theorem length_slots (h : d.Built t) : t.slots.length = d.slotNames.length := by
  rw [h.slots_eq, List.length_map]

theorem register?_eq (h : d.Built t) (slot : VMSlot) :
    t.register? slot =
      (d.slotNames[slot.number.toNat]?).bind (registerNamed? d.effectiveOrder) := by
  rw [Table.register?, h.slots_eq, List.getElem?_map]
  cases d.slotNames[slot.number.toNat]? with
  | none => rfl
  | some name => rfl

/-- A slot stands for the register that has its name. -/
theorem register?_eq_some_iff (h : d.Built t) (hsize : t.names.length < 2 ^ 32) {slot : VMSlot}
    {r : Register} :
    t.register? slot = some r ↔
      ∃ name, d.slotNames[slot.number.toNat]? = some name ∧ t.registerName? r = some name := by
  rw [h.register?_eq, Option.bind_eq_some_iff]
  simp only [← h.lookup?_eq_some_iff hsize, Table.lookup?, h.names_eq]

theorem register?_lt (h : d.Built t) (hsize : t.names.length < 2 ^ 32) {slot : VMSlot}
    {r : Register} (hr : t.register? slot = some r) : r.number < t.registerCount := by
  obtain ⟨name, -, hname⟩ := (h.register?_eq_some_iff hsize).mp hr
  exact (Table.lt_registerCount_iff hsize).mpr ⟨name, hname⟩

theorem slotNames_nodup (h : d.Built t) : d.slotNames.Nodup :=
  (List.nodup_append.mp h.knownNames_nodup).1

/-- No two slots stand for one register. -/
theorem register?_inj (h : d.Built t) (hsize : t.names.length < 2 ^ 32) {a b : VMSlot}
    {r : Register} (ha : t.register? a = some r) (hb : t.register? b = some r) : a = b := by
  obtain ⟨name, hslotA, hnameA⟩ := (h.register?_eq_some_iff hsize).mp ha
  obtain ⟨name', hslotB, hnameB⟩ := (h.register?_eq_some_iff hsize).mp hb
  obtain rfl : name = name' := Option.some.inj (hnameA.symm.trans hnameB)
  obtain ⟨hlt, -⟩ := List.getElem?_eq_some_iff.mp hslotA
  have hnumber := (List.getElem?_inj hlt h.slotNames_nodup).mp (hslotA.trans hslotB.symm)
  cases a
  cases b
  exact congrArg VMSlot.mk (UInt32.toNat_inj.mp hnumber)

theorem register?_eq_none_of_slotCount_le (h : d.Built t) (hsize : t.slots.length < 2 ^ 32)
    {slot : VMSlot} (hslot : t.slotCount ≤ slot.number) : t.register? slot = none := by
  rw [UInt32.le_iff_toNat_le, Table.toNat_slotCount hsize, h.length_slots] at hslot
  rw [h.register?_eq, List.getElem?_eq_none hslot]
  rfl

/-- The registers that no slot stands for are those that only the allocator names. -/
theorem slotless_iff (h : d.Built t) (hsize : t.Addressable) {r : Register} :
    (r.number < t.registerCount ∧ ∀ slot, t.register? slot ≠ some r) ↔
      ∃ name ∈ d.allocatorOnly, name ∈ d.effectiveOrder ∧ t.registerName? r = some name := by
  have hnames := hsize.names_lt
  have hslots := hsize.slots_lt
  rw [h.length_slots] at hslots
  have hdisjoint := (List.nodup_append.mp h.knownNames_nodup).2.2
  constructor
  · rintro ⟨hlt, hslotless⟩
    obtain ⟨name, hname⟩ := (Table.lt_registerCount_iff hnames).mp hlt
    have hmem := (h.mem_effectiveOrder_iff hnames).mpr ⟨r, hname⟩
    refine ⟨name, ?_, hmem, hname⟩
    rcases List.mem_append.mp (h.order_known name hmem) with hslot | honly
    · obtain ⟨k, hk⟩ := List.mem_iff_getElem?.mp hslot
      obtain ⟨hklt, -⟩ := List.getElem?_eq_some_iff.mp hk
      obtain ⟨slot, rfl⟩ := VMSlot.exists_number (n := k) (by omega)
      exact absurd ((h.register?_eq_some_iff hnames).mpr ⟨name, hk, hname⟩) (hslotless slot)
    · exact honly
  · rintro ⟨name, honly, -, hname⟩
    refine ⟨(Table.lt_registerCount_iff hnames).mpr ⟨name, hname⟩, ?_⟩
    intro slot hslot
    obtain ⟨name', hslotName, hname'⟩ := (h.register?_eq_some_iff hnames).mp hslot
    obtain rfl : name = name' := Option.some.inj (hname.symm.trans hname')
    exact hdisjoint name (List.mem_of_getElem? hslotName) name honly rfl

theorem register?_eq_none_iff (h : d.Built t) {slot : VMSlot} {name : String}
    (hslot : d.slotNames[slot.number.toNat]? = some name) :
    t.register? slot = none ↔ name ∉ d.effectiveOrder := by
  rw [h.register?_eq, hslot]
  exact registerNamed?_eq_none_iff

theorem register?_eq_some_iff_of_slotName (h : d.Built t) (hsize : t.names.length < 2 ^ 32)
    {slot : VMSlot} {name : String} (hslot : d.slotNames[slot.number.toNat]? = some name)
    {r : Register} : t.register? slot = some r ↔ t.registerName? r = some name := by
  rw [h.register?_eq_some_iff hsize, hslot]
  simp

end Description.Built

/-! ## The contract of a table's numberings -/

/-- Register classes take consecutive blocks of slots, in the order of their description;
a slot and a register belong together by name; look-up is the inverse of naming. -/
structure Description.NumberingSpec (d : Description) (t : Table) : Prop where
  kinds_eq : t.classes.map StorageClass.kind = d.classes.map ClassDescription.kind
  tiles : Tiles 0 (t.classes.filterMap StorageClass.block?) t.slotCount.toNat
  slot_of_class : ∀ {kind className names suffixes},
    ⟨kind, className, .registers names suffixes⟩ ∈ d.classes →
    ∃ base count width,
      t.class? kind = some ⟨kind, className, .registers base count width⟩ ∧
      count.toNat = names.length ∧ (names ≠ [] → width.toNat = suffixes.length) ∧
      ∀ {i j name suffix}, names[i]? = some name → suffixes[j]? = some suffix →
        ∃ slot : VMSlot, slot.number.toNat = base.toNat + i * width.toNat + j ∧
          slot.number < t.slotCount ∧
          (∀ r, t.register? slot = some r ↔ t.registerName? r = some (name ++ suffix)) ∧
          (t.register? slot = none ↔ name ++ suffix ∉ d.effectiveOrder)
  no_slot_beyond : ∀ slot, t.slotCount ≤ slot.number → t.register? slot = none
  slot_unique : ∀ a b r, t.register? a = some r → t.register? b = some r → a = b
  slotless_iff : ∀ r, (r.number < t.registerCount ∧ ∀ slot, t.register? slot ≠ some r) ↔
    ∃ name ∈ d.allocatorOnly, name ∈ d.effectiveOrder ∧ t.registerName? r = some name
  lookup_iff : ∀ name r, t.lookup? name = some r ↔ t.registerName? r = some name

theorem build_numbering {d : Description} {t : Table} (hbuild : d.build = .ok t)
    (hsize : t.Addressable) : d.NumberingSpec t := by
  have h := Description.build_eq_ok_iff.mp hbuild
  have hnames := hsize.names_lt
  have hslots := hsize.slots_lt
  refine ⟨?_, ?_, ?_, ?_, ?_, ?_, ?_⟩
  · rw [h.classes_eq, map_kind_assignSlots]
  · have htaken : slotsTaken d.classes = t.slots.length := h.length_slots.symm
    have htiles := tiles_assignSlots 0 d.classes h.classes_sound (by omega)
    rwa [Nat.zero_add, htaken, ← h.classes_eq, ← Table.toNat_slotCount hslots] at htiles
  · intro kind className names suffixes hmem
    obtain ⟨base, count, width, hclass, hblock⟩ := h.exists_registerBlock hslots hmem
    refine ⟨base, count, width, hclass, hblock.count_eq, hblock.width_eq, ?_⟩
    intro i j name suffix hname hsuffix
    have hslot := hblock.slot_name hname hsuffix
    obtain ⟨hlt, -⟩ := List.getElem?_eq_some_iff.mp hslot
    rw [← h.length_slots] at hlt
    obtain ⟨slot, hnumber⟩ := VMSlot.exists_number (n := base.toNat + i * width.toNat + j)
      (by omega)
    rw [← hnumber] at hslot
    refine ⟨slot, hnumber, ?_, ?_, h.register?_eq_none_iff hslot⟩
    · rwa [UInt32.lt_iff_toNat_lt, hnumber, Table.toNat_slotCount hslots]
    · intro r
      exact h.register?_eq_some_iff_of_slotName hnames hslot
  · intro slot hslot
    exact h.register?_eq_none_of_slotCount_le hslots hslot
  · intro a b r ha hb
    exact h.register?_inj hnames ha hb
  · intro r
    exact h.slotless_iff hsize
  · intro name r
    exact h.lookup?_eq_some_iff hnames

/-! ## A description that leaves slots out -/

/-- Steps whose order leaves two register halves and a whole register out. -/
def sampleSteps : List Description.Step :=
  [.registerClass 0 "gpr" ["A", "B", "C"] ["", "_H"], .registerClass 5 "none" [] ["x"],
    .stackClass 2 "stack" 2 8, .registerClass 1 "vec" ["V0", "V1"] [""],
    .allocatorOnly ["FLAGS", "PC"], .order ["V1", "B", "FLAGS"], .framePointer "B" true,
    .order ["A_H", "A", "B_H"], .framePointer "A_H" true]

def sampleTable : Table where
  name := "sample"
  classes := [⟨0, "gpr", .registers 0 3 2⟩, ⟨5, "none", .registers 6 0 1⟩,
    ⟨2, "stack", .stack 2 8⟩, ⟨1, "vec", .registers 6 2 1⟩]
  slots := [some ⟨4⟩, some ⟨3⟩, some ⟨1⟩, some ⟨5⟩, none, none, none, some ⟨0⟩]
  names := ["V1", "B", "FLAGS", "A_H", "A", "B_H"]
  framePointer := ⟨3⟩
  framePaired := true
  stackBase := 6

theorem build_sample : (Description.ofSteps "sample" sampleSteps).build = .ok sampleTable := rfl

theorem addressable_sampleTable : sampleTable.Addressable :=
  ⟨by decide, by decide⟩

theorem numbering_sample :
    (Description.ofSteps "sample" sampleSteps).build = .ok sampleTable ∧
      sampleTable.Addressable ∧
      (Description.ofSteps "sample" sampleSteps).NumberingSpec sampleTable :=
  ⟨build_sample, addressable_sampleTable, build_numbering build_sample addressable_sampleTable⟩

end ForeignCall
