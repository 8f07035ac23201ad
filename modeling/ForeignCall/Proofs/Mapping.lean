import ForeignCall.Mapping
import ForeignCall.Proofs.Table.Numbering

/-! # What storages resolve to

A storage leads through its class's block to a slot, through the slot's name to a
register, and through a stack class to a stack slot. Both ways are exact: no sum wraps
around, and what the description does not define is refused. -/

namespace ForeignCall

/-! ## Any table -/

namespace Table

theorem kind_of_class? {t : Table} {kind : UInt32} {c : StorageClass}
    (h : t.class? kind = some c) : c.kind = kind := by
  simpa using List.find?_some h

theorem registerOf_of_none {t : Table} {s : Storage} (hclass : t.class? s.kind = none) :
    t.registerOf s = .error (t.undefined s) := by
  simp [registerOf, hclass]

theorem registerOf_of_registers {t : Table} {s : Storage} {kind base count width : UInt32}
    {className : String}
    (hclass : t.class? s.kind = some ⟨kind, className, .registers base count width⟩) :
    t.registerOf s =
      if s.index < count then
        match t.register? ⟨base + s.index * width⟩ with
        | some r => .ok r
        | none => .error (t.undefined s)
      else .error (t.undefined s) := by
  simp only [registerOf, slotOf, hclass]
  split <;> rfl

theorem registerOf_of_stack {t : Table} {s : Storage} {kind width limit : UInt32}
    {className : String} (hclass : t.class? s.kind = some ⟨kind, className, .stack width limit⟩) :
    t.registerOf s =
      if s.index < limit then .ok ⟨t.stackBase + s.index * width⟩ else .error (t.undefined s) := by
  simp only [registerOf, hclass]

/-- The two ways in which a storage resolves. -/
theorem registerOf_eq_ok_iff {t : Table} {s : Storage} {r : Register} :
    t.registerOf s = .ok r ↔
      (∃ className base count width,
        t.class? s.kind = some ⟨s.kind, className, .registers base count width⟩ ∧
        s.index < count ∧ t.register? ⟨base + s.index * width⟩ = some r) ∨
      (∃ className width limit, t.class? s.kind = some ⟨s.kind, className, .stack width limit⟩ ∧
        s.index < limit ∧ r = ⟨t.stackBase + s.index * width⟩) := by
  cases hclass : t.class? s.kind with
  | none => simp [registerOf_of_none hclass]
  | some c =>
      obtain ⟨kind, className, layout⟩ := c
      obtain rfl : kind = s.kind := kind_of_class? hclass
      cases layout with
      | registers base count width =>
          rw [registerOf_of_registers hclass]
          grind
      | stack width limit =>
          rw [registerOf_of_stack hclass]
          grind

/-- Whatever else fails, the storage is reported as undefined. -/
theorem eq_undefined_of_registerOf {t : Table} {s : Storage} {e : Error}
    (h : t.registerOf s = .error e) : e = t.undefined s := by
  cases hclass : t.class? s.kind with
  | none =>
      rw [registerOf_of_none hclass] at h
      grind
  | some c =>
      obtain ⟨kind, className, layout⟩ := c
      cases layout with
      | registers base count width =>
          rw [registerOf_of_registers hclass] at h
          grind
      | stack width limit =>
          rw [registerOf_of_stack hclass] at h
          grind

theorem registerOf_eq_error_iff {t : Table} {s : Storage} :
    t.registerOf s = .error (t.undefined s) ↔ ∀ r, t.registerOf s ≠ .ok r := by
  cases h : t.registerOf s with
  | error e => simp [eq_undefined_of_registerOf h]
  | ok r => simp

end Table

/-! ## Built tables -/

/-- The name of the low slot of a class's register. -/
def lowSlotName? (names suffixes : List String) (index : UInt32) : Option String :=
  (names[index.toNat]?).bind fun name => suffixes.head?.map (name ++ ·)

namespace Description.Built

variable {d : Description} {t : Table}

/-- A stack slot is numbered without wrapping around. -/
theorem toNat_stack_slot (h : d.Built t) {kind width limit index : UInt32} {className : String}
    (hmem : ⟨kind, className, .stack width limit⟩ ∈ d.classes) (hindex : index < limit) :
    (t.stackBase + index * width).toNat = t.stackBase.toNat + index.toNat * width.toNat :=
  toNat_add_mul_of_fits hindex (h.stack_lt hmem)

/-- A stack slot lies past all registers. -/
theorem registerCount_le_stack_slot (h : d.Built t) {kind width limit index : UInt32}
    {className : String} (hmem : ⟨kind, className, .stack width limit⟩ ∈ d.classes)
    (hindex : index < limit) : t.registerCount ≤ t.stackBase + index * width := by
  have hbase := UInt32.le_iff_toNat_le.mp h.registerCount_le_stackBase
  rw [UInt32.le_iff_toNat_le, h.toNat_stack_slot hmem hindex]
  omega

/-- A register storage resolves to what has the name of its low slot, wherever in the table
the slot is. -/
theorem registerOf_eq_of_registers (h : d.Built t) (hsize : t.slots.length < 2 ^ 32)
    {kind : UInt32} {className : String} {names suffixes : List String}
    (hmem : ⟨kind, className, .registers names suffixes⟩ ∈ d.classes) (index : UInt32) :
    t.registerOf ⟨kind, index⟩ =
      match (lowSlotName? names suffixes index).bind t.lookup? with
      | some r => .ok r
      | none => .error (t.undefined ⟨kind, index⟩) := by
  obtain ⟨base, count, width, hclass, hblock⟩ := h.exists_registerBlock hsize hmem
  rw [Table.registerOf_of_registers (s := ⟨kind, index⟩) hclass]
  by_cases hindex : index < count
  · obtain ⟨name, low, hname, hlow, hslot⟩ :=
      hblock.low_slot_name (h.classes_sound _ hmem) (h.length_slots ▸ hsize) hindex
    have hlookup : t.register? ⟨base + index * width⟩ = t.lookup? (name ++ low) := by
      rw [h.register?_eq, hslot, Table.lookup?, h.names_eq]
      rfl
    simp only [hindex, ite_true, hlookup, lowSlotName?, hname, hlow, Option.map_some,
      Option.bind_some]
  · have hnone : names[index.toNat]? = none := by
      rw [List.getElem?_eq_none_iff, ← hblock.count_eq, ← UInt32.le_iff_toNat_le]
      exact UInt32.not_lt.mp hindex
    simp only [hindex, ite_false, lowSlotName?, hnone, Option.bind_none]

/-- A register storage resolves to the register that has its low slot's name. -/
theorem registerOf_registers_iff (h : d.Built t) (hsize : t.Addressable) {kind index : UInt32}
    {className : String} {names suffixes : List String}
    (hmem : ⟨kind, className, .registers names suffixes⟩ ∈ d.classes) {r : Register} :
    t.registerOf ⟨kind, index⟩ = .ok r ↔
      ∃ name low, names[index.toNat]? = some name ∧ suffixes.head? = some low ∧
        t.registerName? r = some (name ++ low) := by
  have hfound : t.registerOf ⟨kind, index⟩ = .ok r ↔
      (lowSlotName? names suffixes index).bind t.lookup? = some r := by
    rw [h.registerOf_eq_of_registers hsize.slots_lt hmem]
    cases (lowSlotName? names suffixes index).bind t.lookup? <;> simp
  rw [hfound]
  simp only [lowSlotName?, Option.bind_eq_some_iff, Option.map_eq_some_iff,
    h.lookup?_eq_some_iff hsize.names_lt]
  constructor
  · rintro ⟨_, ⟨name, hname, low, hlow, rfl⟩, hr⟩
    exact ⟨name, low, hname, hlow, hr⟩
  · rintro ⟨name, low, hname, hlow, hr⟩
    exact ⟨_, ⟨name, hname, low, hlow, rfl⟩, hr⟩

theorem registerOf_stack_iff (h : d.Built t) {kind width limit index : UInt32}
    {className : String} (hmem : ⟨kind, className, .stack width limit⟩ ∈ d.classes)
    {r : Register} :
    t.registerOf ⟨kind, index⟩ = .ok r ↔
      index < limit ∧ r.number.toNat = t.stackBase.toNat + index.toNat * width.toNat := by
  have hclass := h.class?_stack_iff.mpr hmem
  rw [Table.registerOf_of_stack (s := ⟨kind, index⟩) hclass]
  by_cases hindex : index < limit
  · rw [← h.toNat_stack_slot hmem hindex, UInt32.toNat_inj]
    cases r
    simp [hindex, eq_comm]
  · simp [hindex]

end Description.Built

/-! ## Resolution as the steps describe it -/

/-- Where the steps put a storage: at the place that the name of its register's low slot
has in the order, or at its index's stack slot. -/
inductive Description.Resolves (steps : List Description.Step) (order : List String)
    (stackBase : UInt32) : Storage → Register → Prop where
  | register {kind index className names suffixes name low r} :
      .registerClass kind className names suffixes ∈ steps →
      names[index.toNat]? = some name → suffixes.head? = some low →
      order.idxOf? (name ++ low) = some r.position →
      Resolves steps order stackBase ⟨kind, index⟩ r
  | stack {kind index className width limit r} :
      .stackClass kind className width limit ∈ steps → index < limit →
      r.number.toNat = stackBase.toNat + index.toNat * width.toNat →
      Resolves steps order stackBase ⟨kind, index⟩ r

namespace Description.Built

variable {name : String} {steps : List Description.Step} {t : Table}

theorem registerOf_of_resolves (h : (ofSteps name steps).Built t) (hsize : t.Addressable)
    {s : Storage} {r : Register}
    (hr : Resolves steps (ofSteps name steps).effectiveOrder t.stackBase s r) :
    t.registerOf s = .ok r := by
  cases hr with
  | register hstep hname hlow hplace =>
      have hregister := h.idxOf?_effectiveOrder_iff.mp hplace
      exact (h.registerOf_registers_iff hsize (registers_mem_ofSteps_iff.mpr hstep)).mpr
        ⟨_, _, hname, hlow, hregister⟩
  | stack hstep hindex hnumber =>
      exact (h.registerOf_stack_iff (stack_mem_ofSteps_iff.mpr hstep)).mpr ⟨hindex, hnumber⟩

theorem resolves_of_registerOf (h : (ofSteps name steps).Built t) (hsize : t.Addressable)
    {s : Storage} {r : Register} (hr : t.registerOf s = .ok r) :
    Resolves steps (ofSteps name steps).effectiveOrder t.stackBase s r := by
  rcases Table.registerOf_eq_ok_iff.mp hr with
    ⟨className, base, count, width, hclass, -⟩ | ⟨className, width, limit, hclass, -⟩
  · obtain ⟨names, suffixes, hmem, -⟩ := h.registerBlock_of_class? hsize.slots_lt hclass
    obtain ⟨n, low, hname, hlow, hregister⟩ := (h.registerOf_registers_iff hsize hmem).mp hr
    exact .register (registers_mem_ofSteps_iff.mp hmem) hname hlow
      (h.idxOf?_effectiveOrder_iff.mpr hregister)
  · have hmem := h.class?_stack_iff.mp hclass
    obtain ⟨hindex, hnumber⟩ := (h.registerOf_stack_iff hmem).mp hr
    exact .stack (stack_mem_ofSteps_iff.mp hmem) hindex hnumber

end Description.Built

/-- A storage resolves exactly where the steps put it, and is refused as undefined where
they put it nowhere. -/
theorem registerOf_ofSteps {name : String} {steps : List Description.Step} {t : Table}
    (hbuild : (Description.ofSteps name steps).build = .ok t) (hsize : t.Addressable)
    (s : Storage) :
    let order := (Description.ofSteps name steps).effectiveOrder
    (∀ r, t.registerOf s = .ok r ↔ Description.Resolves steps order t.stackBase s r) ∧
      ((∀ r, ¬ Description.Resolves steps order t.stackBase s r) →
        t.registerOf s = .error ⟨.undefinedStorage s, name⟩) ∧
      ∀ n r, order.idxOf? n = some r.position →
        t.registerName? r = some n ∧ t.lookup? n = some r := by
  have h := Description.build_eq_ok_iff.mp hbuild
  refine ⟨?_, ?_, ?_⟩
  · intro r
    exact ⟨h.resolves_of_registerOf hsize, h.registerOf_of_resolves hsize⟩
  · intro hnowhere
    have hundefined := Table.registerOf_eq_error_iff.mpr
      fun r hr => hnowhere r (h.resolves_of_registerOf hsize hr)
    rw [hundefined, Table.undefined, h.name_eq, Description.name_ofSteps]
  · intro n r hplace
    have hregister := h.idxOf?_effectiveOrder_iff.mp hplace
    exact ⟨hregister, (h.lookup?_eq_some_iff hsize.names_lt).mpr hregister⟩

/-- In the sample, `B`'s low slot comes second in the order and `C` is left out. -/
theorem registerOf_sample :
    (Description.ofSteps "sample" sampleSteps).build = .ok sampleTable ∧
      sampleTable.Addressable ∧
      sampleTable.registerOf ⟨0, 1⟩ = .ok ⟨1⟩ ∧
      sampleTable.registerOf ⟨2, 7⟩ = .ok ⟨20⟩ ∧
      sampleTable.registerOf ⟨0, 2⟩ = .error ⟨.undefinedStorage ⟨0, 2⟩, "sample"⟩ := by
  have hspec := registerOf_ofSteps build_sample addressable_sampleTable
  refine ⟨build_sample, addressable_sampleTable, ?_, ?_, ?_⟩
  · have hstep : .registerClass 0 "gpr" ["A", "B", "C"] ["", "_H"] ∈ sampleSteps := by
      simp [sampleSteps]
    exact ((hspec ⟨0, 1⟩).1 ⟨1⟩).mpr (.register hstep rfl rfl rfl)
  · have hstep : .stackClass 2 "stack" 2 8 ∈ sampleSteps := by simp [sampleSteps]
    exact ((hspec ⟨2, 7⟩).1 ⟨20⟩).mpr (.stack hstep (by decide) rfl)
  · apply (hspec ⟨0, 2⟩).2.1
    intro r hr
    cases hr with
    | @register _ _ className names suffixes _ _ _ hstep hname hlow hplace =>
        obtain ⟨rfl, rfl, rfl⟩ : className = "gpr" ∧ names = ["A", "B", "C"] ∧
            suffixes = ["", "_H"] := by simpa [sampleSteps] using hstep
        obtain rfl := Option.some.inj hname
        obtain rfl := Option.some.inj hlow
        cases hplace
    | stack hstep => simp [sampleSteps] at hstep

end ForeignCall
