import ForeignCall.Proofs.Policy.Classes

/-! # The order of the classes

Where the allocation order is asked for, the order in which classes are described decides
only which slots they take. Registers, look-ups and policies are the same for every order:
the way through the slots leads to a name, and the name to its place. -/

namespace ForeignCall

/-! ## Descriptions in another order -/

/-- The descriptions differ in the order of their classes and of the names that no storage
has, and ask for one allocation order. -/
structure Description.Reorders (d d' : Description) : Prop where
  name_eq : d'.name = d.name
  classes_perm : d'.classes.Perm d.classes
  allocatorOnly_perm : d'.allocatorOnly.Perm d.allocatorOnly
  order_ne_nil : d.order ≠ []
  order_eq : d'.order = d.order
  framePointer_eq : d'.framePointer = d.framePointer
  stackBase_eq : d'.stackBase = d.stackBase

namespace Description.Reorders

variable {d d' : Description} {t t' : Table}

theorem symm (h : d.Reorders d') : d'.Reorders d where
  name_eq := h.name_eq.symm
  classes_perm := h.classes_perm.symm
  allocatorOnly_perm := h.allocatorOnly_perm.symm
  order_ne_nil := h.order_eq ▸ h.order_ne_nil
  order_eq := h.order_eq.symm
  framePointer_eq := h.framePointer_eq.symm
  stackBase_eq := h.stackBase_eq.symm

theorem effectiveOrder_eq (h : d.Reorders d') : d'.effectiveOrder = d.effectiveOrder := by
  simp [effectiveOrder, h.order_eq, h.order_ne_nil]

theorem knownNames_perm (h : d.Reorders d') : d'.knownNames.Perm d.knownNames :=
  (h.classes_perm.flatMap_right _).append h.allocatorOnly_perm

theorem registerCount_eq (h : d.Reorders d') : d'.registerCount = d.registerCount := by
  rw [registerCount, registerCount, h.effectiveOrder_eq]

theorem firstStackSlot_eq (h : d.Reorders d') : d'.firstStackSlot = d.firstStackSlot := by
  rw [firstStackSlot, firstStackSlot, h.stackBase_eq, h.registerCount_eq]

theorem locateFramePointer_eq (h : d.Reorders d') :
    d'.locateFramePointer = d.locateFramePointer := by
  rw [locateFramePointer, locateFramePointer, h.framePointer_eq, h.effectiveOrder_eq,
    h.registerCount_eq]

/-- Each check passes in every order, also where it looks at the classes one after
another. -/
theorem exists_built (h : d.Reorders d') (ht : d.Built t) : ∃ t', d'.Built t' := by
  refine ⟨{ t with
    classes := assignSlots 0 d'.classes
    slots := d'.slotNames.map (registerNamed? d'.effectiveOrder) }, ?_⟩
  exact {
    kinds_nodup := (h.classes_perm.map _).nodup_iff.mpr ht.kinds_nodup
    classNames_nodup := (h.classes_perm.map _).nodup_iff.mpr ht.classNames_nodup
    classes_sound := fun c hc => ht.classes_sound c (h.classes_perm.mem_iff.mp hc)
    knownNames_nodup := h.knownNames_perm.nodup_iff.mpr ht.knownNames_nodup
    order_known := fun name hname => h.knownNames_perm.mem_iff.mpr
      (ht.order_known name (h.effectiveOrder_eq ▸ hname))
    order_nodup := h.effectiveOrder_eq ▸ ht.order_nodup
    registerCount_ne_zero := h.registerCount_eq ▸ ht.registerCount_ne_zero
    framePointer_located := h.locateFramePointer_eq ▸ ht.framePointer_located
    registerCount_le := by
      rw [h.registerCount_eq, h.firstStackSlot_eq]
      exact ht.registerCount_le
    stack_fits := fun c hc => h.firstStackSlot_eq ▸
      ht.stack_fits c (h.classes_perm.mem_iff.mp hc)
    name_eq := h.name_eq ▸ ht.name_eq
    classes_eq := rfl
    slots_eq := rfl
    names_eq := h.effectiveOrder_eq ▸ ht.names_eq
    stackBase_eq := h.firstStackSlot_eq ▸ ht.stackBase_eq }

theorem exists_build_of_build (h : d.Reorders d') (hbuild : ∃ t, d.build = .ok t) :
    ∃ t', d'.build = .ok t' := by
  obtain ⟨t, ht⟩ := hbuild
  obtain ⟨t', ht'⟩ := h.exists_built (build_eq_ok_iff.mp ht)
  exact ⟨t', build_eq_ok_iff.mpr ht'⟩

end Description.Reorders

/-! ## Classes apart from their slots -/

/-- The class without its place among the slots. -/
def StorageClass.unplaced (c : StorageClass) : StorageClass where
  kind := c.kind
  name := c.name
  layout :=
    match c.layout with
    | .registers _ count slotsPerRegister => .registers 0 count slotsPerRegister
    | .stack slotsPerIndex limit => .stack slotsPerIndex limit

@[simp] theorem unplaced_toClass (c : ClassDescription) (slotsBefore : Nat) :
    (c.toClass slotsBefore).unplaced = c.toClass 0 := by
  obtain ⟨kind, name, contents⟩ := c
  cases contents <;> rfl

namespace Description.Built

variable {d : Description} {t : Table}

theorem map_unplaced_class?_eq_some_iff (h : d.Built t) {kind : UInt32} {c : StorageClass} :
    (t.class? kind).map StorageClass.unplaced = some c ↔
      ∃ described ∈ d.classes, described.kind = kind ∧ described.toClass 0 = c := by
  rw [Option.map_eq_some_iff]
  constructor
  · rintro ⟨placed, hplaced, rfl⟩
    obtain ⟨before, described, after, hsplit, hkind, rfl⟩ := h.class?_eq_some_iff.mp hplaced
    exact ⟨described, by simp [hsplit], hkind, by simp⟩
  · rintro ⟨described, hmem, rfl, rfl⟩
    obtain ⟨before, after, -, hclass⟩ := h.exists_class?_of_mem hmem
    exact ⟨_, hclass, by simp⟩

theorem map_unplaced_classNamed?_eq_some_iff (h : d.Built t) {name : String} {c : StorageClass} :
    (t.classNamed? name).map StorageClass.unplaced = some c ↔
      ∃ described ∈ d.classes, SameName described.name name ∧
        described.toClass 0 = c := by
  rw [Option.map_eq_some_iff]
  simp only [h.classNamed?_eq_some_iff, h.classes_eq, mem_assignSlots_iff]
  constructor
  · rintro ⟨_, ⟨⟨before, described, after, hsplit, rfl⟩, hname⟩, rfl⟩
    exact ⟨described, by simp [hsplit], hname, by simp⟩
  · rintro ⟨described, hmem, hname, rfl⟩
    obtain ⟨before, after, hsplit⟩ := List.append_of_mem hmem
    exact ⟨_, ⟨⟨before, described, after, hsplit, rfl⟩, hname⟩, by simp⟩

theorem class?_eq_none_iff (h : d.Built t) {kind : UInt32} :
    t.class? kind = none ↔ ∀ c ∈ d.classes, c.kind ≠ kind := by
  rw [← Option.map_eq_none_iff (f := StorageClass.unplaced), Option.eq_none_iff_forall_ne_some]
  simp only [ne_eq, h.map_unplaced_class?_eq_some_iff]
  grind

end Description.Built

/-! ## Policies from the same registers -/

namespace Table

/-- A policy depends on the registers that storages resolve to, on their names and on the
frame pointer, and on nothing else of a table. -/
theorem savePolicy_congr {t t' : Table} (hname : t'.name = t.name) (hnames : t'.names = t.names)
    (hpointer : t'.framePointer = t.framePointer) (hpaired : t'.framePaired = t.framePaired)
    (hregister : ∀ s, t'.registerOf s = t.registerOf s) (storages : List Storage) (log : Log) :
    t'.savePolicy storages log = t.savePolicy storages log := by
  have hcount : t'.registerCount = t.registerCount := by
    rw [registerCount, registerCount, hnames]
  have htouch : t'.touch = t.touch := by
    funext set s
    rw [touch, touch, hregister, hcount, hname]
  have htouched : t'.touchedSet storages = t.touchedSet storages := by
    rw [touchedSet, touchedSet, htouch, hcount]
  have hclassify : t'.classify = t.classify := by
    funext set
    rw [classify, classify, hcount]
    refine congrArg Policy.mk (List.map_congr_left fun i _ => saveClass_congr ?_ rfl)
    rw [IsFrame, IsFrame, hpointer, hpaired]
  have hshown : t'.shownName = t.shownName := by
    funext r
    rw [shownName, shownName, registerName?, registerName?, hnames]
  have htouchedLine : t'.touchedLine = t.touchedLine := by
    funext set
    rw [touchedLine, touchedLine, hshown, hname]
  have hsummary : ∀ p : Policy, p.summary t' = p.summary t := by
    intro p
    unfold Policy.summary
    rw [hshown]
  have hpolicyLine : t'.policyLine = t.policyLine := by
    funext p
    rw [policyLine, policyLine, hsummary, hname]
  rw [savePolicy, savePolicy, htouched, hclassify, htouchedLine, hpolicyLine]

end Table

/-! ## Tables in another order -/

/-- The tables differ at most in their slots. Without wrapping slot numbers nothing that
storages lead to depends on them. -/
structure Table.SameUpToSlots (t t' : Table) : Prop where
  name_eq : t'.name = t.name
  registerCount_eq : t'.registerCount = t.registerCount
  registerName_eq : ∀ r, t'.registerName? r = t.registerName? r
  lookup_eq : ∀ name, t'.lookup? name = t.lookup? name
  framePointer_eq : t'.framePointer = t.framePointer
  framePair_eq : t'.framePair? = t.framePair?
  stackBase_eq : t'.stackBase = t.stackBase
  class_eq : ∀ kind,
    (t'.class? kind).map StorageClass.unplaced = (t.class? kind).map StorageClass.unplaced
  classNamed_eq : ∀ name,
    (t'.classNamed? name).map StorageClass.unplaced = (t.classNamed? name).map StorageClass.unplaced
  registerOf_eq : t.slots.length < 2 ^ 32 → ∀ s, t'.registerOf s = t.registerOf s
  savePolicy_eq : t.slots.length < 2 ^ 32 → ∀ storages log,
    t'.savePolicy storages log = t.savePolicy storages log

namespace Description.Reorders

variable {d d' : Description} {t t' : Table}

section

variable (h : d.Reorders d') (ht : d.Built t) (ht' : d'.Built t')

include h ht ht'

theorem table_name_eq : t'.name = t.name := by
  rw [ht'.name_eq, ht.name_eq, h.name_eq]

theorem names_eq : t'.names = t.names := by
  rw [ht'.names_eq, ht.names_eq, h.effectiveOrder_eq]

theorem table_stackBase_eq : t'.stackBase = t.stackBase := by
  rw [ht'.stackBase_eq, ht.stackBase_eq, h.firstStackSlot_eq]

theorem frame_eq : t'.framePointer = t.framePointer ∧ t'.framePaired = t.framePaired := by
  have hlocated := ht'.framePointer_located
  rw [h.locateFramePointer_eq, ht.framePointer_located, Except.ok.injEq, Prod.mk.injEq] at hlocated
  exact ⟨hlocated.1.symm, hlocated.2.symm⟩

theorem length_slots_eq : t'.slots.length = t.slots.length := by
  rw [ht'.length_slots, ht.length_slots]
  exact (h.classes_perm.flatMap_right _).length_eq

/-- The class of the storage decides how it resolves, and it is the same class wherever it
stands. -/
theorem registerOf_eq (hsize : t.slots.length < 2 ^ 32) (s : Storage) :
    t'.registerOf s = t.registerOf s := by
  have hundefined : t'.undefined s = t.undefined s := by
    rw [Table.undefined, Table.undefined, h.table_name_eq ht ht']
  by_cases hkind : ∃ c ∈ d.classes, c.kind = s.kind
  · obtain ⟨⟨kind, className, contents⟩, hmem, rfl⟩ := hkind
    have hmem' := h.classes_perm.mem_iff.mpr hmem
    cases contents with
    | registers names suffixes =>
        have hlookup : t'.lookup? = t.lookup? := by
          funext name
          rw [Table.lookup?, Table.lookup?, h.names_eq ht ht']
        have hsize' := h.length_slots_eq ht ht' ▸ hsize
        rw [ht.registerOf_eq_of_registers hsize hmem, ht'.registerOf_eq_of_registers hsize' hmem',
          hlookup, hundefined]
    | stack width limit =>
        rw [Table.registerOf_of_stack (ht.class?_stack_iff.mpr hmem),
          Table.registerOf_of_stack (ht'.class?_stack_iff.mpr hmem'), h.table_stackBase_eq ht ht',
          hundefined]
  · have hnone : ∀ c ∈ d.classes, c.kind ≠ s.kind := by simpa using hkind
    have hnone' : ∀ c ∈ d'.classes, c.kind ≠ s.kind :=
      fun c hc => hnone c (h.classes_perm.mem_iff.mp hc)
    rw [Table.registerOf_of_none (ht.class?_eq_none_iff.mpr hnone),
      Table.registerOf_of_none (ht'.class?_eq_none_iff.mpr hnone'), hundefined]

theorem sameUpToSlots : t.SameUpToSlots t' := by
  have hnames := h.names_eq ht ht'
  obtain ⟨hpointer, hpaired⟩ := h.frame_eq ht ht'
  have hname := h.table_name_eq ht ht'
  exact {
    name_eq := hname
    registerCount_eq := by rw [Table.registerCount, Table.registerCount, hnames]
    registerName_eq := fun r => by rw [Table.registerName?, Table.registerName?, hnames]
    lookup_eq := fun name => by rw [Table.lookup?, Table.lookup?, hnames]
    framePointer_eq := hpointer
    framePair_eq := by rw [Table.framePair?, Table.framePair?, hpointer, hpaired]
    stackBase_eq := h.table_stackBase_eq ht ht'
    class_eq := fun kind => Option.ext fun c => by
      rw [ht.map_unplaced_class?_eq_some_iff, ht'.map_unplaced_class?_eq_some_iff]
      simp only [h.classes_perm.mem_iff]
    classNamed_eq := fun name => Option.ext fun c => by
      rw [ht.map_unplaced_classNamed?_eq_some_iff, ht'.map_unplaced_classNamed?_eq_some_iff]
      simp only [h.classes_perm.mem_iff]
    registerOf_eq := h.registerOf_eq ht ht'
    savePolicy_eq := fun hsize => Table.savePolicy_congr hname hnames hpointer hpaired
      (h.registerOf_eq ht ht' hsize) }

end

end Description.Reorders

/-- Classes and names may be described in any order: a table is built in each of them or in
none, and nothing but its slots is different. -/
theorem build_reordered {d d' : Description} (h : d.Reorders d') :
    ((∃ t, d.build = .ok t) ↔ ∃ t', d'.build = .ok t') ∧
      ∀ t t', d.build = .ok t → d'.build = .ok t' → t.SameUpToSlots t' := by
  refine ⟨⟨h.exists_build_of_build, h.symm.exists_build_of_build⟩, ?_⟩
  intro t t' ht ht'
  exact h.sameUpToSlots (Description.build_eq_ok_iff.mp ht) (Description.build_eq_ok_iff.mp ht')

/-- The sample's steps with the vector registers and the stack before the others. -/
def reorderedSteps : List Description.Step :=
  [.registerClass 1 "vec" ["V0", "V1"] [""], .stackClass 2 "stack" 2 8, .allocatorOnly ["PC"],
    .registerClass 0 "gpr" ["A", "B", "C"] ["", "_H"], .order ["V1", "B", "FLAGS"],
    .registerClass 5 "none" [] ["x"], .order ["A_H", "A", "B_H"], .allocatorOnly ["FLAGS"],
    .framePointer "A_H" true]

def reorderedTable : Table where
  name := "sample"
  classes := [⟨1, "vec", .registers 0 2 1⟩, ⟨2, "stack", .stack 2 8⟩,
    ⟨0, "gpr", .registers 2 3 2⟩, ⟨5, "none", .registers 8 0 1⟩]
  slots := [none, some ⟨0⟩, some ⟨4⟩, some ⟨3⟩, some ⟨1⟩, some ⟨5⟩, none, none]
  names := ["V1", "B", "FLAGS", "A_H", "A", "B_H"]
  framePointer := ⟨3⟩
  framePaired := true
  stackBase := 6

/-- Storages in `B` lead through other slots to the same register. -/
theorem build_reordered_sample :
    (Description.ofSteps "sample" sampleSteps).Reorders
      (Description.ofSteps "sample" reorderedSteps) ∧
      (Description.ofSteps "sample" reorderedSteps).build = .ok reorderedTable ∧
      sampleTable.SameUpToSlots reorderedTable ∧
      sampleTable.slotOf ⟨0, 1⟩ = .ok ⟨2⟩ ∧ reorderedTable.slotOf ⟨0, 1⟩ = .ok ⟨4⟩ ∧
      sampleTable.slots.length < 2 ^ 32 ∧
      reorderedTable.registerOf ⟨0, 1⟩ = sampleTable.registerOf ⟨0, 1⟩ := by
  have hreorders : (Description.ofSteps "sample" sampleSteps).Reorders
      (Description.ofSteps "sample" reorderedSteps) :=
    ⟨rfl, by decide, by decide, by decide, rfl, rfl, rfl⟩
  have hbuild : (Description.ofSteps "sample" reorderedSteps).build = .ok reorderedTable := rfl
  have hslots := addressable_sampleTable.slots_lt
  have hsame := (build_reordered hreorders).2 _ _ build_sample hbuild
  exact ⟨hreorders, hbuild, hsame, rfl, rfl, hslots, hsame.registerOf_eq hslots _⟩

end ForeignCall
