import ForeignCall.Proofs.Table.Case
import ForeignCall.Proofs.Table.Consistency
import ForeignCall.Proofs.Tiling

/-! # The slots of a table's classes

Slots are handed out class by class. The invariant of the assignment is that a class
starts at the number of slots that the classes before it take. -/

namespace ForeignCall

/-! ## Slots of one class -/

theorem length_slotNames (names suffixes : List String) :
    (slotNames names suffixes).length = names.length * suffixes.length := by
  simp [slotNames, List.length_flatMap, List.map_const']

/-- Slots go register by register, with one slot per suffix. -/
theorem getElem?_slotNames {names suffixes : List String} {i j : Nat} {name suffix : String}
    (hname : names[i]? = some name) (hsuffix : suffixes[j]? = some suffix) :
    (slotNames names suffixes)[i * suffixes.length + j]? = some (name ++ suffix) := by
  obtain ⟨hj, -⟩ := List.getElem?_eq_some_iff.mp hsuffix
  induction names generalizing i with
  | nil => simp at hname
  | cons first rest ih =>
      have hcons : slotNames (first :: rest) suffixes =
          suffixes.map (first ++ ·) ++ slotNames rest suffixes := rfl
      rw [hcons]
      cases i with
      | zero =>
          obtain rfl : first = name := by simpa using hname
          rw [List.getElem?_append_left (by simpa using hj)]
          simp [hsuffix]
      | succ i =>
          rw [List.getElem?_append_right (by simp [Nat.add_mul]; omega)]
          have hindex : (i + 1) * suffixes.length + j - (suffixes.map (first ++ ·)).length =
              i * suffixes.length + j := by
            simp [Nat.add_mul]
            omega
          rw [hindex]
          exact ih (by simpa using hname)

/-! ## The assignment -/

/-- The number of slots that the classes take. -/
def slotsTaken (classes : List ClassDescription) : Nat :=
  (classes.flatMap ClassDescription.slotNames).length

theorem assignSlots_append (start : Nat) (before after : List ClassDescription) :
    assignSlots start (before ++ after) =
      assignSlots start before ++ assignSlots (start + slotsTaken before) after := by
  induction before generalizing start with
  | nil => simp [assignSlots, slotsTaken]
  | cons c rest ih => simp [assignSlots, slotsTaken, ih, Nat.add_assoc]

theorem map_kind_assignSlots (start : Nat) (classes : List ClassDescription) :
    (assignSlots start classes).map StorageClass.kind = classes.map ClassDescription.kind := by
  induction classes generalizing start with
  | nil => rfl
  | cons c rest ih => simp [assignSlots, ih, ClassDescription.toClass]

theorem mem_assignSlots_iff {start : Nat} {classes : List ClassDescription} {c : StorageClass} :
    c ∈ assignSlots start classes ↔
      ∃ before described after, classes = before ++ described :: after ∧
        c = described.toClass (start + slotsTaken before) := by
  constructor
  · intro hc
    induction classes generalizing start with
    | nil => simp [assignSlots] at hc
    | cons first rest ih =>
        rcases List.mem_cons.mp hc with rfl | hc
        · exact ⟨[], first, rest, rfl, by simp [slotsTaken]⟩
        · obtain ⟨before, described, after, rfl, rfl⟩ := ih hc
          refine ⟨first :: before, described, after, rfl, ?_⟩
          simp [slotsTaken, Nat.add_assoc]
  · rintro ⟨before, described, after, rfl, rfl⟩
    rw [assignSlots_append]
    exact List.mem_append_right _ List.mem_cons_self

/-! ## Classes by kind -/

namespace Description.Built

variable {d : Description} {t : Table}

/-- Since no two classes share a kind, a look-up finds the one class described with it. -/
theorem class?_eq_some_iff (h : d.Built t) {kind : UInt32} {c : StorageClass} :
    t.class? kind = some c ↔
      ∃ before described after, d.classes = before ++ described :: after ∧
        described.kind = kind ∧ c = described.toClass (slotsTaken before) := by
  unfold Table.class?
  rw [h.classes_eq]
  constructor
  · intro hfind
    have hkind : c.kind = kind := by simpa using List.find?_some hfind
    obtain ⟨before, described, after, hsplit, rfl⟩ :=
      mem_assignSlots_iff.mp (List.mem_of_find?_eq_some hfind)
    exact ⟨before, described, after, hsplit, hkind, by simp⟩
  · rintro ⟨before, described, after, hsplit, rfl, rfl⟩
    have hnew : described.kind ∉ before.map ClassDescription.kind := by
      have hnodup := h.kinds_nodup
      rw [hsplit, List.map_append, List.map_cons, List.nodup_append] at hnodup
      intro hmem
      exact hnodup.2.2 _ hmem _ List.mem_cons_self rfl
    have hbefore : (assignSlots 0 before).find? (·.kind = described.kind) = none := by
      rw [List.find?_eq_none]
      intro c hc hkind
      apply hnew
      rw [← map_kind_assignSlots 0 before, ← of_decide_eq_true hkind]
      exact List.mem_map_of_mem hc
    rw [hsplit, assignSlots_append, List.find?_append, hbefore]
    simp [assignSlots, ClassDescription.toClass]

/-- Every class described is found under its kind. -/
theorem exists_class?_of_mem (h : d.Built t) {described : ClassDescription}
    (hmem : described ∈ d.classes) :
    ∃ before after, d.classes = before ++ described :: after ∧
      t.class? described.kind = some (described.toClass (slotsTaken before)) := by
  obtain ⟨before, after, hsplit⟩ := List.append_of_mem hmem
  refine ⟨before, after, hsplit, ?_⟩
  exact h.class?_eq_some_iff.mpr ⟨before, described, after, hsplit, rfl, rfl⟩

theorem class?_stack_iff (h : d.Built t) {kind width limit : UInt32} {className : String} :
    t.class? kind = some ⟨kind, className, .stack width limit⟩ ↔
      ⟨kind, className, .stack width limit⟩ ∈ d.classes := by
  constructor
  · intro hclass
    obtain ⟨before, ⟨kind', className', contents⟩, after, hsplit, hkind, heq⟩ :=
      h.class?_eq_some_iff.mp hclass
    cases contents with
    | registers names suffixes => simp [ClassDescription.toClass] at heq
    | stack width' limit' =>
        simp only [ClassDescription.toClass, StorageClass.mk.injEq, Layout.stack.injEq] at heq
        obtain ⟨rfl, rfl, rfl, rfl⟩ := heq
        simp [hsplit]
  · intro hmem
    obtain ⟨before, after, -, hclass⟩ := h.exists_class?_of_mem hmem
    exact hclass

end Description.Built

/-! ## Classes by name -/

theorem map_foldedName_assignSlots (start : Nat) (classes : List ClassDescription) :
    (assignSlots start classes).map (caseFold ·.name) = classes.map (caseFold ·.name) := by
  induction classes generalizing start with
  | nil => rfl
  | cons c rest ih => simp [assignSlots, ih, ClassDescription.toClass]

theorem find?_foldedName_eq_some_iff {classes : List StorageClass}
    (hnodup : (classes.map (caseFold ·.name)).Nodup) {folded : List Char} {c : StorageClass} :
    (classes.find? fun c => caseFold c.name = folded) = some c ↔
      c ∈ classes ∧ caseFold c.name = folded := by
  constructor
  · intro h
    exact ⟨List.mem_of_find?_eq_some h, by simpa using List.find?_some h⟩
  · rintro ⟨hmem, rfl⟩
    obtain ⟨before, after, rfl⟩ := List.append_of_mem hmem
    rw [List.map_append, List.map_cons, List.nodup_append] at hnodup
    have hbefore : (before.find? fun b => caseFold b.name = caseFold c.name) = none := by
      rw [List.find?_eq_none]
      intro b hb hname
      exact hnodup.2.2 _ (List.mem_map_of_mem hb) _ List.mem_cons_self (of_decide_eq_true hname)
    rw [List.find?_append, hbefore]
    simp

/-- No two classes share a name, so whatever the case of its letters a name finds the
one class that has it. -/
theorem Description.Built.classNamed?_eq_some_iff {d : Description} {t : Table}
    (h : d.Built t) {name : String} {c : StorageClass} :
    t.classNamed? name = some c ↔ c ∈ t.classes ∧ SameName c.name name := by
  rw [← caseFold_eq_iff]
  apply find?_foldedName_eq_some_iff
  rw [h.classes_eq, map_foldedName_assignSlots]
  exact h.classNames_nodup

/-! ## Blocks of register classes -/

/-- The numbers of a class's layout, taken exactly, lead to the slots that the class
describes. -/
structure RegisterBlock (slots names suffixes : List String) (base count width : UInt32) :
    Prop where
  count_eq : count.toNat = names.length
  width_eq : names ≠ [] → width.toNat = suffixes.length
  fits : base.toNat + count.toNat * width.toNat ≤ slots.length
  slot_name : ∀ {i j name suffix}, names[i]? = some name → suffixes[j]? = some suffix →
    slots[base.toNat + i * width.toNat + j]? = some (name ++ suffix)

/-- A class's numbers survive 32 bits where its slots do. Without registers the number
of suffixes may be lost, and then no slot depends on it. -/
theorem toNat_lengths {names suffixes : List String} (hsound : names ≠ [] → suffixes ≠ [])
    (hsize : names.length * suffixes.length < 2 ^ 32) :
    names.length.toUInt32.toNat = names.length ∧
      (names ≠ [] → suffixes.length.toUInt32.toNat = suffixes.length) := by
  by_cases hnames : names = []
  · simp [hnames]
  · have hnamesPos := List.length_pos_iff.mpr hnames
    have hsuffixesPos := List.length_pos_iff.mpr (hsound hnames)
    have hnamesLe := Nat.le_mul_of_pos_right names.length hsuffixesPos
    have hsuffixesLe := Nat.le_mul_of_pos_left suffixes.length hnamesPos
    exact ⟨toNat_toUInt32_of_lt (by omega), fun _ => toNat_toUInt32_of_lt (by omega)⟩

theorem toNat_count_mul_width {names suffixes : List String}
    (hsound : names ≠ [] → suffixes ≠ []) (hsize : names.length * suffixes.length < 2 ^ 32) :
    names.length.toUInt32.toNat * suffixes.length.toUInt32.toNat =
      names.length * suffixes.length := by
  obtain ⟨hcount, hwidth⟩ := toNat_lengths hsound hsize
  by_cases hnames : names = []
  · simp [hnames]
  · rw [hcount, hwidth hnames]

/-- A class that starts where the slots before it end keeps all its numbers. -/
theorem registerBlock_of_split {before after names suffixes : List String}
    (hsound : names ≠ [] → suffixes ≠ [])
    (hsize : before.length + names.length * suffixes.length < 2 ^ 32) :
    RegisterBlock (before ++ (slotNames names suffixes ++ after)) names suffixes
      before.length.toUInt32 names.length.toUInt32 suffixes.length.toUInt32 := by
  obtain ⟨hcount, hwidth⟩ := toNat_lengths hsound (by omega)
  have hbase : before.length.toUInt32.toNat = before.length := toNat_toUInt32_of_lt (by omega)
  refine ⟨hcount, hwidth, ?_, ?_⟩
  · rw [hbase, toNat_count_mul_width hsound (by omega), List.length_append, List.length_append,
      length_slotNames]
    omega
  · intro i j name suffix hname hsuffix
    have hnames : names ≠ [] := by
      rintro rfl
      simp at hname
    have hslot := getElem?_slotNames hname hsuffix
    obtain ⟨hlt, -⟩ := List.getElem?_eq_some_iff.mp hslot
    rw [hbase, hwidth hnames, Nat.add_assoc, List.getElem?_append_right (by omega),
      Nat.add_sub_cancel_left, List.getElem?_append_left hlt, hslot]

namespace RegisterBlock

variable {slots names suffixes : List String} {base count width : UInt32}

/-- The low slot of a register is computed without wrapping around. -/
theorem toNat_low_slot (h : RegisterBlock slots names suffixes base count width)
    (hsize : slots.length < 2 ^ 32) {index : UInt32} (hindex : index < count) :
    (base + index * width).toNat = base.toNat + index.toNat * width.toNat :=
  toNat_add_mul_of_fits hindex (Nat.lt_of_le_of_lt h.fits hsize)

/-- The low slot of a register is named by the first suffix. -/
theorem low_slot_name (h : RegisterBlock slots names suffixes base count width)
    (hsound : names ≠ [] → suffixes ≠ []) (hsize : slots.length < 2 ^ 32) {index : UInt32}
    (hindex : index < count) :
    ∃ name low, names[index.toNat]? = some name ∧ suffixes.head? = some low ∧
      slots[(base + index * width).toNat]? = some (name ++ low) := by
  have hlt : index.toNat < names.length := h.count_eq ▸ UInt32.lt_iff_toNat_lt.mp hindex
  have hname := List.getElem?_eq_getElem hlt
  cases suffixes with
  | nil => exact absurd rfl (hsound (List.ne_nil_of_length_pos (by omega)))
  | cons low rest =>
      refine ⟨_, low, hname, rfl, ?_⟩
      rw [h.toNat_low_slot hsize hindex]
      exact h.slot_name (j := 0) hname rfl

end RegisterBlock

namespace Description.Built

variable {d : Description} {t : Table}

/-- A register class is found with a block of its own. -/
theorem exists_registerBlock (h : d.Built t) (hsize : t.slots.length < 2 ^ 32) {kind : UInt32}
    {className : String} {names suffixes : List String}
    (hmem : ⟨kind, className, .registers names suffixes⟩ ∈ d.classes) :
    ∃ base count width,
      t.class? kind = some ⟨kind, className, .registers base count width⟩ ∧
      RegisterBlock d.slotNames names suffixes base count width := by
  obtain ⟨before, after, hsplit, hclass⟩ := h.exists_class?_of_mem hmem
  refine ⟨_, _, _, hclass, ?_⟩
  have hslots : d.slotNames = before.flatMap ClassDescription.slotNames ++
      (ForeignCall.slotNames names suffixes ++ after.flatMap ClassDescription.slotNames) := by
    rw [Description.slotNames, hsplit, List.flatMap_append, List.flatMap_cons]
    rfl
  rw [hslots]
  apply registerBlock_of_split (h.classes_sound _ hmem)
  rw [h.slots_eq, List.length_map, hslots] at hsize
  simp only [List.length_append, length_slotNames] at hsize
  omega

/-- Each register class found was described, and its numbers are those of its block. -/
theorem registerBlock_of_class? (h : d.Built t) (hsize : t.slots.length < 2 ^ 32)
    {kind base count width : UInt32} {className : String}
    (hclass : t.class? kind = some ⟨kind, className, .registers base count width⟩) :
    ∃ names suffixes, ⟨kind, className, .registers names suffixes⟩ ∈ d.classes ∧
      RegisterBlock d.slotNames names suffixes base count width := by
  obtain ⟨before, ⟨kind', className', contents⟩, after, hsplit, hkind, heq⟩ :=
    h.class?_eq_some_iff.mp hclass
  cases contents with
  | stack width' limit => simp [ClassDescription.toClass] at heq
  | registers names suffixes =>
      have hmem : ⟨kind', className', .registers names suffixes⟩ ∈ d.classes := by simp [hsplit]
      obtain ⟨base', count', width', hclass', hblock⟩ := h.exists_registerBlock hsize hmem
      obtain rfl : kind' = kind := hkind
      rw [hclass, Option.some.injEq, StorageClass.mk.injEq, Layout.registers.injEq] at hclass'
      obtain ⟨-, rfl, rfl, rfl, rfl⟩ := hclass'
      exact ⟨names, suffixes, hmem, hblock⟩

end Description.Built

/-! ## Tiling -/

/-- The block of slots that a class takes, as its first slot and its size. -/
def StorageClass.block? (c : StorageClass) : Option (Nat × Nat) :=
  match c.layout with
  | .registers base count width => some (base.toNat, count.toNat * width.toNat)
  | .stack .. => none

theorem tiles_assignSlots (start : Nat) (classes : List ClassDescription)
    (hsound : ∀ c ∈ classes, c.Sound) (hsize : start + slotsTaken classes < 2 ^ 32) :
    Tiles start ((assignSlots start classes).filterMap StorageClass.block?)
      (start + slotsTaken classes) := by
  induction classes generalizing start with
  | nil => simp [assignSlots, slotsTaken, Tiles]
  | cons c rest ih =>
      obtain ⟨kind, className, contents⟩ := c
      have htail : ∀ c ∈ rest, c.Sound := fun c hc => hsound c (List.mem_cons_of_mem _ hc)
      cases contents with
      | stack slotsPerIndex limit =>
          exact ih start htail hsize
      | registers names suffixes =>
          have htaken : slotsTaken (⟨kind, className, .registers names suffixes⟩ :: rest) =
              names.length * suffixes.length + slotsTaken rest := by
            rw [← length_slotNames]
            exact List.length_append
          rw [htaken, ← Nat.add_assoc] at hsize ⊢
          refine ⟨toNat_toUInt32_of_lt (by omega), ?_⟩
          rw [toNat_count_mul_width (hsound _ List.mem_cons_self) (by omega), ← length_slotNames]
          exact ih _ htail (by rwa [← length_slotNames] at hsize)

end ForeignCall
