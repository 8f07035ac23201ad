import Mathlib.Algebra.Group.Nat.Defs
import ForeignCall.Proofs.Tiling
import ForeignCall.Proofs.X86.Register
import ForeignCall.X86.SaveArea

/-! # What a save area keeps

Slots are placed one after another, so they tile the area. Which registers have one is read
off the list of all registers and not off the convention's lists, so neither the order nor
the repetitions of these lists matter. The general registers come first, and so their slots
are the same whatever room a vector register takes. -/

namespace ForeignCall.X86

/-! ## Placing -/

/-- The bytes of a slot, as the first of them and their number. -/
def SaveSlot.block (slot : SaveSlot) : Nat × Nat :=
  (slot.offset, slot.size)

/-- The register of a slot with its size. -/
def SaveSlot.entry (slot : SaveSlot) : SavedRegister × Nat :=
  (slot.register, slot.size)

namespace SaveArea

theorem tiles_place (offset : Nat) (registers : List (SavedRegister × Nat)) :
    Tiles offset ((place offset registers).map SaveSlot.block)
      (offset + totalSize registers) := by
  induction registers generalizing offset with
  | nil => rfl
  | cons entry rest ih =>
      obtain ⟨register, size⟩ := entry
      rw [totalSize, ← Nat.add_assoc]
      exact ⟨rfl, ih (offset + size)⟩

theorem map_entry_place (offset : Nat) (registers : List (SavedRegister × Nat)) :
    (place offset registers).map SaveSlot.entry = registers := by
  induction registers generalizing offset with
  | nil => rfl
  | cons entry rest ih => rw [place, List.map_cons, ih, SaveSlot.entry]

/-- What is placed second starts where what is placed first ends. -/
theorem place_append (offset : Nat) (first second : List (SavedRegister × Nat)) :
    place offset (first ++ second) =
      place offset first ++ place (offset + totalSize first) second := by
  induction first generalizing offset with
  | nil => rfl
  | cons entry rest ih =>
      rw [List.cons_append, place, place, ih, totalSize, Nat.add_assoc, List.cons_append]

theorem totalSize_eq (registers : List (SavedRegister × Nat)) :
    totalSize registers = (registers.map Prod.snd).foldr (· + ·) 0 := by
  induction registers with
  | nil => rfl
  | cons entry rest ih => rw [totalSize, ih, List.map_cons, List.foldr_cons]

theorem totalSize_append (first second : List (SavedRegister × Nat)) :
    totalSize (first ++ second) = totalSize first + totalSize second := by
  induction first with
  | nil => exact (Nat.zero_add _).symm
  | cons entry rest ih => rw [List.cons_append, totalSize, ih, totalSize, Nat.add_assoc]

theorem totalSize_map {α : Type} (f : α → SavedRegister) (size : Nat) (registers : List α) :
    totalSize (registers.map fun r => (f r, size)) = registers.length * size := by
  induction registers with
  | nil => exact (Nat.zero_mul _).symm
  | cons r rest ih =>
      rw [List.map_cons, totalSize, ih, List.length_cons, Nat.succ_mul, Nat.add_comm]

theorem entry_mem_of_mem_place {offset : Nat} {registers : List (SavedRegister × Nat)}
    {slot : SaveSlot} (h : slot ∈ place offset registers) : slot.entry ∈ registers := by
  rw [← map_entry_place offset registers]
  exact List.mem_map_of_mem h

end SaveArea

/-! ## Registers that are kept -/

/-- The storage that names the register. -/
def SavedRegister.storage : SavedRegister → Storage
  | gpr r => r.storage
  | xmm x => x.storage

def SavedRegister.isGpr : SavedRegister → Bool
  | gpr _ => true
  | xmm _ => false

/-- The area has a slot for the register that the storage names. -/
def SaveArea.Keeps (area : SaveArea) (s : Storage) : Prop :=
  ∃ slot ∈ area.slots, slot.register.storage = s

theorem VectorWidth.registerCount_eq (width : VectorWidth) :
    width.registerCount = if width.bytes = 64 then 32 else 16 := by
  cases width <;> rfl

namespace Convention

variable {c : Convention} {width : VectorWidth} {s : Storage}

theorem mem_savedGprs_iff {r : Gpr} :
    r ∈ c.savedGprs ↔ r ≠ c.framePointer ∧ r ≠ c.stackPointer ∧ r ∈ c.nonvolatile := by
  rw [savedGprs, List.mem_filter, and_iff_right r.mem_all]
  simp [isVolatile]

theorem mem_savedVectors_iff {x : Xmm} :
    x ∈ c.savedVectors width ↔
      x.number.toNat < width.registerCount ∧ x ∈ c.nonvolatileVectors := by
  have hcount : width.registerCount ≤ Xmm.count := by cases width <;> decide
  rw [savedVectors, List.mem_filter, Xmm.mem_take_all_iff hcount]
  simp [isVolatileVector]

/-- The registers of the area with their sizes. -/
def savedRegisters (c : Convention) (width : VectorWidth) : List (SavedRegister × Nat) :=
  c.savedGprs.map (fun r => (.gpr r, 8)) ++
    (c.savedVectors width).map (fun x => (.xmm x, width.bytes))

theorem saveArea_eq : c.saveArea width = .ofRegisters (c.savedRegisters width) :=
  rfl

/-- All registers of the widest vectors take far less than 32 bits can count. -/
theorem totalSize_savedRegisters_lt : SaveArea.totalSize (c.savedRegisters width) < 2 ^ 32 := by
  have hgprs : c.savedGprs.length ≤ 16 := List.length_filter_le _ _
  have hvectors : (c.savedVectors width).length ≤ 32 :=
    Nat.le_trans (List.length_filter_le _ _) (List.length_take_le' _ _)
  have hbytes : width.bytes ≤ 64 := by cases width <;> decide
  have harea := Nat.mul_le_mul hvectors hbytes
  rw [savedRegisters, SaveArea.totalSize_append, SaveArea.totalSize_map, SaveArea.totalSize_map]
  omega

/-! ## Slots of storages -/

theorem keeps_saveArea_iff :
    (c.saveArea width).Keeps s ↔
      (∃ r ∈ c.savedGprs, r.storage = s) ∨ ∃ x ∈ c.savedVectors width, x.storage = s := by
  have hentries : (c.saveArea width).Keeps s ↔
      ∃ entry ∈ c.savedRegisters width, entry.1.storage = s := by
    rw [← SaveArea.map_entry_place 0 (c.savedRegisters width), saveArea_eq]
    simp [SaveArea.Keeps, SaveArea.ofRegisters, SaveSlot.entry]
  rw [hentries]
  simp [savedRegisters, or_and_right, exists_or, SavedRegister.storage]

theorem isVolatileStorage?_of_integerKind (hs : s.kind = integerKind) :
    c.isVolatileStorage? s = some false ↔ ∃ r ∈ c.nonvolatile, r.storage = s := by
  rw [isVolatileStorage?, if_pos hs, Option.map_eq_some_iff]
  simp only [Gpr.ofEncoding?_eq_some_iff, Gpr.storage_eq_iff, hs, true_and]
  simp [isVolatile, and_comm]

theorem isVolatileStorage?_of_vectorKind (hs : s.kind = vectorKind) (hindex : s.index < 32) :
    c.isVolatileStorage? s = some false ↔ ∃ x ∈ c.nonvolatileVectors, x.storage = s := by
  have hkind : s.kind ≠ integerKind := by
    rw [hs]
    decide
  have hlt : s.index.toNat < 256 := Nat.lt_trans (UInt32.lt_iff_toNat_lt.mp hindex) (by decide)
  rw [isVolatileStorage?, if_neg hkind, if_pos ⟨hs, hindex⟩]
  simp [Xmm.storage_eq_iff_of_lt hs hlt, isVolatileVector]

/-- A general register that the stub's entry and exit code leaves to the area has a slot
where calls must not change it. -/
theorem keeps_of_integerKind (hs : s.kind = integerKind) (hframe : s ≠ c.framePointer.storage)
    (hstack : s ≠ c.stackPointer.storage) :
    (c.saveArea width).Keeps s ↔ c.isVolatileStorage? s = some false := by
  rw [isVolatileStorage?_of_integerKind hs, keeps_saveArea_iff]
  constructor
  · rintro (⟨r, hr, hstorage⟩ | ⟨x, -, hstorage⟩)
    · exact ⟨r, (mem_savedGprs_iff.mp hr).2.2, hstorage⟩
    · have hvector := (Xmm.storage_eq_iff.mp hstorage).1
      exact absurd (hs.symm.trans hvector) (by decide)
  · rintro ⟨r, hr, rfl⟩
    refine .inl ⟨r, mem_savedGprs_iff.mpr ⟨?_, ?_, hr⟩, rfl⟩
    · exact fun heq => hframe (congrArg _ heq)
    · exact fun heq => hstack (congrArg _ heq)

/-- The same holds of a vector register that the width can address. -/
theorem keeps_of_vectorKind (hs : s.kind = vectorKind)
    (hindex : s.index.toNat < width.registerCount) :
    (c.saveArea width).Keeps s ↔ c.isVolatileStorage? s = some false := by
  have hlt : s.index < 32 := by
    have hcount : width.registerCount ≤ 32 := by cases width <;> decide
    exact UInt32.lt_iff_toNat_lt.mpr (Nat.lt_of_lt_of_le hindex hcount)
  rw [isVolatileStorage?_of_vectorKind hs hlt, keeps_saveArea_iff]
  constructor
  · rintro (⟨r, -, hstorage⟩ | ⟨x, hx, hstorage⟩)
    · have hinteger := (Gpr.storage_eq_iff.mp hstorage).1
      exact absurd (hs.symm.trans hinteger) (by decide)
    · exact ⟨x, (mem_savedVectors_iff.mp hx).2, hstorage⟩
  · rintro ⟨x, hx, rfl⟩
    exact .inr ⟨x, mem_savedVectors_iff.mpr ⟨hindex, hx⟩, rfl⟩

/-- The slots of general registers come first, whatever the width. -/
theorem filter_isGpr_slots :
    (c.saveArea width).slots.filter (·.register.isGpr) =
      SaveArea.place 0 (c.savedGprs.map fun r => (.gpr r, 8)) := by
  rw [saveArea_eq, SaveArea.ofRegisters, savedRegisters, SaveArea.place_append, List.filter_append]
  rw [List.filter_eq_self.mpr, List.filter_eq_nil_iff.mpr, List.append_nil]
  · intro slot hslot
    obtain ⟨x, -, hentry⟩ := List.mem_map.mp (SaveArea.entry_mem_of_mem_place hslot)
    have hregister : .xmm x = slot.register := congrArg Prod.fst hentry
    rw [← hregister]
    exact Bool.false_ne_true
  · intro slot hslot
    obtain ⟨r, -, hentry⟩ := List.mem_map.mp (SaveArea.entry_mem_of_mem_place hslot)
    have hregister : .gpr r = slot.register := congrArg Prod.fst hentry
    rw [← hregister]
    rfl

/-! ## The contract of a save area -/

/-- The area keeps what calls must not change, up to the stub's own two registers and the
vector registers that the width does not reach, each once and in the order of their numbers.
The slots follow each other from the first byte to the last, and the registers with a slot
are those that the convention calls nonvolatile. -/
structure SaveAreaSpec (c : Convention) (width : VectorWidth) : Prop where
  registers : ∃ (gprs : List Gpr) (vectors : List Xmm),
    (c.saveArea width).slots.map SaveSlot.entry =
      gprs.map (fun r => (.gpr r, 8)) ++ vectors.map (fun x => (.xmm x, width.bytes)) ∧
    gprs.Pairwise (·.encoding < ·.encoding) ∧
    (∀ r, r ∈ gprs ↔ r ≠ c.framePointer ∧ r ≠ c.stackPointer ∧ r ∈ c.nonvolatile) ∧
    vectors.Pairwise (·.number < ·.number) ∧
    ∀ x, x ∈ vectors ↔
      x.number.toNat < (if width.bytes = 64 then 32 else 16) ∧ x ∈ c.nonvolatileVectors
  first_offset : ∀ slot, (c.saveArea width).slots[0]? = some slot → slot.offset = 0
  next_offset : ∀ i slot next, (c.saveArea width).slots[i]? = some slot →
    (c.saveArea width).slots[i + 1]? = some next → next.offset = slot.offset + slot.size
  size_eq : (c.saveArea width).size =
    ((c.saveArea width).slots.map SaveSlot.size).foldr (· + ·) 0
  apart : (c.saveArea width).slots.Pairwise fun slot later =>
    slot.offset + slot.size ≤ later.offset
  fills : ∀ byte, byte < (c.saveArea width).size ↔
    ∃ slot ∈ (c.saveArea width).slots, slot.offset ≤ byte ∧ byte < slot.offset + slot.size
  size_lt : (c.saveArea width).size < 2 ^ 32
  keeps_gpr_iff : ∀ s : Storage, s.kind = integerKind → s ≠ c.framePointer.storage →
    s ≠ c.stackPointer.storage →
    ((c.saveArea width).Keeps s ↔ c.isVolatileStorage? s = some false)
  keeps_vector_iff : ∀ s : Storage, s.kind = vectorKind →
    s.index.toNat < (if width.bytes = 64 then 32 else 16) →
    ((c.saveArea width).Keeps s ↔ c.isVolatileStorage? s = some false)
  same_gprs : ∀ other, (c.saveArea other).slots.filter (·.register.isGpr) =
    (c.saveArea width).slots.filter (·.register.isGpr)

end Convention

theorem saveArea_spec (c : Convention) (width : VectorWidth) : c.SaveAreaSpec width := by
  have htiles : Tiles 0 ((c.saveArea width).slots.map SaveSlot.block) (c.saveArea width).size := by
    have hplaced := SaveArea.tiles_place 0 (c.savedRegisters width)
    rwa [Nat.zero_add] at hplaced
  have hentries : (c.saveArea width).slots.map SaveSlot.entry = c.savedRegisters width :=
    SaveArea.map_entry_place 0 _
  have hblock : ∀ {i : Nat} {slot : SaveSlot}, (c.saveArea width).slots[i]? = some slot →
      ((c.saveArea width).slots.map SaveSlot.block)[i]? = some slot.block := by
    intro i slot hslot
    rw [List.getElem?_map, hslot, Option.map_some]
  refine ⟨?_, ?_, ?_, ?_, ?_, ?_, Convention.totalSize_savedRegisters_lt, ?_, ?_, ?_⟩
  · refine ⟨c.savedGprs, c.savedVectors width, hentries, ?_, ?_, ?_, ?_⟩
    · exact Gpr.pairwise_all.filter _
    · exact fun r => Convention.mem_savedGprs_iff
    · exact (Xmm.pairwise_take_all _).filter _
    · intro x
      rw [← width.registerCount_eq]
      exact Convention.mem_savedVectors_iff
  · intro slot hslot
    exact htiles.base_eq_start (hblock hslot)
  · intro i slot next hslot hnext
    exact htiles.base_eq_end (hblock hslot) (hblock hnext)
  · have hsizes : (c.saveArea width).slots.map SaveSlot.size =
        (c.savedRegisters width).map Prod.snd := by
      rw [← hentries, List.map_map]
      rfl
    rw [hsizes]
    exact SaveArea.totalSize_eq _
  · exact List.pairwise_map.mp htiles.le_and_pairwise.2
  · intro byte
    rw [← and_iff_right (Nat.zero_le byte) (b := byte < _), htiles.covered_iff]
    simp [SaveSlot.block]
  · intro s hs hframe hstack
    exact Convention.keeps_of_integerKind hs hframe hstack
  · intro s hs hindex
    rw [← width.registerCount_eq] at hindex
    exact Convention.keeps_of_vectorKind hs hindex
  · intro other
    rw [Convention.filter_isGpr_slots, Convention.filter_isGpr_slots]

/-- Lists out of order, with repetitions, with the frame pointer, and with a vector register
that no machine has. -/
example : { Convention.sysv with
      nonvolatile := [.r15, .rbp, .rbx, .r15]
      nonvolatileVectors := [⟨17⟩, ⟨40⟩, ⟨3⟩, ⟨17⟩] }.saveArea .avx512 =
    ⟨[⟨.gpr .rbx, 0, 8⟩, ⟨.gpr .r15, 8, 8⟩, ⟨.xmm ⟨3⟩, 16, 64⟩, ⟨.xmm ⟨17⟩, 80, 64⟩], 144⟩ := by
  decide

end ForeignCall.X86
