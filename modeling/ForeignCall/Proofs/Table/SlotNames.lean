import Mathlib.Data.List.Nodup
import ForeignCall.Proofs.Table.Slots

/-! # Names of slots

The name of a slot is a register's name with a suffix after it. Where register names are
made of capitals and digits and no suffix begins with one, the name of a slot can be taken
apart again. So slots of different registers never share a name, and a description of such
slots is consistent as soon as its registers have different names. -/

namespace ForeignCall

def isStemChar (c : Char) : Bool :=
  c.isUpper || c.isDigit

def isStem (name : String) : Bool :=
  name.toList.all isStemChar

/-- Whether the suffix shows where a stem before it ends. -/
def endsStem (suffix : String) : Bool :=
  !suffix.toList.head?.any isStemChar

/-- What is left of a slot's name without the suffix. -/
def stemOf (slot : String) : List Char :=
  slot.toList.takeWhile isStemChar

section Stems

variable {name name' suffix suffix' : String}

theorem stemOf_append (hname : isStem name) (hsuffix : endsStem suffix) :
    stemOf (name ++ suffix) = name.toList := by
  have hrest : suffix.toList.takeWhile isStemChar = [] := by
    unfold endsStem at hsuffix
    cases hchars : suffix.toList with
    | nil => rfl
    | cons c cs =>
        apply List.takeWhile_cons_of_neg
        simpa [hchars] using hsuffix
  rw [stemOf, String.toList_append, List.takeWhile_append_of_pos, hrest, List.append_nil]
  exact List.all_eq_true.mp hname

theorem stem_eq_of_slot_eq (hname : isStem name) (hname' : isStem name')
    (hsuffix : endsStem suffix) (hsuffix' : endsStem suffix')
    (hslot : name ++ suffix = name' ++ suffix') : name = name' := by
  apply String.toList_inj.mp
  rw [← stemOf_append hname hsuffix, hslot, stemOf_append hname' hsuffix']

end Stems

/-! ## Numbered registers -/

/-- A name without its number. -/
def lettersOf (name : String) : List Char :=
  name.toList.filter (!·.isDigit)

section Numbered

variable {stem : String} {count : Nat}

theorem toString_nat_inj {i j : Nat} (h : toString i = toString j) : i = j := by
  have hdigits : Nat.toDigits 10 i = Nat.toDigits 10 j := by
    rw [← Nat.toList_repr, ← Nat.toList_repr]
    exact congrArg String.toList h
  rw [← @Nat.ofDigitChars_ten_toDigits i, hdigits, Nat.ofDigitChars_ten_toDigits]

theorem nodup_numbered (stem : String) (count : Nat) : (numbered stem count).Nodup :=
  List.nodup_range.map fun _ _ h => toString_nat_inj ((String.append_right_inj stem).mp h)

theorem toList_of_mem_numbered {name : String} (h : name ∈ numbered stem count) :
    ∃ i, name.toList = stem.toList ++ Nat.toDigits 10 i := by
  obtain ⟨i, -, rfl⟩ := List.mem_map.mp h
  exact ⟨i, by rw [String.toList_append, Nat.toString_eq_repr, Nat.toList_repr]⟩

theorem isStem_of_mem_numbered (hstem : isStem stem) {name : String}
    (h : name ∈ numbered stem count) : isStem name := by
  obtain ⟨i, hchars⟩ := toList_of_mem_numbered h
  rw [isStem, hchars, List.all_append, Bool.and_eq_true]
  refine ⟨hstem, List.all_eq_true.mpr ?_⟩
  intro c hc
  rw [isStemChar, Nat.isDigit_of_mem_toDigits (by decide) (by decide) hc, Bool.or_true]

/-- A number does not add to the letters of a name. -/
theorem lettersOf_of_mem_numbered {name : String} (h : name ∈ numbered stem count) :
    lettersOf name = lettersOf stem := by
  obtain ⟨i, hchars⟩ := toList_of_mem_numbered h
  have hnumber : (Nat.toDigits 10 i).filter (!·.isDigit) = [] := by
    rw [List.filter_eq_nil_iff]
    intro c hc
    simpa using Nat.isDigit_of_mem_toDigits (by decide) (by decide) hc
  rw [lettersOf, hchars, List.filter_append, hnumber, List.append_nil, lettersOf]

/-- Numbered registers differ from all that have other letters. -/
theorem nodup_numbered_append {others : List String} (hothers : others.Nodup)
    (hletters : ∀ name ∈ others, lettersOf name ≠ lettersOf stem) :
    (numbered stem count ++ others).Nodup := by
  refine List.nodup_append.mpr ⟨nodup_numbered stem count, hothers, ?_⟩
  intro name hname other hother heq
  apply hletters other hother
  rw [← heq, lettersOf_of_mem_numbered hname]

end Numbered

/-! ## Names of slots -/

theorem mem_slotNames_iff {names suffixes : List String} {slot : String} :
    slot ∈ slotNames names suffixes ↔
      ∃ name ∈ names, ∃ suffix ∈ suffixes, name ++ suffix = slot := by
  simp only [slotNames, List.mem_flatMap, List.mem_map]

/-- The order of the registers does not matter for which slots there are. -/
theorem perm_slotNames {names names' : List String} (h : names.Perm names')
    (suffixes : List String) : (slotNames names suffixes).Perm (slotNames names' suffixes) :=
  h.flatMap_right _

/-! ## Blocks of registers -/

/-- Registers that have the same suffixes. -/
structure SlotBlock where
  names : List String
  suffixes : List String

namespace SlotBlock

def slots (b : SlotBlock) : List String :=
  slotNames b.names b.suffixes

/-- The block's slots can be told apart once its registers can. -/
structure Readable (b : SlotBlock) : Prop where
  stems : ∀ name ∈ b.names, isStem name
  endings : ∀ suffix ∈ b.suffixes, endsStem suffix
  suffixes_nodup : b.suffixes.Nodup

variable {b : SlotBlock}

theorem Readable.slots_nodup (h : b.Readable) (hnames : b.names.Nodup) : b.slots.Nodup := by
  apply List.nodup_flatMap.mpr
  constructor
  · intro name _
    exact h.suffixes_nodup.map fun _ _ => String.append_right_inj name |>.mp
  · apply List.Pairwise.imp_of_mem _ hnames
    intro name name' hmem hmem' hne slot hslot hslot'
    obtain ⟨suffix, hsuffix, rfl⟩ := List.mem_map.mp hslot
    obtain ⟨suffix', hsuffix', heq⟩ := List.mem_map.mp hslot'
    exact hne (stem_eq_of_slot_eq (h.stems _ hmem) (h.stems _ hmem') (h.endings _ hsuffix)
      (h.endings _ hsuffix') heq.symm)

/-- No slot of one block has the name of a slot in another, since their registers differ. -/
theorem nodup_slots {blocks : List SlotBlock} (hblocks : ∀ b ∈ blocks, b.Readable)
    (hnames : (blocks.flatMap names).Nodup) : (blocks.flatMap slots).Nodup := by
  induction blocks with
  | nil => exact List.nodup_nil
  | cons b rest ih =>
      obtain ⟨hb, hrest⟩ := List.forall_mem_cons.mp hblocks
      rw [List.flatMap_cons, List.nodup_append] at hnames ⊢
      refine ⟨hb.slots_nodup hnames.1, ih hrest hnames.2.1, ?_⟩
      intro slot hslot slot' hslot' heq
      obtain ⟨b', hb', hslot'⟩ := List.mem_flatMap.mp hslot'
      obtain ⟨name, hname, suffix, hsuffix, rfl⟩ := mem_slotNames_iff.mp hslot
      obtain ⟨name', hname', suffix', hsuffix', rfl⟩ := mem_slotNames_iff.mp hslot'
      have hreadable := hrest b' hb'
      apply hnames.2.2 name hname name' (List.mem_flatMap.mpr ⟨b', hb', hname'⟩)
      exact stem_eq_of_slot_eq (hb.stems _ hname) (hreadable.stems _ hname')
        (hb.endings _ hsuffix) (hreadable.endings _ hsuffix') heq

/-- The number of slots in all blocks together. -/
def slotCount : List SlotBlock → Nat
  | [] => 0
  | b :: rest => b.names.length * b.suffixes.length + slotCount rest

theorem length_flatMap_slots (blocks : List SlotBlock) :
    (blocks.flatMap slots).length = slotCount blocks := by
  induction blocks with
  | nil => rfl
  | cons b rest ih =>
      rw [List.flatMap_cons, List.length_append, slots, length_slotNames, ih, slotCount]

end SlotBlock

/-! ## Descriptions by blocks -/

namespace Description

/-- The registers that the description knows are the blocks' slots, and its order has each
of them. -/
structure HasBlocks (d : Description) (blocks : List SlotBlock) : Prop where
  knownNames_eq : d.knownNames = blocks.flatMap SlotBlock.slots
  readable : ∀ b ∈ blocks, b.Readable
  names_nodup : (blocks.flatMap SlotBlock.names).Nodup
  order_perm : d.effectiveOrder.Perm d.knownNames

variable {d : Description} {blocks : List SlotBlock}

theorem HasBlocks.knownNames_nodup (h : d.HasBlocks blocks) : d.knownNames.Nodup := by
  rw [h.knownNames_eq]
  exact SlotBlock.nodup_slots h.readable h.names_nodup

theorem HasBlocks.order_nodup (h : d.HasBlocks blocks) : d.effectiveOrder.Nodup :=
  h.order_perm.nodup_iff.mpr h.knownNames_nodup

theorem HasBlocks.length_order (h : d.HasBlocks blocks) :
    d.effectiveOrder.length = SlotBlock.slotCount blocks := by
  rw [h.order_perm.length_eq, h.knownNames_eq, SlotBlock.length_flatMap_slots]

/-- Blocks leave nothing to check but the classes, the frame pointer and the stack. -/
theorem HasBlocks.built (h : d.HasBlocks blocks) {r : Register} {paired : Bool}
    (hkinds : (d.classes.map ClassDescription.kind).Nodup)
    (hclassNames : (d.classes.map (caseFold ·.name)).Nodup)
    (hsound : ∀ c ∈ d.classes, c.Sound) (hcount : d.registerCount ≠ 0)
    (hframe : d.locateFramePointer = .ok (r, paired))
    (hbase : d.registerCount ≤ d.firstStackSlot)
    (hfits : ∀ c ∈ d.classes, stackFits d.firstStackSlot c) : d.Built (d.toTable r paired) where
  kinds_nodup := hkinds
  classNames_nodup := hclassNames
  classes_sound := hsound
  knownNames_nodup := h.knownNames_nodup
  order_known := fun _ hname => h.order_perm.mem_iff.mp hname
  order_nodup := h.order_nodup
  registerCount_ne_zero := hcount
  framePointer_located := hframe
  registerCount_le := hbase
  stack_fits := hfits
  name_eq := rfl
  classes_eq := rfl
  slots_eq := rfl
  names_eq := rfl
  stackBase_eq := rfl

end Description

end ForeignCall
