import Mathlib.Algebra.Group.Even
import Mathlib.Order.Bounds.Defs
import ForeignCall.Proofs.Table.Numbering
import ForeignCall.Table.Summary

/-! # Well-formed tables

The checks of a description leave their mark on the table: every number that the table
holds stays in its range, and every look-up by kind or by name is unambiguous. So a built
table passes its own check, and its summary names every register that it shows. -/

namespace ForeignCall

/-! ## The check of a table -/

namespace Table

variable {t : Table}

theorem repeatedKind?_eq_none_iff :
    t.repeatedKind? = none ↔ (t.classes.map StorageClass.kind).Nodup := by
  simp only [repeatedKind?, List.min?_eq_none_iff, List.filter_eq_nil_iff, decide_eq_true_eq,
    Nat.not_lt, List.nodup_iff_count]
  constructor
  · intro h kind
    by_cases hmem : kind ∈ t.classes.map StorageClass.kind
    · exact h kind hmem
    · rw [List.count_eq_zero.mpr hmem]
      exact Nat.zero_le 1
  · intro h kind _
    exact h kind

theorem strayRegister?_eq_none_iff :
    t.strayRegister? = none ↔ ∀ r, some r ∈ t.slots → r.number < t.registerCount := by
  simp only [strayRegister?, List.find?_eq_none, List.mem_filterMap, id_eq, exists_eq_right,
    decide_eq_true_eq, UInt32.not_le]

/-- What the check asks for, whatever table it is given. -/
structure Checked (t : Table) : Prop where
  registerCount_ne_zero : t.registerCount ≠ 0
  framePointer_lt : t.framePointer.number < t.registerCount
  framePair_lt : ∀ r, t.framePair? = some r → r.number < t.registerCount
  registerCount_le : t.registerCount ≤ t.stackBase
  slot_lt : ∀ r, some r ∈ t.slots → r.number < t.registerCount
  kinds_nodup : (t.classes.map StorageClass.kind).Nodup

theorem validate_eq_ok_iff : t.validate = .ok () ↔ t.Checked := by
  unfold validate check
  simp only [mapError_eq_ok_iff, bind_eq_ok_iff, TableFault.require_eq_ok_iff,
    TableFault.requireNone_eq_ok_iff, Option.map_eq_none_iff, Option.filter_eq_none_iff,
    decide_eq_true_eq, UInt32.not_le, strayRegister?_eq_none_iff, repeatedKind?_eq_none_iff,
    exists_const]
  constructor
  · rintro ⟨hcount, hframe, hpair, hstack, hslots, hkinds⟩
    exact ⟨hcount, hframe, hpair, hstack, hslots, hkinds⟩
  · intro h
    exact ⟨h.registerCount_ne_zero, h.framePointer_lt, h.framePair_lt, h.registerCount_le,
      h.slot_lt, h.kinds_nodup⟩

/-! ## Summaries -/

/-- What a summary says of the frame pointer, all in names that the table has. -/
inductive ShowsFrame (t : Table) : String → Prop where
  | single {name} : t.framePaired = false → t.registerName? t.framePointer = some name →
      ShowsFrame t (t.framePointer.text ++ " (" ++ name ++ ")")
  | paired {name half} : t.framePaired = true → t.registerName? t.framePointer = some name →
      t.registerName? t.framePointer.next = some half →
      ShowsFrame t (t.framePointer.text ++ " (" ++ name ++ ")" ++
        (", paired with " ++ (t.framePointer.next.text ++ " (" ++ half ++ ")")))

theorem registerSummary_of_name {r : Register} {name : String} (h : t.registerName? r = some name) :
    t.registerSummary r = r.text ++ " (" ++ name ++ ")" := by
  rw [registerSummary, shownName, h, Option.getD_some]

/-- Where the frame's registers have names, these are what is shown. -/
theorem showsFrame_of_named (hpointer : ∃ name, t.registerName? t.framePointer = some name)
    (hpair : t.framePaired = true → ∃ half, t.registerName? t.framePointer.next = some half) :
    t.ShowsFrame t.framePointerSummary := by
  obtain ⟨name, hname⟩ := hpointer
  rw [framePointerSummary, registerSummary_of_name hname, framePair?]
  cases hpaired : t.framePaired with
  | false => simpa using ShowsFrame.single hpaired hname
  | true =>
      obtain ⟨half, hhalf⟩ := hpair hpaired
      simpa [registerSummary_of_name hhalf] using ShowsFrame.paired hpaired hname hhalf

end Table

/-! ## Stack bases -/

/-- Clearing the lowest bit rounds down to an even number. -/
theorem toNat_and_not_one (x : UInt32) : (x &&& ~~~1).toNat = x.toNat / 2 * 2 := by
  have hshift : x.toBitVec &&& ~~~1#32 = (x.toBitVec >>> 1) <<< 1 := by
    ext i hi
    cases i with
    | zero => simp
    | succ i => simp [-BitVec.reduceNot, hi, Nat.add_comm 1 i]
  have hlt := x.toNat_lt
  change (x.toBitVec &&& ~~~1#32).toNat = _
  rw [hshift, BitVec.toNat_shiftLeft, BitVec.toNat_ushiftRight, Nat.shiftRight_eq_div_pow,
    Nat.shiftLeft_eq, Nat.mod_eq_of_lt]
  · rfl
  · change x.toNat / 2 ^ 1 * 2 ^ 1 < 2 ^ 32
    omega

/-- A count that does not wrap around is rounded up to the least even number past it. -/
theorem isLeast_evenPast {count : UInt32} (h : count.toNat < 2 ^ 32 - 1) :
    IsLeast {n | count.toNat ≤ n ∧ Even n} ((count + 1) &&& ~~~1).toNat := by
  have hround : ((count + 1) &&& ~~~1).toNat = (count.toNat + 1) / 2 * 2 := by
    rw [toNat_and_not_one, UInt32.toNat_add, UInt32.toNat_one, Nat.mod_eq_of_lt (by omega)]
  rw [hround]
  refine ⟨⟨by omega, _, Nat.mul_two _⟩, ?_⟩
  rintro n ⟨hn, k, rfl⟩
  omega

namespace Description.Built

variable {d : Description} {t : Table}

/-- The register count that wraps around when it is rounded up leaves no room for the
stack, so of a built table it never does. -/
theorem isLeast_stackBase (h : d.Built t) (hnone : d.stackBase = none) :
    IsLeast {n | t.registerCount.toNat ≤ n ∧ Even n} t.stackBase.toNat := by
  have hbase : t.stackBase = (t.registerCount + 1) &&& ~~~1 := by
    rw [h.stackBase_eq, firstStackSlot, hnone, Option.getD_none, registerCount,
      Table.registerCount, h.names_eq]
  have hle := UInt32.le_iff_toNat_le.mp h.registerCount_le_stackBase
  have hpos : t.registerCount.toNat ≠ 0 := by
    rw [Table.registerCount, h.names_eq]
    exact fun hzero => h.registerCount_ne_zero (UInt32.toNat_inj.mp hzero)
  have hlt : t.registerCount.toNat < 2 ^ 32 - 1 := by
    have hbound := t.registerCount.toNat_lt
    rw [hbase, toNat_and_not_one, UInt32.toNat_add, UInt32.toNat_one] at hle
    omega
  rw [hbase]
  exact isLeast_evenPast hlt

/-! ## Classes -/

theorem class?_of_mem (h : d.Built t) {c : StorageClass} (hc : c ∈ t.classes) :
    t.class? c.kind = some c := by
  rw [h.classes_eq] at hc
  obtain ⟨before, described, after, hsplit, rfl⟩ := mem_assignSlots_iff.mp hc
  apply h.class?_eq_some_iff.mpr
  exact ⟨before, described, after, hsplit, rfl, by rw [Nat.zero_add]⟩

theorem kinds_nodup_classes (h : d.Built t) : (t.classes.map StorageClass.kind).Nodup := by
  rw [h.classes_eq, map_kind_assignSlots]
  exact h.kinds_nodup

theorem pairwise_classNames (h : d.Built t) :
    t.classes.Pairwise fun c c' => ¬ SameName c.name c'.name := by
  rw [← nodup_map_caseFold_iff, h.classes_eq, map_foldedName_assignSlots]
  exact h.classNames_nodup

/-- A class with registers has slots for them, and the number of them is exact. -/
theorem width_pos (h : d.Built t) (hsize : t.slots.length < 2 ^ 32) {c : StorageClass}
    (hc : c ∈ t.classes) {base count width : UInt32}
    (hlayout : c.layout = .registers base count width) (hcount : 0 < count) : 0 < width := by
  obtain ⟨kind, className, layout⟩ := c
  obtain rfl : layout = .registers base count width := hlayout
  obtain ⟨names, suffixes, hmem, hblock⟩ := h.registerBlock_of_class? hsize (h.class?_of_mem hc)
  have hnames : names ≠ [] := by
    apply List.ne_nil_of_length_pos
    rw [← hblock.count_eq]
    exact UInt32.lt_iff_toNat_lt.mp hcount
  rw [UInt32.lt_iff_toNat_lt, hblock.width_eq hnames]
  exact List.length_pos_iff.mpr (h.classes_sound _ hmem hnames)

theorem stack_of_mem (h : d.Built t) {c : StorageClass} (hc : c ∈ t.classes)
    {width limit : UInt32} (hlayout : c.layout = .stack width limit) :
    0 < width ∧ t.stackBase.toNat + limit.toNat * width.toNat < 2 ^ 32 := by
  obtain ⟨kind, className, layout⟩ := c
  obtain rfl : layout = .stack width limit := hlayout
  have hmem := h.class?_stack_iff.mp (h.class?_of_mem hc)
  exact ⟨UInt32.pos_iff_ne_zero.mpr (h.classes_sound _ hmem), h.stack_lt hmem⟩

/-! ## Registers -/

theorem slot_lt (h : d.Built t) (hsize : t.names.length < 2 ^ 32) {r : Register}
    (hr : some r ∈ t.slots) : r.number < t.registerCount := by
  rw [h.slots_eq] at hr
  obtain ⟨name, -, hname⟩ := List.mem_map.mp hr
  rw [← h.names_eq] at hname
  exact (Table.lt_registerCount_iff hsize).mpr ⟨name, (h.lookup?_eq_some_iff hsize).mp hname⟩

theorem checked (h : d.Built t) (hsize : t.names.length < 2 ^ 32) : t.Checked := by
  refine ⟨?_, h.framePointer_lt hsize, ?_, h.registerCount_le_stackBase, ?_,
    h.kinds_nodup_classes⟩
  · rw [Table.registerCount, h.names_eq]
    exact h.registerCount_ne_zero
  · intro r hr
    rw [Table.framePair?] at hr
    split at hr
    · obtain rfl := Option.some.inj hr
      exact h.next_lt hsize ‹_›
    · cases hr
  · intro r hr
    exact h.slot_lt hsize hr

theorem showsFrame (h : d.Built t) (hsize : t.names.length < 2 ^ 32) :
    t.ShowsFrame t.framePointerSummary := by
  apply Table.showsFrame_of_named
  · exact (Table.lt_registerCount_iff hsize).mp (h.framePointer_lt hsize)
  · intro hpaired
    exact (Table.lt_registerCount_iff hsize).mp (h.next_lt hsize hpaired)

end Description.Built

/-! ## The contract of a built table -/

/-- Beyond what the check asks for, all sums of the table's numbers are exact, no look-up
has two answers, and the names in the summary are the registers' own. -/
structure Table.WellFormed (t : Table) : Prop extends t.Checked where
  names_nodup : t.names.Nodup
  framePair_exact : t.framePaired = true → t.framePointer.position + 1 < t.registerCount.toNat
  classNames_distinct : t.classes.Pairwise fun c c' => ¬ SameName c.name c'.name
  class_of_kind : ∀ c ∈ t.classes, t.class? c.kind = some c
  class_of_name : ∀ c ∈ t.classes, ∀ name, SameName c.name name → t.classNamed? name = some c
  width_pos : ∀ c ∈ t.classes, ∀ base count width, c.layout = .registers base count width →
    0 < count → 0 < width
  stack_fits : ∀ c ∈ t.classes, ∀ width limit, c.layout = .stack width limit →
    0 < width ∧ t.stackBase.toNat + limit.toNat * width.toNat ≤ 2 ^ 32 - 1
  validates : t.validate = .ok ()
  summary_eq : ∃ frame, t.ShowsFrame frame ∧ t.summary = String.join
    ((["## REGISTER TABLE " ++ t.name ++ " ##",
      "  registers: " ++ toString t.registerCount,
      "  frame pointer: " ++ frame,
      "  stack slots from: " ++ toString t.stackBase] ++
        t.classes.map StorageClass.summary).map (· ++ "\n"))

/-- Whatever the steps, their table is well-formed, and without a step for it the stack
starts at the least even number past the registers. -/
theorem wellFormed_of_build {name : String} {steps : List Description.Step} {t : Table}
    (hbuild : (Description.ofSteps name steps).build = .ok t) (hsize : t.Addressable) :
    t.WellFormed ∧ ((∀ n, .stackBase n ∉ steps) →
      IsLeast {n | t.registerCount.toNat ≤ n ∧ Even n} t.stackBase.toNat) := by
  have h := Description.build_eq_ok_iff.mp hbuild
  have hnames := hsize.names_lt
  have hchecked := h.checked hnames
  constructor
  · refine ⟨hchecked, ?_, ?_, h.pairwise_classNames, ?_, ?_, ?_, ?_,
      Table.validate_eq_ok_iff.mpr hchecked, _, h.showsFrame hnames, rfl⟩
    · rw [h.names_eq]
      exact h.order_nodup
    · intro hpaired
      exact (h.framePair_lt hnames hpaired).1
    · intro c hc
      exact h.class?_of_mem hc
    · intro c hc name hname
      exact h.classNamed?_eq_some_iff.mpr ⟨hc, hname⟩
    · intro c hc base count width hlayout hcount
      exact h.width_pos hsize.slots_lt hc hlayout hcount
    · intro c hc width limit hlayout
      obtain ⟨hwidth, hfits⟩ := h.stack_of_mem hc hlayout
      exact ⟨hwidth, Nat.le_sub_one_of_lt hfits⟩
  · intro hsteps
    apply h.isLeast_stackBase
    rw [Description.stackBase_ofSteps, List.findSome?_eq_none_iff]
    intro step hstep
    cases step with
    | stackBase n => exact absurd (List.mem_reverse.mp hstep) (hsteps n)
    | _ => rfl

/-- The sample asks for no stack base, and its frame pointer `A_H` is followed by `A`. One of
its classes is found under a name in upper case. -/
theorem wellFormed_sample :
    (Description.ofSteps "sample" sampleSteps).build = .ok sampleTable ∧
      sampleTable.Addressable ∧ (∀ n, .stackBase n ∉ sampleSteps) ∧
      sampleTable.WellFormed ∧ sampleTable.validate = .ok () ∧
      SameName "gpr" "GPR" ∧
      sampleTable.classNamed? "GPR" = some ⟨0, "gpr", .registers 0 3 2⟩ ∧
      IsLeast {n | 6 ≤ n ∧ Even n} 6 := by
  have hsteps : ∀ n, .stackBase n ∉ sampleSteps := by simp [sampleSteps]
  obtain ⟨hwellFormed, hleast⟩ := wellFormed_of_build build_sample addressable_sampleTable
  have hname : SameName "gpr" "GPR" := caseFold_eq_iff.mp rfl
  have hclass : sampleTable.classNamed? "GPR" = some ⟨0, "gpr", .registers 0 3 2⟩ :=
    hwellFormed.class_of_name _ (by simp [sampleTable]) "GPR" hname
  exact ⟨build_sample, addressable_sampleTable, hsteps, hwellFormed, hwellFormed.validates,
    hname, hclass, hleast hsteps⟩

/-- The second half of the frame pointer is shown under its own name. -/
example : sampleTable.summary = "## REGISTER TABLE sample ##\n  registers: 6\n" ++
    "  frame pointer: #3 (A_H), paired with #4 (A)\n  stack slots from: 6\n" ++
    "  [0] gpr: 3 registers x 2 slots at v0\n  [5] none: 0 registers x 1 slots at v6\n" ++
    "  [2] stack: 8 slots x 2 per index\n  [1] vec: 2 registers x 1 slots at v6\n" := by
  decide +kernel

end ForeignCall
