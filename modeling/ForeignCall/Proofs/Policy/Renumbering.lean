import ForeignCall.Proofs.Policy.Classes

/-! # The order of the registers

The allocation order numbers the registers and does nothing else. In two orders of the same
names a storage resolves to registers of one name, or to one stack slot, so what a policy
says by name is the same in both. -/

namespace ForeignCall

/-! ## Descriptions in two orders -/

/-- The descriptions differ in the order of their registers alone, and a paired frame
pointer has one register after it in both orders. -/
structure Description.Renumbers (d d' : Description) : Prop where
  name_eq : d'.name = d.name
  classes_eq : d'.classes = d.classes
  allocatorOnly_eq : d'.allocatorOnly = d.allocatorOnly
  framePointer_eq : d'.framePointer = d.framePointer
  stackBase_eq : d'.stackBase = d.stackBase
  order_perm : d'.effectiveOrder.Perm d.effectiveOrder
  same_half : ∀ name, d.framePointer = some ⟨name, true⟩ →
    ∃ half, [name, half] <:+: d.effectiveOrder ∧ [name, half] <:+: d'.effectiveOrder

/-! ## Registers by name -/

namespace Description.Built

variable {d : Description} {t : Table} {name : String} {r : Register}

theorem exists_lookup?_iff (h : d.Built t) :
    (∃ r, t.lookup? name = some r) ↔ name ∈ d.effectiveOrder := by
  have hnone : t.lookup? name = none ↔ name ∉ d.effectiveOrder := by
    rw [Table.lookup?, h.names_eq]
    exact registerNamed?_eq_none_iff
  cases hfound : t.lookup? name with
  | none => simp [hnone.mp hfound]
  | some r => simpa [hfound] using hnone

theorem lookup?_lt (h : d.Built t) (hsize : t.names.length < 2 ^ 32)
    (hr : t.lookup? name = some r) : r.number < t.registerCount :=
  (Table.lt_registerCount_iff hsize).mpr ⟨name, (h.lookup?_eq_some_iff hsize).mp hr⟩

/-- Different names are names of different registers. -/
theorem lookup?_inj (h : d.Built t) (hsize : t.names.length < 2 ^ 32) {other : String}
    {s : Register} (hr : t.lookup? name = some r) (hs : t.lookup? other = some s) :
    r = s ↔ name = other := by
  constructor
  · rintro rfl
    rw [h.lookup?_eq_some_iff hsize] at hr hs
    exact Option.some.inj (hr.symm.trans hs)
  · rintro rfl
    exact Option.some.inj (hr.symm.trans hs)

/-- The name after another one in the order is that of the next register. -/
theorem lookup?_next (h : d.Built t) (hsize : t.names.length < 2 ^ 32) {half : String}
    (hhalf : [name, half] <:+: d.effectiveOrder) (hr : t.lookup? name = some r) :
    t.lookup? half = some r.next := by
  obtain ⟨before, after, horder⟩ := hhalf
  rw [h.lookup?_eq_some_iff hsize, Table.registerName?, h.names_eq] at hr ⊢
  rw [h.names_eq] at hsize
  have hnodup := h.order_nodup
  rw [← horder, List.append_assoc] at hr hsize hnodup ⊢
  have hplace : r.position = before.length := by
    have hname : (before ++ ([name, half] ++ after))[before.length]? = some name := by simp
    obtain ⟨hlt, -⟩ := List.getElem?_eq_some_iff.mp hname
    exact ((List.getElem?_inj hlt hnodup).mp (hname.trans hr.symm)).symm
  rw [List.length_append] at hsize
  rw [Register.position_next (by simp at hsize; omega), hplace]
  simp

/-- The frame pointer is the register of its name. -/
theorem lookup?_framePointer (h : d.Built t) :
    ∃ fp, d.framePointer = some fp ∧ t.lookup? fp.name = some t.framePointer ∧
      t.framePaired = fp.paired := by
  obtain ⟨name, hfp, hregister, -⟩ := locateFramePointer_eq_ok_iff.mp h.framePointer_located
  rw [← h.names_eq] at hregister
  exact ⟨_, hfp, hregister, rfl⟩

/-- The frame is known by its names. -/
theorem isFrame_iff_name (h : d.Built t) (hsize : t.names.length < 2 ^ 32) {fp : FramePointer}
    (hfp : d.framePointer = some fp) {half : String}
    (hhalf : fp.paired → [fp.name, half] <:+: d.effectiveOrder) (hr : t.lookup? name = some r) :
    t.IsFrame r ↔ name = fp.name ∨ (fp.paired ∧ name = half) := by
  obtain ⟨fp', hfp', hpointer, hpaired⟩ := h.lookup?_framePointer
  obtain rfl : fp' = fp := Option.some.inj (hfp'.symm.trans hfp)
  rw [Table.IsFrame, hpaired, h.lookup?_inj hsize hr hpointer]
  refine or_congr_right (and_congr_right fun hp => ?_)
  exact h.lookup?_inj hsize hr (h.lookup?_next hsize (hhalf hp) hpointer)

end Description.Built

/-! ## Storages in two orders -/

/-- What a storage resolves to in two tables: nothing in both, registers of one name, or one
stack slot past the registers of both. -/
inductive Table.ResolveAlike (t t' : Table) (s : Storage) : Prop where
  | undefined : t.registerOf s = .error (t.undefined s) →
      t'.registerOf s = .error (t.undefined s) → ResolveAlike t t' s
  | register {name r r'} : t.lookup? name = some r → t'.lookup? name = some r' →
      t.registerOf s = .ok r → t'.registerOf s = .ok r' → ResolveAlike t t' s
  | stack {r} : t.registerCount ≤ r.number →
      t.registerOf s = .ok r → t'.registerOf s = .ok r → ResolveAlike t t' s

namespace Description.Renumbers

variable {d d' : Description} {t t' : Table}

section

variable (h : d.Renumbers d') (ht : d.Built t) (ht' : d'.Built t')

include h ht ht'

theorem registerCount_eq : t'.registerCount = t.registerCount := by
  rw [Table.registerCount, Table.registerCount, ht.names_eq, ht'.names_eq, h.order_perm.length_eq]

theorem names_lt (hsize : t.names.length < 2 ^ 32) : t'.names.length < 2 ^ 32 := by
  rwa [ht'.names_eq, h.order_perm.length_eq, ← ht.names_eq]

theorem table_name_eq : t'.name = t.name := by
  rw [ht'.name_eq, ht.name_eq, h.name_eq]

theorem table_stackBase_eq : t'.stackBase = t.stackBase := by
  have hcount : d'.registerCount = d.registerCount := by
    rw [registerCount, registerCount, h.order_perm.length_eq]
  rw [ht'.stackBase_eq, ht.stackBase_eq, firstStackSlot, firstStackSlot, h.stackBase_eq, hcount]

theorem class?_eq (kind : UInt32) : t'.class? kind = t.class? kind := by
  rw [Table.class?, Table.class?, ht'.classes_eq, ht.classes_eq, h.classes_eq]

/-- A slot keeps its name, so it stands for a register of that name in both orders. -/
theorem register?_cases (slot : VMSlot) :
    t.register? slot = none ∧ t'.register? slot = none ∨
      ∃ name r r', t.lookup? name = some r ∧ t'.lookup? name = some r' ∧
        t.register? slot = some r ∧ t'.register? slot = some r' := by
  have hslots : d'.slotNames = d.slotNames := by rw [slotNames, slotNames, h.classes_eq]
  rw [ht.register?_eq, ht'.register?_eq, hslots]
  cases d.slotNames[slot.number.toNat]? with
  | none => exact .inl ⟨rfl, rfl⟩
  | some name =>
      rw [Option.bind_some, Option.bind_some, ← ht.names_eq, ← ht'.names_eq]
      by_cases hname : name ∈ d.effectiveOrder
      · obtain ⟨r, hr⟩ := ht.exists_lookup?_iff.mpr hname
        obtain ⟨r', hr'⟩ := ht'.exists_lookup?_iff.mpr (h.order_perm.mem_iff.mpr hname)
        exact .inr ⟨name, r, r', hr, hr', hr, hr'⟩
      · have hname' : name ∉ d'.effectiveOrder := fun hmem => hname (h.order_perm.mem_iff.mp hmem)
        rw [registerNamed?_eq_none_iff, registerNamed?_eq_none_iff, ht.names_eq, ht'.names_eq]
        exact .inl ⟨hname, hname'⟩

theorem resolveAlike (s : Storage) : t.ResolveAlike t' s := by
  have hundefined : t'.undefined s = t.undefined s := by
    rw [Table.undefined, Table.undefined, h.table_name_eq ht ht']
  cases hclass : t.class? s.kind with
  | none =>
      have hclass' := (h.class?_eq ht ht' s.kind).trans hclass
      exact .undefined (Table.registerOf_of_none hclass)
        (hundefined ▸ Table.registerOf_of_none hclass')
  | some c =>
      have hclass' := (h.class?_eq ht ht' s.kind).trans hclass
      obtain ⟨kind, className, layout⟩ := c
      obtain rfl : kind = s.kind := Table.kind_of_class? hclass
      cases layout with
      | registers base count width =>
          have hread := Table.registerOf_of_registers hclass
          have hread' := Table.registerOf_of_registers hclass'
          rw [hundefined] at hread'
          by_cases hindex : s.index < count
          · rw [if_pos hindex] at hread hread'
            obtain ⟨hnone, hnone'⟩ | ⟨name, r, r', hr, hr', hslot, hslot'⟩ :=
              h.register?_cases ht ht' ⟨base + s.index * width⟩
            · rw [hnone] at hread
              rw [hnone'] at hread'
              exact .undefined hread hread'
            · rw [hslot] at hread
              rw [hslot'] at hread'
              exact .register hr hr' hread hread'
          · rw [if_neg hindex] at hread hread'
            exact .undefined hread hread'
      | stack width limit =>
          have hread := Table.registerOf_of_stack hclass
          have hread' := Table.registerOf_of_stack hclass'
          rw [hundefined, h.table_stackBase_eq ht ht'] at hread'
          by_cases hindex : s.index < limit
          · rw [if_pos hindex] at hread hread'
            have hmem := ht.class?_stack_iff.mp hclass
            exact .stack (ht.registerCount_le_stack_slot hmem hindex) hread hread'
          · rw [if_neg hindex] at hread hread'
            exact .undefined hread hread'

/-- A storage that resolves to a register of one table resolves to that of the same name
in the other. -/
theorem registerOf_iff (hsize : t.names.length < 2 ^ 32) {name : String} {r r' : Register}
    (hr : t.lookup? name = some r) (hr' : t'.lookup? name = some r') (s : Storage) :
    t.registerOf s = .ok r ↔ t'.registerOf s = .ok r' := by
  have hsize' := h.names_lt ht ht' hsize
  cases h.resolveAlike ht ht' s with
  | undefined hread hread' => simp [hread, hread']
  | register hs hs' hread hread' =>
      rw [hread, hread', Except.ok.injEq, Except.ok.injEq, ht.lookup?_inj hsize hs hr,
        ht'.lookup?_inj hsize' hs' hr']
  | stack hlarge hread hread' =>
      have hlt := ht.lookup?_lt hsize hr
      have hlt' := ht'.lookup?_lt hsize' hr'
      rw [h.registerCount_eq ht ht'] at hlt'
      rw [hread, hread', Except.ok.injEq, Except.ok.injEq]
      constructor
      · rintro rfl
        exact absurd hlt (UInt32.not_lt.mpr hlarge)
      · rintro rfl
        exact absurd hlt' (UInt32.not_lt.mpr hlarge)

theorem touchable_iff (hsize : t.names.length < 2 ^ 32) (s : Storage) :
    t.Touchable s ↔ t'.Touchable s := by
  have hcount := h.registerCount_eq ht ht'
  cases h.resolveAlike ht ht' s with
  | undefined hread hread' => simp [Table.Touchable, hread, hread']
  | register hs hs' hread hread' =>
      have hlt := ht.lookup?_lt hsize hs
      have hlt' := ht'.lookup?_lt (h.names_lt ht ht' hsize) hs'
      exact ⟨fun _ => ⟨_, hread', hlt'⟩, fun _ => ⟨_, hread, hlt⟩⟩
  | stack hlarge hread hread' => simp [Table.Touchable, hread, hread', hcount]

/-- What is refused in one order is refused in the other, and for the same reason. -/
theorem refusal_eq (hsize : t.names.length < 2 ^ 32) {s : Storage} (hs : ¬ t.Touchable s) :
    t'.refusal s = t.refusal s := by
  cases h.resolveAlike ht ht' s with
  | undefined hread hread' => rw [Table.refusal, Table.refusal, hread, hread']
  | register hr _ hread _ => exact absurd ⟨_, hread, ht.lookup?_lt hsize hr⟩ hs
  | stack _ hread hread' =>
      rw [Table.refusal, Table.refusal, hread, hread', h.registerCount_eq ht ht',
        h.table_name_eq ht ht']

/-- The frame has the same names in both orders. -/
theorem isFrame_iff (hsize : t.names.length < 2 ^ 32) {name : String} {r r' : Register}
    (hr : t.lookup? name = some r) (hr' : t'.lookup? name = some r') :
    t.IsFrame r ↔ t'.IsFrame r' := by
  obtain ⟨⟨pointer, paired⟩, hfp, -, -⟩ := ht.lookup?_framePointer
  have hfp' := h.framePointer_eq.trans hfp
  obtain ⟨half, hhalf, hhalf'⟩ : ∃ half, (paired → [pointer, half] <:+: d.effectiveOrder) ∧
      (paired → [pointer, half] <:+: d'.effectiveOrder) := by
    cases paired with
    | false => exact ⟨pointer, nofun, nofun⟩
    | true =>
        obtain ⟨half, hhalf, hhalf'⟩ := h.same_half pointer hfp
        exact ⟨half, fun _ => hhalf, fun _ => hhalf'⟩
  rw [ht.isFrame_iff_name hsize hfp hhalf hr,
    ht'.isFrame_iff_name (h.names_lt ht ht' hsize) hfp' hhalf' hr']

/-- Sets collected from the same storages give the registers of a name the same class. -/
theorem saveClass_eq (hsize : t.names.length < 2 ^ 32) {storages : List Storage}
    {set set' : BitSet} (hset : t.Collects storages set) (hset' : t'.Collects storages set')
    {name : String} {r r' : Register} (hr : t.lookup? name = some r)
    (hr' : t'.lookup? name = some r') : t'.saveClass set' r' = t.saveClass set r := by
  apply Table.saveClass_congr (h.isFrame_iff ht ht' hsize hr hr').symm
  rw [Bool.eq_iff_iff, hset.contains_position_iff, hset'.contains_position_iff]
  simp only [h.registerOf_iff ht ht' hsize hr hr']

end

end Description.Renumbers

/-! ## Policies in two orders -/

/-- The order of the registers does not enter a policy: it fails with one error in both
orders, or gives one class to the registers of each name. -/
theorem savePolicy_renumbered {d d' : Description} {t t' : Table} (h : d.Renumbers d')
    (hbuild : d.build = .ok t) (hbuild' : d'.build = .ok t') (hsize : t.names.length < 2 ^ 32)
    (storages : List Storage) (log log' : Log) :
    (∃ e, (t.savePolicy storages log).1 = .error e ∧
      (t'.savePolicy storages log').1 = .error e) ∨
    ∃ p p', (t.savePolicy storages log).1 = .ok p ∧ (t'.savePolicy storages log').1 = .ok p' ∧
      ∀ name ∈ d.effectiveOrder, ∃ r r' c, t.lookup? name = some r ∧ t'.lookup? name = some r' ∧
        p.get? r = some c ∧ p'.get? r' = some c := by
  have ht := Description.build_eq_ok_iff.mp hbuild
  have ht' := Description.build_eq_ok_iff.mp hbuild'
  by_cases hall : ∀ s ∈ storages, t.Touchable s
  · right
    have hall' : ∀ s ∈ storages, t'.Touchable s :=
      fun s hs => (h.touchable_iff ht ht' hsize s).mp (hall s hs)
    obtain ⟨set, hset, hcollects⟩ := Table.touchedSet_of_touchable hall
    obtain ⟨set', hset', hcollects'⟩ := Table.touchedSet_of_touchable hall'
    refine ⟨_, _, Table.savePolicy_eq_ok_iff.mpr ⟨set, hset, rfl⟩,
      Table.savePolicy_eq_ok_iff.mpr ⟨set', hset', rfl⟩, ?_⟩
    intro name hname
    obtain ⟨r, hr⟩ := ht.exists_lookup?_iff.mpr hname
    obtain ⟨r', hr'⟩ := ht'.exists_lookup?_iff.mpr (h.order_perm.mem_iff.mpr hname)
    refine ⟨r, r', _, hr, hr', Table.get?_classify (ht.lookup?_lt hsize hr), ?_⟩
    rw [Table.get?_classify (ht'.lookup?_lt (h.names_lt ht ht' hsize) hr'),
      h.saveClass_eq ht ht' hsize hcollects hcollects' hr hr']
  · left
    obtain ⟨before, s, after, rfl, hbefore, hs⟩ := exists_first_not (by simpa using hall)
    have hbefore' : ∀ b ∈ before, t'.Touchable b :=
      fun b hb => (h.touchable_iff ht ht' hsize b).mp (hbefore b hb)
    have hs' : ¬ t'.Touchable s := mt (h.touchable_iff ht ht' hsize s).mpr hs
    refine ⟨t.refusal s, ?_, ?_⟩
    · rw [Table.savePolicy_eq_error_iff, Table.touchedSet_of_first_refused hbefore hs]
    · rw [Table.savePolicy_eq_error_iff, Table.touchedSet_of_first_refused hbefore' hs',
        h.refusal_eq ht ht' hsize hs]

/-- The sample's steps with another order, in which `A` still follows `A_H`. -/
def renumberedSteps : List Description.Step :=
  [.registerClass 0 "gpr" ["A", "B", "C"] ["", "_H"], .registerClass 5 "none" [] ["x"],
    .stackClass 2 "stack" 2 8, .registerClass 1 "vec" ["V0", "V1"] [""],
    .allocatorOnly ["FLAGS", "PC"], .framePointer "A_H" true,
    .order ["B_H", "A_H", "A", "FLAGS", "V1", "B"]]

def renumberedTable : Table where
  name := "sample"
  classes := [⟨0, "gpr", .registers 0 3 2⟩, ⟨5, "none", .registers 6 0 1⟩,
    ⟨2, "stack", .stack 2 8⟩, ⟨1, "vec", .registers 6 2 1⟩]
  slots := [some ⟨2⟩, some ⟨1⟩, some ⟨5⟩, some ⟨0⟩, none, none, none, some ⟨4⟩]
  names := ["B_H", "A_H", "A", "FLAGS", "V1", "B"]
  framePointer := ⟨1⟩
  framePaired := true
  stackBase := 6

/-- `B` is the second register of one table and the last of the other. -/
theorem savePolicy_renumbered_sample :
    (Description.ofSteps "sample" sampleSteps).Renumbers
      (Description.ofSteps "sample" renumberedSteps) ∧
      (Description.ofSteps "sample" sampleSteps).build = .ok sampleTable ∧
      (Description.ofSteps "sample" renumberedSteps).build = .ok renumberedTable ∧
      sampleTable.names.length < 2 ^ 32 ∧
      ∃ p p', (sampleTable.savePolicy [⟨0, 1⟩, ⟨0, 0⟩, ⟨1, 1⟩] .off).1 = .ok p ∧
        (renumberedTable.savePolicy [⟨0, 1⟩, ⟨0, 0⟩, ⟨1, 1⟩] .off).1 = .ok p' ∧
        sampleTable.lookup? "B" = some ⟨1⟩ ∧ renumberedTable.lookup? "B" = some ⟨5⟩ ∧
        p.get? ⟨1⟩ = some .mustPreserve ∧ p'.get? ⟨5⟩ = some .mustPreserve := by
  have hrenumbers : (Description.ofSteps "sample" sampleSteps).Renumbers
      (Description.ofSteps "sample" renumberedSteps) := by
    refine ⟨rfl, rfl, rfl, rfl, rfl, by decide, ?_⟩
    intro name hname
    obtain rfl : "A_H" = name := congrArg FramePointer.name (Option.some.inj hname)
    exact ⟨"A", by decide, by decide⟩
  have hbuild : (Description.ofSteps "sample" renumberedSteps).build = .ok renumberedTable := rfl
  have hnames := addressable_sampleTable.names_lt
  have hpolicy : (sampleTable.savePolicy [⟨0, 1⟩, ⟨0, 0⟩, ⟨1, 1⟩] .off).1 = .ok samplePolicy := rfl
  refine ⟨hrenumbers, build_sample, hbuild, hnames, ?_⟩
  obtain ⟨e, he, -⟩ | ⟨p, p', hp, hp', hclasses⟩ := savePolicy_renumbered hrenumbers build_sample
    hbuild hnames [⟨0, 1⟩, ⟨0, 0⟩, ⟨1, 1⟩] .off .off
  · rw [hpolicy] at he
    cases he
  · obtain rfl := Except.ok.inj (hpolicy.symm.trans hp)
    obtain ⟨r, r', c, hr, hr', hc, hc'⟩ := hclasses "B" (by decide)
    obtain rfl := Option.some.inj hr
    obtain rfl := Option.some.inj hr'
    obtain rfl : SaveClass.mustPreserve = c := Option.some.inj hc
    exact ⟨_, _, hp, hp', rfl, rfl, rfl, hc'⟩

end ForeignCall
