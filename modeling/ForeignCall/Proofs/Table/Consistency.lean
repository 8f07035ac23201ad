import ForeignCall.Proofs.Register
import ForeignCall.Table.Build

/-! # Consistent descriptions

The checks of `Description.build` stop at the first fault. Read together they say
what a description with no fault looks like, and which table it stands for. -/

namespace ForeignCall

/-! ## Descriptions from steps -/

namespace Description

theorem name_foldl_add (d : Description) (steps : List Step) :
    (steps.foldl add d).name = d.name := by
  induction steps generalizing d with
  | nil => rfl
  | cons step rest ih =>
      rw [List.foldl_cons, ih]
      cases step <;> rfl

theorem name_ofSteps (name : String) (steps : List Step) : (ofSteps name steps).name = name :=
  name_foldl_add { name := name } steps

/-- The class that a step adds. -/
def Step.class? : Step → Option ClassDescription
  | .registerClass kind name names suffixes => some ⟨kind, name, .registers names suffixes⟩
  | .stackClass kind name slotsPerIndex limit => some ⟨kind, name, .stack slotsPerIndex limit⟩
  | _ => none

theorem classes_foldl_add (d : Description) (steps : List Step) :
    (steps.foldl add d).classes = d.classes ++ steps.filterMap Step.class? := by
  induction steps generalizing d with
  | nil => simp
  | cons step rest ih =>
      rw [List.foldl_cons, ih]
      cases step <;> simp [add, Step.class?, List.filterMap_cons]

theorem classes_ofSteps (name : String) (steps : List Step) :
    (ofSteps name steps).classes = steps.filterMap Step.class? :=
  classes_foldl_add { name := name } steps

theorem registers_mem_ofSteps_iff {name className : String} {steps : List Step} {kind : UInt32}
    {names suffixes : List String} :
    ⟨kind, className, .registers names suffixes⟩ ∈ (ofSteps name steps).classes ↔
      .registerClass kind className names suffixes ∈ steps := by
  rw [classes_ofSteps, List.mem_filterMap]
  constructor
  · rintro ⟨step, hmem, hstep⟩
    cases step <;> simp_all [Step.class?]
  · intro hmem
    exact ⟨_, hmem, rfl⟩

theorem stack_mem_ofSteps_iff {name className : String} {steps : List Step}
    {kind width limit : UInt32} :
    ⟨kind, className, .stack width limit⟩ ∈ (ofSteps name steps).classes ↔
      .stackClass kind className width limit ∈ steps := by
  rw [classes_ofSteps, List.mem_filterMap]
  constructor
  · rintro ⟨step, hmem, hstep⟩
    cases step <;> simp_all [Step.class?]
  · intro hmem
    exact ⟨_, hmem, rfl⟩

/-- The names that a step adds to the allocation order. -/
def Step.order? : Step → Option (List String)
  | .order names => some names
  | _ => none

theorem order_foldl_add (d : Description) (steps : List Step) :
    (steps.foldl add d).order = d.order ++ (steps.filterMap Step.order?).flatten := by
  induction steps generalizing d with
  | nil => simp
  | cons step rest ih =>
      rw [List.foldl_cons, ih]
      cases step <;> simp [add, Step.order?, List.filterMap_cons]

theorem order_ofSteps (name : String) (steps : List Step) :
    (ofSteps name steps).order = (steps.filterMap Step.order?).flatten :=
  order_foldl_add { name := name } steps

theorem effectiveOrder_of_ne_nil {d : Description} (h : d.order ≠ []) :
    d.effectiveOrder = d.order := by
  rw [effectiveOrder, if_neg]
  rwa [List.isEmpty_iff]

/-- The names that a step adds to those that no storage has. -/
def Step.allocatorOnly? : Step → Option (List String)
  | .allocatorOnly names => some names
  | _ => none

theorem allocatorOnly_foldl_add (d : Description) (steps : List Step) :
    (steps.foldl add d).allocatorOnly =
      d.allocatorOnly ++ (steps.filterMap Step.allocatorOnly?).flatten := by
  induction steps generalizing d with
  | nil => simp
  | cons step rest ih =>
      rw [List.foldl_cons, ih]
      cases step <;> simp [add, Step.allocatorOnly?, List.filterMap_cons]

theorem allocatorOnly_ofSteps (name : String) (steps : List Step) :
    (ofSteps name steps).allocatorOnly = (steps.filterMap Step.allocatorOnly?).flatten :=
  allocatorOnly_foldl_add { name := name } steps

/-- The stack base that a step asks for. -/
def Step.stackBase? : Step → Option UInt32
  | .stackBase number => some number
  | _ => none

/-- Of the stack bases asked for, the last one counts. -/
theorem stackBase_foldl_add (d : Description) (steps : List Step) :
    (steps.foldl add d).stackBase = (steps.reverse.findSome? Step.stackBase?).or d.stackBase := by
  induction steps generalizing d with
  | nil => simp
  | cons step rest ih =>
      rw [List.foldl_cons, ih, List.reverse_cons, List.findSome?_append, Option.or_assoc]
      cases step <;> simp [add, Step.stackBase?]

theorem stackBase_ofSteps (name : String) (steps : List Step) :
    (ofSteps name steps).stackBase = steps.reverse.findSome? Step.stackBase? := by
  rw [ofSteps, stackBase_foldl_add, Option.or_none]

end Description

/-! ## Single checks -/

theorem bind_eq_ok_iff {α β ε : Type} {first : Except ε α} {next : α → Except ε β} {b : β} :
    (first >>= next) = .ok b ↔ ∃ a, first = .ok a ∧ next a = .ok b := by
  cases first with
  | error e => simp [bind, Except.bind]
  | ok a => simp [bind, Except.bind]

theorem mapError_eq_ok_iff {α ε ε' : Type} {f : ε → ε'} {result : Except ε α} {a : α} :
    result.mapError f = .ok a ↔ result = .ok a := by
  cases result with
  | error e => exact ⟨nofun, nofun⟩
  | ok b =>
      change Except.ok b = .ok a ↔ _
      simp only [Except.ok.injEq]

namespace TableFault

theorem require_eq_ok_iff {p : Prop} [Decidable p] {fault : TableFault} {u : Unit} :
    require p fault = .ok u ↔ p := by
  by_cases h : p <;> simp [require, h]

theorem requireNone_eq_ok_iff {found : Option TableFault} {u : Unit} :
    requireNone found = .ok u ↔ found = none := by
  cases found <;> simp [requireNone]

end TableFault

theorem firstRepeated_eq_none_iff {α : Type} [DecidableEq α] (seen xs : List α) :
    firstRepeated seen xs = none ↔ xs.Nodup ∧ ∀ x ∈ xs, x ∉ seen := by
  induction xs generalizing seen with
  | nil => simp [firstRepeated]
  | cons x xs ih =>
      by_cases h : x ∈ seen
      · simp [firstRepeated, h]
      · simp only [firstRepeated, h, ite_false, ih, List.nodup_cons, List.mem_cons]
        grind

theorem orderFault?_eq_none_iff (known seen order : List String) :
    orderFault? known seen order = none ↔
      (∀ name ∈ order, name ∈ known) ∧ order.Nodup ∧ ∀ name ∈ order, name ∉ seen := by
  induction order generalizing seen with
  | nil => simp [orderFault?]
  | cons name rest ih =>
      by_cases hknown : name ∈ known
      · by_cases hseen : name ∈ seen
        · simp [orderFault?, hknown, hseen]
        · simp only [orderFault?, hknown, hseen, not_true, ite_false, ih, List.nodup_cons,
            List.mem_cons]
          grind
      · simp [orderFault?, hknown]

namespace ClassDescription

/-- Registers take slots, and an index of a stack class takes stack slots. -/
def Sound (c : ClassDescription) : Prop :=
  match c.contents with
  | .registers names suffixes => names ≠ [] → suffixes ≠ []
  | .stack slotsPerIndex _ => slotsPerIndex ≠ 0

theorem fault?_eq_none_iff (earlier : List ClassDescription) (c : ClassDescription) :
    c.fault? earlier = none ↔
      c.kind ∉ earlier.map ClassDescription.kind ∧
      caseFold c.name ∉ earlier.map (caseFold ·.name) ∧ c.Sound := by
  unfold fault? Sound
  by_cases hkind : c.kind ∈ earlier.map ClassDescription.kind
  · simp only [hkind, ite_true, reduceCtorEq, not_true, false_and]
  · by_cases hname : caseFold c.name ∈ earlier.map (caseFold ·.name)
    · simp only [hkind, hname, ite_true, ite_false, reduceCtorEq, not_true, false_and, and_false]
    · simp only [hkind, hname, ite_false, not_false_eq_true, true_and]
      cases c.contents with
      | registers names suffixes => simp
      | stack slotsPerIndex limit => simp

/-- No class repeats the kind or the name of one before it, and all are sound. -/
theorem firstFault?_eq_none_iff (earlier classes : List ClassDescription) :
    firstFault? earlier classes = none ↔
      ((classes.map ClassDescription.kind).Nodup ∧
        ∀ kind ∈ classes.map ClassDescription.kind, kind ∉ earlier.map ClassDescription.kind) ∧
      ((classes.map (caseFold ·.name)).Nodup ∧
        ∀ name ∈ classes.map (caseFold ·.name), name ∉ earlier.map (caseFold ·.name)) ∧
      ∀ c ∈ classes, c.Sound := by
  induction classes generalizing earlier with
  | nil => simp [firstFault?]
  | cons c rest ih =>
      rw [firstFault?]
      cases hfault : c.fault? earlier with
      | some fault =>
          simp only [reduceCtorEq, false_iff]
          rintro ⟨⟨-, hkinds⟩, ⟨-, hnames⟩, hsound⟩
          have hnone : c.fault? earlier = none := (fault?_eq_none_iff earlier c).mpr
            ⟨hkinds _ (by simp), hnames _ (by simp), hsound c (by simp)⟩
          simp [hfault] at hnone
      | none =>
          obtain ⟨hkind, hname, hsound⟩ := (fault?_eq_none_iff earlier c).mp hfault
          simp only [ih, List.map_cons, List.nodup_cons, List.mem_cons]
          grind

end ClassDescription

/-! ## Frame pointers -/

namespace Description

/-- A frame pointer counts where its name has a place in the order, and where a paired
one has a register after it. -/
theorem locateFramePointer_eq_ok_iff {d : Description} {r : Register} {paired : Bool} :
    d.locateFramePointer = .ok (r, paired) ↔
      ∃ name, d.framePointer = some ⟨name, paired⟩ ∧
        registerNamed? d.effectiveOrder name = some r ∧
        (paired → r.number + 1 < d.registerCount) := by
  unfold locateFramePointer
  cases d.framePointer with
  | none => simp
  | some fp =>
      obtain ⟨name, asked⟩ := fp
      cases hfound : registerNamed? d.effectiveOrder name with
      | none => simp [hfound]
      | some found =>
          dsimp only
          grind [UInt32.not_le]

end Description

/-! ## Building -/

/-- A description without fault, and the table that it stands for. -/
structure Description.Built (d : Description) (t : Table) : Prop where
  kinds_nodup : (d.classes.map ClassDescription.kind).Nodup
  classNames_nodup : (d.classes.map (caseFold ·.name)).Nodup
  classes_sound : ∀ c ∈ d.classes, c.Sound
  knownNames_nodup : d.knownNames.Nodup
  order_known : ∀ name ∈ d.effectiveOrder, name ∈ d.knownNames
  order_nodup : d.effectiveOrder.Nodup
  registerCount_ne_zero : d.registerCount ≠ 0
  framePointer_located : d.locateFramePointer = .ok (t.framePointer, t.framePaired)
  registerCount_le : d.registerCount ≤ d.firstStackSlot
  stack_fits : ∀ c ∈ d.classes, Description.stackFits d.firstStackSlot c
  name_eq : t.name = d.name
  classes_eq : t.classes = assignSlots 0 d.classes
  slots_eq : t.slots = d.slotNames.map (registerNamed? d.effectiveOrder)
  names_eq : t.names = d.effectiveOrder
  stackBase_eq : t.stackBase = d.firstStackSlot

namespace Description

/-- The table that the description stands for, once its frame pointer has been located. -/
def toTable (d : Description) (framePointer : Register) (framePaired : Bool) : Table where
  name := d.name
  classes := assignSlots 0 d.classes
  slots := d.slotNames.map (registerNamed? d.effectiveOrder)
  names := d.effectiveOrder
  framePointer := framePointer
  framePaired := framePaired
  stackBase := d.firstStackSlot

/-- In 64 bits a product of 32-bit numbers leaves room for one more of them. -/
theorem toNat_mul_add_toUInt64 (limit width stackBase : UInt32) :
    (limit.toUInt64 * width.toUInt64 + stackBase.toUInt64).toNat =
      limit.toNat * width.toNat + stackBase.toNat := by
  have hbase := stackBase.toNat_lt
  have hproduct : limit.toNat * width.toNat ≤ (2 ^ 32 - 1) * (2 ^ 32 - 1) :=
    Nat.mul_le_mul (Nat.le_sub_one_of_lt limit.toNat_lt) (Nat.le_sub_one_of_lt width.toNat_lt)
  simp only [UInt64.toNat_add, UInt64.toNat_mul, UInt32.toNat_toUInt64]
  rw [Nat.mod_eq_of_lt (by omega : limit.toNat * width.toNat < 2 ^ 64), Nat.mod_eq_of_lt (by omega)]

/-- The sum is exact in 64 bits, so it decides whether the stack slots fit into 32. -/
theorem stackFits_stack_iff {stackBase kind width limit : UInt32} {name : String} :
    stackFits stackBase ⟨kind, name, .stack width limit⟩ ↔
      stackBase.toNat + limit.toNat * width.toNat < 2 ^ 32 := by
  simp only [stackFits, decide_eq_true_eq, UInt64.le_iff_toNat_le, toNat_mul_add_toUInt64]
  change _ ≤ 2 ^ 32 - 1 ↔ _
  omega

theorem stackFault?_eq_none_iff (d : Description) :
    d.stackFault? = none ↔ ∀ c ∈ d.classes, stackFits d.firstStackSlot c := by
  simp [stackFault?]

/-- A table is built exactly from the descriptions without fault, and each stands for
one table. -/
theorem build_eq_ok_iff {d : Description} {t : Table} : d.build = .ok t ↔ d.Built t := by
  unfold build buildChecked
  simp only [mapError_eq_ok_iff, bind_eq_ok_iff, TableFault.require_eq_ok_iff,
    TableFault.requireNone_eq_ok_iff, ClassDescription.firstFault?_eq_none_iff,
    orderFault?_eq_none_iff, stackFault?_eq_none_iff, Option.map_eq_none_iff,
    firstRepeated_eq_none_iff, List.map_nil, List.not_mem_nil, not_false_eq_true, implies_true,
    and_true, exists_const]
  constructor
  · rintro ⟨⟨hkinds, hclassNames, hsound⟩, hknown, ⟨hsubset, horder⟩, hcount, frame, hframe,
      hstack, hfits, hreturn⟩
    cases hreturn
    exact ⟨hkinds, hclassNames, hsound, hknown, hsubset, horder, hcount, hframe, hstack, hfits,
      rfl, rfl, rfl, rfl, rfl⟩
  · intro h
    refine ⟨⟨h.kinds_nodup, h.classNames_nodup, h.classes_sound⟩, h.knownNames_nodup,
      ⟨h.order_known, h.order_nodup⟩, h.registerCount_ne_zero, _, h.framePointer_located,
      h.registerCount_le, h.stack_fits, ?_⟩
    rw [← h.name_eq, ← h.classes_eq, ← h.slots_eq, ← h.names_eq, ← h.stackBase_eq]
    rfl

end Description

/-! ## Stack slots -/

namespace Description.Built

variable {d : Description} {t : Table}

theorem registerCount_le_stackBase (h : d.Built t) : t.registerCount ≤ t.stackBase := by
  rw [Table.registerCount, h.names_eq, h.stackBase_eq]
  exact h.registerCount_le

theorem stack_lt (h : d.Built t) {kind width limit : UInt32} {className : String}
    (hmem : ⟨kind, className, .stack width limit⟩ ∈ d.classes) :
    t.stackBase.toNat + limit.toNat * width.toNat < 2 ^ 32 := by
  rw [h.stackBase_eq]
  exact stackFits_stack_iff.mp (h.stack_fits _ hmem)

end Description.Built

end ForeignCall
