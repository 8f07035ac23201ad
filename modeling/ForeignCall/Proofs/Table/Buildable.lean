import Mathlib.Algebra.Group.Even
import Mathlib.Order.Bounds.Basic
import ForeignCall.Proofs.Table.WellFormed

/-! # Which descriptions have a table

The checks of a description read it once, stop at the first fault, and look at each class
and name in the light of those before it. Together they ask for conditions on the whole
that do not depend on this order, and that a reader of the steps can judge. -/

namespace ForeignCall

/-! ## What steps add up to -/

namespace Description

/-- The frame pointer that a step gives. -/
def Step.framePointer? : Step → Option FramePointer
  | .framePointer name paired => some ⟨name, paired⟩
  | _ => none

/-- Of the frame pointers given, the last one counts. -/
theorem framePointer_foldl_add (d : Description) (steps : List Step) :
    (steps.foldl add d).framePointer =
      (steps.reverse.findSome? Step.framePointer?).or d.framePointer := by
  induction steps generalizing d with
  | nil => simp
  | cons step rest ih =>
      rw [List.foldl_cons, ih, List.reverse_cons, List.findSome?_append, Option.or_assoc]
      cases step <;> simp [add, Step.framePointer?]

/-- The description with everything that the steps say: classes and names in the order of
the steps, the last frame pointer and the last stack base. -/
def gather (name : String) (steps : List Step) : Description where
  name := name
  classes := steps.filterMap Step.class?
  allocatorOnly := (steps.filterMap Step.allocatorOnly?).flatten
  order := (steps.filterMap Step.order?).flatten
  framePointer := steps.reverse.findSome? Step.framePointer?
  stackBase := steps.reverse.findSome? Step.stackBase?

theorem ofSteps_eq_gather (name : String) (steps : List Step) :
    ofSteps name steps = gather name steps := by
  have hframe : (ofSteps name steps).framePointer = steps.reverse.findSome? Step.framePointer? := by
    rw [ofSteps, framePointer_foldl_add, Option.or_none]
  change Description.mk (ofSteps name steps).name (ofSteps name steps).classes
    (ofSteps name steps).allocatorOnly (ofSteps name steps).order
    (ofSteps name steps).framePointer (ofSteps name steps).stackBase = _
  rw [name_ofSteps, classes_ofSteps, allocatorOnly_ofSteps, order_ofSteps, hframe,
    stackBase_ofSteps, gather]

/-! ## Conditions on the whole description -/

/-- The stack starts where asked, else at the least even number past all registers. -/
inductive StackStartsAt (d : Description) : Nat → Prop where
  | asked {base} : d.stackBase = some base → StackStartsAt d base.toNat
  | least {n} : d.stackBase = none → IsLeast {n | d.effectiveOrder.length ≤ n ∧ Even n} n →
      StackStartsAt d n

/-- No class and no name gets in the way of another one, the frame pointer has its place
among the registers, and the stack has room above them. -/
structure Consistent (d : Description) : Prop where
  kinds_distinct : (d.classes.map ClassDescription.kind).Nodup
  classNames_distinct : d.classes.Pairwise fun c c' => ¬ SameName c.name c'.name
  registers_have_suffix : ∀ kind className names suffixes,
    ⟨kind, className, .registers names suffixes⟩ ∈ d.classes → names ≠ [] → suffixes ≠ []
  stack_has_width : ∀ kind className width limit,
    ⟨kind, className, .stack width limit⟩ ∈ d.classes → 0 < width
  names_distinct : (d.slotNames ++ d.allocatorOnly).Nodup
  order_distinct : d.order.Nodup
  order_known : ∀ name ∈ d.order, name ∈ d.slotNames ++ d.allocatorOnly
  order_nonempty : d.effectiveOrder ≠ []
  frame_placed : ∃ name paired, d.framePointer = some ⟨name, paired⟩ ∧
    name ∈ d.effectiveOrder ∧ (paired = true → d.effectiveOrder.getLast? ≠ some name)
  stack_fits : ∃ base, d.StackStartsAt base ∧ d.effectiveOrder.length ≤ base ∧
    ∀ kind className width limit, ⟨kind, className, .stack width limit⟩ ∈ d.classes →
      base + limit.toNat * width.toNat ≤ 2 ^ 32 - 1

variable {d : Description}

theorem forall_sound_iff : (∀ c ∈ d.classes, c.Sound) ↔
    (∀ kind className names suffixes,
      ⟨kind, className, .registers names suffixes⟩ ∈ d.classes → names ≠ [] → suffixes ≠ []) ∧
    ∀ kind className width limit, ⟨kind, className, .stack width limit⟩ ∈ d.classes →
      0 < width := by
  constructor
  · intro h
    refine ⟨fun kind className names suffixes hmem => h _ hmem, ?_⟩
    intro kind className width limit hmem
    exact UInt32.pos_iff_ne_zero.mpr (h _ hmem)
  · rintro ⟨hregisters, hstack⟩ ⟨kind, className, contents⟩ hmem
    cases contents with
    | registers names suffixes => exact hregisters kind className names suffixes hmem
    | stack width limit =>
        exact UInt32.pos_iff_ne_zero.mp (hstack kind className width limit hmem)

/-- The order that is used passes its check where the one asked for does. Slot order needs
no check of its own. -/
theorem effectiveOrder_distinct_known_iff (hknown : d.knownNames.Nodup) :
    (d.effectiveOrder.Nodup ∧ ∀ name ∈ d.effectiveOrder, name ∈ d.knownNames) ↔
      d.order.Nodup ∧ ∀ name ∈ d.order, name ∈ d.knownNames := by
  by_cases horder : d.order = []
  · have hdefault : d.effectiveOrder = d.knownNames := by simp [effectiveOrder, horder]
    simp [hdefault, horder, hknown]
  · rw [effectiveOrder_of_ne_nil horder]

/-! ## Exact counts -/

section Size

variable (hsize : d.effectiveOrder.length < 2 ^ 32 - 1)

include hsize

theorem toNat_registerCount : d.registerCount.toNat = d.effectiveOrder.length :=
  toNat_toUInt32_of_lt (by omega)

theorem registerCount_ne_zero_iff : d.registerCount ≠ 0 ↔ d.effectiveOrder ≠ [] := by
  rw [Ne, ← UInt32.toNat_inj, toNat_registerCount hsize, UInt32.toNat_zero,
    List.length_eq_zero_iff]

/-- A register has one after it exactly if its name is not the last one. -/
theorem next_lt_registerCount_iff (hnodup : d.effectiveOrder.Nodup) {name : String} {r : Register}
    (hr : registerNamed? d.effectiveOrder name = some r) :
    r.number + 1 < d.registerCount ↔ d.effectiveOrder.getLast? ≠ some name := by
  have hplace := (registerNamed?_eq_some_iff hnodup (by omega)).mp hr
  obtain ⟨hlt, -⟩ := List.getElem?_eq_some_iff.mp hplace
  have hnext : (r.number + 1).toNat = r.position + 1 := r.position_next (by omega)
  rw [UInt32.lt_iff_toNat_lt, hnext, toNat_registerCount hsize, List.getLast?_eq_getElem?,
    ← hplace, Ne, List.getElem?_inj (by omega) hnodup]
  omega

theorem exists_located_iff (hnodup : d.effectiveOrder.Nodup) :
    (∃ r paired, d.locateFramePointer = .ok (r, paired)) ↔
      ∃ name paired, d.framePointer = some ⟨name, paired⟩ ∧ name ∈ d.effectiveOrder ∧
        (paired = true → d.effectiveOrder.getLast? ≠ some name) := by
  simp only [locateFramePointer_eq_ok_iff]
  constructor
  · rintro ⟨r, paired, name, hframe, hr, hroom⟩
    refine ⟨name, paired, hframe, ?_, ?_⟩
    · apply Decidable.not_not.mp
      rw [← registerNamed?_eq_none_iff, hr]
      exact Option.some_ne_none r
    · intro hpaired
      exact (next_lt_registerCount_iff hsize hnodup hr).mp (hroom hpaired)
  · rintro ⟨name, paired, hframe, hmem, hroom⟩
    obtain ⟨r, hr⟩ := Option.ne_none_iff_exists'.mp
      (mt registerNamed?_eq_none_iff.mp (not_not.mpr hmem))
    exact ⟨r, paired, name, hframe, hr,
      fun hpaired => (next_lt_registerCount_iff hsize hnodup hr).mpr (hroom hpaired)⟩

theorem stackStartsAt_iff {n : Nat} : d.StackStartsAt n ↔ n = d.firstStackSlot.toNat := by
  cases hbase : d.stackBase with
  | some base =>
      have hfirst : d.firstStackSlot = base := by rw [firstStackSlot, hbase, Option.getD_some]
      rw [hfirst]
      constructor
      · intro h
        cases h <;> simp_all
      · rintro rfl
        exact .asked hbase
  | none =>
      have hfirst : d.firstStackSlot = (d.registerCount + 1) &&& ~~~1 := by
        rw [firstStackSlot, hbase, Option.getD_none]
      have hlt : d.registerCount.toNat < 2 ^ 32 - 1 := by rwa [toNat_registerCount hsize]
      have hleast := isLeast_evenPast hlt
      rw [toNat_registerCount hsize, ← hfirst] at hleast
      constructor
      · intro h
        cases h with
        | asked hasked => simp [hbase] at hasked
        | least _ h => exact h.unique hleast
      · rintro rfl
        exact .least hbase hleast

theorem stack_room_iff : (d.registerCount ≤ d.firstStackSlot ∧
      ∀ c ∈ d.classes, stackFits d.firstStackSlot c) ↔
    ∃ base, d.StackStartsAt base ∧ d.effectiveOrder.length ≤ base ∧
      ∀ kind className width limit, ⟨kind, className, .stack width limit⟩ ∈ d.classes →
        base + limit.toNat * width.toNat ≤ 2 ^ 32 - 1 := by
  simp only [stackStartsAt_iff hsize, exists_eq_left, UInt32.le_iff_toNat_le,
    toNat_registerCount hsize]
  refine and_congr_right fun _ => ?_
  constructor
  · intro h kind className width limit hmem
    exact Nat.le_sub_one_of_lt (stackFits_stack_iff.mp (h _ hmem))
  · rintro h ⟨kind, className, contents⟩ hmem
    cases contents with
    | registers names suffixes => rfl
    | stack width limit =>
        have hle := h kind className width limit hmem
        exact stackFits_stack_iff.mpr (by omega)

/-! ## The checks as a whole -/

theorem exists_built_iff : (∃ t, d.Built t) ↔ d.Consistent := by
  constructor
  · rintro ⟨t, h⟩
    obtain ⟨hsuffix, hwidth⟩ := forall_sound_iff.mp h.classes_sound
    obtain ⟨hdistinct, hknown⟩ := (effectiveOrder_distinct_known_iff h.knownNames_nodup).mp
      ⟨h.order_nodup, h.order_known⟩
    exact ⟨h.kinds_nodup, nodup_map_caseFold_iff.mp h.classNames_nodup, hsuffix, hwidth,
      h.knownNames_nodup, hdistinct, hknown,
      (registerCount_ne_zero_iff hsize).mp h.registerCount_ne_zero,
      (exists_located_iff hsize h.order_nodup).mp ⟨_, _, h.framePointer_located⟩,
      (stack_room_iff hsize).mp ⟨h.registerCount_le, h.stack_fits⟩⟩
  · intro h
    obtain ⟨horder, hknown⟩ := (effectiveOrder_distinct_known_iff h.names_distinct).mpr
      ⟨h.order_distinct, h.order_known⟩
    obtain ⟨r, paired, hframe⟩ := (exists_located_iff hsize horder).mpr h.frame_placed
    obtain ⟨hcount, hfits⟩ := (stack_room_iff hsize).mpr h.stack_fits
    exact ⟨d.toTable r paired, h.kinds_distinct,
      nodup_map_caseFold_iff.mpr h.classNames_distinct,
      forall_sound_iff.mpr ⟨h.registers_have_suffix, h.stack_has_width⟩, h.names_distinct,
      hknown, horder, (registerCount_ne_zero_iff hsize).mpr h.order_nonempty, hframe, hcount,
      hfits, rfl, rfl, rfl, rfl, rfl⟩

end Size

/-- What is not built is refused as inconsistent, in the name of the description. -/
theorem exists_inconsistent_of_not_built (h : ¬ ∃ t, d.build = .ok t) :
    ∃ reason, d.build = .error ⟨.inconsistentTable reason, d.name⟩ := by
  unfold build at h ⊢
  cases hchecked : d.buildChecked with
  | ok t => exact absurd ⟨t, by rw [hchecked]; rfl⟩ h
  | error fault => exact ⟨fault.message, rfl⟩

end Description

/-- Steps have a table exactly where they are consistent as a whole, and else an error
that carries their name. -/
theorem build_succeeds_iff {name : String} {steps : List Description.Step}
    (hsize : (Description.gather name steps).effectiveOrder.length < 2 ^ 32 - 1) :
    ((∃ t, (Description.ofSteps name steps).build = .ok t) ↔
        (Description.gather name steps).Consistent) ∧
      (¬ (Description.gather name steps).Consistent → ∃ reason,
        (Description.ofSteps name steps).build = .error ⟨.inconsistentTable reason, name⟩) := by
  rw [Description.ofSteps_eq_gather]
  have hiff : (∃ t, (Description.gather name steps).build = .ok t) ↔
      (Description.gather name steps).Consistent := by
    simp only [Description.build_eq_ok_iff]
    exact Description.exists_built_iff hsize
  refine ⟨hiff, ?_⟩
  intro h
  exact Description.exists_inconsistent_of_not_built (mt hiff.mp h)

/-- Two registers of different classes whose names run into each other once the suffixes
are put after them. -/
def collidingSteps : List Description.Step :=
  [.registerClass 0 "gpr" ["R", "R1"] ["", "1x"], .registerClass 1 "vec" ["R11"] ["", "x"],
    .framePointer "R" false]

/-- The sample has a table, and the registers `R1` and `R11` take the same slot name. -/
theorem build_succeeds_sample :
    (Description.gather "sample" sampleSteps).effectiveOrder.length < 2 ^ 32 - 1 ∧
      (Description.gather "sample" sampleSteps).Consistent ∧
      (Description.gather "colliding" collidingSteps).effectiveOrder.length < 2 ^ 32 - 1 ∧
      ¬ (Description.gather "colliding" collidingSteps).Consistent ∧
      (∃ reason, (Description.ofSteps "colliding" collidingSteps).build =
        .error ⟨.inconsistentTable reason, "colliding"⟩) ∧
      (Description.ofSteps "colliding" collidingSteps).build =
        .error ⟨.inconsistentTable "register slot R11x is defined twice", "colliding"⟩ := by
  have hsample : (Description.gather "sample" sampleSteps).effectiveOrder.length < 2 ^ 32 - 1 := by
    decide
  have hcolliding :
      (Description.gather "colliding" collidingSteps).effectiveOrder.length < 2 ^ 32 - 1 := by
    decide
  have hnot : ¬ (Description.gather "colliding" collidingSteps).Consistent := by
    intro h
    exact absurd h.names_distinct (by decide)
  exact ⟨hsample, (build_succeeds_iff hsample).1.mp ⟨_, build_sample⟩, hcolliding, hnot,
    (build_succeeds_iff hcolliding).2 hnot, rfl⟩

end ForeignCall
