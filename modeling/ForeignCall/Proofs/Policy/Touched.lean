import ForeignCall.Policy.Compute
import ForeignCall.Proofs.BitSet.Scan
import ForeignCall.Proofs.Mapping

/-! # Touched registers

The storages are collected one after another. The invariant ties the set to the storages
seen so far; the first storage without a register of the table ends the collection. -/

namespace ForeignCall

/-- A list with an element outside `p` has a first one. -/
theorem exists_first_not {α : Type} {p : α → Prop} {xs : List α} (h : ∃ x ∈ xs, ¬ p x) :
    ∃ before x after, xs = before ++ x :: after ∧ (∀ b ∈ before, p b) ∧ ¬ p x := by
  induction xs with
  | nil => simp at h
  | cons y ys ih =>
      by_cases hy : p y
      · obtain ⟨x, hx, hnot⟩ := h
        rcases List.mem_cons.mp hx with rfl | hx
        · exact absurd hy hnot
        · obtain ⟨before, x', after, rfl, hbefore, hnot'⟩ := ih ⟨x, hx, hnot⟩
          exact ⟨y :: before, x', after, rfl, List.forall_mem_cons.mpr ⟨hy, hbefore⟩, hnot'⟩
      · exact ⟨[], y, ys, rfl, by simp, hy⟩

namespace Table

/-! ## One storage -/

/-- The storage resolves to a register of the table. -/
def Touchable (t : Table) (s : Storage) : Prop :=
  ∃ r, t.registerOf s = .ok r ∧ r.number < t.registerCount

theorem not_touchable_iff {t : Table} {s : Storage} :
    ¬ t.Touchable s ↔ (∀ r, t.registerOf s ≠ .ok r) ∨
      ∃ r, t.registerOf s = .ok r ∧ t.registerCount ≤ r.number := by
  cases hr : t.registerOf s with
  | error e => simp [Touchable, hr]
  | ok r => simp [Touchable, hr]

/-- The error of a storage that is not touchable. -/
def refusal (t : Table) (s : Storage) : Error :=
  match t.registerOf s with
  | .ok r => ⟨.outOfRange r t.registerCount, t.name⟩
  | .error e => e

theorem touch_of_registerOf {t : Table} {set : BitSet} {s : Storage} {r : Register}
    (hlength : set.length = t.registerCount.toNat) (hr : t.registerOf s = .ok r)
    (hlt : r.number < t.registerCount) :
    ∃ was more, t.touch set s = .ok more ∧ BitSet.SetSpec set r.position true was more := by
  have hposition : r.position < set.length := hlength ▸ UInt32.lt_iff_toNat_lt.mp hlt
  cases hset : set.set r.position true with
  | none =>
      have hle := BitSet.set_eq_none_iff.mp hset
      omega
  | some result =>
      obtain ⟨was, more⟩ := result
      refine ⟨was, more, ?_, BitSet.set_spec hset⟩
      simp [touch, hr, hset, bind, Except.bind]

theorem touch_of_not_touchable {t : Table} {set : BitSet} {s : Storage}
    (hlength : set.length = t.registerCount.toNat) (h : ¬ t.Touchable s) :
    t.touch set s = .error (t.refusal s) := by
  unfold touch refusal
  cases hr : t.registerOf s with
  | error e => rfl
  | ok r =>
      have hlarge : t.registerCount.toNat ≤ r.number.toNat := by
        rw [← UInt32.le_iff_toNat_le, ← UInt32.not_lt]
        exact fun hlt => h ⟨r, hr, hlt⟩
      have hnone : set.set r.position true = none :=
        BitSet.set_eq_none_iff.mpr (hlength ▸ hlarge)
      simp [hnone, bind, Except.bind]

/-! ## The collection -/

/-- The set holds the registers of the storages seen, and has room for the table's. -/
structure Collects (t : Table) (seen : List Storage) (set : BitSet) : Prop where
  length_eq : set.length = t.registerCount.toNat
  trim : set.Trim
  contains_iff : ∀ i, set.contains i = true ↔
    ∃ s ∈ seen, ∃ r, t.registerOf s = .ok r ∧ r.position = i

theorem collects_empty (t : Table) : t.Collects [] (BitSet.empty t.registerCount.toNat) := by
  refine ⟨rfl, BitSet.trim_empty _, ?_⟩
  intro i
  simp [BitSet.contains_empty]

/-- A touchable storage is collected. -/
theorem Collects.touch {t : Table} {seen : List Storage} {set : BitSet}
    (h : t.Collects seen set) {s : Storage} (hs : t.Touchable s) :
    ∃ more, t.touch set s = .ok more ∧ t.Collects (seen ++ [s]) more := by
  obtain ⟨r, hr, hlt⟩ := hs
  obtain ⟨was, more, htouch, hspec⟩ := touch_of_registerOf h.length_eq hr hlt
  refine ⟨more, htouch, hspec.length_eq.trans h.length_eq, hspec.trim h.trim, ?_⟩
  intro i
  rw [hspec.contains_eq]
  by_cases hi : i = r.position
  · simp only [hi, ite_true, true_iff]
    exact ⟨s, by simp, r, hr, rfl⟩
  · rw [if_neg hi, h.contains_iff]
    constructor
    · rintro ⟨s', hmem, hs'⟩
      exact ⟨s', List.mem_append_left _ hmem, hs'⟩
    · rintro ⟨s', hmem, r', hr', hposition⟩
      rcases List.mem_append.mp hmem with hmem | hmem
      · exact ⟨s', hmem, r', hr', hposition⟩
      · obtain rfl : s' = s := by simpa using hmem
        obtain rfl : r' = r := Except.ok.inj (hr'.symm.trans hr)
        exact absurd hposition.symm hi

/-- Touchable storages are all collected. -/
theorem Collects.foldlM {t : Table} {seen : List Storage} {set : BitSet}
    (h : t.Collects seen set) {storages : List Storage} (hs : ∀ s ∈ storages, t.Touchable s) :
    ∃ final, storages.foldlM t.touch set = .ok final ∧ t.Collects (seen ++ storages) final := by
  induction storages generalizing seen set with
  | nil => exact ⟨set, rfl, by simpa using h⟩
  | cons s rest ih =>
      obtain ⟨more, htouch, hmore⟩ := h.touch (hs s List.mem_cons_self)
      obtain ⟨final, hfinal, hcollects⟩ := ih hmore fun s hs' => hs s (List.mem_cons_of_mem _ hs')
      refine ⟨final, ?_, by simpa using hcollects⟩
      rw [List.foldlM_cons, htouch]
      exact hfinal

namespace Collects

variable {t : Table} {seen : List Storage} {set : BitSet}

theorem contains_position_iff (h : t.Collects seen set) {r : Register} :
    set.contains r.position = true ↔ ∃ s ∈ seen, t.registerOf s = .ok r := by
  rw [h.contains_iff]
  constructor
  · rintro ⟨s, hs, r', hr', hposition⟩
    exact ⟨s, hs, Register.position_inj.mp hposition ▸ hr'⟩
  · rintro ⟨s, hs, hr⟩
    exact ⟨s, hs, r, hr, rfl⟩

/-- The members of a collected set are the numbers of registers. -/
theorem lt_of_mem_toList (h : t.Collects seen set) {i : Nat} (hi : i ∈ set.toList) :
    i < 2 ^ 32 := by
  obtain ⟨s, -, r, -, rfl⟩ := (h.contains_iff i).mp ((BitSet.mem_toList_iff h.trim).mp hi)
  exact r.position_lt

theorem mem_registers_iff (h : t.Collects seen set) {r : Register} :
    r ∈ set.toList.map Register.ofNat ↔ ∃ s ∈ seen, t.registerOf s = .ok r := by
  rw [← h.contains_position_iff, ← BitSet.mem_toList_iff h.trim]
  exact Register.mem_map_ofNat_iff fun i hi => h.lt_of_mem_toList hi

theorem pairwise_registers (h : t.Collects seen set) :
    (set.toList.map Register.ofNat).Pairwise (·.number < ·.number) :=
  Register.pairwise_map_ofNat (BitSet.pairwise_toList h.trim) fun _ hi => h.lt_of_mem_toList hi

end Collects

theorem touchedSet_of_touchable {t : Table} {storages : List Storage}
    (hs : ∀ s ∈ storages, t.Touchable s) :
    ∃ set, t.touchedSet storages = .ok set ∧ t.Collects storages set :=
  t.collects_empty.foldlM hs

/-- The first storage that is not touchable decides the error. -/
theorem touchedSet_of_first_refused {t : Table} {before after : List Storage} {s : Storage}
    (hbefore : ∀ b ∈ before, t.Touchable b) (hs : ¬ t.Touchable s) :
    t.touchedSet (before ++ s :: after) = .error (t.refusal s) := by
  obtain ⟨set, hset, hcollects⟩ := touchedSet_of_touchable hbefore
  rw [touchedSet, List.foldlM_append]
  change (t.touchedSet before >>= fun set => (s :: after).foldlM t.touch set) = _
  rw [hset]
  change (s :: after).foldlM t.touch set = _
  rw [List.foldlM_cons, touch_of_not_touchable hcollects.length_eq hs]
  rfl

/-- A test that only storages without a register pass finds the one that is reported. -/
theorem touchedSet_of_find? {t : Table} {storages : List Storage} {refused : Storage → Bool}
    (hrefused : ∀ s ∈ storages, refused s = true ↔ ¬ t.Touchable s) {s : Storage}
    (h : storages.find? refused = some s) : t.touchedSet storages = .error (t.refusal s) := by
  obtain ⟨hs, before, after, rfl, hbefore⟩ := List.find?_eq_some_iff_append.mp h
  apply touchedSet_of_first_refused
  · intro b hb
    apply Classical.not_not.mp
    intro hnot
    have hb' := (hrefused b (List.mem_append_left _ hb)).mpr hnot
    simpa [hb'] using hbefore b hb
  · exact (hrefused s (by simp)).mp hs

theorem touchedSet_eq_ok {t : Table} {storages : List Storage} {set : BitSet}
    (h : t.touchedSet storages = .ok set) : t.Collects storages set := by
  by_cases hs : ∀ s ∈ storages, t.Touchable s
  · obtain ⟨set', hset', hcollects⟩ := touchedSet_of_touchable hs
    obtain rfl : set = set' := Except.ok.inj (h.symm.trans hset')
    exact hcollects
  · obtain ⟨before, s, after, rfl, hbefore, hnot⟩ := exists_first_not (by simpa using hs)
    simp [touchedSet_of_first_refused hbefore hnot] at h

/-- The collection fails exactly where some storage is not touchable. -/
theorem exists_touchedSet_eq_error_iff {t : Table} {storages : List Storage} :
    (∃ e, t.touchedSet storages = .error e) ↔ ∃ s ∈ storages, ¬ t.Touchable s := by
  constructor
  · rintro ⟨e, he⟩
    by_cases hs : ∀ s ∈ storages, t.Touchable s
    · obtain ⟨set, hset, -⟩ := touchedSet_of_touchable hs
      simp [hset] at he
    · simpa using hs
  · intro hexists
    obtain ⟨before, s, after, rfl, hbefore, hnot⟩ := exists_first_not hexists
    exact ⟨_, touchedSet_of_first_refused hbefore hnot⟩

/-- A policy is computed exactly where the registers are collected, and with the same error. -/
theorem savePolicy_eq_error_iff {t : Table} {storages : List Storage} {log : Log} {e : Error} :
    (t.savePolicy storages log).1 = .error e ↔ t.touchedSet storages = .error e := by
  unfold savePolicy
  cases t.touchedSet storages with
  | error e' => simp
  | ok set => simp

/-! ## Refused storages -/

/-- Why a storage is refused: it is not defined, or it lies on the stack. -/
inductive Refuses (t : Table) (s : Storage) : Cause → Prop where
  | undefined : (∀ r, t.registerOf s ≠ .ok r) → Refuses t s (.undefinedStorage s)
  | stack {className width limit r} :
      t.class? s.kind = some ⟨s.kind, className, .stack width limit⟩ → s.index < limit →
      r.number.toNat = t.stackBase.toNat + s.index.toNat * width.toNat →
      Refuses t s (.outOfRange r t.registerCount)

end Table

namespace Description.Built

variable {d : Description} {t : Table}

/-- A stack slot lies past all registers, so a stack storage is never touchable. -/
theorem not_touchable_of_refuses (h : d.Built t) {s : Storage} {cause : Cause}
    (hrefuses : t.Refuses s cause) : ¬ t.Touchable s ∧ t.refusal s = ⟨cause, t.name⟩ := by
  cases hrefuses with
  | undefined hnone =>
      refine ⟨fun ⟨r, hr, _⟩ => hnone r hr, ?_⟩
      simp [Table.refusal, Table.registerOf_eq_error_iff.mpr hnone, Table.undefined]
  | @stack className width limit r hclass hindex hnumber =>
      have hr : t.registerOf s = .ok r :=
        (h.registerOf_stack_iff (h.class?_stack_iff.mp hclass)).mpr ⟨hindex, hnumber⟩
      refine ⟨?_, by simp [Table.refusal, hr]⟩
      rintro ⟨r', hr', hlt⟩
      obtain rfl : r = r' := Except.ok.inj (hr.symm.trans hr')
      have hbase := UInt32.le_iff_toNat_le.mp h.registerCount_le_stackBase
      have hlt := UInt32.lt_iff_toNat_lt.mp hlt
      omega

/-- No register of the slot map leaves the table, so what is refused and yet resolves
lies on the stack. -/
theorem exists_refuses (h : d.Built t) (hsize : t.names.length < 2 ^ 32) {s : Storage}
    (hs : ¬ t.Touchable s) : ∃ cause, t.Refuses s cause := by
  cases hr : t.registerOf s with
  | error e =>
      exact ⟨_, .undefined (by simp [hr])⟩
  | ok r =>
      rcases Table.registerOf_eq_ok_iff.mp hr with
        ⟨className, base, count, width, hclass, hindex, hslot⟩ |
        ⟨className, width, limit, hclass, hindex, -⟩
      · exact absurd ⟨r, hr, h.register?_lt hsize hslot⟩ hs
      · have hmem := h.class?_stack_iff.mp hclass
        obtain ⟨-, hnumber⟩ := (h.registerOf_stack_iff hmem).mp hr
        exact ⟨_, .stack hclass hindex hnumber⟩

end Description.Built

/-! ## The contract of the collection -/

/-- The first storage that is not touchable decides the error, and without one the set
lists the storages' registers. The causes are all that `Refuses` names where the register
count is exact. -/
structure Table.TouchedSpec (t : Table) (storages : List Storage) : Prop where
  fails_iff : (∃ e, t.touchedSet storages = .error e) ↔
    ∃ s ∈ storages, (∀ r, t.registerOf s ≠ .ok r) ∨
      ∃ r, t.registerOf s = .ok r ∧ t.registerCount ≤ r.number
  error_of_first : ∀ before s after cause, storages = before ++ s :: after →
    (∀ b ∈ before, t.Touchable b) → t.Refuses s cause →
    t.touchedSet storages = .error ⟨cause, t.name⟩
  first_of_error : t.names.length < 2 ^ 32 → ∀ e, t.touchedSet storages = .error e →
    ∃ before s after cause, storages = before ++ s :: after ∧ (∀ b ∈ before, t.Touchable b) ∧
      t.Refuses s cause ∧ e = ⟨cause, t.name⟩
  policy_fails_iff : ∀ log e,
    (t.savePolicy storages log).1 = .error e ↔ t.touchedSet storages = .error e
  length_eq : ∀ set, t.touchedSet storages = .ok set → set.length = t.registerCount.toNat
  ascending : ∀ set, t.touchedSet storages = .ok set →
    (set.toList.map Register.ofNat).Pairwise (·.number < ·.number)
  mem_iff : ∀ set, t.touchedSet storages = .ok set →
    ∀ r, r ∈ set.toList.map Register.ofNat ↔ ∃ s ∈ storages, t.registerOf s = .ok r

theorem touchedSet_spec {d : Description} {t : Table} (hbuild : d.build = .ok t)
    (storages : List Storage) : t.TouchedSpec storages := by
  have h := Description.build_eq_ok_iff.mp hbuild
  refine ⟨?_, ?_, ?_, ?_, ?_, ?_, ?_⟩
  · simp only [Table.exists_touchedSet_eq_error_iff, Table.not_touchable_iff]
  · rintro before s after cause rfl hbefore hrefuses
    obtain ⟨hnot, hrefusal⟩ := h.not_touchable_of_refuses hrefuses
    rw [Table.touchedSet_of_first_refused hbefore hnot, hrefusal]
  · intro hsize e he
    obtain ⟨before, s, after, rfl, hbefore, hnot⟩ :=
      exists_first_not (Table.exists_touchedSet_eq_error_iff.mp ⟨e, he⟩)
    obtain ⟨cause, hrefuses⟩ := h.exists_refuses hsize hnot
    refine ⟨before, s, after, cause, rfl, hbefore, hrefuses, ?_⟩
    rw [Table.touchedSet_of_first_refused hbefore hnot,
      (h.not_touchable_of_refuses hrefuses).2] at he
    exact (Except.error.inj he).symm
  · intro log e
    exact Table.savePolicy_eq_error_iff
  · intro set hset
    exact (Table.touchedSet_eq_ok hset).length_eq
  · intro set hset
    exact (Table.touchedSet_eq_ok hset).pairwise_registers
  · intro set hset r
    exact (Table.touchedSet_eq_ok hset).mem_registers_iff

/-- In the sample, a stack storage comes before one of an unknown class. -/
theorem touchedSet_sample :
    (Description.ofSteps "sample" sampleSteps).build = .ok sampleTable ∧
      sampleTable.names.length < 2 ^ 32 ∧
      sampleTable.touchedSet [⟨0, 1⟩, ⟨2, 3⟩, ⟨9, 0⟩] = .error ⟨.outOfRange ⟨12⟩ 6, "sample"⟩ ∧
      (∃ s cause, sampleTable.Refuses s cause ∧
        sampleTable.touchedSet [⟨0, 1⟩, ⟨2, 3⟩, ⟨9, 0⟩] = .error ⟨cause, "sample"⟩) ∧
      ∃ set, sampleTable.touchedSet [⟨0, 1⟩, ⟨1, 1⟩, ⟨0, 1⟩] = .ok set ∧
        ⟨1⟩ ∈ set.toList.map Register.ofNat ∧
        (set.toList.map Register.ofNat).Pairwise (·.number < ·.number) := by
  have hfails := touchedSet_spec build_sample [⟨0, 1⟩, ⟨2, 3⟩, ⟨9, 0⟩]
  have hworks := touchedSet_spec build_sample [⟨0, 1⟩, ⟨1, 1⟩, ⟨0, 1⟩]
  have hnames := addressable_sampleTable.names_lt
  have hstack : sampleTable.class? 2 = some ⟨2, "stack", .stack 2 8⟩ := rfl
  have hfirst : ∀ b ∈ [(⟨0, 1⟩ : Storage)], sampleTable.Touchable b := by
    intro b hb
    obtain rfl := List.mem_singleton.mp hb
    exact ⟨⟨1⟩, rfl, by decide⟩
  have herror := hfails.error_of_first [⟨0, 1⟩] ⟨2, 3⟩ [⟨9, 0⟩] (.outOfRange ⟨12⟩ 6) rfl hfirst
    (.stack hstack (by decide) rfl)
  refine ⟨build_sample, hnames, herror, ?_, _, rfl, ?_, hworks.ascending _ rfl⟩
  · obtain ⟨-, s, -, cause, -, -, hrefuses, heq⟩ := hfails.first_of_error hnames _ herror
    exact ⟨s, cause, hrefuses, by rw [herror, heq]; rfl⟩
  · exact (hworks.mem_iff _ rfl ⟨1⟩).mpr ⟨⟨0, 1⟩, List.mem_cons_self, rfl⟩

end ForeignCall
