import ForeignCall.Proofs.Policy.Names
import ForeignCall.Proofs.X86.Table
import ForeignCall.X86.Convention

/-! # Policies of calling conventions

A convention gives its registers by encoding, and the policy lists the table's registers in the
allocation order. The two meet in the names of the low slots only. So the policy of a call is
told by name, for lists of registers of any length and in any order. -/

namespace ForeignCall.X86

/-! ## Storages of a convention -/

namespace Convention

/-- All that a call of the convention may occupy. -/
def callStorages (c : Convention) : List Storage :=
  c.argumentStorages ++ c.returnStorages

/-- The general registers that are listed, the arguments before the results. -/
def integerRegisters (c : Convention) : List Gpr :=
  c.integerArguments ++ c.integerReturns

def vectorRegisters (c : Convention) : List Xmm :=
  c.vectorArguments ++ c.vectorReturns

variable {c : Convention} {s : Storage}

theorem mem_callStorages_iff : s ∈ c.callStorages ↔
    (∃ g ∈ c.integerRegisters, g.storage = s) ∨ ∃ x ∈ c.vectorRegisters, x.storage = s := by
  simp only [callStorages, argumentStorages, returnStorages, integerRegisters, vectorRegisters,
    List.mem_append, List.mem_map, or_and_right, exists_or]
  exact or_or_or_comm

/-- The storage names a vector register that the machine does not have. -/
def namesNoRegister (s : Storage) : Bool :=
  s.kind = vectorKind ∧ Xmm.count ≤ s.index.toNat

theorem namesNoRegister_gpr (g : Gpr) : namesNoRegister g.storage = false := by
  have hkind : integerKind ≠ vectorKind := by decide
  simp [namesNoRegister, Gpr.storage, hkind]

theorem namesNoRegister_xmm (x : Xmm) :
    namesNoRegister x.storage = decide (Xmm.count ≤ x.number.toNat) := by
  simp [namesNoRegister, Xmm.storage, Xmm.encoding]

/-- General registers never stand in the way of the first one that is missing. -/
theorem find?_callStorages : c.callStorages.find? namesNoRegister =
    (c.vectorRegisters.find? (Xmm.count ≤ ·.number.toNat)).map Xmm.storage := by
  have hgprs (gprs : List Gpr) : (gprs.map Gpr.storage).find? namesNoRegister = none := by
    simp [namesNoRegister_gpr]
  have hvectors (vectors : List Xmm) : (vectors.map Xmm.storage).find? namesNoRegister =
      (vectors.find? (Xmm.count ≤ ·.number.toNat)).map Xmm.storage := by
    rw [List.find?_map]
    simp only [Function.comp_def, namesNoRegister_xmm]
  simp only [callStorages, argumentStorages, returnStorages, vectorRegisters, List.find?_append,
    hgprs, hvectors, Option.none_or, Option.map_or]

/-! ## Classes by name -/

/-- The low slots of the listed registers, without that of the stack pointer. -/
def preservedNames (c : Convention) : List String :=
  (c.integerRegisters.filter (· ≠ .rsp)).map Gpr.tableName ++ c.vectorRegisters.map Xmm.tableName

/-- The class that the register of a slot has in calls of the convention. -/
def classOf (c : Convention) (slot : String) : SaveClass :=
  if slot = "RSP" ∨ slot = "RSP_H" then .neverTouch
  else if slot ∈ c.preservedNames then .mustPreserve
  else .expectClobbered

variable {slot : String}

theorem mem_preservedNames_iff : slot ∈ c.preservedNames ↔
    (∃ g ∈ c.integerRegisters, g ≠ .rsp ∧ g.tableName = slot) ∨
      ∃ x ∈ c.vectorRegisters, x.tableName = slot := by
  simp [preservedNames, and_assoc]

/-- The stack pointer is listed, and another register twice. -/
example : { Convention.win64 with
      integerArguments := [.r9, .rsp, .r9]
      vectorArguments := [⟨31⟩] }.preservedNames = ["R9", "R9", "RAX", "XMM31", "XMM0"] := by
  decide

theorem isStem_of_mem_preservedNames (h : slot ∈ c.preservedNames) : isStem slot := by
  rcases mem_preservedNames_iff.mp h with ⟨g, -, -, rfl⟩ | ⟨x, -, rfl⟩
  · exact g.isStem_tableName
  · exact x.isStem_tableName

/-- The frame's two slots are not preserved, whichever registers are listed. -/
theorem not_mem_preservedNames_of_frame (h : slot = "RSP" ∨ slot = "RSP_H") :
    slot ∉ c.preservedNames := by
  intro hmem
  rcases h with rfl | rfl
  · rcases mem_preservedNames_iff.mp hmem with ⟨g, -, hne, hname⟩ | ⟨x, -, hname⟩
    · exact hne (Gpr.tableName_inj.mp hname)
    · exact ne_xmm_append (by decide) _ hname
  · exact absurd (isStem_of_mem_preservedNames hmem) (by decide)

theorem classOf_eq_neverTouch_iff :
    c.classOf slot = .neverTouch ↔ slot = "RSP" ∨ slot = "RSP_H" := by
  unfold classOf
  split
  · simp [*]
  · split <;> simp [*]

theorem classOf_eq_mustPreserve_iff : c.classOf slot = .mustPreserve ↔ slot ∈ c.preservedNames := by
  unfold classOf
  split
  · rename_i hframe
    simp [not_mem_preservedNames_of_frame hframe]
  · split <;> simp [*]

theorem classOf_eq_expectClobbered_iff : c.classOf slot = .expectClobbered ↔
    ¬ (slot = "RSP" ∨ slot = "RSP_H") ∧ slot ∉ c.preservedNames := by
  unfold classOf
  split
  · simp [*]
  · split <;> simp [*]

/-- Only low slots are preserved. -/
theorem not_mem_preservedNames_of_suffix {name suffix : String} (hname : isStem name)
    (hends : endsStem suffix) (hsuffix : suffix ≠ "") : name ++ suffix ∉ c.preservedNames := by
  intro hmem
  have hlow : name ++ suffix ++ "" = name ++ suffix := String.append_empty
  have hstem := stem_eq_of_slot_eq (isStem_of_mem_preservedNames hmem) hname (by decide) hends hlow
  apply hsuffix
  rw [← String.append_right_inj name, hstem, String.append_empty]

theorem classOf_high_half {g : Gpr} (hg : g ≠ .rsp) :
    c.classOf (g.tableName ++ "_H") = .expectClobbered := by
  have hframe : ∀ g ∈ Gpr.all, g ≠ .rsp →
      ¬ (g.tableName ++ "_H" = "RSP" ∨ g.tableName ++ "_H" = "RSP_H") := by
    decide
  refine classOf_eq_expectClobbered_iff.mpr ⟨hframe g g.mem_all hg, ?_⟩
  exact not_mem_preservedNames_of_suffix g.isStem_tableName (by decide) (by decide)

/-- A vector register's slot is preserved only where it is the low one of a listed register. -/
theorem classOf_vector_slot {x : Xmm} {suffix : String} (hsuffix : suffix ∈ vectorSuffixes)
    (hlisted : suffix = "" → x ∉ c.vectorRegisters) :
    c.classOf (x.tableName ++ suffix) = .expectClobbered := by
  have hends : ∀ suffix ∈ vectorSuffixes, endsStem suffix := by decide
  refine classOf_eq_expectClobbered_iff.mpr ⟨?_, ?_⟩
  · rw [Xmm.tableName, String.append_assoc]
    rintro (hslot | hslot) <;> exact ne_xmm_append (by decide) _ hslot
  · by_cases hlow : suffix = ""
    · subst hlow
      rw [String.append_empty, mem_preservedNames_iff]
      rintro (⟨g, -, -, hname⟩ | ⟨x', hx', hname⟩)
      · exact ne_xmm_append g.head?_tableName _ hname.symm
      · exact hlisted rfl (Xmm.tableName_inj.mp hname ▸ hx')
    · exact not_mem_preservedNames_of_suffix x.isStem_tableName (hends _ hsuffix) hlow

/-! ## Calls of a convention -/

section Table

variable {t : Table} (h : description.Built t)

include h

/-- What refuses a storage of a convention is that there is no such vector register. -/
theorem namesNoRegister_iff (hs : s ∈ c.callStorages) :
    namesNoRegister s = true ↔ ¬ t.Touchable s := by
  rcases mem_callStorages_iff.mp hs with ⟨g, -, rfl⟩ | ⟨x, -, rfl⟩
  · simp [namesNoRegister_gpr, touchable_gpr h]
  · simp [namesNoRegister_xmm, touchable_xmm_iff h]

theorem forall_touchable_iff : (∀ s ∈ c.callStorages, t.Touchable s) ↔
    ∀ x ∈ c.vectorRegisters, x.number.toNat < Xmm.count := by
  constructor
  · intro hall x hx
    exact (touchable_xmm_iff h).mp (hall _ (mem_callStorages_iff.mpr (.inr ⟨x, hx, rfl⟩)))
  · intro hall s hs
    rcases mem_callStorages_iff.mp hs with ⟨g, -, rfl⟩ | ⟨x, hx, rfl⟩
    · exact touchable_gpr h g
    · exact (touchable_xmm_iff h).mpr (hall x hx)

/-- The conventions that go by a name list no other vector registers. -/
theorem exists_savePolicy_of_named? {name : String} (hc : named? name = some c) (log : Log) :
    ∃ p, (t.savePolicy c.callStorages log).1 = .ok p := by
  rw [Table.exists_savePolicy_eq_ok_iff, forall_touchable_iff h]
  have hbuiltIn : c = sysv ∨ c = win64 := by
    unfold named? at hc
    split at hc <;> simp_all
  rcases hbuiltIn with rfl | rfl
  · decide
  · decide

theorem savePolicy_of_find? {x : Xmm}
    (hx : c.vectorRegisters.find? (Xmm.count ≤ ·.number.toNat) = some x) (log : Log) :
    t.savePolicy c.callStorages log = (.error ⟨.undefinedStorage x.storage, platform⟩, log) := by
  have hfound : c.callStorages.find? namesNoRegister = some x.storage := by
    rw [find?_callStorages, hx, Option.map_some]
  have hmissing : ∀ r, t.registerOf x.storage ≠ .ok r := by
    intro r hr
    have hcount : Xmm.count ≤ x.number.toNat := by simpa using List.find?_some hx
    exact absurd ((registerOf_xmm_iff h).mp hr).1 (Nat.not_lt.mpr hcount)
  have hset := Table.touchedSet_of_find? (fun s => namesNoRegister_iff h) hfound
  rw [(h.not_touchable_of_refuses (.undefined hmissing)).2, h.name_eq] at hset
  rw [Table.savePolicy_eq, hset]
  rfl

/-- A register of the table is touched where its name is that of a listed register. -/
theorem exists_registerOf_iff (hall : ∀ x ∈ c.vectorRegisters, x.number.toNat < Xmm.count)
    {r : Register} (hr : t.registerName? r = some slot) :
    (∃ s ∈ c.callStorages, t.registerOf s = .ok r) ↔
      (∃ g ∈ c.integerRegisters, g.tableName = slot) ∨
        ∃ x ∈ c.vectorRegisters, x.tableName = slot := by
  constructor
  · rintro ⟨s, hs, hread⟩
    rcases mem_callStorages_iff.mp hs with ⟨g, hg, rfl⟩ | ⟨x, hx, rfl⟩
    · have hname := (registerOf_gpr_iff h).mp hread
      exact .inl ⟨g, hg, Option.some.inj (hname.symm.trans hr)⟩
    · have hname := ((registerOf_xmm_iff h).mp hread).2
      exact .inr ⟨x, hx, Option.some.inj (hname.symm.trans hr)⟩
  · rintro (⟨g, hg, rfl⟩ | ⟨x, hx, rfl⟩)
    · exact ⟨_, mem_callStorages_iff.mpr (.inl ⟨g, hg, rfl⟩), (registerOf_gpr_iff h).mpr hr⟩
    · exact ⟨_, mem_callStorages_iff.mpr (.inr ⟨x, hx, rfl⟩),
        (registerOf_xmm_iff h).mpr ⟨hall x hx, hr⟩⟩

theorem saveClass_eq_classOf {set : BitSet} (hset : t.Collects c.callStorages set)
    (hall : ∀ x ∈ c.vectorRegisters, x.number.toNat < Xmm.count) {r : Register}
    (hr : t.registerName? r = some slot) : t.saveClass set r = c.classOf slot := by
  by_cases hframe : t.IsFrame r
  · rw [Table.saveClass_of_isFrame hframe, classOf, if_pos ((isFrame_iff h hr).mp hframe)]
  · have hslot := mt (isFrame_iff h hr).mpr hframe
    have hlisted : set.contains r.position = true ↔ slot ∈ c.preservedNames := by
      rw [hset.contains_position_iff, exists_registerOf_iff h hall hr, mem_preservedNames_iff]
      refine or_congr_left (exists_congr fun g => and_congr_right fun _ => ?_)
      refine (and_iff_right_of_imp ?_).symm
      rintro rfl rfl
      exact hslot (.inl rfl)
    rw [Table.saveClass_of_not_isFrame hframe, classOf, if_neg hslot]
    simp only [hlisted]

/-- The policy of a call gives each register the class of its name. -/
theorem eq_policyByName {log : Log} {p : Policy}
    (hp : (t.savePolicy c.callStorages log).1 = .ok p) : p = t.policyByName c.classOf := by
  have hall := (forall_touchable_iff h).mp (Table.exists_savePolicy_eq_ok_iff.mp ⟨p, hp⟩)
  obtain ⟨set, hset, rfl⟩ := Table.savePolicy_eq_ok_iff.mp hp
  exact Table.classify_eq_policyByName (addressable h).names_lt
    fun r slot hr => saveClass_eq_classOf h (Table.touchedSet_eq_ok hset) hall hr

theorem exists_slot_of_preserved
    (hall : ∀ x ∈ c.vectorRegisters, x.number.toNat < Xmm.count) (hslot : slot ∈ c.preservedNames) :
    ∃ r, t.registerName? r = some slot := by
  rcases mem_preservedNames_iff.mp hslot with ⟨g, -, -, rfl⟩ | ⟨x, hx, rfl⟩
  · exact exists_gpr_lowSlot h g
  · exact exists_xmm_lowSlot h (hall x hx)

theorem perm_mustPreserve (hall : ∀ x ∈ c.vectorRegisters, x.number.toNat < Xmm.count) :
    (((t.policyByName c.classOf).registersIn .mustPreserve).map t.registerName?).Perm
      (c.preservedNames.dedup.map some) := by
  apply Table.perm_registersIn h.names_nodup (addressable h).names_lt
  · exact fun slot => classOf_eq_mustPreserve_iff
  · exact fun slot => exists_slot_of_preserved h hall

theorem perm_neverTouch :
    (((t.policyByName c.classOf).registersIn .neverTouch).map t.registerName?).Perm
      [some "RSP", some "RSP_H"] := by
  have hclass : ∀ slot, c.classOf slot = .neverTouch ↔ slot ∈ ["RSP", "RSP_H"] := by
    intro slot
    rw [classOf_eq_neverTouch_iff, List.mem_pair]
  have hframe : ["RSP", "RSP_H"].dedup = ["RSP", "RSP_H"] := List.dedup_eq_self.mpr (by decide)
  have hperm := Table.perm_registersIn h.names_nodup (addressable h).names_lt hclass
    fun slot hslot => exists_frame_slot h (List.mem_pair.mp hslot)
  rwa [hframe] at hperm

end Table

/-- Calls have a policy where the machine has all the vector registers that are listed, and else
the first one that it does not have is the error. The policy preserves the low slots of the
listed registers, each once, except for the stack pointer, whose two slots are the frame. -/
structure CallSpec (c : Convention) (t : Table) (log : Log) : Prop where
  succeeds_iff : (∃ p, (t.savePolicy c.callStorages log).1 = .ok p) ↔
    ∀ x ∈ c.vectorArguments ++ c.vectorReturns, x.number.toNat < 32
  fails_of_first : (∃ x ∈ c.vectorArguments ++ c.vectorReturns, 32 ≤ x.number.toNat) →
    ∃ x, (c.vectorArguments ++ c.vectorReturns).find? (32 ≤ ·.number.toNat) = some x ∧
      t.savePolicy c.callStorages log =
        (.error ⟨.undefinedStorage ⟨vectorKind, x.encoding⟩, "x86_64"⟩, log)
  policy_eq : ∀ p, (t.savePolicy c.callStorages log).1 = .ok p → p = t.policyByName c.classOf
  mustPreserve : ∀ p, (t.savePolicy c.callStorages log).1 = .ok p →
    ((p.registersIn .mustPreserve).map t.registerName?).Perm (c.preservedNames.dedup.map some)
  neverTouch : ∀ p, (t.savePolicy c.callStorages log).1 = .ok p →
    ((p.registersIn .neverTouch).map t.registerName?).Perm [some "RSP", some "RSP_H"]
  high_halves : ∀ p, (t.savePolicy c.callStorages log).1 = .ok p →
    ∀ g : Gpr, g ≠ .rsp → t.Assigns p (g.tableName ++ "_H") .expectClobbered
  vector_slots : ∀ p, (t.savePolicy c.callStorages log).1 = .ok p →
    ∀ x : Xmm, x.number.toNat < 32 → ∀ suffix ∈ vectorSuffixes,
      (suffix = "" → x ∉ c.vectorArguments ++ c.vectorReturns) →
        t.Assigns p (x.tableName ++ suffix) .expectClobbered

end Convention

/-- Neither the order of the lists nor repetitions in them matter, nor whether the stack
pointer is listed. -/
theorem callPolicy_spec :
    ∃ t, table? = some t ∧ ∀ (c : Convention) (log : Log), c.CallSpec t log := by
  obtain ⟨t, ht, h⟩ := exists_built
  refine ⟨t, ht, fun c log => ?_⟩
  have hpolicy : ∀ p, (t.savePolicy c.callStorages log).1 = .ok p →
      (∀ x ∈ c.vectorRegisters, x.number.toNat < Xmm.count) ∧ p = t.policyByName c.classOf := by
    intro p hp
    have hall := Table.exists_savePolicy_eq_ok_iff.mp ⟨p, hp⟩
    exact ⟨(Convention.forall_touchable_iff h).mp hall, Convention.eq_policyByName h hp⟩
  refine ⟨?_, ?_, fun p hp => (hpolicy p hp).2, ?_, ?_, ?_, ?_⟩
  · rw [Table.exists_savePolicy_eq_ok_iff, Convention.forall_touchable_iff h]
    rfl
  · rintro ⟨x, hx, hcount⟩
    have hmissing : (c.vectorRegisters.find? (Xmm.count ≤ ·.number.toNat)).isSome :=
      List.find?_isSome.mpr ⟨x, hx, decide_eq_true hcount⟩
    obtain ⟨first, hfirst⟩ := Option.isSome_iff_exists.mp hmissing
    exact ⟨first, hfirst, Convention.savePolicy_of_find? h hfirst log⟩
  · intro p hp
    obtain ⟨hall, rfl⟩ := hpolicy p hp
    exact Convention.perm_mustPreserve h hall
  · intro p hp
    obtain ⟨-, rfl⟩ := hpolicy p hp
    exact Convention.perm_neverTouch h
  · intro p hp g hg
    obtain ⟨-, rfl⟩ := hpolicy p hp
    exact Table.assigns_policyByName (exists_gpr_slot h g (by decide))
      (Convention.classOf_high_half hg)
  · intro p hp x hx suffix hsuffix hlisted
    obtain ⟨-, rfl⟩ := hpolicy p hp
    exact Table.assigns_policyByName (exists_xmm_slot h hx hsuffix)
      (Convention.classOf_vector_slot hsuffix hlisted)

end ForeignCall.X86
