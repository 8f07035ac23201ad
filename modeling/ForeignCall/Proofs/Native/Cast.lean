import ForeignCall.Native.Registration
import ForeignCall.Proofs.Machine
import ForeignCall.Proofs.Native.Conversion
import ForeignCall.Proofs.Signature.RoundTrip

/-! # Storages of a text as signed pairs

A text gives storages in unsigned numbers, and the native operations take signed ones. The
reader keeps all numbers below the sign bit, so no storage is changed on the way from one
to the other. -/

namespace ForeignCall

/-! ## Signed words -/

theorem toInt_toInt32 {n : UInt32} (h : n.toNat ≤ 2 ^ 31 - 1) :
    (n.toNat : Int) = n.toInt32.toInt := by
  have hvalue := toInt_eq_toNat_toUInt32 n.toInt32
  rw [UInt32.toUInt32_toInt32, if_pos (by omega)] at hvalue
  exact hvalue.symm

theorem Storage.InRange.denotes_toRaw {s : Storage} (h : s.InRange) : s.toRaw.Denotes s :=
  ⟨toInt_toInt32 h.1, toInt_toInt32 h.2⟩

/-! ## Numbers of a text -/

section Spellings

variable {t : Table}

theorem SpellsKind.le (hkinds : ∀ c ∈ t.classes, c.kind.toNat ≤ 2 ^ 31 - 1) {token : Token}
    {kind : UInt32} (h : SpellsKind t token kind) : kind.toNat ≤ 2 ^ 31 - 1 := by
  cases h with
  | name hmem _ => exact hkinds _ hmem
  | number hdigits => exact hdigits.2 ▸ hdigits.1

theorem SpellsStorage.inRange (hkinds : ∀ c ∈ t.classes, c.kind.toNat ≤ 2 ^ 31 - 1)
    {tokens : List Token} {s : Storage} (h : SpellsStorage t tokens s) : s.InRange := by
  cases h with
  | mk hkind hindex => exact ⟨hkind.le hkinds, hindex.2 ▸ hindex.1⟩

theorem SpellsMore.inRange (hkinds : ∀ c ∈ t.classes, c.kind.toNat ≤ 2 ^ 31 - 1)
    {tokens : List Token} {l : List Storage} (h : SpellsMore t tokens l) :
    ∀ s ∈ l, s.InRange := by
  induction h with
  | nil => exact List.forall_mem_nil _
  | cons hs _ ih => exact List.forall_mem_cons.mpr ⟨hs.inRange hkinds, ih⟩
  | comma hs _ ih => exact List.forall_mem_cons.mpr ⟨hs.inRange hkinds, ih⟩

theorem SpellsCall.inRange (hkinds : ∀ c ∈ t.classes, c.kind.toNat ≤ 2 ^ 31 - 1)
    {tokens : List Token} {l : List Storage} (h : SpellsCall t tokens l) :
    ∀ s ∈ l, s.InRange := by
  cases h with
  | void => exact List.forall_mem_nil _
  | storages _ hs hmore =>
      exact List.forall_mem_cons.mpr ⟨hs.inRange hkinds, hmore.inRange hkinds⟩

/-- Where the classes have kinds below the sign bit, all storages read are below it. -/
theorem Description.Built.inRange_of_signatures {d : Description} (h : d.Built t)
    (hkinds : ∀ c ∈ t.classes, c.kind.toNat ≤ 2 ^ 31 - 1) {text : String}
    {found : List Signature} (hfound : t.signatures text = .ok found) {x : Signature}
    (hx : x ∈ found) : ∀ s ∈ x.storages, s.InRange := by
  obtain ⟨hlength, hspells⟩ := List.forall₂_iff_get.mp (h.signatures_eq_ok_iff.mp hfound)
  obtain ⟨i, rfl⟩ := List.get_of_mem hx
  obtain ⟨-, hcall⟩ := hspells i (hlength.symm ▸ i.isLt) i.isLt
  exact hcall.inRange hkinds

end Spellings

/-! ## Policies of read storages -/

namespace Table

variable {t : Table}

/-- The native operation on signed pairs is the policy computation on the storages. -/
theorem nativePolicy_toRaw {storages : List Storage} (h : ∀ s ∈ storages, s.InRange) (log : Log) :
    t.nativePolicy (storages.map Storage.toRaw) log =
      ((t.savePolicy storages log).1.map Policy.text, (t.savePolicy storages log).2) := by
  apply nativePolicy_of_denotes
  rw [List.forall₂_map_left_iff, List.forall₂_same]
  intro s hs
  exact (h s hs).denotes_toRaw

end Table

theorem NativeClass.callComputePolicy_toRaw {c : NativeClass} (hc : c.computesPolicies = true)
    {t : Table} {storages : List Storage} (h : ∀ s ∈ storages, s.InRange) (log : Log) :
    c.callComputePolicy t (storages.map Storage.toRaw) log =
      ((t.savePolicy storages log).1.map Policy.text, (t.savePolicy storages log).2) := by
  rw [callComputePolicy, if_pos hc, Table.nativePolicy_toRaw h]

/-! ## The contract of the cast -/

namespace Table

variable {t : Table}

/-- The kinds of all classes are below the sign bit. -/
def SignedKinds (t : Table) : Prop :=
  ∀ c ∈ t.classes, c.kind.toNat < 2 ^ 31

theorem signedKinds_of_machineTable {name : String} (h : machineTable? name = some t) :
    t.SignedKinds := by
  intro c hc
  have hle := (ofMachine_of_machineTable h).kinds_le c hc
  omega

/-- What refuses a storage is never that a number is negative. -/
theorem refusal_ne_negativeStorage (s : Storage) (raw : RawStorage) :
    (t.refusal s).cause ≠ .negativeStorage raw := by
  unfold refusal
  cases hr : t.registerOf s with
  | ok r => simp
  | error e => simp [eq_undefined_of_registerOf hr, undefined]

theorem savePolicy_ne_negativeStorage {storages : List Storage} {log : Log} {e : Error}
    (he : (t.savePolicy storages log).1 = .error e) (raw : RawStorage) :
    e.cause ≠ .negativeStorage raw := by
  have hset := savePolicy_eq_error_iff.mp he
  obtain ⟨before, s, after, rfl, hbefore, hnot⟩ :=
    exists_first_not (exists_touchedSet_eq_error_iff.mp ⟨e, hset⟩)
  rw [touchedSet_of_first_refused hbefore hnot] at hset
  obtain rfl := Except.error.inj hset
  exact refusal_ne_negativeStorage s raw

/-- The storages that were found are the same after the cast, and so the native operation
computes their policies, fails as the computation does, and never for a sign. -/
structure CastSpec (t : Table) (found : List Signature) : Prop where
  number_lt : ∀ x ∈ found, ∀ s ∈ x.storages, s.kind.toNat < 2 ^ 31 ∧ s.index.toNat < 2 ^ 31
  ofRaw?_toRaw : ∀ x ∈ found, ∀ s ∈ x.storages, Storage.ofRaw? s.toRaw = some s
  nativePolicy_eq : ∀ x ∈ found, ∀ log, t.nativePolicy (x.storages.map Storage.toRaw) log =
    ((t.savePolicy x.storages log).1.map Policy.text, (t.savePolicy x.storages log).2)
  not_negative : ∀ x ∈ found, ∀ log e,
    (t.nativePolicy (x.storages.map Storage.toRaw) log).1 = .error e →
      ∀ raw, e.cause ≠ .negativeStorage raw

end Table

/-- No storage is lost between a text and the native operation, where the kinds of the classes
are below the sign bit. Those of all machines are. -/
theorem castSpec_of_signatures {d : Description} {t : Table} (hbuild : d.build = .ok t)
    (hkinds : t.SignedKinds) {text : String} {found : List Signature}
    (hfound : t.signatures text = .ok found) :
    t.CastSpec found ∧ ∀ name t', machineTable? name = some t' → t'.SignedKinds := by
  refine ⟨?_, fun name t' => Table.signedKinds_of_machineTable⟩
  have h := Description.build_eq_ok_iff.mp hbuild
  have hrange : ∀ x ∈ found, ∀ s ∈ x.storages, s.InRange := fun x hx =>
    h.inRange_of_signatures (fun c hc => Nat.le_sub_one_of_lt (hkinds c hc)) hfound hx
  refine ⟨?_, ?_, ?_, ?_⟩
  · intro x hx s hs
    obtain ⟨hkind, hindex⟩ := hrange x hx s hs
    exact ⟨by omega, by omega⟩
  · intro x hx s hs
    exact RawStorage.ofRaw?_eq_some_iff.mpr (hrange x hx s hs).denotes_toRaw
  · intro x hx log
    exact Table.nativePolicy_toRaw (hrange x hx) log
  · intro x hx log e he
    rw [Table.nativePolicy_toRaw (hrange x hx)] at he
    cases hpolicy : (t.savePolicy x.storages log).1 with
    | ok p => simp [hpolicy, Except.map] at he
    | error e' =>
        obtain rfl : e' = e := by simpa [hpolicy, Except.map] using he
        exact Table.savePolicy_ne_negativeStorage hpolicy

/-- A class by its name, with the largest index that is read. -/
theorem castSpec_sample :
    (Description.ofSteps "sample" sampleSteps).build = .ok sampleTable ∧
      sampleTable.SignedKinds ∧
      sampleTable.signatures "GPR:2147483647" = .ok [⟨1, [⟨0, 2147483647⟩]⟩] ∧
      sampleTable.CastSpec [⟨1, [⟨0, 2147483647⟩]⟩] ∧
      Storage.ofRaw? (Storage.toRaw ⟨0, 2147483647⟩) = some ⟨0, 2147483647⟩ := by
  have hkinds : sampleTable.SignedKinds := by simp [Table.SignedKinds, sampleTable]
  have hword : Rule.word.Matches "GPR".toList := by
    simp [Rule.Matches, isWordStart, isWordChar]
  have hwrites : WritesStorage sampleTable ⟨0, 2147483647⟩ "GPR:2147483647".toList := by
    change WritesStorage _ _ ("GPR".toList ++ ':' :: "2147483647".toList)
    exact .mk (.name rfl (caseFold_eq_iff.mp rfl) hword) ⟨0, rfl⟩
  have hrange : ∀ l ∈ [[⟨0, 2147483647⟩]], ∀ s ∈ l, Storage.InRange s := by
    simp [Storage.InRange]
  have hfound : sampleTable.signatures "GPR:2147483647" = .ok [⟨1, [⟨0, 2147483647⟩]⟩] :=
    (Description.build_eq_ok_iff.mp build_sample).signatures_of_writesText hrange
      (.last (.storages (by decide) hwrites .nil))
  have hcast := (castSpec_of_signatures build_sample hkinds hfound).1
  exact ⟨build_sample, hkinds, hfound, hcast, hcast.ofRaw?_toRaw _ List.mem_cons_self _
    List.mem_cons_self⟩

end ForeignCall
