import Mathlib.Algebra.Group.Int.Defs
import ForeignCall.Native.Method
import ForeignCall.Proofs.Policy.Classes

/-! # Agreement of the native operations

Managed code maps storages one at a time and asks for policies in bulk. Both operations
read the same signed pairs, so the bulk one works exactly where every single call names
a register of the table, and its text marks exactly the registers that the calls name. -/

namespace ForeignCall

/-! ## Signed numbers -/

/-- Half of the signed 64-bit numbers are far more than a register needs. -/
theorem Register.toInt_number (r : Register) :
    r.number.toUInt64.toInt64.toInt = (r.position : Int) := by
  have hlt : r.number.toUInt64.toNat < 2 ^ 32 := r.position_lt
  change r.number.toUInt64.toBitVec.toInt = _
  rw [BitVec.toInt_eq_toNat_of_lt]
  · rfl
  · change 2 * r.number.toUInt64.toNat < _
    omega

theorem SaveClass.ofSymbol?_symbol (c : SaveClass) : ofSymbol? c.symbol = some c := by
  cases c <;> rfl

namespace Table

variable {t : Table}

/-! ## Signed pairs -/

theorem storageOfRaw_eq_ok_iff {raw : RawStorage} {s : Storage} :
    t.storageOfRaw raw = .ok s ↔ Storage.ofRaw? raw = some s := by
  unfold storageOfRaw
  cases Storage.ofRaw? raw <;> simp

/-- A list of pairs is converted where each of its pairs is. -/
theorem mapM_storageOfRaw_eq_ok_iff {raws : List RawStorage} {storages : List Storage} :
    raws.mapM t.storageOfRaw = .ok storages ↔ raws.map Storage.ofRaw? = storages.map some := by
  induction raws generalizing storages with
  | nil => cases storages <;> simp [pure, Except.pure]
  | cons raw rest ih =>
      simp only [List.mapM_cons, bind_eq_ok_iff, storageOfRaw_eq_ok_iff, ih]
      cases storages with
      | nil => simp [pure, Except.pure]
      | cons s storages => simp [pure, Except.pure]

theorem nativeRegister_eq_ok_iff {raw : RawStorage} {n : Int64} :
    t.nativeRegister raw = .ok n ↔
      ∃ s r, Storage.ofRaw? raw = some s ∧ t.registerOf s = .ok r ∧ n.toInt = r.position := by
  have hread : ∀ r, t.registerOfRaw raw = .ok r ↔
      ∃ s, Storage.ofRaw? raw = some s ∧ t.registerOf s = .ok r := by
    intro r
    simp only [registerOfRaw, bind_eq_ok_iff, storageOfRaw_eq_ok_iff]
  constructor
  · intro h
    unfold nativeRegister at h
    cases hr : t.registerOfRaw raw with
    | error e => simp [hr, Except.map] at h
    | ok r =>
        obtain ⟨s, hs, hregister⟩ := (hread r).mp hr
        obtain rfl : r.number.toUInt64.toInt64 = n := by simpa [hr, Except.map] using h
        exact ⟨s, r, hs, hregister, r.toInt_number⟩
  · rintro ⟨s, r, hs, hr, hn⟩
    have hnumber : r.number.toUInt64.toInt64 = n :=
      Int64.toInt_inj.mp (r.toInt_number.trans hn.symm)
    rw [nativeRegister, (hread r).mpr ⟨s, hs, hr⟩, ← hnumber]
    rfl

/-- A single call gives a number exactly for the register of the pair's storage. -/
theorem exists_nativeRegister_iff {raw : RawStorage} {s : Storage}
    (hs : Storage.ofRaw? raw = some s) {r : Register} :
    (∃ n, t.nativeRegister raw = .ok n ∧ n.toInt = r.position) ↔ t.registerOf s = .ok r := by
  constructor
  · rintro ⟨n, hn, hposition⟩
    obtain ⟨s', r', hs', hr', hposition'⟩ := nativeRegister_eq_ok_iff.mp hn
    obtain rfl : s = s' := Option.some.inj (hs.symm.trans hs')
    obtain rfl : r = r' := Register.position_inj.mp (by omega)
    exact hr'
  · intro hr
    exact ⟨_, nativeRegister_eq_ok_iff.mpr ⟨s, r, hs, hr, r.toInt_number⟩, r.toInt_number⟩

/-- A single call names a register of the table where the pair's storage is touchable. -/
theorem exists_nativeRegister_lt_iff {raw : RawStorage} :
    (∃ n, t.nativeRegister raw = .ok n ∧ n.toInt < t.registerCount.toNat) ↔
      ∃ s, Storage.ofRaw? raw = some s ∧ t.Touchable s := by
  simp only [nativeRegister_eq_ok_iff, Touchable, UInt32.lt_iff_toNat_lt]
  constructor
  · rintro ⟨n, ⟨s, r, hs, hr, hn⟩, hlt⟩
    exact ⟨s, hs, r, hr, by rw [hn] at hlt; exact Int.ofNat_lt.mp hlt⟩
  · rintro ⟨s, hs, r, hr, hlt⟩
    refine ⟨_, ⟨s, r, hs, hr, r.toInt_number⟩, ?_⟩
    rw [r.toInt_number]
    exact Int.ofNat_lt.mpr hlt

end Table

/-! ## Lists of pairs -/

section Converted

variable {raws : List RawStorage} {storages : List Storage}

theorem mem_storages_iff (h : raws.map Storage.ofRaw? = storages.map some) {s : Storage} :
    s ∈ storages ↔ ∃ raw ∈ raws, Storage.ofRaw? raw = some s := by
  rw [← List.mem_map, h]
  simp

theorem exists_storage_of_mem (h : raws.map Storage.ofRaw? = storages.map some)
    {raw : RawStorage} (hraw : raw ∈ raws) : ∃ s ∈ storages, Storage.ofRaw? raw = some s := by
  have hmem : Storage.ofRaw? raw ∈ storages.map some := h ▸ List.mem_map_of_mem hraw
  obtain ⟨s, hs, heq⟩ := List.mem_map.mp hmem
  exact ⟨s, hs, heq.symm⟩

/-- Pairs that each stand for a storage are converted together. -/
theorem exists_storages_of_forall {p : Storage → Prop}
    (h : ∀ raw ∈ raws, ∃ s, Storage.ofRaw? raw = some s ∧ p s) :
    ∃ storages : List Storage,
      raws.map Storage.ofRaw? = storages.map some ∧ ∀ s ∈ storages, p s := by
  induction raws with
  | nil => exact ⟨[], rfl, by simp⟩
  | cons raw rest ih =>
      obtain ⟨⟨s, hs, hp⟩, hrest⟩ := List.forall_mem_cons.mp h
      obtain ⟨storages, hconverted, hall⟩ := ih hrest
      exact ⟨s :: storages, by simp [hs, hconverted], List.forall_mem_cons.mpr ⟨hp, hall⟩⟩

end Converted

namespace Table

variable {t : Table}

/-! ## Policies -/

theorem nativePolicy_eq_ok_iff {raws : List RawStorage} {log : Log} {text : String} :
    (t.nativePolicy raws log).1 = .ok text ↔
      ∃ storages p, raws.map Storage.ofRaw? = storages.map some ∧
        (t.savePolicy storages log).1 = .ok p ∧ text = p.text := by
  unfold nativePolicy
  simp only [← mapM_storageOfRaw_eq_ok_iff (t := t)]
  cases raws.mapM t.storageOfRaw with
  | error e => simp
  | ok storages =>
      cases hpolicy : t.savePolicy storages log with
      | mk result after =>
          cases result with
          | error e => simp [hpolicy]
          | ok p => simp [hpolicy, eq_comm]

end Table

namespace Policy

theorem toList_text (p : Policy) : p.text.toList = p.classes.map SaveClass.symbol :=
  String.toList_ofList

theorem length_text (p : Policy) : p.text.length = p.length := by
  rw [← String.length_toList, toList_text, List.length_map, length]

/-- The text has the symbol of a register's class in the register's place. -/
theorem getElem?_text {p : Policy} {r : Register} {c : SaveClass} (h : p.get? r = some c) :
    p.text.toList[r.position]? = some c.symbol := by
  rw [get?] at h
  rw [toList_text, List.getElem?_map, h]
  rfl

/-- No symbol is lost or mistaken when the text is read. -/
theorem map_ofSymbol?_text (p : Policy) :
    p.text.toList.map SaveClass.ofSymbol? = p.classes.map some := by
  rw [toList_text, List.map_map]
  exact List.map_congr_left fun c _ => c.ofSymbol?_symbol

end Policy

/-! ## The contract of the two operations -/

/-- Some pair's single call gives the register's number. -/
def Table.Names (t : Table) (raws : List RawStorage) (r : Register) : Prop :=
  ∃ raw ∈ raws, ∃ n, t.nativeRegister raw = .ok n ∧ n.toInt = r.position

theorem Table.names_iff {t : Table} {raws : List RawStorage} {storages : List Storage}
    (hconverted : raws.map Storage.ofRaw? = storages.map some) {r : Register} :
    t.Names raws r ↔ ∃ s ∈ storages, t.registerOf s = .ok r := by
  constructor
  · rintro ⟨raw, hraw, hn⟩
    obtain ⟨s, hs, heq⟩ := exists_storage_of_mem hconverted hraw
    exact ⟨s, hs, (Table.exists_nativeRegister_iff heq).mp hn⟩
  · rintro ⟨s, hs, hr⟩
    obtain ⟨raw, hraw, heq⟩ := (mem_storages_iff hconverted).mp hs
    exact ⟨raw, hraw, (Table.exists_nativeRegister_iff heq).mpr hr⟩

/-- What single calls say about each pair decides whether the policy's text exists and
what it has in every place. -/
structure Table.NativeSpec (t : Table) (raws : List RawStorage) (log : Log) : Prop where
  succeeds_iff : (∃ text, (t.nativePolicy raws log).1 = .ok text) ↔
    ∀ raw ∈ raws, ∃ n, t.nativeRegister raw = .ok n ∧ n.toInt < t.registerCount.toNat
  length_eq : ∀ text, (t.nativePolicy raws log).1 = .ok text →
    text.length = t.registerCount.toNat
  symbol_of_frame : ∀ text, (t.nativePolicy raws log).1 = .ok text →
    ∀ r, r.number < t.registerCount → t.IsFrame r → text.toList[r.position]? = some 'N'
  symbol_of_named : ∀ text, (t.nativePolicy raws log).1 = .ok text →
    ∀ r, r.number < t.registerCount → ¬ t.IsFrame r → t.Names raws r →
      text.toList[r.position]? = some 'C'
  symbol_of_not_named : ∀ text, (t.nativePolicy raws log).1 = .ok text →
    ∀ r, r.number < t.registerCount → ¬ t.IsFrame r → ¬ t.Names raws r →
      text.toList[r.position]? = some 'E'
  reads_back : ∀ text, (t.nativePolicy raws log).1 = .ok text →
    ∃ storages p, raws.map Storage.ofRaw? = storages.map some ∧
      (t.savePolicy storages log).1 = .ok p ∧
      text.toList.map SaveClass.ofSymbol? = p.classes.map some
  number_range : ∀ raw n, t.nativeRegister raw = .ok n → 0 ≤ n.toInt ∧ n.toInt < 2 ^ 32

/-- The text exists where every pair's single call names a register of the table. -/
theorem Table.exists_nativePolicy_iff {t : Table} {raws : List RawStorage} {log : Log} :
    (∃ text, (t.nativePolicy raws log).1 = .ok text) ↔
      ∀ raw ∈ raws, ∃ n, t.nativeRegister raw = .ok n ∧ n.toInt < t.registerCount.toNat := by
  simp only [exists_nativeRegister_lt_iff, nativePolicy_eq_ok_iff]
  constructor
  · rintro ⟨text, storages, p, hconverted, hp, -⟩ raw hraw
    obtain ⟨s, hs, heq⟩ := exists_storage_of_mem hconverted hraw
    exact ⟨s, heq, exists_savePolicy_eq_ok_iff.mp ⟨p, hp⟩ s hs⟩
  · intro h
    obtain ⟨storages, hconverted, hall⟩ := exists_storages_of_forall h
    obtain ⟨p, hp⟩ := exists_savePolicy_eq_ok_iff.mpr hall
    exact ⟨p.text, storages, p, hconverted, hp, rfl⟩

/-- A text comes from a classified set of registers, and each symbol from its class. -/
theorem Table.exists_collects_of_nativePolicy {t : Table} {raws : List RawStorage} {log : Log}
    {text : String} (htext : (t.nativePolicy raws log).1 = .ok text) :
    ∃ storages set, raws.map Storage.ofRaw? = storages.map some ∧ t.Collects storages set ∧
      text.length = t.registerCount.toNat ∧ ∀ r, r.number < t.registerCount →
        text.toList[r.position]? = some (t.saveClass set r).symbol := by
  obtain ⟨storages, p, hconverted, hp, rfl⟩ := nativePolicy_eq_ok_iff.mp htext
  obtain ⟨set, hset, rfl⟩ := savePolicy_eq_ok_iff.mp hp
  refine ⟨storages, set, hconverted, touchedSet_eq_ok hset, ?_, ?_⟩
  · rw [Policy.length_text, length_classify]
  · intro r hr
    exact Policy.getElem?_text (get?_classify hr)

theorem nativePolicy_spec (t : Table) (raws : List RawStorage) (log : Log) :
    t.NativeSpec raws log := by
  refine ⟨Table.exists_nativePolicy_iff, ?_, ?_, ?_, ?_, ?_, ?_⟩
  · intro text htext
    obtain ⟨-, -, -, -, hlength, -⟩ := Table.exists_collects_of_nativePolicy htext
    exact hlength
  · intro text htext r hr hframe
    obtain ⟨-, set, -, -, -, hplace⟩ := Table.exists_collects_of_nativePolicy htext
    rw [hplace r hr, Table.saveClass_of_isFrame hframe]
    rfl
  · intro text htext r hr hframe hnames
    obtain ⟨storages, set, hconverted, hcollects, -, hplace⟩ :=
      Table.exists_collects_of_nativePolicy htext
    have hcontains := hcollects.contains_position_iff.mpr ((Table.names_iff hconverted).mp hnames)
    rw [hplace r hr, Table.saveClass_eq_mustPreserve_iff.mpr ⟨hframe, hcontains⟩]
    rfl
  · intro text htext r hr hframe hnames
    obtain ⟨storages, set, hconverted, hcollects, -, hplace⟩ :=
      Table.exists_collects_of_nativePolicy htext
    rw [Table.names_iff hconverted, ← hcollects.contains_position_iff] at hnames
    rw [hplace r hr, Table.saveClass_eq_expectClobbered_iff.mpr ⟨hframe, hnames⟩]
    rfl
  · intro text htext
    obtain ⟨storages, p, hconverted, hp, rfl⟩ := Table.nativePolicy_eq_ok_iff.mp htext
    exact ⟨storages, p, hconverted, hp, p.map_ofSymbol?_text⟩
  · intro raw n hn
    obtain ⟨-, r, -, -, hposition⟩ := Table.nativeRegister_eq_ok_iff.mp hn
    have hlt := r.position_lt
    omega

/-- In the sample, `A` is part of the frame, and `V1` comes first in the text. -/
theorem nativePolicy_sample :
    (sampleTable.nativePolicy [⟨0, 1⟩, ⟨0, 0⟩, ⟨1, 1⟩] .off).1 = .ok "CCENNE" ∧
      sampleTable.NativeSpec [⟨0, 1⟩, ⟨0, 0⟩, ⟨1, 1⟩] .off ∧
      sampleTable.Names [⟨0, 1⟩, ⟨0, 0⟩, ⟨1, 1⟩] ⟨0⟩ ∧ "CCENNE".toList[0]? = some 'C' := by
  have hspec := nativePolicy_spec sampleTable [⟨0, 1⟩, ⟨0, 0⟩, ⟨1, 1⟩] .off
  have htext : (sampleTable.nativePolicy [⟨0, 1⟩, ⟨0, 0⟩, ⟨1, 1⟩] .off).1 = .ok "CCENNE" := rfl
  have hnames : sampleTable.Names [⟨0, 1⟩, ⟨0, 0⟩, ⟨1, 1⟩] ⟨0⟩ := ⟨⟨1, 1⟩, by simp, 0, rfl, rfl⟩
  have hframe : ¬ sampleTable.IsFrame ⟨0⟩ := by
    simp [Table.isFrame_iff, sampleTable, Table.framePair?, Register.next]
  exact ⟨htext, hspec, hnames, hspec.symbol_of_named _ htext ⟨0⟩ (by decide) hframe hnames⟩

end ForeignCall
