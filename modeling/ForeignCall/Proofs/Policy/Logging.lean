import ForeignCall.Proofs.Policy.Classes

/-! # What a policy computation writes

The log tells which registers a call touches and what the policy makes of them. Both are
read off the set of touched registers, so neither the policy nor the log depends on the order
of the storages, and the policy does not depend on the log. Every register that the log lists
is one of the table's and has a name there. -/

namespace ForeignCall

namespace Table

variable {t : Table}

/-! ## One computation -/

/-- The log of a policy computation. -/
def callLog (t : Table) (touched : BitSet) : String :=
  t.touchedLine touched ++ "\n" ++ (t.policyLine (t.classify touched) ++ "\n")

theorem savePolicy_eq (storages : List Storage) (log : Log) :
    t.savePolicy storages log =
      match t.touchedSet storages with
      | .error e => (.error e, log)
      | .ok touched => (.ok (t.classify touched), log.write (t.callLog touched)) := by
  rw [savePolicy]
  cases t.touchedSet storages with
  | error e => rfl
  | ok touched =>
      dsimp only
      rw [Log.writeLine, Log.writeLine, Log.write_write, callLog]

/-! ## The same storages in another order -/

/-- The set that is collected does not tell how often or in which order its storages came. -/
theorem Collects.eq_of_mem_iff {xs ys : List Storage} {set set' : BitSet}
    (h : t.Collects xs set) (h' : t.Collects ys set') (hmem : ∀ s, s ∈ xs ↔ s ∈ ys) :
    set = set' := by
  apply h.trim.eq_of_contains h'.trim
  · rw [h.length_eq, h'.length_eq]
  · intro i
    rw [Bool.eq_iff_iff, h.contains_iff, h'.contains_iff]
    simp only [hmem]

end Table

/-- Lists with the same storages have one policy and one text for the log, or no policy and
no text, whatever the log and whatever it holds. -/
theorem savePolicy_of_mem_iff (t : Table) {xs ys : List Storage} (hmem : ∀ s, s ∈ xs ↔ s ∈ ys) :
    (∃ e e', ∀ log, t.savePolicy xs log = (.error e, log) ∧
      t.savePolicy ys log = (.error e', log)) ∨
    ∃ p text, ∀ log, t.savePolicy xs log = (.ok p, log.write text) ∧
      t.savePolicy ys log = (.ok p, log.write text) := by
  by_cases hall : ∀ s ∈ xs, t.Touchable s
  · right
    have hall' : ∀ s ∈ ys, t.Touchable s := fun s hs => hall s ((hmem s).mpr hs)
    obtain ⟨set, hset, hcollects⟩ := Table.touchedSet_of_touchable hall
    obtain ⟨set', hset', hcollects'⟩ := Table.touchedSet_of_touchable hall'
    obtain rfl := hcollects.eq_of_mem_iff hcollects' hmem
    refine ⟨t.classify set, t.callLog set, fun log => ⟨?_, ?_⟩⟩
    · rw [Table.savePolicy_eq, hset]
    · rw [Table.savePolicy_eq, hset']
  · left
    have hrefused : ∃ s ∈ xs, ¬ t.Touchable s := by simpa using hall
    have hrefused' : ∃ s ∈ ys, ¬ t.Touchable s := by simpa only [hmem] using hrefused
    obtain ⟨e, he⟩ := Table.exists_touchedSet_eq_error_iff.mpr hrefused
    obtain ⟨e', he'⟩ := Table.exists_touchedSet_eq_error_iff.mpr hrefused'
    refine ⟨e, e', fun log => ⟨?_, ?_⟩⟩
    · rw [Table.savePolicy_eq, he]
    · rw [Table.savePolicy_eq, he']

/-- The sample's storages in another order, one of them twice, have the same policy. Two
that are refused fail in both orders, each time with the error of the first. -/
theorem savePolicy_of_mem_iff_sample :
    (∃ text, ∀ log,
      sampleTable.savePolicy [⟨0, 1⟩, ⟨0, 0⟩, ⟨1, 1⟩] log = (.ok samplePolicy, log.write text) ∧
      sampleTable.savePolicy [⟨1, 1⟩, ⟨0, 1⟩, ⟨0, 0⟩, ⟨0, 1⟩] log =
        (.ok samplePolicy, log.write text)) ∧
    (∀ log, sampleTable.savePolicy [⟨2, 3⟩, ⟨9, 0⟩] log =
        (.error ⟨.outOfRange ⟨12⟩ 6, "sample"⟩, log) ∧
      sampleTable.savePolicy [⟨9, 0⟩, ⟨2, 3⟩] log =
        (.error ⟨.undefinedStorage ⟨9, 0⟩, "sample"⟩, log)) := by
  have hmem : ∀ s : Storage, s ∈ [(⟨0, 1⟩ : Storage), ⟨0, 0⟩, ⟨1, 1⟩] ↔
      s ∈ [(⟨1, 1⟩ : Storage), ⟨0, 1⟩, ⟨0, 0⟩, ⟨0, 1⟩] := by
    intro s
    simp only [List.mem_cons, List.not_mem_nil]
    grind
  have hrefused : ∀ s : Storage, s ∈ [(⟨2, 3⟩ : Storage), ⟨9, 0⟩] ↔
      s ∈ [(⟨9, 0⟩ : Storage), ⟨2, 3⟩] := by
    intro s
    simp only [List.mem_cons, List.not_mem_nil]
    grind
  constructor
  · obtain ⟨e, e', he⟩ | ⟨p, text, hp⟩ := savePolicy_of_mem_iff sampleTable hmem
    · cases congrArg Prod.fst (he .off).1
    · obtain rfl : samplePolicy = p := Except.ok.inj (congrArg Prod.fst (hp .off).1)
      exact ⟨text, hp⟩
  · obtain ⟨e, e', he⟩ | ⟨p, text, hp⟩ := savePolicy_of_mem_iff sampleTable hrefused
    · obtain rfl : _ = e := Except.error.inj (congrArg Prod.fst (he .off).1)
      obtain rfl : _ = e' := Except.error.inj (congrArg Prod.fst (he .off).2)
      exact he
    · cases congrArg Prod.fst (hp .off).1

/-! ## Registers of one class -/

namespace Policy

variable {p : Policy} {c : SaveClass} {r : Register}

/-- The places of a class in the policy. -/
def positionsIn (p : Policy) (c : SaveClass) : List Nat :=
  (p.classes.zipIdx.filter (·.1 = c)).map Prod.snd

theorem registersIn_eq (p : Policy) (c : SaveClass) :
    p.registersIn c = (p.positionsIn c).map Register.ofNat := by
  rw [positionsIn, List.map_map]
  rfl

theorem mem_positionsIn_iff {i : Nat} : i ∈ p.positionsIn c ↔ p.classes[i]? = some c := by
  simp [positionsIn, List.mem_zipIdx_iff_getElem?]

theorem pairwise_positionsIn (p : Policy) (c : SaveClass) :
    (p.positionsIn c).Pairwise (· < ·) := by
  have hall : (p.classes.zipIdx.map Prod.snd).Pairwise (· < ·) := by
    rw [List.zipIdx_map_snd]
    exact List.pairwise_lt_range'
  exact hall.sublist (List.filter_sublist.map Prod.snd)

theorem lt_length_of_mem_positionsIn {i : Nat} (h : i ∈ p.positionsIn c) : i < p.length :=
  (List.getElem?_eq_some_iff.mp (mem_positionsIn_iff.mp h)).1

theorem pairwise_registersIn (hsize : p.length ≤ 2 ^ 32) :
    (p.registersIn c).Pairwise (·.number < ·.number) := by
  rw [registersIn_eq]
  exact Register.pairwise_map_ofNat (p.pairwise_positionsIn c)
    fun i hi => Nat.lt_of_lt_of_le (lt_length_of_mem_positionsIn hi) hsize

theorem mem_registersIn_iff (hsize : p.length ≤ 2 ^ 32) :
    r ∈ p.registersIn c ↔ p.get? r = some c := by
  rw [registersIn_eq, Register.mem_map_ofNat_iff, mem_positionsIn_iff, get?]
  intro i hi
  exact Nat.lt_of_lt_of_le (lt_length_of_mem_positionsIn hi) hsize

end Policy

namespace Table

variable {t : Table} {set : BitSet} {c : SaveClass} {r : Register}

theorem length_classify_le (t : Table) (set : BitSet) : (t.classify set).length ≤ 2 ^ 32 := by
  rw [length_classify]
  exact Nat.le_of_lt t.registerCount.toNat_lt

theorem mem_registersIn_classify_iff :
    r ∈ (t.classify set).registersIn c ↔ r.number < t.registerCount ∧ t.saveClass set r = c := by
  rw [Policy.mem_registersIn_iff (t.length_classify_le set)]
  by_cases hr : r.number < t.registerCount
  · simp [get?_classify hr, hr]
  · have hle : t.registerCount.toNat ≤ r.position :=
      UInt32.le_iff_toNat_le.mp (UInt32.not_lt.mp hr)
    simp [Policy.get?, classify, hr, hle]

/-! ## Registers by name -/

/-- A register below the count has a name, which is the one that is shown. -/
theorem registerName?_of_lt (h : r.number < t.registerCount) :
    t.registerName? r = some (t.shownName r) := by
  have hcount : t.registerCount.toNat ≤ t.names.length := by
    rw [registerCount, Nat.toUInt32_eq, UInt32.toNat_ofNat']
    exact Nat.mod_le _ _
  have hlt : r.position < t.names.length :=
    Nat.lt_of_lt_of_le (UInt32.lt_iff_toNat_lt.mp h) hcount
  simp [shownName, registerName?, hlt]

/-- The names that the table has for the registers with `p`, each once and in ascending order
of the registers. -/
def Lists (t : Table) (p : Register → Prop) (names : List String) : Prop :=
  ∃ registers : List Register, registers.Pairwise (·.number < ·.number) ∧
    (∀ r, r ∈ registers ↔ p r) ∧ registers.map t.registerName? = names.map some

theorem lists_shownName {p : Register → Prop} {registers : List Register}
    (hascending : registers.Pairwise (·.number < ·.number)) (hmem : ∀ r, r ∈ registers ↔ p r)
    (hlt : ∀ r, p r → r.number < t.registerCount) :
    t.Lists p (registers.map t.shownName) := by
  refine ⟨registers, hascending, hmem, ?_⟩
  rw [List.map_map]
  apply List.map_congr_left
  intro r hr
  exact registerName?_of_lt (hlt r ((hmem r).mp hr))

/-- What the storages touch is below the register count, since it has a place in the set. -/
theorem Collects.lt {seen : List Storage} (h : t.Collects seen set)
    (hr : ∃ s ∈ seen, t.registerOf s = .ok r) : r.number < t.registerCount := by
  rw [UInt32.lt_iff_toNat_lt, ← h.length_eq]
  exact BitSet.lt_length_of_contains (h.contains_position_iff.mpr hr)

end Table

/-! ## The report of a call -/

/-- What the log tells of a call, in names of registers. -/
structure CallReport where
  touched : List String
  frame : List String
  preserved : List String

namespace CallReport

def lines (report : CallReport) (table : String) : List String :=
  [ table ++ ": call touched = \x7b " ++ nameList report.touched ++ "\x7d",
    table ++ ": never touch = \x7b " ++ nameList report.frame ++ "\x7d, must preserve = \x7b " ++
      nameList report.preserved ++ "\x7d" ]

def text (report : CallReport) (table : String) : String :=
  String.join ((report.lines table).map (· ++ "\n"))

end CallReport

namespace Table

variable {t : Table} {storages : List Storage} {set : BitSet}

/-- The report lists the registers of the storages, those of the frame, and those of the
storages that are not of the frame. -/
structure Reports (t : Table) (storages : List Storage) (report : CallReport) : Prop where
  touched : t.Lists (fun r => ∃ s ∈ storages, t.registerOf s = .ok r) report.touched
  frame : t.Lists (fun r => r.number < t.registerCount ∧ t.IsFrame r) report.frame
  preserved : t.Lists (fun r => ¬ t.IsFrame r ∧ ∃ s ∈ storages, t.registerOf s = .ok r)
    report.preserved

/-- The names that are shown for a set of touched registers. -/
def report (t : Table) (set : BitSet) : CallReport where
  touched := (set.toList.map Register.ofNat).map t.shownName
  frame := ((t.classify set).registersIn .neverTouch).map t.shownName
  preserved := ((t.classify set).registersIn .mustPreserve).map t.shownName

theorem policyLine_eq (t : Table) (p : Policy) :
    t.policyLine p = t.name ++ ": never touch = \x7b " ++
      nameList ((p.registersIn .neverTouch).map t.shownName) ++ "\x7d, must preserve = \x7b " ++
      nameList ((p.registersIn .mustPreserve).map t.shownName) ++ "\x7d" := by
  have hwords : ": never touch = \x7b " = ": " ++ "never touch = \x7b " := by simp
  unfold policyLine Policy.summary
  rw [hwords]
  simp only [String.append_assoc]

theorem callLog_eq (t : Table) (set : BitSet) : t.callLog set = (t.report set).text t.name := by
  rw [callLog, policyLine_eq, touchedLine]
  simp [CallReport.text, CallReport.lines, report, Function.comp_def, String.append_assoc]

/-- A register in the report is one of the table's, so it is shown by its own name. -/
theorem Collects.reports (h : t.Collects storages set) : t.Reports storages (t.report set) := by
  have hsize := t.length_classify_le set
  refine ⟨?_, ?_, ?_⟩
  · exact lists_shownName h.pairwise_registers (fun r => h.mem_registers_iff) fun r => h.lt
  · apply lists_shownName (Policy.pairwise_registersIn hsize)
    · intro r
      rw [mem_registersIn_classify_iff, saveClass_eq_neverTouch_iff]
    · exact fun r hr => hr.1
  · apply lists_shownName (Policy.pairwise_registersIn hsize)
    · intro r
      rw [mem_registersIn_classify_iff, saveClass_eq_mustPreserve_iff, h.contains_position_iff]
      exact and_iff_right_of_imp fun hr => h.lt hr.2
    · exact fun r hr => h.lt hr.2

/-- The log never decides the outcome. A computation that fails leaves it alone, and one that
succeeds adds a report to it, if it collects at all. The frame is in the report as a whole
where the register count is exact. -/
structure LogSpec (t : Table) (storages : List Storage) : Prop where
  same_outcome : ∀ log log', (t.savePolicy storages log).1 = (t.savePolicy storages log').1
  unchanged_of_error : ∀ log e, (t.savePolicy storages log).1 = .error e →
    (t.savePolicy storages log).2 = log
  report_of_ok : ∀ log p, (t.savePolicy storages log).1 = .ok p →
    ∃ report, t.Reports storages report ∧
      (∀ before, (t.savePolicy storages (.buffer before)).2 =
        .buffer (before ++ report.text t.name)) ∧
      (t.savePolicy storages .off).2 = .off ∧ (t.savePolicy storages .closed).2 = .closed
  frame_lt : t.names.length < 2 ^ 32 → ∀ r, t.IsFrame r → r.number < t.registerCount

end Table

theorem savePolicy_logs {d : Description} {t : Table} (hbuild : d.build = .ok t)
    (storages : List Storage) : t.LogSpec storages := by
  have h := Description.build_eq_ok_iff.mp hbuild
  refine ⟨?_, ?_, ?_, ?_⟩
  · intro log log'
    rw [Table.savePolicy_eq, Table.savePolicy_eq]
    cases t.touchedSet storages <;> rfl
  · intro log e he
    rw [Table.savePolicy_eq, Table.savePolicy_eq_error_iff.mp he]
  · intro log p hp
    obtain ⟨set, hset, -⟩ := Table.savePolicy_eq_ok_iff.mp hp
    refine ⟨t.report set, (Table.touchedSet_eq_ok hset).reports, ?_⟩
    simp [Table.savePolicy_eq, hset, Table.callLog_eq, Log.write]
  · rintro hsize r (rfl | ⟨hpaired, rfl⟩)
    · exact h.framePointer_lt hsize
    · exact h.next_lt hsize hpaired

/-- `A` is touched and belongs to the frame, so it is listed with the frame only. -/
theorem savePolicy_logs_sample :
    (Description.ofSteps "sample" sampleSteps).build = .ok sampleTable ∧
      sampleTable.names.length < 2 ^ 32 ∧
      sampleTable.LogSpec [⟨0, 1⟩, ⟨0, 0⟩, ⟨1, 1⟩] ∧
      ∃ report, sampleTable.Reports [⟨0, 1⟩, ⟨0, 0⟩, ⟨1, 1⟩] report ∧
        report.text "sample" =
          "sample: call touched = \x7b V1 B A \x7d\n" ++
          "sample: never touch = \x7b A_H A \x7d, must preserve = \x7b V1 B \x7d\n" := by
  have hlogs := savePolicy_logs build_sample [⟨0, 1⟩, ⟨0, 0⟩, ⟨1, 1⟩]
  have hpolicy : (sampleTable.savePolicy [⟨0, 1⟩, ⟨0, 0⟩, ⟨1, 1⟩] .off).1 = .ok samplePolicy := rfl
  have hwritten : (sampleTable.savePolicy [⟨0, 1⟩, ⟨0, 0⟩, ⟨1, 1⟩] (.buffer "")).2 =
      .buffer ("sample: call touched = \x7b V1 B A \x7d\n" ++
        "sample: never touch = \x7b A_H A \x7d, must preserve = \x7b V1 B \x7d\n") := by
    decide +kernel
  obtain ⟨report, hreports, hbuffer, -, -⟩ := hlogs.report_of_ok .off samplePolicy hpolicy
  have htext := Log.buffer.inj ((hbuffer "").symm.trans hwritten)
  rw [String.empty_append] at htext
  exact ⟨build_sample, addressable_sampleTable.names_lt, hlogs, report, hreports, htext⟩

end ForeignCall
