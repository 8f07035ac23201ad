import ForeignCall.Command.Run
import ForeignCall.Proofs.Machine
import ForeignCall.Proofs.Native.Cast
import ForeignCall.Proofs.Table.WellFormed

/-! # Runs of the command

A run without a log is the reader followed by the policy computation. All of the text is
read before the first signature is answered, and the answers stop at the first signature
that has no policy. -/

namespace ForeignCall

/-! ## Options -/

theorem Options.verbose_of_read {o o' : Options} {args : List String}
    (hread : o.read args = some o') (hshort : "-v" ∉ args) (hlong : "--verbose" ∉ args) :
    o'.verbose = o.verbose := by
  fun_induction read o args with
  | case1 o =>
      obtain rfl := Option.some.inj hread
      rfl
  | case2 o arg rest hverbose ih =>
      rcases hverbose with rfl | rfl
      · exact absurd List.mem_cons_self hshort
      · exact absurd List.mem_cons_self hlong
  | case3 o => cases hread
  | case4 o convention rest _ ih =>
      simp only [List.mem_cons, not_or] at hshort hlong
      exact ih hread hshort.2.2 hlong.2.2
  | case5 => cases hread
  | case6 o arg rest _ _ _ ih =>
      exact ih hread (List.not_mem_of_not_mem_cons hshort) (List.not_mem_of_not_mem_cons hlong)

/-! ## Registration -/

/-- The class that declares every native method, after all of them have been bound. -/
def NativeClass.boundEntryPoint : NativeClass :=
  { nativeEntryPoint with mapsStorages := true, computesPolicies := true }

theorem Table.Checked.register_nativeEntryPoint {t : Table} (h : t.Checked) :
    t.register NativeClass.nativeEntryPoint .off =
      ⟨.ok (), NativeClass.boundEntryPoint, .off⟩ := by
  have hcheck : t.check = .ok () := mapError_eq_ok_iff.mp (Table.validate_eq_ok_iff.mpr h)
  simp only [Table.register, hcheck]
  rfl

/-! ## Answers -/

/-- The policy of a signature's storages. -/
def Table.policyOf (t : Table) (x : Signature) : Except Error Policy :=
  (t.savePolicy x.storages .off).1

/-- The signatures have these policies, in this order. -/
def Table.HavePolicies (t : Table) (signatures : List Signature) (policies : List Policy) : Prop :=
  List.Forall₂ (fun x p => t.policyOf x = .ok p) signatures policies

/-- A refused storage is shown in the error, or the stack slot that it resolves to. -/
theorem Table.message_refusal (t : Table) (s : Storage) :
    (t.refusal s).message = t.name ++ ": storage (kind " ++ toString s.kind ++ ", index " ++
        toString s.index ++ ") is not defined by the register table" ∨
      ∃ r, t.registerOf s = .ok r ∧
        (t.refusal s).message = t.name ++ ": register #" ++ toString r.number ++
          " is outside the register space [0, " ++ toString t.registerCount ++ ")" := by
  rw [refusal]
  cases hr : t.registerOf s with
  | error e =>
      have hstart : ": storage (kind " = ": " ++ "storage (kind " := rfl
      left
      rw [eq_undefined_of_registerOf hr, hstart]
      change t.name ++ ": " ++ ("storage (kind " ++ toString s.kind ++ ", index " ++
        toString s.index ++ ") is not defined by the register table") = _
      simp only [String.append_assoc, -String.reduceAppend]
  | ok r =>
      have hstart : ": register #" = ": " ++ ("register " ++ "#") := rfl
      refine .inr ⟨r, rfl, ?_⟩
      rw [hstart]
      change t.name ++ ": " ++ ("register " ++ ("#" ++ toString r.number) ++
        " is outside the register space [0, " ++ toString t.registerCount ++ ")") = _
      simp only [String.append_assoc, -String.reduceAppend]

/-- A signature without a policy has a storage that is refused. -/
theorem Table.exists_refusal_of_policyOf {t : Table} {x : Signature} {e : Error}
    (he : t.policyOf x = .error e) : ∃ s ∈ x.storages, e = t.refusal s := by
  have htouched : t.touchedSet x.storages = .error e := savePolicy_eq_error_iff.mp he
  obtain ⟨before, s, after, hsplit, hbefore, hs⟩ :=
    exists_first_not (exists_touchedSet_eq_error_iff.mp ⟨e, htouched⟩)
  rw [hsplit, touchedSet_of_first_refused hbefore hs] at htouched
  exact ⟨s, by simp [hsplit], (Except.error.inj htouched).symm⟩

/-- The policies' texts, a line for each. -/
def policyLines (policies : List Policy) : String :=
  String.join (policies.map (·.text ++ "\n"))

theorem policyLines_cons (p : Policy) (rest : List Policy) :
    policyLines (p :: rest) = p.text ++ "\n" ++ policyLines rest := by
  rw [policyLines, List.map_cons, String.join_cons, policyLines]

namespace Command

/-- The outcome for signatures, once `output` has been printed: a line for each signature
before the first that has no policy, and an error with the line number of that one. -/
inductive Answered (t : Table) (output : String) : List Signature → Outcome → Prop where
  | all {signatures policies} : t.HavePolicies signatures policies →
      Answered t output signatures ⟨0, output ++ policyLines policies, ""⟩
  | failed {before x after policies e} : t.HavePolicies before policies →
      t.policyOf x = .error e →
      Answered t output (before ++ x :: after) ⟨1, output ++ policyLines policies,
        "error: line " ++ toString x.line ++ ": " ++ e.message ++ "\n"⟩

theorem Answered.cons {t : Table} {output : String} {x : Signature} {rest : List Signature}
    {outcome : Outcome} {p : Policy} (hp : t.policyOf x = .ok p)
    (hrest : Answered t (output ++ (p.text ++ "\n")) rest outcome) :
    Answered t output (x :: rest) outcome := by
  cases hrest with
  | all hpolicies =>
      rw [String.append_assoc, ← policyLines_cons]
      exact .all (.cons hp hpolicies)
  | failed hpolicies he =>
      rw [String.append_assoc, ← policyLines_cons, ← List.cons_append]
      exact .failed (.cons hp hpolicies) he

/-- Errors about a place of the text name its line first. -/
theorem fail_line (output rest : String) :
    fail output ("line " ++ rest) = ⟨1, output, "error: line " ++ rest ++ "\n"⟩ := by
  rw [fail, ← String.append_assoc]
  rfl

namespace Session

/-- The session writes no log and can compute policies. -/
structure Quiet (s : Session) : Prop where
  not_verbose : s.verbose = false
  computesPolicies : s.natives.computesPolicies = true

variable {s : Session}

/-- Storages of a text reach the policy computation unchanged, and no log comes back. -/
theorem Quiet.callComputePolicy (hquiet : s.Quiet) {x : Signature}
    (hrange : ∀ storage ∈ x.storages, storage.InRange) :
    s.natives.callComputePolicy s.table (x.storages.map Storage.toRaw) (newLog s.verbose) =
      ((s.table.policyOf x).map Policy.text, .off) := by
  have hlog : (s.table.savePolicy x.storages .off).2 = .off := by
    rw [Table.savePolicy]
    cases s.table.touchedSet x.storages <;> rfl
  rw [NativeClass.callComputePolicy_toRaw hquiet.computesPolicies hrange, hquiet.not_verbose]
  change ((s.table.savePolicy x.storages .off).1.map _, (s.table.savePolicy x.storages .off).2) = _
  rw [hlog, Table.policyOf]

theorem Quiet.answer_of_error (hquiet : s.Quiet) {x : Signature} {e : Error}
    (hrange : ∀ storage ∈ x.storages, storage.InRange) (he : s.table.policyOf x = .error e)
    (output : String) (rest : List Signature) :
    s.answer output (x :: rest) =
      ⟨1, output, "error: line " ++ toString x.line ++ ": " ++ e.message ++ "\n"⟩ := by
  simp only [answer, hquiet.callComputePolicy hrange, he, Except.map]
  simp only [logged, Log.text?, Option.getD_none, String.append_empty, String.append_assoc,
    fail_line]

theorem Quiet.answer_of_ok (hquiet : s.Quiet) {x : Signature} {p : Policy}
    (hrange : ∀ storage ∈ x.storages, storage.InRange) (hp : s.table.policyOf x = .ok p)
    (output : String) (rest : List Signature) :
    s.answer output (x :: rest) = s.answer (output ++ (p.text ++ "\n")) rest := by
  simp only [answer, hquiet.callComputePolicy hrange, hp, Except.map]
  simp only [logged, Log.text?, Option.getD_none, String.append_empty, String.append_assoc]

/-- The induction follows the signatures, and what has been printed grows by the policy of
each of them. -/
theorem Quiet.answered (hquiet : s.Quiet) {signatures : List Signature}
    (hrange : ∀ x ∈ signatures, ∀ storage ∈ x.storages, storage.InRange) (output : String) :
    Answered s.table output signatures (s.answer output signatures) := by
  induction signatures generalizing output with
  | nil =>
      have hall : Answered s.table output [] ⟨0, output ++ policyLines [], ""⟩ := .all .nil
      simpa [policyLines, answer] using hall
  | cons x rest ih =>
      obtain ⟨hx, hrest⟩ := List.forall_mem_cons.mp hrange
      cases hpolicy : s.table.policyOf x with
      | error e =>
          have hfailed := @Answered.failed s.table output [] x rest [] e .nil hpolicy
          rw [hquiet.answer_of_error hx hpolicy]
          simpa [policyLines] using hfailed
      | ok p =>
          rw [hquiet.answer_of_ok hx hpolicy]
          exact (ih hrest _).cons hpolicy

end Session

/-! ## Runs -/

/-- What a run on a text comes to, in terms of the reader and of single policies. -/
structure RunSpec (t : Table) (areas text : String) (outcome : Outcome) : Prop where
  parse_error : ∀ e, t.signatures text = .error e →
    outcome = ⟨1, areas, "error: line " ++ toString e.span.lo.line ++ ", col " ++
      toString e.span.lo.column ++ ": " ++ e.message ++ "\n"⟩
  answered : ∀ signatures, t.signatures text = .ok signatures →
    Answered t areas signatures outcome
  length_eq : ∀ x p, t.policyOf x = .ok p → p.text.length = t.registerCount.toNat
  message_eq : ∀ x e, t.policyOf x = .error e → ∃ s ∈ x.storages,
    e.message = t.name ++ ": storage (kind " ++ toString s.kind ++ ", index " ++
        toString s.index ++ ") is not defined by the register table" ∨
      ∃ r, t.registerOf s = .ok r ∧
        e.message = t.name ++ ": register #" ++ toString r.number ++
          " is outside the register space [0, " ++ toString t.registerCount ++ ")"

/-- What is written as UTF-8 is read back. -/
theorem fromUTF8?_toUTF8 (text : String) : String.fromUTF8? text.toUTF8 = some text := by
  rw [String.fromUTF8?, String.toUTF8_eq_toByteArray, dif_pos text.isValidUTF8]
  rfl

theorem Session.Quiet.finish_spec {s : Session} (hquiet : s.Quiet) (hmachine : s.table.OfMachine)
    (text : String) : RunSpec s.table s.output text (s.finish text.toUTF8) := by
  have hfinish : s.finish text.toUTF8 = s.finishText text := by
    rw [finish, fromUTF8?_toUTF8]
  rw [hfinish]
  constructor
  · intro e he
    simp only [finishText, he, String.append_assoc, fail_line]
  · intro signatures hsignatures
    obtain ⟨d, hbuilt⟩ := hmachine.built
    rw [finishText, hsignatures]
    apply hquiet.answered
    intro x hx
    exact hbuilt.inRange_of_signatures hmachine.kinds_le hsignatures hx
  · intro x p hp
    obtain ⟨set, -, rfl⟩ := Table.savePolicy_eq_ok_iff.mp hp
    rw [Policy.length_text, Table.length_classify]
  · intro x e he
    obtain ⟨refused, hmem, rfl⟩ := Table.exists_refusal_of_policyOf he
    exact ⟨refused, hmem, s.table.message_refusal refused⟩

/-- Save areas can be shown for the known conventions on 64-bit x86. -/
theorem exists_saveAreas {t : Table} {saveArea : Option String}
    (h : ∀ convention, saveArea = some convention →
      t.name = X86.platform ∧ ∃ c, X86.Convention.named? convention = some c) :
    ∃ areas, saveAreasFor t saveArea = .ok areas := by
  cases saveArea with
  | none => exact ⟨"", rfl⟩
  | some convention =>
      obtain ⟨hname, c, hc⟩ := h convention rfl
      simp [saveAreasFor, saveAreas, hname, hc]

/-- Nothing but the save areas is printed before the input is read. -/
theorem startOn_of_not_verbose {t : Table} {o : Options} {areas : String} (ht : t.Checked)
    (hverbose : o.verbose = false) (hareas : saveAreasFor t o.saveArea = .ok areas) :
    startOn t o = .awaitingInput ⟨t, false, NativeClass.boundEntryPoint, areas⟩ := by
  have hregister : t.register NativeClass.nativeEntryPoint (newLog false) =
      ⟨.ok (), NativeClass.boundEntryPoint, .off⟩ := ht.register_nativeEntryPoint
  simp only [startOn, hregister, hareas, hverbose, logged, Log.text?, Option.getD_none,
    Bool.false_eq_true, ite_false, String.empty_append]

/-- Whatever the text, a run without a log prints the save areas that it was asked for, and
then all that the reader and the policy computation have to say. -/
theorem run_spec {args : List String} {o : Options} (hargs : Options.ofArguments? args = some o)
    (hshort : "-v" ∉ args) (hlong : "--verbose" ∉ args) (hmachine : o.machine ∈ machineNames)
    (hconvention : ∀ convention, o.saveArea = some convention →
      o.machine ∈ X86.machineNames ∧ ∃ c, X86.Convention.named? convention = some c)
    (text : String) :
    ∃ t areas, machineTable? o.machine = some t ∧ saveAreasFor t o.saveArea = .ok areas ∧
      (o.saveArea = none → areas = "") ∧ RunSpec t areas text (run args text.toUTF8) := by
  obtain ⟨t, ht, hof⟩ := exists_machineTable hmachine
  have hareas : ∃ areas, saveAreasFor t o.saveArea = .ok areas := by
    apply exists_saveAreas
    intro convention hasked
    obtain ⟨hx86, hnamed⟩ := hconvention convention hasked
    obtain ⟨t', ht', hname, -⟩ := X86.exists_machineTable hx86
    obtain rfl : t' = t := Option.some.inj (ht'.symm.trans ht)
    exact ⟨hname, hnamed⟩
  obtain ⟨areas, hareas⟩ := hareas
  obtain ⟨d, hbuilt⟩ := hof.built
  have hstart : start args = .awaitingInput ⟨t, false, NativeClass.boundEntryPoint, areas⟩ := by
    simp only [start, hargs, ht]
    exact startOn_of_not_verbose (hbuilt.checked hof.names_lt)
      (Options.verbose_of_read hargs hshort hlong) hareas
  refine ⟨t, areas, ht, hareas, ?_, ?_⟩
  · intro hnone
    rw [hnone] at hareas
    exact (Except.ok.inj hareas).symm
  · have hquiet : Session.Quiet ⟨t, false, NativeClass.boundEntryPoint, areas⟩ := ⟨rfl, rfl⟩
    rw [run, hstart]
    exact hquiet.finish_spec hof text

/-- The save areas of a convention without vector registers to keep, at each vector width. -/
def sysvAreas : String :=
  String.join (["16", "32", "64"].map fun bytes =>
    "# sysv with " ++ bytes ++ "-byte vectors\n" ++
      "## REGISTER SAVE AREA (40 bytes) ##\n" ++
      "  [+0] rbx (8 bytes)\n  [+8] r12 (8 bytes)\n  [+16] r13 (8 bytes)\n" ++
      "  [+24] r14 (8 bytes)\n  [+32] r15 (8 bytes)\n") ++ "\n"

theorem saveAreas_sysv {t : Table} (ht : t.name = X86.platform) :
    saveAreas t "sysv" = .ok sysvAreas := by
  have hnamed : X86.Convention.named? "sysv" = some X86.Convention.sysv := rfl
  rw [saveAreas, ht, if_neg (not_not.mpr rfl), hnamed]
  exact congrArg Except.ok (by decide +kernel)

/-- A platform under its short name, with the save areas of a convention asked for. -/
theorem run_sample :
    "-v" ∉ ["--save-area", "sysv", "x64"] ∧ "--verbose" ∉ ["--save-area", "sysv", "x64"] ∧
      ∃ t areas, machineTable? "x64" = some t ∧ saveAreasFor t (some "sysv") = .ok areas ∧
        areas = sysvAreas ∧ RunSpec t areas "integer:0\nx87:0\n"
          (run ["--save-area", "sysv", "x64"] "integer:0\nx87:0\n".toUTF8) := by
  have hargs : Options.ofArguments? ["--save-area", "sysv", "x64"] =
      some ⟨some "x64", false, some "sysv"⟩ := by
    decide
  have hconvention : ∀ convention, some "sysv" = some convention →
      "x64" ∈ X86.machineNames ∧ ∃ c, X86.Convention.named? convention = some c := by
    rintro _ ⟨⟩
    exact ⟨by decide, _, rfl⟩
  obtain ⟨t, areas, ht, hareas, -, hrun⟩ :=
    run_spec hargs (by decide) (by decide) (by decide) hconvention "integer:0\nx87:0\n"
  obtain ⟨t', ht', hname, -⟩ := X86.exists_machineTable (by decide : "x64" ∈ X86.machineNames)
  obtain rfl : t' = t := Option.some.inj (ht'.symm.trans ht)
  have hsysv : areas = sysvAreas := Except.ok.inj (hareas.symm.trans (saveAreas_sysv hname))
  exact ⟨by decide, by decide, t', areas, ht, hareas, hsysv, hrun⟩

end Command

end ForeignCall
