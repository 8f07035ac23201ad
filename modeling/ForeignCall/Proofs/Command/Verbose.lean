import ForeignCall.Proofs.Command.Run
import ForeignCall.Proofs.Native.Binding
import ForeignCall.Proofs.Policy.Logging

/-! # Verbose runs

The log shares its stream with the answers. A verbose run is compared with a plain one stage
by stage: each stage prints whole lines, and the verbose one prints more of them. That what
is printed ends with a line break is part of the invariant, since without it two stages would
share a line. -/

namespace ForeignCall

/-! ## Lines of output -/

/-- The pieces between the line breaks. The last one is what stands after the last break. -/
def linesOf (text : String) : List (List Char) :=
  text.toList.splitOn '\n'

theorem linesOf_append_newline (front rest : String) :
    linesOf (front ++ "\n" ++ rest) = linesOf front ++ linesOf rest := by
  rw [linesOf, String.append_assoc, String.toList_append, String.toList_append]
  exact List.splitOn_append_cons_self _ _

/-- No line is left unfinished. -/
def WholeLines (text : String) : Prop :=
  text = "" ∨ ∃ front, text = front ++ "\n"

theorem wholeLines_empty : WholeLines "" :=
  .inl rfl

theorem wholeLines_newline (front : String) : WholeLines (front ++ "\n") :=
  .inr ⟨front, rfl⟩

theorem WholeLines.append {text more : String} (htext : WholeLines text)
    (hmore : WholeLines more) : WholeLines (text ++ more) := by
  rcases hmore with rfl | ⟨front, rfl⟩
  · rwa [String.append_empty]
  · rw [← String.append_assoc]
    exact wholeLines_newline _

theorem WholeLines.exists_linesOf_append {text : String} (h : WholeLines text) :
    ∃ ls, ∀ rest, linesOf (text ++ rest) = ls ++ linesOf rest := by
  rcases h with rfl | ⟨front, rfl⟩
  · refine ⟨[], ?_⟩
    intro rest
    rw [String.empty_append, List.nil_append]
  · exact ⟨linesOf front, linesOf_append_newline front⟩

/-- Both texts are whole lines, and the lines of `plain` are among those of `verbose`, in
their order. -/
structure AddsLines (plain verbose : String) : Prop where
  whole_plain : WholeLines plain
  whole_verbose : WholeLines verbose
  sublist : (linesOf plain).Sublist (linesOf verbose)

theorem WholeLines.addsLines {text : String} (h : WholeLines text) : AddsLines text text :=
  ⟨h, h, List.Sublist.refl _⟩

theorem WholeLines.addsLines_empty {text : String} (h : WholeLines text) : AddsLines "" text := by
  refine ⟨wholeLines_empty, h, ?_⟩
  obtain ⟨ls, hls⟩ := h.exists_linesOf_append
  have htext := hls ""
  rw [String.append_empty] at htext
  rw [htext]
  exact List.sublist_append_right _ _

theorem AddsLines.append {plain verbose plain' verbose' : String} (h : AddsLines plain verbose)
    (h' : AddsLines plain' verbose') : AddsLines (plain ++ plain') (verbose ++ verbose') := by
  refine ⟨h.whole_plain.append h'.whole_plain, h.whole_verbose.append h'.whole_verbose, ?_⟩
  obtain ⟨ls, hls⟩ := h.whole_plain.exists_linesOf_append
  obtain ⟨ls', hls'⟩ := h.whole_verbose.exists_linesOf_append
  have hfinished : ls.Sublist ls' := by
    have hplain := hls ""
    have hverbose := hls' ""
    rw [String.append_empty] at hplain hverbose
    have hsublist := h.sublist
    rw [hplain, hverbose] at hsublist
    exact (List.append_sublist_append_right _).mp hsublist
  rw [hls, hls']
  exact hfinished.append h'.sublist

/-! ## Options -/

/-- Where the option for logs stands among the arguments makes no difference. -/
theorem Options.read_verbose (o : Options) (args : List String) :
    { o with verbose := true }.read args =
      (o.read args).map fun o => { o with verbose := true } := by
  fun_induction read o args with
  | case1 o => rfl
  | case2 o arg rest hverbose ih =>
      rw [read.eq_def]
      exact (if_pos hverbose).trans ih
  | case3 o => simp [read]
  | case4 o convention rest _ ih =>
      rw [← ih]
      simp [read]
  | case5 o arg rest hverbose hsave hrefused =>
      rw [read.eq_def]
      dsimp only
      rw [if_neg hverbose, if_neg hsave, if_pos hrefused, Option.map_none]
  | case6 o arg rest hverbose hsave hrefused ih =>
      rw [read.eq_def]
      dsimp only
      rw [if_neg hverbose, if_neg hsave, if_neg hrefused, ← ih]

theorem Options.ofArguments?_verbose (args : List String) :
    ofArguments? ("-v" :: args) = (ofArguments? args).map fun o => { o with verbose := true } := by
  rw [ofArguments?, ofArguments?, ← read_verbose, read.eq_def]
  exact if_pos (.inl rfl)

/-! ## What a run prints -/

namespace Table

variable {t : Table}

/-- What is printed for a table before the save areas. -/
def preamble (t : Table) (verbose : Bool) : String :=
  if verbose then t.boundLines NativeMethod.all ++ (t.summary ++ "\n") else ""

/-- What is printed for a signature whose storages are collected in `touched`. -/
def entry (t : Table) (verbose : Bool) (touched : BitSet) : String :=
  (if verbose then t.callLog touched else "") ++ ((t.classify touched).text ++ "\n")

/-- The lines of a registration that binds everything. -/
theorem boundLines_all : t.boundLines NativeMethod.all =
    t.name ++ ": bound native vmStorageToVMReg (II)J\n" ++
      t.name ++ ": bound native computeRegSavePolicy " ++
      "([Ljdk/internal/invoke/VMStorageProxy;)Ljava/lang/String;\n" := by
  have hfirst : ": bound native " ++ (NativeMethod.mapStorage.text ++ "\n") =
      ": bound native vmStorageToVMReg (II)J\n" := rfl
  have hsecond : ": bound native " ++ (NativeMethod.computePolicy.text ++ "\n") =
      ": bound native computeRegSavePolicy " ++
        "([Ljdk/internal/invoke/VMStorageProxy;)Ljava/lang/String;\n" := rfl
  simp only [boundLines, NativeMethod.all, List.map_cons, List.map_nil, String.join_cons,
    String.join_nil, boundLine, String.append_assoc, String.append_empty, hsecond]
  rw [← hfirst]
  simp only [String.append_assoc]

theorem addsLines_preamble (verbose : Bool) : AddsLines (t.preamble verbose) (t.preamble true) := by
  have hwhole : WholeLines (t.preamble true) := by
    rw [preamble, if_pos rfl, ← String.append_assoc]
    exact wholeLines_newline _
  cases verbose with
  | false => exact hwhole.addsLines_empty
  | true => exact hwhole.addsLines

theorem addsLines_entry (verbose : Bool) (touched : BitSet) :
    AddsLines (t.entry verbose touched) (t.entry true touched) := by
  have hpolicy := (wholeLines_newline (t.classify touched).text).addsLines
  have hlog : WholeLines (t.callLog touched) :=
    (wholeLines_newline _).append (wholeLines_newline _)
  cases verbose with
  | false => exact hlog.addsLines_empty.append hpolicy
  | true => exact hlog.addsLines.append hpolicy

end Table

namespace Command

theorem logged_newLog (verbose : Bool) : logged (newLog verbose) = "" := by
  cases verbose <;> rfl

theorem logged_write_newLog (verbose : Bool) (text : String) :
    logged ((newLog verbose).write text) = if verbose then text else "" := by
  cases verbose with
  | false => rfl
  | true => simp [newLog, Log.write, logged, Log.text?]

/-! ## Answers -/

/-- A session on a table with all natives bound. -/
def session (t : Table) (verbose : Bool) (output : String) : Session :=
  ⟨t, verbose, NativeClass.boundEntryPoint, output⟩

/-- The verbose run ends as the plain one does, and prints more lines. -/
structure Adds (plain verbose : Outcome) : Prop where
  exitCode_eq : verbose.exitCode = plain.exitCode
  stderr_eq : verbose.stderr = plain.stderr
  stdout : AddsLines plain.stdout verbose.stdout

theorem adds_fail {plain verbose : String} (h : AddsLines plain verbose) (message : String) :
    Adds (fail plain message) (fail verbose message) :=
  ⟨rfl, rfl, h⟩

section Answers

variable {t : Table} {verbose : Bool} {initial output : String} {x : Signature}
  {signatures : List Signature}

/-- A signature is answered by its entry, and one whose storages cannot be collected ends
the run. -/
theorem answer_cons (hrange : ∀ s ∈ x.storages, s.InRange) (rest : List Signature) :
    (session t verbose initial).answer output (x :: rest) =
      match t.touchedSet x.storages with
      | .error e => fail output ("line " ++ toString x.line ++ ": " ++ e.message)
      | .ok touched =>
        (session t verbose initial).answer (output ++ t.entry verbose touched) rest := by
  have hbound : NativeClass.boundEntryPoint.computesPolicies = true := rfl
  simp only [Session.answer, session, NativeClass.callComputePolicy_toRaw hbound hrange,
    Table.savePolicy_eq]
  cases t.touchedSet x.storages with
  | error e =>
      dsimp only [Except.map]
      rw [logged_newLog, String.append_empty]
  | ok touched =>
      dsimp only [Except.map]
      rw [logged_write_newLog, Table.entry]
      simp only [String.append_assoc]

/-- The induction follows the signatures, and what has been printed grows by an entry of
each run. -/
theorem adds_answer (hrange : ∀ x ∈ signatures, ∀ s ∈ x.storages, s.InRange)
    {initial' output' : String} (houtput : AddsLines output output') :
    Adds ((session t verbose initial).answer output signatures)
      ((session t true initial').answer output' signatures) := by
  induction signatures generalizing output output' with
  | nil => exact ⟨rfl, rfl, houtput⟩
  | cons x rest ih =>
      obtain ⟨hx, hrest⟩ := List.forall_mem_cons.mp hrange
      rw [answer_cons hx, answer_cons hx]
      cases t.touchedSet x.storages with
      | error e => exact adds_fail houtput _
      | ok touched => exact ih hrest (houtput.append (t.addsLines_entry verbose touched))

/-- The sets collected for the signatures, in their order. -/
def Touches (t : Table) (signatures : List Signature) (touched : List BitSet) : Prop :=
  List.Forall₂ (fun x set => t.touchedSet x.storages = .ok set) signatures touched

/-- A run that comes to the end has printed an entry for every signature. -/
theorem answer_of_touches (hrange : ∀ x ∈ signatures, ∀ s ∈ x.storages, s.InRange)
    {touched : List BitSet} (h : Touches t signatures touched) :
    (session t verbose initial).answer output signatures =
      ⟨0, output ++ String.join (touched.map (t.entry verbose)), ""⟩ := by
  induction h generalizing output with
  | nil => simp [Session.answer]
  | @cons x set rest sets hset _ ih =>
      obtain ⟨hx, hrest⟩ := List.forall_mem_cons.mp hrange
      rw [answer_cons hx, hset]
      dsimp only
      rw [ih hrest, List.map_cons, String.join_cons, String.append_assoc]

theorem exists_touches (hrange : ∀ x ∈ signatures, ∀ s ∈ x.storages, s.InRange)
    (hexit : ((session t verbose initial).answer output signatures).exitCode = 0) :
    ∃ touched, Touches t signatures touched := by
  induction signatures generalizing output with
  | nil => exact ⟨[], .nil⟩
  | cons x rest ih =>
      obtain ⟨hx, hrest⟩ := List.forall_mem_cons.mp hrange
      rw [answer_cons hx] at hexit
      cases hset : t.touchedSet x.storages with
      | error e =>
          rw [hset] at hexit
          cases hexit
      | ok set =>
          rw [hset] at hexit
          obtain ⟨sets, hsets⟩ := ih hrest hexit
          exact ⟨set :: sets, .cons hset hsets⟩

end Answers

/-! ## Runs -/

section Runs

variable {t : Table} {o : Options} {args : List String}

/-- A run for a machine prints its preamble and the save areas, and then reads its input. -/
theorem run_of_machineTable (hargs : Options.ofArguments? args = some o)
    (ht : machineTable? o.machine = some t) (input : ByteArray) :
    run args input =
      match saveAreasFor t o.saveArea with
      | .error message => fail (t.preamble o.verbose) message
      | .ok areas => (session t o.verbose (t.preamble o.verbose ++ areas)).finish input := by
  obtain ⟨d, hbuilt⟩ := (ofMachine_of_machineTable ht).built
  have hchecked := hbuilt.checked (ofMachine_of_machineTable ht).names_lt
  have hregister : t.register NativeClass.nativeEntryPoint (newLog o.verbose) =
      ⟨.ok (), NativeClass.boundEntryPoint,
        (newLog o.verbose).write (t.boundLines NativeMethod.all)⟩ :=
    NativeClass.register_of_declared hchecked (by decide)
  have hprinted : logged ((newLog o.verbose).write (t.boundLines NativeMethod.all)) ++
      (if o.verbose then t.summary ++ "\n" else "") = t.preamble o.verbose := by
    rw [logged_write_newLog, Table.preamble]
    cases o.verbose <;> simp
  simp only [run, start, hargs, ht, startOn, hregister, hprinted]
  cases saveAreasFor t o.saveArea <;> rfl

theorem wholeLines_saveAreasFor {areas : String} (h : saveAreasFor t o.saveArea = .ok areas) :
    WholeLines areas := by
  cases hconvention : o.saveArea with
  | none =>
      rw [hconvention] at h
      exact Except.ok.inj h ▸ wholeLines_empty
  | some convention =>
      rw [hconvention, saveAreasFor, saveAreas] at h
      split at h
      · cases h
      · split at h
        · cases h
        · obtain rfl := Except.ok.inj h
          exact wholeLines_newline _

/-- Numbers that are read for a machine are below the sign bit. -/
theorem inRange_of_machineTable (ht : machineTable? o.machine = some t) {text : String}
    {signatures : List Signature} (htext : t.signatures text = .ok signatures) :
    ∀ x ∈ signatures, ∀ s ∈ x.storages, s.InRange := by
  have hmachine := ofMachine_of_machineTable ht
  obtain ⟨d, hbuilt⟩ := hmachine.built
  intro x hx
  exact hbuilt.inRange_of_signatures hmachine.kinds_le htext hx

theorem adds_finish (ht : machineTable? o.machine = some t) {verbose : Bool}
    {output output' : String} (houtput : AddsLines output output') (input : ByteArray) :
    Adds ((session t verbose output).finish input) ((session t true output').finish input) := by
  rw [Session.finish, Session.finish]
  cases String.fromUTF8? input with
  | none => exact adds_fail houtput _
  | some text =>
      simp only [Session.finishText, session]
      cases hsignatures : t.signatures text with
      | error e => exact adds_fail houtput _
      | ok signatures => exact adds_answer (inRange_of_machineTable ht hsignatures) houtput

/-- Whichever stage a run comes to, the verbose run ends there too. -/
theorem adds_run (args : List String) (input : ByteArray) :
    Adds (run args input) (run ("-v" :: args) input) := by
  have hempty := wholeLines_empty.addsLines
  have hverbose := Options.ofArguments?_verbose args
  cases hargs : Options.ofArguments? args with
  | none =>
      rw [hargs] at hverbose
      simp only [run, start, hargs, hverbose, Option.map_none]
      exact ⟨rfl, rfl, hempty⟩
  | some o =>
      rw [hargs, Option.map_some] at hverbose
      cases ht : machineTable? o.machine with
      | none =>
          have ht' : machineTable? { o with verbose := true }.machine = none := ht
          simp only [run, start, hargs, hverbose, ht, ht']
          exact adds_fail hempty _
      | some t =>
          rw [run_of_machineTable hargs ht, run_of_machineTable hverbose ht]
          dsimp only
          cases hareas : saveAreasFor t o.saveArea with
          | error message => exact adds_fail (t.addsLines_preamble o.verbose) _
          | ok areas =>
              have hwhole := (wholeLines_saveAreasFor hareas).addsLines
              exact adds_finish ht ((t.addsLines_preamble o.verbose).append hwhole) input

/-! ## Runs that succeed -/

/-- The input is a text of signatures, and `touched` are the sets collected for them. -/
def Answers (t : Table) (input : ByteArray) (touched : List BitSet) : Prop :=
  ∃ text signatures, String.fromUTF8? input = some text ∧ t.signatures text = .ok signatures ∧
    Touches t signatures touched

theorem exists_answers {input : ByteArray} (ht : machineTable? o.machine = some t) {verbose : Bool}
    {output : String} (hexit : ((session t verbose output).finish input).exitCode = 0) :
    ∃ touched, Answers t input touched := by
  rw [Session.finish] at hexit
  cases htext : String.fromUTF8? input with
  | none =>
      rw [htext] at hexit
      cases hexit
  | some text =>
      simp only [htext, Session.finishText, session] at hexit
      cases hsignatures : t.signatures text with
      | error e =>
          rw [hsignatures] at hexit
          cases hexit
      | ok signatures =>
          rw [hsignatures] at hexit
          obtain ⟨touched, htouched⟩ :=
            exists_touches (inRange_of_machineTable ht hsignatures) hexit
          exact ⟨touched, text, signatures, htext, hsignatures, htouched⟩

/-- The stages of a run that comes to the end of its input and answers all of it. -/
structure Succeeds (o : Options) (input : ByteArray) (t : Table) (areas : String)
    (touched : List BitSet) : Prop where
  table : machineTable? o.machine = some t
  areas : saveAreasFor t o.saveArea = .ok areas
  answers : Answers t input touched

theorem exists_succeeds {input : ByteArray} (hargs : Options.ofArguments? args = some o)
    (hexit : (run args input).exitCode = 0) :
    ∃ t areas touched, Succeeds o input t areas touched := by
  cases ht : machineTable? o.machine with
  | none =>
      simp only [run, start, hargs, ht] at hexit
      cases hexit
  | some t =>
      rw [run_of_machineTable hargs ht] at hexit
      cases hareas : saveAreasFor t o.saveArea with
      | error message =>
          rw [hareas] at hexit
          cases hexit
      | ok areas =>
          rw [hareas] at hexit
          obtain ⟨touched, hanswers⟩ := exists_answers ht hexit
          exact ⟨t, areas, touched, ht, hareas, hanswers⟩

theorem Succeeds.run_eq {input : ByteArray} {areas : String} {touched : List BitSet}
    (h : Succeeds o input t areas touched) (hargs : Options.ofArguments? args = some o) :
    run args input = ⟨0, t.preamble o.verbose ++ areas ++
      String.join (touched.map (t.entry o.verbose)), ""⟩ := by
  obtain ⟨text, signatures, htext, hsignatures, htouched⟩ := h.answers
  rw [run_of_machineTable hargs h.table, h.areas]
  dsimp only
  rw [Session.finish, htext]
  simp only [Session.finishText, session, hsignatures]
  exact answer_of_touches (inRange_of_machineTable h.table hsignatures) htouched

end Runs

/-- The outcomes of a run and of the same run with the option for logs in front. If the run
succeeds, and is not verbose itself, then the logs stand in the other one's output before what
they are about. -/
structure VerboseSpec (args : List String) (input : ByteArray) (plain verbose : Outcome) :
    Prop where
  exitCode_eq : verbose.exitCode = plain.exitCode
  stderr_eq : verbose.stderr = plain.stderr
  lines_sublist : (linesOf plain.stdout).Sublist (linesOf verbose.stdout)
  stdout_eq : ∀ o, Options.ofArguments? args = some o → o.verbose = false →
    plain.exitCode = 0 → ∃ t areas touched, Succeeds o input t areas touched ∧
      plain.stdout = areas ++
        String.join (touched.map fun set => (t.classify set).text ++ "\n") ∧
      verbose.stdout = t.name ++ ": bound native vmStorageToVMReg (II)J\n" ++
        t.name ++ ": bound native computeRegSavePolicy " ++
        "([Ljdk/internal/invoke/VMStorageProxy;)Ljava/lang/String;\n" ++
        t.summary ++ "\n" ++ areas ++
        String.join (touched.map fun set =>
          t.touchedLine set ++ "\n" ++ t.policyLine (t.classify set) ++ "\n" ++
            (t.classify set).text ++ "\n")

theorem run_verbose_spec (args : List String) (input : ByteArray) :
    VerboseSpec args input (run args input) (run ("-v" :: args) input) := by
  have hadds := adds_run args input
  refine ⟨hadds.exitCode_eq, hadds.stderr_eq, hadds.stdout.sublist, ?_⟩
  intro o hargs hquiet hexit
  obtain ⟨t, areas, touched, hsucceeds⟩ := exists_succeeds hargs hexit
  have hverbose := Options.ofArguments?_verbose args
  rw [hargs, Option.map_some] at hverbose
  have hsucceeds' : Succeeds { o with verbose := true } input t areas touched :=
    ⟨hsucceeds.table, hsucceeds.areas, hsucceeds.answers⟩
  refine ⟨t, areas, touched, hsucceeds, ?_, ?_⟩
  · have hentry : t.entry false = fun set => (t.classify set).text ++ "\n" := by
      funext set
      exact String.empty_append
    rw [hsucceeds.run_eq hargs, hquiet, hentry]
    simp [Table.preamble]
  · have hentry : t.entry true = fun set => t.touchedLine set ++ "\n" ++
        t.policyLine (t.classify set) ++ "\n" ++ (t.classify set).text ++ "\n" := by
      funext set
      simp [Table.entry, Table.callLog, String.append_assoc]
    rw [hsucceeds'.run_eq hverbose, hentry, Table.preamble, if_pos rfl, t.boundLines_all]
    simp only [String.append_assoc]

/-- A call without storages is answered on every machine. -/
theorem run_verbose_sample :
    (run ["arm64"] "void".toUTF8).exitCode = 0 ∧
      VerboseSpec ["arm64"] "void".toUTF8 (run ["arm64"] "void".toUTF8)
        (run ["-v", "arm64"] "void".toUTF8) := by
  have hargs : Options.ofArguments? ["arm64"] = some ⟨some "arm64", false, none⟩ := by decide
  obtain ⟨t, ht, hmachine⟩ := exists_machineTable (by decide : "arm64" ∈ machineNames)
  obtain ⟨d, hbuilt⟩ := hmachine.built
  have hlines : lines (significantTokens "void".toList) = [[.word "void"]] := by decide +kernel
  have hsignatures : t.signatures "void" = .ok [⟨1, []⟩] := by
    rw [hbuilt.signatures_eq_ok_iff, hlines]
    exact .cons ⟨rfl, .void⟩ .nil
  have hsucceeds : Succeeds ⟨some "arm64", false, none⟩ "void".toUTF8 t ""
      [BitSet.empty t.registerCount.toNat] :=
    ⟨ht, rfl, "void", _, fromUTF8?_toUTF8 "void", hsignatures, .cons rfl .nil⟩
  refine ⟨?_, run_verbose_spec ["arm64"] "void".toUTF8⟩
  rw [hsucceeds.run_eq hargs]

end Command

end ForeignCall
