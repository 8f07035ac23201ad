import Mathlib.Data.List.Basic
import Mathlib.Data.List.TakeWhile
import ForeignCall.Native.Registration
import ForeignCall.Proofs.Table.WellFormed

/-! # Binding native methods

A class of managed code may be registered any number of times, with one method or another
bound by hand in between, and a registration that fails leaves it half bound. The
invariant is that an entry point is bound exactly if its method is declared and has been
offered. Declarations never change, so what has been bound stays bound. -/

namespace ForeignCall

/-! ## Logs -/

/-- The lines that a log has for methods that have been bound. -/
def Table.boundLines (t : Table) (methods : List NativeMethod) : String :=
  String.join (methods.map (t.boundLine · ++ "\n"))

/-- A line has the names of the table and of the method, and the method's signature. -/
theorem Table.boundLines_eq (t : Table) (methods : List NativeMethod) :
    t.boundLines methods = String.join (methods.map fun m =>
      t.name ++ ": bound native " ++ m.name ++ " " ++ m.signature ++ "\n") := by
  simp only [boundLines, boundLine, NativeMethod.text, String.append_assoc]

theorem Table.boundLines_cons (t : Table) (m : NativeMethod) (rest : List NativeMethod) :
    t.boundLines (m :: rest) = t.boundLine m ++ "\n" ++ t.boundLines rest := by
  rw [boundLines, List.map_cons, String.join_cons, boundLines]

/-! ## Entry points -/

theorem NativeMethod.entry_inj {m m' : NativeMethod} (hm : m ∈ all) (hm' : m' ∈ all) :
    m.entry = m'.entry ↔ m = m' := by
  simp only [all, List.mem_cons, List.not_mem_nil, or_false] at hm hm'
  obtain rfl | rfl := hm <;> obtain rfl | rfl := hm' <;> decide

theorem NativeMethod.exists_entry (e : EntryPoint) : ∃ m ∈ all, m.entry = e := by
  cases e with
  | mapStorage => exact ⟨mapStorage, by simp [all], rfl⟩
  | computePolicy => exact ⟨computePolicy, by simp [all], rfl⟩

namespace NativeClass

variable {c : NativeClass}

/-- A class as managed code declares it. Nothing is bound. -/
def fresh (name : String) (declared : List (String × String)) : NativeClass where
  name := name
  declared := declared

/-- Whether a method has been bound to the entry point. -/
def binds (c : NativeClass) : EntryPoint → Bool
  | .mapStorage => c.mapsStorages
  | .computePolicy => c.computesPolicies

theorem binds_fresh (name : String) (declared : List (String × String)) (e : EntryPoint) :
    (fresh name declared).binds e = false := by
  cases e <;> rfl

theorem isBound_iff : c.isBound = true ↔ ∀ m ∈ NativeMethod.all, c.binds m.entry = true := by
  simp [isBound, NativeMethod.all, NativeMethod.mapStorage, NativeMethod.computePolicy, binds]

@[simp] theorem name_bindEntry (e : EntryPoint) : (c.bindEntry e).name = c.name := by
  cases e <;> rfl

@[simp] theorem declared_bindEntry (e : EntryPoint) :
    (c.bindEntry e).declared = c.declared := by
  cases e <;> rfl

@[simp] theorem declares_bindEntry (e : EntryPoint) (m : NativeMethod) :
    (c.bindEntry e).declares m = c.declares m := by
  rw [declares, declared_bindEntry, declares]

theorem binds_bindEntry (e e' : EntryPoint) :
    (c.bindEntry e).binds e' = true ↔ c.binds e' = true ∨ e = e' := by
  cases e <;> cases e' <;> simp [bindEntry, binds]

/-! ## Offers -/

/-- Why a method is refused. -/
def refusal (c : NativeClass) (m : NativeMethod) : String :=
  c.name ++ " declares no native method " ++ m.text ++ " (declared: " ++ c.declaredText ++ ")"

/-- The reason names the class and the method, and lists what the class declares. -/
theorem refusal_eq (m : NativeMethod) :
    c.refusal m = c.name ++ " declares no native method " ++ m.name ++ " " ++ m.signature ++
      " (declared: " ++ ", ".intercalate (c.declared.map fun d => d.1 ++ " " ++ d.2) ++ ")" := by
  simp only [refusal, declaredText, NativeMethod.text, String.append_assoc]

theorem offer_eq (m : NativeMethod) : Binder.offer c m = c.bind m := rfl

theorem bind_of_declares {m : NativeMethod} (h : c.declares m) :
    c.bind m = .ok (c.bindEntry m.entry) := if_pos h

theorem bind_of_not_declares {m : NativeMethod} (h : ¬ c.declares m) :
    c.bind m = .error (c.refusal m) := if_neg h

theorem refusal_bindEntry (e : EntryPoint) (m : NativeMethod) :
    (c.bindEntry e).refusal m = c.refusal m := by
  rw [refusal, declaredText, name_bindEntry, declared_bindEntry, refusal, declaredText]

/-- The class with the methods bound, whether it declares them or not. -/
def bindAll (c : NativeClass) (methods : List NativeMethod) : NativeClass :=
  methods.foldl (fun c m => c.bindEntry m.entry) c

theorem binds_bindAll (methods : List NativeMethod) (e : EntryPoint) :
    (c.bindAll methods).binds e = true ↔ c.binds e = true ∨ ∃ m ∈ methods, m.entry = e := by
  induction methods generalizing c with
  | nil => simp [bindAll]
  | cons m rest ih =>
      change ((c.bindEntry m.entry).bindAll rest).binds e = true ↔ _
      rw [ih, binds_bindEntry, List.exists_mem_cons_iff, or_assoc]

end NativeClass

/-! ## Registrations -/

namespace Table

/-- How a registration ends, given the methods from the first one that is refused. -/
def verdict (t : Table) (c : NativeClass) : List NativeMethod → Except Error Unit
  | [] => .ok ()
  | m :: _ => .error (t.registrationError (m.text ++ ": " ++ c.refusal m))

/-- The methods before the first one that is refused are bound and logged. -/
theorem registerAll_eq (t : Table) (methods : List NativeMethod) (c : NativeClass) (log : Log) :
    t.registerAll methods c log =
      ⟨t.verdict c (methods.dropWhile c.declares), c.bindAll (methods.takeWhile c.declares),
        log.write (t.boundLines (methods.takeWhile c.declares))⟩ := by
  induction methods generalizing c log with
  | nil => simp [registerAll, verdict, NativeClass.bindAll, boundLines]
  | cons m rest ih =>
      rw [registerAll, NativeClass.offer_eq]
      by_cases hm : c.declares m
      · have hdeclares : (c.bindEntry m.entry).declares = c.declares :=
          funext (NativeClass.declares_bindEntry m.entry)
        have hverdict : t.verdict (c.bindEntry m.entry) = t.verdict c := by
          funext methods
          cases methods with
          | nil => rfl
          | cons first _ => rw [verdict, NativeClass.refusal_bindEntry, verdict]
        rw [NativeClass.bind_of_declares hm, List.takeWhile_cons_of_pos hm,
          List.dropWhile_cons_of_pos hm, boundLines_cons]
        dsimp only
        rw [ih, hdeclares, hverdict, Log.writeLine, Log.write_write]
        rfl
      · rw [NativeClass.bind_of_not_declares hm, List.takeWhile_cons_of_neg hm,
          List.dropWhile_cons_of_neg hm]
        simp [verdict, NativeClass.bindAll, boundLines]

theorem Checked.register_eq {t : Table} (h : t.Checked) (c : NativeClass) (log : Log) :
    t.register c log =
      ⟨t.verdict c (NativeMethod.all.dropWhile c.declares),
        c.bindAll (NativeMethod.all.takeWhile c.declares),
        log.write (t.boundLines (NativeMethod.all.takeWhile c.declares))⟩ := by
  have hcheck : t.check = .ok () := mapError_eq_ok_iff.mp (validate_eq_ok_iff.mpr h)
  rw [register, hcheck]
  exact t.registerAll_eq NativeMethod.all c log

end Table

/-- An element is taken while the condition holds if it holds of this element and of all
before it. -/
theorem mem_takeWhile_iff {α : Type} {p : α → Bool} {xs : List α} {x : α} :
    x ∈ xs.takeWhile p ↔
      p x = true ∧ ∃ before after, xs = before ++ x :: after ∧ ∀ y ∈ before, p y = true := by
  constructor
  · intro h
    obtain ⟨before, more, hsplit⟩ := List.append_of_mem h
    have hall : ∀ y ∈ before ++ x :: more, p y = true := by
      intro y hy
      rw [← hsplit] at hy
      exact List.mem_takeWhile_imp hy
    refine ⟨hall x (by simp), before, more ++ xs.dropWhile p, ?_, ?_⟩
    · rw [← List.cons_append, ← List.append_assoc, ← hsplit, List.takeWhile_append_dropWhile]
    · intro y hy
      exact hall y (List.mem_append_left _ hy)
  · rintro ⟨hx, before, after, rfl, hbefore⟩
    rw [List.takeWhile_append_of_pos hbefore, List.takeWhile_cons_of_pos hx]
    simp

namespace NativeClass

/-! ## Runs -/

/-- What may happen to a class. -/
inductive Step where
  | register (t : Table) (log : Log)
  | bind (m : NativeMethod)

/-- The class after the step. A method that is refused leaves it as it is. -/
def step (c : NativeClass) : Step → NativeClass
  | .register t log => (t.register c log).binder
  | .bind m =>
    match c.bind m with
    | .ok bound => bound
    | .error _ => c

def run (c : NativeClass) (steps : List Step) : NativeClass :=
  steps.foldl step c

/-- Tables are built, with registers that 32 bits can number, and of methods there are only
the native ones. -/
def Step.Allowed : Step → Prop
  | .register t _ => (∃ d : Description, d.build = .ok t) ∧ t.names.length < 2 ^ 32
  | .bind m => m ∈ NativeMethod.all

/-- The step offers the method to the class. A registration goes through the methods in
their order, and comes to one if all before it are declared. -/
inductive Step.Offers (declared : List (String × String)) : Step → NativeMethod → Prop where
  | bind {m} : Offers declared (.bind m) m
  | register {t log before m after} : NativeMethod.all = before ++ m :: after →
      (∀ b ∈ before, (b.name, b.signature) ∈ declared) → Offers declared (.register t log) m

variable {c : NativeClass} {s : Step} {steps : List Step}

theorem declares_iff {m : NativeMethod} :
    c.declares m = true ↔ (m.name, m.signature) ∈ c.declared := by
  rw [declares, decide_eq_true_iff]

theorem Step.Allowed.checked {t : Table} {log : Log} (h : (register t log).Allowed) :
    t.Checked := by
  obtain ⟨⟨d, hbuild⟩, hsize⟩ := h
  exact (Description.build_eq_ok_iff.mp hbuild).checked hsize

theorem Step.offers_register_iff {t : Table} {log : Log} {m : NativeMethod} :
    (register t log).Offers c.declared m ↔ ∃ before after,
      NativeMethod.all = before ++ m :: after ∧ ∀ b ∈ before, c.declares b = true := by
  simp only [declares_iff]
  constructor
  · rintro (_ | ⟨hall, hbefore⟩)
    exact ⟨_, _, hall, hbefore⟩
  · rintro ⟨before, after, hall, hbefore⟩
    exact .register hall hbefore

theorem Step.offers_bind_iff {declared : List (String × String)} {m m' : NativeMethod} :
    (bind m').Offers declared m ↔ m' = m := by
  constructor
  · rintro ⟨⟩
    rfl
  · rintro rfl
    exact .bind

/-- No two of the methods that a registration binds have one entry point. -/
theorem exists_entry_takeWhile_iff {m : NativeMethod} (hm : m ∈ NativeMethod.all) :
    (∃ m' ∈ NativeMethod.all.takeWhile c.declares, m'.entry = m.entry) ↔
      m ∈ NativeMethod.all.takeWhile c.declares := by
  constructor
  · rintro ⟨m', hm', hentry⟩
    have hmem := (List.takeWhile_sublist _).mem hm'
    exact (NativeMethod.entry_inj hmem hm).mp hentry ▸ hm'
  · intro hmem
    exact ⟨m, hmem, rfl⟩

/-- A step binds the methods that it offers and that are declared, and no others. -/
theorem binds_step (hs : s.Allowed) {m : NativeMethod} (hm : m ∈ NativeMethod.all) :
    (c.step s).binds m.entry = true ↔
      c.binds m.entry = true ∨ (m.name, m.signature) ∈ c.declared ∧ s.Offers c.declared m := by
  cases s with
  | register t log =>
      rw [step, hs.checked.register_eq, binds_bindAll, exists_entry_takeWhile_iff hm,
        mem_takeWhile_iff, Step.offers_register_iff, declares_iff]
  | bind m' =>
      rw [step, Step.offers_bind_iff]
      by_cases hdeclares : c.declares m'
      · rw [bind_of_declares hdeclares]
        dsimp only
        rw [binds_bindEntry, NativeMethod.entry_inj hs hm]
        refine or_congr_right ⟨?_, And.right⟩
        rintro rfl
        exact ⟨declares_iff.mp hdeclares, rfl⟩
      · rw [bind_of_not_declares hdeclares]
        refine ⟨.inl, ?_⟩
        rintro (hbound | ⟨hmem, rfl⟩)
        · exact hbound
        · exact absurd (declares_iff.mpr hmem) hdeclares

theorem bindAll_declared (methods : List NativeMethod) :
    (c.bindAll methods).name = c.name ∧ (c.bindAll methods).declared = c.declared := by
  induction methods generalizing c with
  | nil => exact ⟨rfl, rfl⟩
  | cons m rest ih =>
      obtain ⟨hname, hdeclared⟩ := ih (c := c.bindEntry m.entry)
      exact ⟨hname.trans (name_bindEntry _), hdeclared.trans (declared_bindEntry _)⟩

/-- Nothing changes what a class declares, or its name. -/
theorem step_declared (hs : s.Allowed) :
    (c.step s).name = c.name ∧ (c.step s).declared = c.declared := by
  cases s with
  | register t log =>
      rw [step, hs.checked.register_eq]
      exact bindAll_declared _
  | bind m =>
      rw [step]
      by_cases hdeclares : c.declares m
      · rw [bind_of_declares hdeclares]
        exact ⟨name_bindEntry _, declared_bindEntry _⟩
      · rw [bind_of_not_declares hdeclares]
        exact ⟨rfl, rfl⟩

theorem run_declared (hsteps : ∀ s ∈ steps, s.Allowed) :
    (c.run steps).name = c.name ∧ (c.run steps).declared = c.declared := by
  induction steps generalizing c with
  | nil => exact ⟨rfl, rfl⟩
  | cons s rest ih =>
      obtain ⟨hs, hrest⟩ := List.forall_mem_cons.mp hsteps
      obtain ⟨hname, hdeclared⟩ := ih (c := c.step s) hrest
      obtain ⟨hname', hdeclared'⟩ := step_declared (c := c) hs
      exact ⟨hname.trans hname', hdeclared.trans hdeclared'⟩

theorem binds_run (hsteps : ∀ s ∈ steps, s.Allowed) {m : NativeMethod}
    (hm : m ∈ NativeMethod.all) :
    (c.run steps).binds m.entry = true ↔ c.binds m.entry = true ∨
      (m.name, m.signature) ∈ c.declared ∧ ∃ s ∈ steps, s.Offers c.declared m := by
  induction steps generalizing c with
  | nil => simp [run]
  | cons s rest ih =>
      obtain ⟨hs, hrest⟩ := List.forall_mem_cons.mp hsteps
      change ((c.step s).run rest).binds m.entry = true ↔ _
      rw [ih hrest, binds_step hs hm, (step_declared hs).2, List.exists_mem_cons_iff, or_assoc,
        ← and_or_left]

/-! ## One registration -/

section Registration

variable {t : Table} {log : Log}

theorem verdict_eq_ok_iff {methods : List NativeMethod} :
    t.verdict c (methods.dropWhile c.declares) = .ok () ↔
      ∀ m ∈ methods, (m.name, m.signature) ∈ c.declared := by
  simp only [← declares_iff]
  rw [← List.dropWhile_eq_nil_iff]
  cases methods.dropWhile c.declares <;> simp [Table.verdict]

/-- A registration that fails names the first method that is not declared, and has logged
the ones before it. -/
theorem register_error_cases (ht : t.Checked) {e : Error}
    (he : (t.register c log).outcome = .error e) :
    ∃ accepted m rest, NativeMethod.all = accepted ++ m :: rest ∧
      (∀ a ∈ accepted, (a.name, a.signature) ∈ c.declared) ∧
      (m.name, m.signature) ∉ c.declared ∧
      e = ⟨.registration (m.text ++ ": " ++ c.refusal m), t.name⟩ ∧
      (t.register c log).log = log.write (t.boundLines accepted) := by
  rw [ht.register_eq] at he ⊢
  dsimp only at he ⊢
  have hsplit := List.takeWhile_append_dropWhile (p := c.declares) (l := NativeMethod.all)
  have hfirst := List.head?_dropWhile_not c.declares NativeMethod.all
  generalize NativeMethod.all.dropWhile c.declares = refused at he hsplit hfirst
  cases refused with
  | nil => cases he
  | cons m rest =>
      have hm : ¬ c.declares m := Bool.eq_false_iff.mp hfirst
      refine ⟨_, m, rest, hsplit.symm, ?_, mt declares_iff.mpr hm, ?_, rfl⟩
      · intro a ha
        exact declares_iff.mp (List.mem_takeWhile_imp ha)
      · exact (Except.error.inj he).symm

/-- Where all methods are declared, a registration binds and logs all of them. -/
theorem register_of_declared (ht : t.Checked)
    (hdeclared : ∀ m ∈ NativeMethod.all, (m.name, m.signature) ∈ c.declared) :
    t.register c log =
      ⟨.ok (), c.bindAll NativeMethod.all, log.write (t.boundLines NativeMethod.all)⟩ := by
  simp only [← declares_iff] at hdeclared
  rw [ht.register_eq, List.takeWhile_eq_self_iff.mpr hdeclared,
    List.dropWhile_eq_nil_iff.mpr hdeclared, Table.verdict]

theorem isBound_bindAll : (c.bindAll NativeMethod.all).isBound = true := by
  rw [isBound_iff]
  intro m hm
  exact (binds_bindAll _ _).mpr (.inr ⟨m, hm, rfl⟩)

end Registration

/-! ## The contract of a class -/

/-- What holds of the class `c` after the steps: what is bound is what has been declared and
offered, and registrations and calls come out accordingly. -/
structure BindingSpec (name : String) (declared : List (String × String)) (steps : List Step)
    (c : NativeClass) : Prop where
  binds_iff : ∀ m ∈ NativeMethod.all, c.binds m.entry = true ↔
    (m.name, m.signature) ∈ declared ∧ ∃ s ∈ steps, s.Offers declared m
  refused_iff : ∀ m, (∃ reason, c.bind m = .error reason) ↔ (m.name, m.signature) ∉ declared
  unchanged_of_refused : ∀ m reason, c.bind m = .error reason → c.step (.bind m) = c
  stays_bound : ∀ more, (∀ s ∈ more, s.Allowed) → ∀ e, c.binds e = true →
    (c.run more).binds e = true
  register_ok_iff : ∀ t log, (Step.register t log).Allowed →
    ((t.register c log).outcome = .ok () ↔
      ∀ m ∈ NativeMethod.all, (m.name, m.signature) ∈ declared)
  register_ok : ∀ t log, (Step.register t log).Allowed →
    (t.register c log).outcome = .ok () → (t.register c log).binder.isBound = true ∧
      (t.register c log).log = log.write (String.join (NativeMethod.all.map fun m =>
        t.name ++ ": bound native " ++ m.name ++ " " ++ m.signature ++ "\n"))
  register_error : ∀ t log e, (Step.register t log).Allowed →
    (t.register c log).outcome = .error e →
    (t.register c log).binder.isBound = false ∧
      ∃ accepted m rest, NativeMethod.all = accepted ++ m :: rest ∧
        (∀ a ∈ accepted, (a.name, a.signature) ∈ declared) ∧ (m.name, m.signature) ∉ declared ∧
        e = ⟨.registration (m.name ++ " " ++ m.signature ++ ": " ++ name ++
          " declares no native method " ++ m.name ++ " " ++ m.signature ++ " (declared: " ++
          ", ".intercalate (declared.map fun d => d.1 ++ " " ++ d.2) ++ ")"), t.name⟩ ∧
        (t.register c log).log = log.write (String.join (accepted.map fun a =>
          t.name ++ ": bound native " ++ a.name ++ " " ++ a.signature ++ "\n"))
  callMapStorage_eq : ∀ t raw, c.callMapStorage t raw =
    if c.binds .mapStorage then t.nativeRegister raw
    else
      .error ⟨.registration (name ++ "." ++ "vmStorageToVMReg" ++ " is not bound"),
        t.name⟩
  callComputePolicy_eq : ∀ t raws log, c.callComputePolicy t raws log =
    if c.binds .computePolicy then t.nativePolicy raws log
    else
      (.error ⟨.registration (name ++ "." ++ "computeRegSavePolicy" ++ " is not bound"),
        t.name⟩, log)

theorem run_bindingSpec (name : String) (declared : List (String × String))
    (hsteps : ∀ s ∈ steps, s.Allowed) :
    BindingSpec name declared steps ((fresh name declared).run steps) := by
  have hbinds : ∀ m ∈ NativeMethod.all, ((fresh name declared).run steps).binds m.entry = true ↔
      (m.name, m.signature) ∈ declared ∧ ∃ s ∈ steps, s.Offers declared m := by
    intro m hm
    rw [binds_run hsteps hm, binds_fresh, Bool.false_eq_true, false_or, fresh]
  obtain ⟨hname, hdeclared⟩ := run_declared (c := fresh name declared) hsteps
  generalize hc : (fresh name declared).run steps = c at hbinds hname hdeclared
  change c.name = name at hname
  change c.declared = declared at hdeclared
  refine ⟨hbinds, ?_, ?_, ?_, ?_, ?_, ?_, ?_, ?_⟩
  · intro m
    rw [← hdeclared, ← declares_iff]
    by_cases hm : c.declares m
    · simp [bind_of_declares hm, hm]
    · simp [bind_of_not_declares hm, hm]
  · intro m reason hrefused
    rw [step, hrefused]
  · intro more hmore e he
    obtain ⟨m, hm, rfl⟩ := NativeMethod.exists_entry e
    exact (binds_run hmore hm).mpr (.inl he)
  · intro t log hs
    rw [hs.checked.register_eq, ← hdeclared]
    exact verdict_eq_ok_iff
  · intro t log hs hok
    rw [hs.checked.register_eq] at hok
    rw [register_of_declared hs.checked (verdict_eq_ok_iff.mp hok)]
    exact ⟨isBound_bindAll, congrArg log.write (t.boundLines_eq _)⟩
  · intro t log e hs he
    obtain ⟨accepted, m, rest, hall, haccepted, hm, hreason, hlog⟩ :=
      register_error_cases hs.checked he
    rw [refusal_eq, hname, hdeclared] at hreason
    rw [hdeclared] at haccepted hm
    rw [t.boundLines_eq] at hlog
    refine ⟨?_, accepted, m, rest, hall, haccepted, hm, ?_, hlog⟩
    swap
    · rw [hreason, NativeMethod.text]
      simp only [String.append_assoc]
    -- the step that failed is one more step of the run, and no run binds what is not declared
    rw [← Bool.not_eq_true, isBound_iff]
    intro hbound
    have hmem : m ∈ NativeMethod.all := by rw [hall]; simp
    rcases (binds_step hs hmem).mp (hbound m hmem) with hbefore | ⟨hmem', -⟩
    · exact hm ((hbinds m hmem).mp hbefore).1
    · exact hm (hdeclared ▸ hmem')
  · intro t raw
    rw [← hname]
    rfl
  · intro t raws log
    rw [← hname]
    rfl

/-- What a class declares that has the first method under another signature, and the second
one twice. -/
def sampleDeclared : List (String × String) :=
  [("vmStorageToVMReg", "(JJ)J"),
    ("computeRegSavePolicy", "([Ljdk/internal/invoke/VMStorageProxy;)Ljava/lang/String;"),
    ("computeRegSavePolicy", "([Ljdk/internal/invoke/VMStorageProxy;)Ljava/lang/String;")]

/-- What a class declares that has the second method under another signature. -/
def halfDeclared : List (String × String) :=
  [("vmStorageToVMReg", "(II)J"), ("computeRegSavePolicy", "()V")]

/-- Both registrations fail at once; the second method is bound by hand in between. -/
def sampleRun : List Step :=
  [.register sampleTable (.buffer ""), .bind .mapStorage, .bind .computePolicy,
    .register sampleTable .closed]

/-- The two classes make a registration fail at the first method and at the second one. -/
theorem run_bindingSpec_sample :
    (∀ s ∈ sampleRun, s.Allowed) ∧
      ((fresh "Foo" sampleDeclared).run sampleRun).binds .computePolicy = true ∧
      ((fresh "Foo" sampleDeclared).run sampleRun).binds .mapStorage = false ∧
      BindingSpec "Foo" sampleDeclared sampleRun ((fresh "Foo" sampleDeclared).run sampleRun) ∧
      sampleTable.register ((fresh "Foo" sampleDeclared).run sampleRun) (.buffer "") =
        ⟨.error ⟨.registration ("vmStorageToVMReg (II)J: Foo declares no native method " ++
          "vmStorageToVMReg (II)J (declared: vmStorageToVMReg (JJ)J, " ++
          "computeRegSavePolicy ([Ljdk/internal/invoke/VMStorageProxy;)Ljava/lang/String;, " ++
          "computeRegSavePolicy ([Ljdk/internal/invoke/VMStorageProxy;)Ljava/lang/String;)"),
          "sample"⟩, (fresh "Foo" sampleDeclared).run sampleRun, .buffer ""⟩ ∧
      BindingSpec "Bar" halfDeclared sampleRun ((fresh "Bar" halfDeclared).run sampleRun) ∧
      sampleTable.register ((fresh "Bar" halfDeclared).run sampleRun) (.buffer "") =
        ⟨.error ⟨.registration (
          "computeRegSavePolicy ([Ljdk/internal/invoke/VMStorageProxy;)Ljava/lang/String;: " ++
          "Bar declares no native method " ++
          "computeRegSavePolicy ([Ljdk/internal/invoke/VMStorageProxy;)Ljava/lang/String; " ++
          "(declared: vmStorageToVMReg (II)J, computeRegSavePolicy ()V)"), "sample"⟩,
          (fresh "Bar" halfDeclared).run sampleRun,
          .buffer "sample: bound native vmStorageToVMReg (II)J\n"⟩ := by
  have htable : (∃ d : Description, d.build = .ok sampleTable) ∧
      sampleTable.names.length < 2 ^ 32 :=
    ⟨⟨_, build_sample⟩, addressable_sampleTable.names_lt⟩
  have hfirst : NativeMethod.mapStorage ∈ NativeMethod.all := by decide
  have hsecond : NativeMethod.computePolicy ∈ NativeMethod.all := by decide
  have hsteps : ∀ s ∈ sampleRun, s.Allowed := by
    simp only [sampleRun, List.forall_mem_cons]
    exact ⟨htable, hfirst, hsecond, htable, List.forall_mem_nil _⟩
  have hspec := run_bindingSpec "Foo" sampleDeclared hsteps
  have hrefused {c : NativeClass} {m : NativeMethod} {text : String} {log : Log}
      (hregister : sampleTable.register c (.buffer "") =
        ⟨.error ⟨.registration (m.text ++ ": " ++ c.refusal m), "sample"⟩, c, log⟩)
      (htext : m.text ++ ": " ++ c.refusal m = text) :
      sampleTable.register c (.buffer "") = ⟨.error ⟨.registration text, "sample"⟩, c, log⟩ :=
    htext ▸ hregister
  refine ⟨hsteps, ?_, ?_, hspec, ?_, run_bindingSpec "Bar" halfDeclared hsteps, ?_⟩
  · refine (hspec.binds_iff .computePolicy hsecond).mpr ⟨by decide, .bind .computePolicy, ?_, .bind⟩
    simp [sampleRun]
  · rw [← Bool.not_eq_true]
    intro hbound
    exact absurd ((hspec.binds_iff .mapStorage hfirst).mp hbound).1 (by decide)
  · exact hrefused (m := .mapStorage) rfl (by decide +kernel)
  · exact hrefused (m := .computePolicy) rfl (by decide +kernel)

end NativeClass

end ForeignCall
