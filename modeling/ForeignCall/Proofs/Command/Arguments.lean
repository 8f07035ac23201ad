import Mathlib.Data.List.Perm.Basic
import ForeignCall.Command.Run

/-! # Argument lists

The reader of options goes through the arguments once, and an option may take the argument
after it whatever that looks like. What it accepts are the lists of blocks that name at most
one platform. A list is split into blocks in one way, and what is read does not depend on the
order of the blocks, except that the last convention counts. -/

namespace ForeignCall

/-- An option with its argument, or a platform. -/
inductive ArgumentBlock where
  | short
  | long
  | saveArea (convention : String)
  | platform (name : String) (plain : name.toList.head? ≠ some '-')

namespace ArgumentBlock

def arguments : ArgumentBlock → List String
  | short => ["-v"]
  | long => ["--verbose"]
  | saveArea convention => ["--save-area", convention]
  | platform name _ => [name]

def isVerbose : ArgumentBlock → Bool
  | short | long => true
  | _ => false

def convention? : ArgumentBlock → Option String
  | saveArea convention => some convention
  | _ => none

def platform? : ArgumentBlock → Option String
  | platform name _ => some name
  | _ => none

/-- The conventions that the blocks ask for, in their order. -/
def conventions (blocks : List ArgumentBlock) : List String :=
  blocks.filterMap convention?

/-- The platforms that the blocks name. -/
def platforms (blocks : List ArgumentBlock) : List String :=
  blocks.filterMap platform?

/-- The options read so far with those of the blocks. -/
def extend (o : Options) (blocks : List ArgumentBlock) : Options where
  platform := (o.platform.toList ++ platforms blocks).head?
  verbose := o.verbose || blocks.any isVerbose
  saveArea := (conventions blocks).getLast?.or o.saveArea

/-! ## One block -/

/-- What the reader does at a block. A second platform is refused. -/
def read (o : Options) : ArgumentBlock → Option Options
  | short | long => some { o with verbose := true }
  | saveArea convention => some { o with saveArea := some convention }
  | platform name _ => if o.platform.isSome then none else some { o with platform := some name }

theorem ne_of_plain {name : String} (plain : name.toList.head? ≠ some '-') :
    name ≠ "-v" ∧ name ≠ "--verbose" ∧ name ≠ "--save-area" := by
  refine ⟨?_, ?_, ?_⟩ <;> rintro rfl <;> exact plain (by decide)

theorem read_arguments (o : Options) (b : ArgumentBlock) (rest : List String) :
    o.read (b.arguments ++ rest) = (b.read o).bind (·.read rest) := by
  cases b with
  | short | long | saveArea =>
      rw [arguments, List.cons_append, Options.read.eq_def]
      rfl
  | platform name plain =>
      obtain ⟨hshort, hlong, hsave⟩ := ne_of_plain plain
      rw [arguments, List.cons_append, Options.read.eq_def, read]
      dsimp only
      rw [if_neg (not_or.mpr ⟨hshort, hlong⟩), if_neg hsave]
      cases o.platform <;> simp [plain]

/-- The first argument tells the block, and so where it ends. -/
theorem arguments_append_inj {b b' : ArgumentBlock} {rest rest' : List String}
    (h : b.arguments ++ rest = b'.arguments ++ rest') : b = b' ∧ rest = rest' := by
  cases b with
  | platform name plain =>
      have hname := ne_of_plain plain
      cases b' <;> simp_all [arguments]
  | short | long | saveArea =>
      cases b' with
      | platform name plain =>
          have hname := ne_of_plain plain
          simp_all [arguments, eq_comm]
      | short | long | saveArea => simp_all [arguments]

/-! ## All blocks -/

section

variable {o o' : Options} {b : ArgumentBlock}

theorem read_eq_none_iff : b.read o = none ↔ o.platform.isSome ∧ b.platform?.isSome := by
  cases b <;> simp [read, platform?, Option.isSome_iff_ne_none]

/-- Whether a platform has been read or is still to come makes no difference. -/
theorem platforms_of_read (h : b.read o = some o') (blocks : List ArgumentBlock) :
    o.platform.toList ++ platforms (b :: blocks) = o'.platform.toList ++ platforms blocks := by
  cases b with
  | short | long | saveArea =>
      obtain rfl := Option.some.inj h
      rfl
  | platform name _ =>
      rw [read, Option.ite_none_left_eq_some, Option.not_isSome_iff_eq_none] at h
      obtain rfl := Option.some.inj h.2
      rw [h.1]
      rfl

theorem verbose_of_read (h : b.read o = some o') : o'.verbose = (o.verbose || b.isVerbose) := by
  cases b with
  | short | long | saveArea =>
      obtain rfl := Option.some.inj h
      simp [isVerbose]
  | platform name _ =>
      rw [read, Option.ite_none_left_eq_some] at h
      obtain rfl := Option.some.inj h.2
      simp [isVerbose]

theorem saveArea_of_read (h : b.read o = some o') :
    o'.saveArea = b.convention?.or o.saveArea := by
  cases b with
  | short | long | saveArea =>
      obtain rfl := Option.some.inj h
      rfl
  | platform name _ =>
      rw [read, Option.ite_none_left_eq_some] at h
      obtain rfl := Option.some.inj h.2
      rfl

/-- A later convention takes the place of an earlier one. -/
theorem getLast?_conventions_cons (b : ArgumentBlock) (blocks : List ArgumentBlock)
    (earlier : Option String) : (conventions (b :: blocks)).getLast?.or earlier =
      (conventions blocks).getLast?.or (b.convention?.or earlier) := by
  rw [conventions, conventions, List.filterMap_cons]
  cases b.convention? with
  | none => rfl
  | some convention =>
      rw [List.getLast?_cons]
      cases (blocks.filterMap convention?).getLast? <;> rfl

theorem extend_of_read (h : b.read o = some o') (blocks : List ArgumentBlock) :
    extend o (b :: blocks) = extend o' blocks := by
  rw [extend, extend, platforms_of_read h, verbose_of_read h, saveArea_of_read h,
    getLast?_conventions_cons, List.any_cons, Bool.or_assoc]

theorem read_flatMap (o : Options) (blocks : List ArgumentBlock) :
    o.read (blocks.flatMap arguments) =
      if (o.platform.toList ++ platforms blocks).length ≤ 1 then some (extend o blocks)
      else none := by
  induction blocks generalizing o with
  | nil =>
      have hlength : o.platform.toList.length ≤ 1 := by cases o.platform <;> simp
      have hextend : extend o [] = o := by
        cases o with
        | mk platform verbose saveArea => cases platform <;> simp [extend, platforms, conventions]
      simp [Options.read, platforms, hlength, hextend]
  | cons b blocks ih =>
      rw [List.flatMap_cons, read_arguments]
      cases hread : b.read o with
      | none =>
          obtain ⟨hplatform, hb⟩ := read_eq_none_iff.mp hread
          obtain ⟨first, hfirst⟩ := Option.isSome_iff_exists.mp hplatform
          obtain ⟨second, hsecond⟩ := Option.isSome_iff_exists.mp hb
          simp [platforms, hfirst, hsecond]
      | some o' => rw [platforms_of_read hread, extend_of_read hread, ← ih, Option.bind_some]

theorem exists_blocks {args : List String} (h : o.read args = some o') :
    ∃ blocks : List ArgumentBlock, args = blocks.flatMap arguments := by
  fun_induction Options.read o args with
  | case1 => exact ⟨[], rfl⟩
  | case2 o arg rest hverbose ih =>
      obtain ⟨blocks, rfl⟩ := ih h
      rcases hverbose with rfl | rfl
      · exact ⟨.short :: blocks, rfl⟩
      · exact ⟨.long :: blocks, rfl⟩
  | case3 => cases h
  | case4 o convention rest _ ih =>
      obtain ⟨blocks, rfl⟩ := ih h
      exact ⟨.saveArea convention :: blocks, rfl⟩
  | case5 => cases h
  | case6 o arg rest _ _ hplain ih =>
      obtain ⟨blocks, rfl⟩ := ih h
      exact ⟨.platform arg (fun hdash => hplain (.inl hdash)) :: blocks, rfl⟩

end

/-- The arguments are those of the blocks, one after the other, and there is at most one
platform. -/
structure Splits (args : List String) (blocks : List ArgumentBlock) : Prop where
  eq_flatMap : args = blocks.flatMap arguments
  platforms_le : (platforms blocks).length ≤ 1

section

variable {args : List String} {blocks blocks' : List ArgumentBlock}

theorem ofArguments?_flatMap (blocks : List ArgumentBlock) :
    Options.ofArguments? (blocks.flatMap arguments) =
      if (platforms blocks).length ≤ 1 then some (extend {} blocks) else none :=
  read_flatMap {} blocks

theorem Splits.ofArguments?_eq (h : Splits args blocks) :
    Options.ofArguments? args = some (extend {} blocks) := by
  rw [h.eq_flatMap, ofArguments?_flatMap, if_pos h.platforms_le]

theorem exists_splits_iff :
    (∃ o, Options.ofArguments? args = some o) ↔ ∃ blocks, Splits args blocks := by
  constructor
  · rintro ⟨o, ho⟩
    obtain ⟨blocks, rfl⟩ := exists_blocks ho
    rw [ofArguments?_flatMap, Option.ite_none_right_eq_some] at ho
    exact ⟨blocks, rfl, ho.1⟩
  · rintro ⟨blocks, h⟩
    exact ⟨_, h.ofArguments?_eq⟩

theorem flatMap_arguments_inj (h : blocks.flatMap arguments = blocks'.flatMap arguments) :
    blocks = blocks' := by
  have hne : ∀ (b : ArgumentBlock) rest, b.arguments ++ rest ≠ [] := by
    intro b rest
    cases b <;> simp [arguments]
  induction blocks generalizing blocks' with
  | nil =>
      cases blocks' with
      | nil => rfl
      | cons b' rest' => exact absurd h.symm (hne b' _)
  | cons b rest ih =>
      cases blocks' with
      | nil => exact absurd h (hne b _)
      | cons b' rest' =>
          rw [List.flatMap_cons, List.flatMap_cons] at h
          obtain ⟨rfl, hrest⟩ := arguments_append_inj h
          rw [ih hrest]

theorem Splits.unique (h : Splits args blocks) (h' : Splits args blocks') : blocks = blocks' :=
  flatMap_arguments_inj (h.eq_flatMap.symm.trans h'.eq_flatMap)

/-! ## What is read -/

theorem any_isVerbose_iff : blocks.any isVerbose = true ↔ .short ∈ blocks ∨ .long ∈ blocks := by
  rw [List.any_eq_true]
  constructor
  · rintro ⟨b, hb, hverbose⟩
    cases b with
    | short => exact .inl hb
    | long => exact .inr hb
    | saveArea | platform => cases hverbose
  · rintro (hb | hb) <;> exact ⟨_, hb, rfl⟩

theorem mem_platforms_iff {name : String} :
    name ∈ platforms blocks ↔ ∃ plain, .platform name plain ∈ blocks := by
  rw [platforms, List.mem_filterMap]
  constructor
  · rintro ⟨b, hb, hname⟩
    cases b with
    | platform other plain =>
        obtain rfl := Option.some.inj hname
        exact ⟨plain, hb⟩
    | short | long | saveArea => cases hname
  · rintro ⟨plain, hb⟩
    exact ⟨_, hb, rfl⟩

theorem platforms_cases (hle : (platforms blocks).length ≤ 1) :
    platforms blocks = [] ∨ ∃ name, platforms blocks = [name] := by
  rcases Nat.le_one_iff_eq_zero_or_eq_one.mp hle with hzero | hone
  · exact .inl (List.length_eq_zero_iff.mp hzero)
  · exact .inr (List.length_eq_one_iff.mp hone)

theorem Splits.head?_platforms (h : Splits args blocks) {name : String}
    (hname : name ∈ platforms blocks) : (platforms blocks).head? = some name := by
  rcases platforms_cases h.platforms_le with hnone | ⟨other, hother⟩
  · rw [hnone] at hname
    cases hname
  · rw [hother] at hname
    rw [hother, List.mem_singleton.mp hname, List.head?_cons]

/-! ## Blocks in another order -/

theorem platforms_eq_of_perm (hperm : blocks'.Perm blocks) (hle : (platforms blocks).length ≤ 1) :
    platforms blocks' = platforms blocks := by
  have hplatforms : (platforms blocks').Perm (platforms blocks) := hperm.filterMap _
  rcases platforms_cases hle with hnone | ⟨name, hname⟩
  · rw [hnone] at hplatforms ⊢
    exact hplatforms.eq_nil
  · rw [hname] at hplatforms ⊢
    exact hplatforms.eq_singleton

theorem Splits.ofArguments?_eq_of_perm (h : Splits args blocks) (hperm : blocks'.Perm blocks)
    (hlast : (conventions blocks').getLast? = (conventions blocks).getLast?) :
    Options.ofArguments? (blocks'.flatMap arguments) = Options.ofArguments? args := by
  have hplatforms := platforms_eq_of_perm hperm h.platforms_le
  have h' : Splits (blocks'.flatMap arguments) blocks' := ⟨rfl, hplatforms ▸ h.platforms_le⟩
  rw [h'.ofArguments?_eq, h.ofArguments?_eq, extend, extend, hplatforms, hlast,
    hperm.any_eq]

end

end ArgumentBlock

namespace Command

open ArgumentBlock

/-- Which argument lists are accepted, and what is read from them. Other lists end the command
before it has read its input. -/
structure ArgumentsSpec (args : List String) : Prop where
  accepts_iff : (∃ o, Options.ofArguments? args = some o) ↔ ∃ blocks, Splits args blocks
  unique : ∀ blocks blocks', Splits args blocks → Splits args blocks' → blocks = blocks'
  options : ∀ blocks, Splits args blocks → ∃ o, Options.ofArguments? args = some o ∧
    (o.verbose = true ↔ .short ∈ blocks ∨ .long ∈ blocks) ∧
    o.saveArea = (conventions blocks).getLast? ∧
    (∀ name plain, .platform name plain ∈ blocks → o.machine = name) ∧
    ((∀ name plain, .platform name plain ∉ blocks) → o.machine = "x86_64")
  refused : (¬ ∃ blocks, Splits args blocks) →
    start args = .finished ⟨1, "", "usage: regsave [-v] [--save-area sysv|win64] [platform]\n"⟩ ∧
    ∀ input, run args input =
      ⟨1, "", "usage: regsave [-v] [--save-area sysv|win64] [platform]\n"⟩
  reordered : ∀ blocks, Splits args blocks → ∀ blocks', blocks'.Perm blocks →
    (conventions blocks').getLast? = (conventions blocks).getLast? →
    ∀ input, run (blocks'.flatMap arguments) input = run args input

theorem arguments_spec (args : List String) : ArgumentsSpec args := by
  refine ⟨exists_splits_iff, fun _ _ => Splits.unique, ?_, ?_, ?_⟩
  · intro blocks h
    have hmachine : (extend {} blocks).machine = (platforms blocks).head?.getD "x86_64" := rfl
    refine ⟨_, h.ofArguments?_eq, ?_, Option.or_none, ?_, ?_⟩
    · rw [extend, Bool.false_or]
      exact any_isVerbose_iff
    · intro name plain hb
      rw [hmachine, h.head?_platforms (mem_platforms_iff.mpr ⟨plain, hb⟩), Option.getD_some]
    · intro hnone
      have hempty : platforms blocks = [] := by
        rw [List.eq_nil_iff_forall_not_mem]
        intro name hname
        obtain ⟨plain, hb⟩ := mem_platforms_iff.mp hname
        exact hnone name plain hb
      rw [hmachine, hempty, List.head?_nil, Option.getD_none]
  · intro h
    have hnone : Options.ofArguments? args = none := by
      rw [← Option.not_isSome_iff_eq_none, Option.isSome_iff_exists, exists_splits_iff]
      exact h
    have hstart : start args = .finished usage := by rw [start, hnone]
    refine ⟨hstart, ?_⟩
    intro input
    rw [run, hstart, usage]
  · intro blocks h blocks' hperm hlast input
    simp only [run, start, h.ofArguments?_eq_of_perm hperm hlast]

/-- The first convention asked for looks like an option, and the second one counts. -/
example : Options.ofArguments? ["--save-area", "-v", "x64", "--save-area", "sysv"] =
    some ⟨some "x64", false, some "sysv"⟩ := by
  decide

end Command

end ForeignCall
