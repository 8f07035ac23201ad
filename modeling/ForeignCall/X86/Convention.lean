import ForeignCall.X86.Register

/-!
# Calling conventions of x86-64

A convention lists the registers that carry arguments and results and those that a call leaves as
they were.
-/

namespace ForeignCall.X86

structure Convention where
  name : String
  integerArguments : List Gpr
  integerReturns : List Gpr
  vectorArguments : List Xmm
  vectorReturns : List Xmm
  /-- The general registers that a call leaves as they were. -/
  nonvolatile : List Gpr
  nonvolatileVectors : List Xmm
  framePointer : Gpr
  stackPointer : Gpr
deriving DecidableEq

namespace Convention

/-- The vector registers numbered `first` to `last`. -/
def vectors (first last : Nat) : List Xmm :=
  (List.range' first (last + 1 - first)).map fun i => ⟨i.toUInt8⟩

def sysv : Convention where
  name := "sysv"
  integerArguments := [.rdi, .rsi, .rdx, .rcx, .r8, .r9]
  integerReturns := [.rax, .rdx]
  vectorArguments := vectors 0 7
  vectorReturns := vectors 0 1
  nonvolatile := [.rbx, .rsp, .rbp, .r12, .r13, .r14, .r15]
  nonvolatileVectors := []
  framePointer := .rbp
  stackPointer := .rsp

def win64 : Convention where
  name := "win64"
  integerArguments := [.rcx, .rdx, .r8, .r9]
  integerReturns := [.rax]
  vectorArguments := vectors 0 3
  vectorReturns := vectors 0 0
  nonvolatile := [.rbx, .rsp, .rbp, .rsi, .rdi, .r12, .r13, .r14, .r15]
  nonvolatileVectors := vectors 6 15
  framePointer := .rbp
  stackPointer := .rsp

/-- The convention of that name. -/
def named? : String → Option Convention
  | "sysv" => some sysv
  | "win64" | "windows" => some win64
  | _ => none

/-- Whether a call may change the register. -/
def isVolatile (c : Convention) (r : Gpr) : Bool :=
  r ∉ c.nonvolatile

def isVolatileVector (c : Convention) (x : Xmm) : Bool :=
  x ∉ c.nonvolatileVectors

/-- Whether a call may change what the storage holds; only registers have an answer. -/
def isVolatileStorage? (c : Convention) (s : Storage) : Option Bool :=
  if s.kind = integerKind then (Gpr.ofEncoding? s.index).map c.isVolatile
  else if s.kind = vectorKind ∧ s.index < 32 then
    some (c.isVolatileVector ⟨s.index.toUInt8⟩)
  else none

def argumentStorages (c : Convention) : List Storage :=
  c.integerArguments.map Gpr.storage ++ c.vectorArguments.map Xmm.storage

def returnStorages (c : Convention) : List Storage :=
  c.integerReturns.map Gpr.storage ++ c.vectorReturns.map Xmm.storage

end Convention

end ForeignCall.X86
