import ForeignCall.Storage

/-!
# The registers of x86-64

The general registers in the order of their hardware encodings, and the vector registers by number.
-/

namespace ForeignCall.X86

inductive Gpr where
  | rax | rcx | rdx | rbx | rsp | rbp | rsi | rdi
  | r8 | r9 | r10 | r11 | r12 | r13 | r14 | r15
deriving DecidableEq

namespace Gpr

/-- All general registers, in encoding order. -/
def all : List Gpr :=
  [rax, rcx, rdx, rbx, rsp, rbp, rsi, rdi, r8, r9, r10, r11, r12, r13, r14, r15]

def encoding : Gpr → UInt32
  | rax => 0
  | rcx => 1
  | rdx => 2
  | rbx => 3
  | rsp => 4
  | rbp => 5
  | rsi => 6
  | rdi => 7
  | r8 => 8
  | r9 => 9
  | r10 => 10
  | r11 => 11
  | r12 => 12
  | r13 => 13
  | r14 => 14
  | r15 => 15

def ofEncoding? (encoding : UInt32) : Option Gpr :=
  all[encoding.toNat]?

def text : Gpr → String
  | rax => "rax"
  | rcx => "rcx"
  | rdx => "rdx"
  | rbx => "rbx"
  | rsp => "rsp"
  | rbp => "rbp"
  | rsi => "rsi"
  | rdi => "rdi"
  | r8 => "r8"
  | r9 => "r9"
  | r10 => "r10"
  | r11 => "r11"
  | r12 => "r12"
  | r13 => "r13"
  | r14 => "r14"
  | r15 => "r15"

/-- The name of the register's low slot in the register table. -/
def tableName : Gpr → String
  | rax => "RAX"
  | rcx => "RCX"
  | rdx => "RDX"
  | rbx => "RBX"
  | rsp => "RSP"
  | rbp => "RBP"
  | rsi => "RSI"
  | rdi => "RDI"
  | r8 => "R8"
  | r9 => "R9"
  | r10 => "R10"
  | r11 => "R11"
  | r12 => "R12"
  | r13 => "R13"
  | r14 => "R14"
  | r15 => "R15"

end Gpr

structure Xmm where
  number : UInt8
deriving DecidableEq

namespace Xmm

/-- The number of vector registers that the machine has. -/
def count : Nat :=
  32

/-- The registers from this number on need the widest vector extension. -/
def legacyCount : Nat :=
  16

/-- The machine's vector registers, in ascending order. -/
def all : List Xmm :=
  (List.range count).map fun i => ⟨i.toUInt8⟩

def encoding (x : Xmm) : UInt32 :=
  x.number.toUInt32

def text (x : Xmm) : String :=
  "xmm" ++ toString x.number

end Xmm

/-! ## Storages -/

def integerKind : UInt32 :=
  0

def vectorKind : UInt32 :=
  1

def x87Kind : UInt32 :=
  2

def stackKind : UInt32 :=
  3

def Gpr.storage (r : Gpr) : Storage :=
  ⟨integerKind, r.encoding⟩

def Xmm.storage (x : Xmm) : Storage :=
  ⟨vectorKind, x.encoding⟩

def stackStorage (index : UInt32) : Storage :=
  ⟨stackKind, index⟩

end ForeignCall.X86
