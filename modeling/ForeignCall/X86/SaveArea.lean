import ForeignCall.X86.Convention

/-!
# Register save areas

The area in which an upcall's stub keeps the registers that its native caller expects to survive:
the nonvolatile general registers in encoding order, then the nonvolatile vector registers. The
stub's entry and exit code looks after the frame and stack pointers, so they have no place here.
-/

namespace ForeignCall.X86

/-- How much of a vector register the stub has to keep. -/
inductive VectorWidth where
  | sse
  | avx
  | avx512
deriving DecidableEq

namespace VectorWidth

def all : List VectorWidth :=
  [sse, avx, avx512]

def bytes : VectorWidth → Nat
  | sse => 16
  | avx => 32
  | avx512 => 64

/-- The number of vector registers that can be addressed at this width. -/
def registerCount : VectorWidth → Nat
  | sse | avx => Xmm.legacyCount
  | avx512 => Xmm.count

end VectorWidth

inductive SavedRegister where
  | gpr (r : Gpr)
  | xmm (x : Xmm)
deriving DecidableEq

def SavedRegister.text : SavedRegister → String
  | gpr r => r.text
  | xmm x => x.text

structure SaveSlot where
  register : SavedRegister
  offset : Nat
  size : Nat
deriving DecidableEq

structure SaveArea where
  slots : List SaveSlot
  size : Nat
deriving DecidableEq

namespace SaveArea

/-- Slots for registers of the given sizes, one right after the other, from `offset` on. -/
def place : Nat → List (SavedRegister × Nat) → List SaveSlot
  | _, [] => []
  | offset, (register, size) :: rest => ⟨register, offset, size⟩ :: place (offset + size) rest

def totalSize : List (SavedRegister × Nat) → Nat
  | [] => 0
  | (_, size) :: rest => size + totalSize rest

def ofRegisters (registers : List (SavedRegister × Nat)) : SaveArea :=
  ⟨place 0 registers, totalSize registers⟩

def text (area : SaveArea) : String :=
  "## REGISTER SAVE AREA (" ++ toString area.size ++ " bytes) ##\n" ++
    String.join (area.slots.map fun slot =>
      "  [+" ++ toString slot.offset ++ "] " ++ slot.register.text ++
        " (" ++ toString slot.size ++ " bytes)\n")

end SaveArea

namespace Convention

/-- The general registers that the area keeps. -/
def savedGprs (c : Convention) : List Gpr :=
  Gpr.all.filter fun r => r ≠ c.framePointer ∧ r ≠ c.stackPointer ∧ !c.isVolatile r

/-- The vector registers that the area keeps at a width. -/
def savedVectors (c : Convention) (width : VectorWidth) : List Xmm :=
  (Xmm.all.take width.registerCount).filter fun x => !c.isVolatileVector x

def saveArea (c : Convention) (width : VectorWidth) : SaveArea :=
  .ofRegisters <|
    c.savedGprs.map (fun r => (.gpr r, 8)) ++
      (c.savedVectors width).map (fun x => (.xmm x, width.bytes))

end Convention

end ForeignCall.X86
