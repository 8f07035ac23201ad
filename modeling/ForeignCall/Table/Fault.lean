import ForeignCall.Error

/-!
# Faults of a register table

What can be inconsistent in a register table or in its description.
-/

namespace ForeignCall

inductive TableFault where
  | repeatedKind (kind : UInt32)
  /-- The name of an earlier class, up to the case of ASCII letters. -/
  | repeatedClassName (name : String)
  /-- A class that names registers and gives them no suffix. -/
  | noSlotsPerRegister (className : String)
  | noSlotsPerIndex (className : String)
  | repeatedSlot (name : String)
  | unknownInOrder (name : String)
  | repeatedInOrder (name : String)
  | noRegisters
  | noFramePointer
  | framePointerNotInOrder (name : String)
  /-- A paired frame pointer that has no register after it. -/
  | framePointerLast (name : String)
  | framePointerOutside (register : Register)
  | framePairOutside (register : Register)
  | stackInsideRegisters (stackBase : UInt32)
  | stackOverflow (className : String)
  | slotOutside (register : Register)
deriving DecidableEq

namespace TableFault

def message : TableFault → String
  | repeatedKind kind => "storage class kind " ++ toString kind ++ " is defined twice"
  | repeatedClassName name => "storage class name " ++ name ++ " is defined twice"
  | noSlotsPerRegister name => "register class " ++ name ++ " has no slots per register"
  | noSlotsPerIndex name => "stack class " ++ name ++ " has no slots per index"
  | repeatedSlot name => "register slot " ++ name ++ " is defined twice"
  | unknownInOrder name => "allocation order names unknown register " ++ name
  | repeatedInOrder name => "register " ++ name ++ " appears twice in the allocation order"
  | noRegisters => "table defines no registers"
  | noFramePointer => "no frame pointer given"
  | framePointerNotInOrder name => "frame pointer " ++ name ++ " is not in the allocation order"
  | framePointerLast name =>
    "frame pointer " ++ name ++ " is the last register and cannot be paired"
  | framePointerOutside r => "frame pointer " ++ r.text ++ " is not a register"
  | framePairOutside r => "frame pointer pair " ++ r.text ++ " is not a register"
  | stackInsideRegisters base =>
    "stack slots start at " ++ toString base ++ ", inside the register space"
  | stackOverflow name => "stack class " ++ name ++ " overflows the register numbering"
  | slotOutside r => "VM slot maps to " ++ r.text ++ ", outside the register space"

/-- The error of the table called `table`. -/
def toError (fault : TableFault) (table : String) : Error :=
  ⟨.inconsistentTable fault.message, table⟩

/-- Goes on where `p` holds. -/
def require (p : Prop) [Decidable p] (fault : TableFault) : Except TableFault Unit :=
  if p then .ok () else .error fault

/-- Goes on where nothing was found. -/
def requireNone : Option TableFault → Except TableFault Unit
  | none => .ok ()
  | some fault => .error fault

end TableFault

end ForeignCall
