import ForeignCall.Table.Fault

/-!
# Register tables

A register table joins the two numberings of one machine's registers: storages resolve to slots of
the virtual machine, and each slot stands for at most one register of the code generator. Stack
slots are numbered upwards from the table's stack base.
-/

namespace ForeignCall

/-- What the locations of a storage class are. -/
inductive Layout where
  /-- `count` registers of `slotsPerRegister` slots each, from the slot `base` on. -/
  | registers (base count slotsPerRegister : UInt32)
  /-- Stack indices below `limit`, each `slotsPerIndex` stack slots wide. -/
  | stack (slotsPerIndex limit : UInt32)
deriving DecidableEq

structure StorageClass where
  kind : UInt32
  name : String
  layout : Layout
deriving DecidableEq

structure Table where
  name : String
  classes : List StorageClass
  /-- The register of each slot, for the slots that have one. -/
  slots : List (Option Register)
  /-- The registers' names, in the code generator's order. -/
  names : List String
  framePointer : Register
  /-- Whether the register after the frame pointer is its second half. -/
  framePaired : Bool
  /-- The number of the first stack slot. -/
  stackBase : UInt32
deriving DecidableEq

/-- A name with its ASCII letters in lower case; class names are told apart by it. -/
def caseFold (name : String) : List Char :=
  name.toList.map Char.toLower

/-- The register of that name, where registers are numbered in the order of their names. -/
def registerNamed? (order : List String) (name : String) : Option Register :=
  (order.idxOf? name).map Register.ofNat

def StorageClass.isStack (c : StorageClass) : Bool :=
  match c.layout with
  | .registers .. => false
  | .stack .. => true

namespace Table

def registerCount (t : Table) : UInt32 :=
  t.names.length.toUInt32

def slotCount (t : Table) : UInt32 :=
  t.slots.length.toUInt32

/-- The second half of a frame pointer that takes two registers. -/
def framePair? (t : Table) : Option Register :=
  if t.framePaired then some t.framePointer.next else none

def class? (t : Table) (kind : UInt32) : Option StorageClass :=
  t.classes.find? fun c => c.kind = kind

/-- The class of that name, whatever the case of its ASCII letters. -/
def classNamed? (t : Table) (name : String) : Option StorageClass :=
  t.classes.find? fun c => caseFold c.name = caseFold name

/-- The register that a slot stands for. -/
def register? (t : Table) (slot : VMSlot) : Option Register :=
  (t.slots[slot.number.toNat]?).join

def registerName? (t : Table) (r : Register) : Option String :=
  t.names[r.position]?

/-- The name under which a register is shown. -/
def shownName (t : Table) (r : Register) : String :=
  (t.registerName? r).getD "???"

def lookup? (t : Table) (name : String) : Option Register :=
  registerNamed? t.names name

/-! ## Consistency -/

/-- The least class kind that two classes share. -/
def repeatedKind? (t : Table) : Option UInt32 :=
  let kinds := t.classes.map StorageClass.kind
  (kinds.filter fun kind => 1 < kinds.count kind).min?

/-- A register of some slot that the table does not define. -/
def strayRegister? (t : Table) : Option Register :=
  (t.slots.filterMap id).find? fun r => t.registerCount ≤ r.number

/-- Checks again what holds of every table built from a description. -/
def check (t : Table) : Except TableFault Unit := do
  TableFault.require (t.registerCount ≠ 0) .noRegisters
  TableFault.require (t.framePointer.number < t.registerCount) (.framePointerOutside t.framePointer)
  TableFault.requireNone <|
    (t.framePair?.filter fun r => t.registerCount ≤ r.number).map .framePairOutside
  TableFault.require (t.registerCount ≤ t.stackBase) (.stackInsideRegisters t.stackBase)
  TableFault.requireNone (t.strayRegister?.map .slotOutside)
  TableFault.requireNone (t.repeatedKind?.map .repeatedKind)

def validate (t : Table) : Except Error Unit :=
  t.check.mapError (·.toError t.name)

end Table

end ForeignCall
