import ForeignCall.Table.Description

/-!
# Building tables

A table is built from a description in two parts. The checks look at the description alone and stop
at the first fault; the construction assigns slots to the classes one after another and maps each
slot to the place that its name has in the allocation order.
-/

namespace ForeignCall

/-- The first element that is in `seen` or occurs earlier in the list. -/
def firstRepeated [DecidableEq α] (seen : List α) : List α → Option α
  | [] => none
  | x :: xs => if x ∈ seen then some x else firstRepeated (x :: seen) xs

/-- The classes with their slots assigned, the first free slot being `slotsBefore`. -/
def assignSlots : Nat → List ClassDescription → List StorageClass
  | _, [] => []
  | slotsBefore, c :: rest =>
    c.toClass slotsBefore :: assignSlots (slotsBefore + c.slotNames.length) rest

namespace ClassDescription

/-- The fault of a class that comes after the classes `earlier`. -/
def fault? (earlier : List ClassDescription) (c : ClassDescription) : Option TableFault :=
  if c.kind ∈ earlier.map ClassDescription.kind then some (.repeatedKind c.kind)
  else if caseFold c.name ∈ earlier.map (caseFold ·.name) then some (.repeatedClassName c.name)
  else
    match c.contents with
    | .registers names suffixes =>
      if names ≠ [] ∧ suffixes = [] then some (.noSlotsPerRegister c.name) else none
    | .stack slotsPerIndex _ =>
      if slotsPerIndex = 0 then some (.noSlotsPerIndex c.name) else none

/-- The first fault of the classes, which come after the classes `earlier`. -/
def firstFault? (earlier : List ClassDescription) : List ClassDescription → Option TableFault
  | [] => none
  | c :: rest =>
    match c.fault? earlier with
    | some fault => some fault
    | none => firstFault? (c :: earlier) rest

end ClassDescription

/-- The first name of an order that is not known, or that is in `seen` or earlier in the order. -/
def orderFault? (known seen : List String) : List String → Option TableFault
  | [] => none
  | name :: rest =>
    if name ∉ known then some (.unknownInOrder name)
    else if name ∈ seen then some (.repeatedInOrder name)
    else orderFault? known (name :: seen) rest

namespace Description

def registerCount (d : Description) : UInt32 :=
  d.effectiveOrder.length.toUInt32

/-- The stack slots start where asked, else at the least even number past all registers. -/
def firstStackSlot (d : Description) : UInt32 :=
  d.stackBase.getD ((d.registerCount + 1) &&& ~~~1)

/-- The frame pointer's register, with room for its second half if it is paired. -/
def locateFramePointer (d : Description) : Except TableFault (Register × Bool) :=
  match d.framePointer with
  | none => .error .noFramePointer
  | some fp =>
    match registerNamed? d.effectiveOrder fp.name with
    | none => .error (.framePointerNotInOrder fp.name)
    | some r =>
      if fp.paired ∧ d.registerCount ≤ r.number + 1 then .error (.framePointerLast fp.name)
      else .ok (r, fp.paired)

/-- Whether the numbers of the class's stack slots fit into 32 bits. The sum is taken in 64 bits,
where it cannot wrap. -/
def stackFits (stackBase : UInt32) (c : ClassDescription) : Bool :=
  match c.contents with
  | .registers .. => true
  | .stack slotsPerIndex limit =>
    limit.toUInt64 * slotsPerIndex.toUInt64 + stackBase.toUInt64 ≤ 0xFFFFFFFF

/-- The first stack class whose slots do not fit. -/
def stackFault? (d : Description) : Option TableFault :=
  (d.classes.find? fun c => !stackFits d.firstStackSlot c).map (.stackOverflow ·.name)

/-- The table, or the first fault of the description. -/
def buildChecked (d : Description) : Except TableFault Table := do
  TableFault.requireNone (ClassDescription.firstFault? [] d.classes)
  TableFault.requireNone ((firstRepeated [] d.knownNames).map .repeatedSlot)
  TableFault.requireNone (orderFault? d.knownNames [] d.effectiveOrder)
  TableFault.require (d.registerCount ≠ 0) .noRegisters
  let (framePointer, framePaired) ← d.locateFramePointer
  TableFault.require (d.registerCount ≤ d.firstStackSlot) (.stackInsideRegisters d.firstStackSlot)
  TableFault.requireNone d.stackFault?
  -- Each slot looks up its own name. To go through the slots' 32-bit numbers instead would come to
  -- the same up to `2 ^ 32` slots; past that some slots share a number.
  return {
    name := d.name
    classes := assignSlots 0 d.classes
    slots := d.slotNames.map (registerNamed? d.effectiveOrder)
    names := d.effectiveOrder
    framePointer := framePointer
    framePaired := framePaired
    stackBase := d.firstStackSlot }

def build (d : Description) : Except Error Table :=
  d.buildChecked.mapError (·.toError d.name)

end Description

end ForeignCall
