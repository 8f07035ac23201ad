import ForeignCall.Table.Basic

/-!
# Descriptions of register tables

A machine is described step by step: its storage classes, the registers that no storage names, the
order in which the code generator numbers registers, the frame pointer and the first stack slot.
Classes and names add up over the steps; of frame pointers and stack bases the last one counts.
-/

namespace ForeignCall

inductive ClassContents where
  /-- Registers in the order of their encodings. Each takes one slot per suffix, named by the
  register's name with the suffix after it. -/
  | registers (names suffixes : List String)
  | stack (slotsPerIndex limit : UInt32)
deriving DecidableEq

structure ClassDescription where
  kind : UInt32
  name : String
  contents : ClassContents
deriving DecidableEq

structure FramePointer where
  name : String
  paired : Bool
deriving DecidableEq

structure Description where
  name : String
  classes : List ClassDescription := []
  /-- Registers that the code generator allocates and no storage names, such as flags. -/
  allocatorOnly : List String := []
  /-- The order asked for; empty where none is. -/
  order : List String := []
  framePointer : Option FramePointer := none
  stackBase : Option UInt32 := none
deriving DecidableEq

namespace Description

inductive Step where
  | registerClass (kind : UInt32) (name : String) (names suffixes : List String)
  | stackClass (kind : UInt32) (name : String) (slotsPerIndex limit : UInt32)
  | allocatorOnly (names : List String)
  | order (names : List String)
  | framePointer (name : String) (paired : Bool)
  | stackBase (number : UInt32)
deriving DecidableEq

def add (d : Description) : Step → Description
  | .registerClass kind name names suffixes =>
    { d with classes := d.classes ++ [⟨kind, name, .registers names suffixes⟩] }
  | .stackClass kind name slotsPerIndex limit =>
    { d with classes := d.classes ++ [⟨kind, name, .stack slotsPerIndex limit⟩] }
  | .allocatorOnly names => { d with allocatorOnly := d.allocatorOnly ++ names }
  | .order names => { d with order := d.order ++ names }
  | .framePointer name paired => { d with framePointer := some ⟨name, paired⟩ }
  | .stackBase number => { d with stackBase := some number }

def ofSteps (name : String) (steps : List Step) : Description :=
  steps.foldl add { name := name }

end Description

/-- The names `stem0`, `stem1`, and so on, `count` of them. -/
def numbered (stem : String) (count : Nat) : List String :=
  (List.range count).map fun i => stem ++ toString i

/-- Each register's name with each suffix after it, register by register. -/
def slotNames (names suffixes : List String) : List String :=
  names.flatMap fun name => suffixes.map (name ++ ·)

namespace ClassDescription

/-- The names of the slots that the class takes. -/
def slotNames (c : ClassDescription) : List String :=
  match c.contents with
  | .registers names suffixes => ForeignCall.slotNames names suffixes
  | .stack .. => []

/-- The class, given the number of slots that the classes before it take. -/
def toClass (c : ClassDescription) (slotsBefore : Nat) : StorageClass where
  kind := c.kind
  name := c.name
  layout :=
    match c.contents with
    | .registers names suffixes =>
      .registers slotsBefore.toUInt32 names.length.toUInt32 suffixes.length.toUInt32
    | .stack slotsPerIndex limit => .stack slotsPerIndex limit

end ClassDescription

namespace Description

/-- The names of all slots, in slot order. -/
def slotNames (d : Description) : List String :=
  d.classes.flatMap ClassDescription.slotNames

/-- Every name that the order may hold. -/
def knownNames (d : Description) : List String :=
  d.slotNames ++ d.allocatorOnly

/-- The order in which the registers are numbered: the one asked for, else slot order with the
remaining registers after it. -/
def effectiveOrder (d : Description) : List String :=
  if d.order.isEmpty then d.knownNames else d.order

end Description

end ForeignCall
