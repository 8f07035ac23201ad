/-!
# Storages, slots and registers

Where a foreign call keeps one argument or result, and the two numberings of a machine's
registers. The virtual machine gives every register a run of slots inside its storage class; the
code generator numbers the same registers in the order in which it allocates them, and numbers
stack slots above them. The two numberings have types of their own, so that neither can be read as
the other.
-/

namespace ForeignCall

/-- A location inside one of the machine's storage classes: a register's encoding, or a stack
index. -/
structure Storage where
  kind : UInt32
  index : UInt32
deriving DecidableEq

/-- A storage as managed code passes it, in signed numbers. -/
structure RawStorage where
  kind : Int32
  index : Int32
deriving DecidableEq

/-- A slot in the virtual machine's numbering. -/
structure VMSlot where
  number : UInt32
deriving DecidableEq

/-- A register, or a stack slot above the registers, in the code generator's numbering. -/
structure Register where
  number : UInt32
deriving DecidableEq

namespace Storage

/-- No class and no location has a negative number. -/
def ofRaw? (raw : RawStorage) : Option Storage :=
  if raw.kind < 0 ∨ raw.index < 0 then none
  else some ⟨raw.kind.toUInt32, raw.index.toUInt32⟩

/-- The signed pair of the same 32-bit words. -/
def toRaw (s : Storage) : RawStorage :=
  ⟨s.kind.toInt32, s.index.toInt32⟩

def text (s : Storage) : String :=
  toString s.kind ++ ":" ++ toString s.index

/-- Storages are ordered by kind, then by index. -/
instance : Ord Storage where
  compare a b := (compare a.kind b.kind).then (compare a.index b.index)

end Storage

def VMSlot.text (slot : VMSlot) : String :=
  "v" ++ toString slot.number

namespace Register

/-- Registers have 32-bit numbers, so a position is taken modulo `2 ^ 32`. -/
def ofNat (position : Nat) : Register :=
  ⟨position.toUInt32⟩

/-- The register's place in a list of registers. -/
def position (r : Register) : Nat :=
  r.number.toNat

def next (r : Register) : Register :=
  ⟨r.number + 1⟩

def text (r : Register) : String :=
  "#" ++ toString r.number

end Register

end ForeignCall
