import ForeignCall.Table.Basic

/-!
# Save policies

A save policy gives each register of a table a save class, in the code generator's order. Its text
has one symbol per register and is read by position.
-/

namespace ForeignCall

/-- What a call's stub does about a register. -/
inductive SaveClass where
  | neverTouch
  | mustPreserve
  | expectClobbered
deriving DecidableEq

namespace SaveClass

def symbol : SaveClass → Char
  | neverTouch => 'N'
  | mustPreserve => 'C'
  | expectClobbered => 'E'

def ofSymbol? : Char → Option SaveClass
  | 'N' => some neverTouch
  | 'C' => some mustPreserve
  | 'E' => some expectClobbered
  | _ => none

end SaveClass

structure Policy where
  classes : List SaveClass
deriving DecidableEq

/-- Names, each with a space after it. -/
def nameList (names : List String) : String :=
  String.join (names.map (· ++ " "))

namespace Policy

def length (p : Policy) : Nat :=
  p.classes.length

def isEmpty (p : Policy) : Bool :=
  p.classes.isEmpty

def get? (p : Policy) (r : Register) : Option SaveClass :=
  p.classes[r.position]?

/-- The registers of one save class, in ascending order. -/
def registersIn (p : Policy) (c : SaveClass) : List Register :=
  (p.classes.zipIdx.filter (·.1 = c)).map (Register.ofNat ·.2)

def text (p : Policy) : String :=
  String.ofList (p.classes.map SaveClass.symbol)

/-- The registers that are not expected to be clobbered, by the names that `t` gives them. -/
def summary (p : Policy) (t : Table) : String :=
  let names c := nameList ((p.registersIn c).map t.shownName)
  "never touch = \x7b " ++ names .neverTouch ++ "\x7d, must preserve = \x7b " ++
    names .mustPreserve ++ "\x7d"

end Policy

end ForeignCall
