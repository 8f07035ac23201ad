import ForeignCall.BitSet
import ForeignCall.Log
import ForeignCall.Mapping
import ForeignCall.Policy.Basic

/-!
# Computing save policies

The registers that a call's arguments and results occupy must be preserved, the frame pointer is
never touched, and the call may clobber all others.
-/

namespace ForeignCall.Table

/-- The set with the storage's register added. Registers past the table's own, which are stack
slots, have no place in it. -/
def touch (t : Table) (touched : BitSet) (s : Storage) : Except Error BitSet := do
  let r ← t.registerOf s
  match touched.set r.position true with
  | some (_, more) => .ok more
  | none => .error ⟨.outOfRange r t.registerCount, t.name⟩

/-- The registers that the storages occupy, or the error of the first storage that has none. -/
def touchedSet (t : Table) (storages : List Storage) : Except Error BitSet :=
  storages.foldlM t.touch (BitSet.empty t.registerCount.toNat)

/-- The frame pointer and its second half are never touched, also where a storage names them. -/
def saveClass (t : Table) (touched : BitSet) (r : Register) : SaveClass :=
  if r = t.framePointer ∨ some r = t.framePair? then .neverTouch
  else if touched.contains r.position then .mustPreserve
  else .expectClobbered

def classify (t : Table) (touched : BitSet) : Policy :=
  ⟨(List.range t.registerCount.toNat).map fun i => t.saveClass touched (Register.ofNat i)⟩

/-- The log line that names the touched registers. -/
def touchedLine (t : Table) (touched : BitSet) : String :=
  t.name ++ ": call touched = \x7b " ++
    nameList (touched.toList.map fun i => t.shownName (Register.ofNat i)) ++ "\x7d"

/-- The log line that tells what the policy spares and preserves. -/
def policyLine (t : Table) (policy : Policy) : String :=
  t.name ++ ": " ++ policy.summary t

/-- The save policy for the storages of one call. A failure leaves the log as it is. -/
def savePolicy (t : Table) (storages : List Storage) (log : Log) : Except Error Policy × Log :=
  match t.touchedSet storages with
  | .error e => (.error e, log)
  | .ok touched =>
    let policy := t.classify touched
    (.ok policy, (log.writeLine (t.touchedLine touched)).writeLine (t.policyLine policy))

end ForeignCall.Table
