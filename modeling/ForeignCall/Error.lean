import ForeignCall.Storage

/-!
# Errors

Why an operation on a register table fails. Each error names the table, so that a disagreement
between a caller and the table can be traced.
-/

namespace ForeignCall

inductive Cause where
  /-- The table defines no such storage. -/
  | undefinedStorage (storage : Storage)
  /-- The kind or the index of the pair is negative. -/
  | negativeStorage (raw : RawStorage)
  /-- The storage lies on the stack, where no save policy reaches. -/
  | outOfRange (register : Register) (registerCount : UInt32)
  /-- The native methods could not be registered, or one was called unbound. -/
  | registration (reason : String)
  | inconsistentTable (reason : String)
deriving DecidableEq

structure Error where
  cause : Cause
  table : String
deriving DecidableEq

def Cause.message : Cause → String
  | undefinedStorage s =>
    "storage (kind " ++ toString s.kind ++ ", index " ++ toString s.index ++
      ") is not defined by the register table"
  | negativeStorage raw =>
    "storage (kind " ++ toString raw.kind ++ ", index " ++ toString raw.index ++
      ") has a negative component"
  | outOfRange r count =>
    "register " ++ r.text ++ " is outside the register space [0, " ++ toString count ++ ")"
  | registration reason => "failed to register boundary entry points: " ++ reason
  | inconsistentTable reason => "inconsistent register table: " ++ reason

/-- Whether the fault lies with a storage as such, whatever is done with it. -/
def Cause.isInvalidStorage : Cause → Bool
  | undefinedStorage _ | negativeStorage _ => true
  | _ => false

namespace Error

def message (e : Error) : String :=
  e.table ++ ": " ++ e.cause.message

def isInvalidStorage (e : Error) : Bool :=
  e.cause.isInvalidStorage

end Error

end ForeignCall
