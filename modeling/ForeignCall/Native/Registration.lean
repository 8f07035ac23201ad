import ForeignCall.Native.Method

/-!
# Registering native methods

Registration offers every native method to a binder, in order, and stops at the first one refused.
The methods bound until then stay bound, and the log has a line for each of them.
-/

namespace ForeignCall

/-- What native methods can be bound to. A refusal comes with its reason. -/
class Binder (β : Type) where
  offer : β → NativeMethod → Except String β

/-- Where a registration ends. -/
structure Registration (β : Type) where
  outcome : Except Error Unit
  binder : β
  log : Log

namespace Table

def registrationError (t : Table) (reason : String) : Error :=
  ⟨.registration reason, t.name⟩

/-- The log line of a method that has been bound. -/
def boundLine (t : Table) (m : NativeMethod) : String :=
  t.name ++ ": bound native " ++ m.text

def registerAll [Binder β] (t : Table) : List NativeMethod → β → Log → Registration β
  | [], binder, log => ⟨.ok (), binder, log⟩
  | m :: rest, binder, log =>
    match Binder.offer binder m with
    | .error reason => ⟨.error (t.registrationError (m.text ++ ": " ++ reason)), binder, log⟩
    | .ok binder => t.registerAll rest binder (log.writeLine (t.boundLine m))

/-- Offers the native methods to the binder, unless the table is inconsistent. -/
def register [Binder β] (t : Table) (binder : β) (log : Log) : Registration β :=
  match t.check with
  | .error fault =>
    ⟨.error (t.registrationError ("register table rejected: " ++ fault.message)), binder, log⟩
  | .ok () => t.registerAll NativeMethod.all binder log

end Table

/-! ## Classes of managed code -/

/-- A class that declares native methods, each by name and signature. -/
structure NativeClass where
  name : String
  declared : List (String × String)
  mapsStorages : Bool := false
  computesPolicies : Bool := false
deriving DecidableEq

namespace NativeClass

/-- The class that declares every native method. -/
def nativeEntryPoint : NativeClass where
  name := "jdk/internal/invoke/NativeEntryPoint"
  declared := NativeMethod.all.map fun m => (m.name, m.signature)

/-- Whether every native method is bound. -/
def isBound (c : NativeClass) : Bool :=
  c.mapsStorages && c.computesPolicies

def declares (c : NativeClass) (m : NativeMethod) : Bool :=
  (m.name, m.signature) ∈ c.declared

def declaredText (c : NativeClass) : String :=
  ", ".intercalate (c.declared.map fun (name, signature) => name ++ " " ++ signature)

def bindEntry (c : NativeClass) : EntryPoint → NativeClass
  | .mapStorage => { c with mapsStorages := true }
  | .computePolicy => { c with computesPolicies := true }

/-- Binds the method's entry point if the class declares the method. -/
def bind (c : NativeClass) (m : NativeMethod) : Except String NativeClass :=
  if c.declares m then .ok (c.bindEntry m.entry)
  else
    .error (c.name ++ " declares no native method " ++ m.text ++
      " (declared: " ++ c.declaredText ++ ")")

instance : Binder NativeClass where
  offer := bind

def unbound (c : NativeClass) (t : Table) (m : NativeMethod) : Error :=
  t.registrationError (c.name ++ "." ++ m.name ++ " is not bound")

/-- Calls the method that maps a storage. -/
def callMapStorage (c : NativeClass) (t : Table) (raw : RawStorage) : Except Error Int64 :=
  if c.mapsStorages then t.nativeRegister raw else .error (c.unbound t .mapStorage)

/-- Calls the method that computes a save policy. -/
def callComputePolicy (c : NativeClass) (t : Table) (raws : List RawStorage) (log : Log) :
    Except Error String × Log :=
  if c.computesPolicies then t.nativePolicy raws log
  else (.error (c.unbound t .computePolicy), log)

end NativeClass

end ForeignCall
