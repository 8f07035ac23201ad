import ForeignCall.Policy.Compute

/-!
# Native methods

The operations that managed code calls by name: mapping one storage to its register, and computing
the save policy of a call. Both take storages as signed pairs.
-/

namespace ForeignCall

namespace Table

/-- The register's number in the signed 64-bit numbers of managed code. -/
def nativeRegister (t : Table) (raw : RawStorage) : Except Error Int64 :=
  (t.registerOfRaw raw).map fun r => r.number.toUInt64.toInt64

/-- The text of a call's save policy. All storages are converted before any is mapped, so a negative
pair is reported even after storages that the table does not define. -/
def nativePolicy (t : Table) (raws : List RawStorage) (log : Log) : Except Error String × Log :=
  match raws.mapM t.storageOfRaw with
  | .error e => (.error e, log)
  | .ok storages =>
    match t.savePolicy storages log with
    | (.error e, log) => (.error e, log)
    | (.ok policy, log) => (.ok policy.text, log)

end Table

/-- The operation that a native method runs. -/
inductive EntryPoint where
  | mapStorage
  | computePolicy
deriving DecidableEq

structure NativeMethod where
  name : String
  signature : String
  entry : EntryPoint
deriving DecidableEq

namespace NativeMethod

def text (m : NativeMethod) : String :=
  m.name ++ " " ++ m.signature

def mapStorage : NativeMethod where
  name := "vmStorageToVMReg"
  signature := "(II)J"
  entry := .mapStorage

def computePolicy : NativeMethod where
  name := "computeRegSavePolicy"
  signature := "([Ljdk/internal/invoke/VMStorageProxy;)Ljava/lang/String;"
  entry := .computePolicy

/-- Every native method, in the order of registration. -/
def all : List NativeMethod :=
  [mapStorage, computePolicy]

end NativeMethod

end ForeignCall
