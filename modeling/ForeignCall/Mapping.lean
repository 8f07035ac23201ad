import ForeignCall.Table.Basic

/-!
# Mapping storages

A storage is resolved in two steps, first to the slot that the virtual machine gives it and then to
the code generator's register. What the table does not define is refused and never clamped: it means
that the caller and the table disagree about the machine.
-/

namespace ForeignCall.Table

def undefined (t : Table) (s : Storage) : Error :=
  ⟨.undefinedStorage s, t.name⟩

/-- The low slot of the register that the storage names. The stack has no slots. -/
def slotOf (t : Table) (s : Storage) : Except Error VMSlot :=
  match t.class? s.kind with
  | some { layout := .registers base count slotsPerRegister, .. } =>
    if s.index < count then .ok ⟨base + s.index * slotsPerRegister⟩ else .error (t.undefined s)
  | _ => .error (t.undefined s)

/-- The register, or the stack slot above the registers, that the storage names. -/
def registerOf (t : Table) (s : Storage) : Except Error Register :=
  match t.class? s.kind with
  | none => .error (t.undefined s)
  | some c =>
    match c.layout with
    | .registers .. => do
      let slot ← t.slotOf s
      match t.register? slot with
      | some r => .ok r
      | none => .error (t.undefined s)
    | .stack slotsPerIndex limit =>
      if s.index < limit then .ok ⟨t.stackBase + s.index * slotsPerIndex⟩
      else .error (t.undefined s)

/-- The storage that a signed pair stands for. -/
def storageOfRaw (t : Table) (raw : RawStorage) : Except Error Storage :=
  match Storage.ofRaw? raw with
  | some s => .ok s
  | none => .error ⟨.negativeStorage raw, t.name⟩

def registerOfRaw (t : Table) (raw : RawStorage) : Except Error Register := do
  t.registerOf (← t.storageOfRaw raw)

end ForeignCall.Table
