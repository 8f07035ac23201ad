import ForeignCall.Arm64.Table
import ForeignCall.X86.Table

/-!
# Machines by name

The machines that have a register table, under the names that they go by.
-/

namespace ForeignCall

/-- The register table of the machine of that name. -/
def machineTable? : String → Option Table
  | "x86_64" | "amd64" | "x64" => X86.table?
  | "aarch64" | "arm64" => Arm64.table?
  | _ => none

end ForeignCall
