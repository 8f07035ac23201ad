import ForeignCall.Table.Build

/-!
# The register table of 64-bit ARM

The code generator numbers caller-saved registers first, then argument registers and callee-saved
ones, and last those that the allocator never hands out.
-/

namespace ForeignCall.Arm64

def platform : String :=
  "aarch64"

def gprSuffixes : List String :=
  ["", "_H"]

def vectorSuffixes : List String :=
  ["", "_H", "_J", "_K"]

/-- The registers `stem` numbered `first` to `last`. -/
def registers (stem : String) (first last : Nat) : List String :=
  (List.range' first (last + 1 - first)).map fun i => stem ++ toString i

def gprOrder : List String :=
  registers "R" 10 18 ++ registers "R" 0 7 ++ registers "R" 19 26 ++ registers "R" 27 31 ++
    registers "R" 8 9

def vectorOrder : List String :=
  registers "V" 16 31 ++ registers "V" 0 7 ++ registers "V" 8 15

def description : Description :=
  .ofSteps platform
    [ .registerClass 0 "integer" (numbered "R" 32) gprSuffixes,
      .registerClass 1 "vector" (numbered "V" 32) vectorSuffixes,
      .stackClass 3 "stack" 2 65536,
      .allocatorOnly ["RFLAGS"],
      .order (slotNames gprOrder gprSuffixes),
      .order (slotNames vectorOrder vectorSuffixes),
      .order ["RFLAGS"],
      .framePointer "R31" true ]

/-- The description is consistent, so there is a table. -/
def table? : Option Table :=
  description.build.toOption

end ForeignCall.Arm64
