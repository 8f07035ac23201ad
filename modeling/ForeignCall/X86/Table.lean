import ForeignCall.Table.Build
import ForeignCall.X86.Register

/-!
# The register table of x86-64

The general registers have a low and a high slot each, the vector registers one slot per 32-bit
part. The code generator numbers general registers before vector registers, and the stack pointer
last of the general ones so that its two halves end the run.
-/

namespace ForeignCall.X86

def platform : String :=
  "x86_64"

def gprSuffixes : List String :=
  ["", "_H"]

def vectorSuffixes : List String :=
  ["", "b", "c", "d", "e", "f", "g", "h", "i", "j", "k", "l", "m", "n", "o", "p"]

/-- The general registers as the allocator prefers them. -/
def gprOrder : List Gpr :=
  [.r10, .r11, .r8, .r9, .r12, .rcx, .rbx, .rdi, .rdx, .rsi, .rax, .rbp, .r13, .r14, .r15, .rsp]

def vectorNames : List String :=
  numbered "XMM" Xmm.count

/-- Both slots of the mask registers, from the last register to the first. Mask register 0 stands
for "no mask" and is never allocated. -/
def maskSlots : List String :=
  slotNames ["K7", "K6", "K5", "K4", "K3", "K2", "K1"] gprSuffixes

/-- Stack indices end here. Each covers a 64-bit argument, which is two 32-bit stack slots. -/
def stackLimit : UInt32 :=
  65536

def description : Description :=
  .ofSteps platform
    [ .registerClass integerKind "integer" (Gpr.all.map Gpr.tableName) gprSuffixes,
      .registerClass vectorKind "vector" vectorNames vectorSuffixes,
      .registerClass x87Kind "x87" [] gprSuffixes,
      .stackClass stackKind "stack" 2 stackLimit,
      .allocatorOnly maskSlots,
      .allocatorOnly ["RFLAGS"],
      .order (slotNames (gprOrder.map Gpr.tableName) gprSuffixes),
      .order (slotNames vectorNames vectorSuffixes),
      .order maskSlots,
      .order ["RFLAGS"],
      .framePointer Gpr.rsp.tableName true ]

/-- The description is consistent, so there is a table. -/
def table? : Option Table :=
  description.build.toOption

end ForeignCall.X86
