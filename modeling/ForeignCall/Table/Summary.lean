import ForeignCall.Table.Basic

/-!
# Summaries of register tables

The text that describes a table: its frame pointer, its first stack slot, and a line for each
storage class.
-/

namespace ForeignCall

def StorageClass.summary (c : StorageClass) : String :=
  "  [" ++ toString c.kind ++ "] " ++ c.name ++ ": " ++
    match c.layout with
    | .registers base count slotsPerRegister =>
      toString count ++ " registers x " ++ toString slotsPerRegister ++ " slots at " ++
        VMSlot.text ⟨base⟩
    | .stack slotsPerIndex limit =>
      toString limit ++ " slots x " ++ toString slotsPerIndex ++ " per index"

namespace Table

/-- A register's number with its name in brackets. -/
def registerSummary (t : Table) (r : Register) : String :=
  r.text ++ " (" ++ t.shownName r ++ ")"

def framePointerSummary (t : Table) : String :=
  t.registerSummary t.framePointer ++
    match t.framePair? with
    | some pair => ", paired with " ++ t.registerSummary pair
    | none => ""

def summaryLines (t : Table) : List String :=
  [ "## REGISTER TABLE " ++ t.name ++ " ##",
    "  registers: " ++ toString t.registerCount,
    "  frame pointer: " ++ t.framePointerSummary,
    "  stack slots from: " ++ toString t.stackBase ] ++
    t.classes.map StorageClass.summary

def summary (t : Table) : String :=
  String.join (t.summaryLines.map (· ++ "\n"))

end Table

end ForeignCall
