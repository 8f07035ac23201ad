import ForeignCall.Command.Options
import ForeignCall.Machine
import ForeignCall.Native.Registration
import ForeignCall.Signature.Parser
import ForeignCall.Table.Summary
import ForeignCall.X86.SaveArea

/-!
# The command

The command registers the native methods for a platform, shows save areas if asked to, and then
answers each call signature on its input with the call's save policy. It starts without its input:
a start either ends the command or leaves a session that waits for the input.
-/

namespace ForeignCall.Command

structure Outcome where
  exitCode : UInt32
  stdout : String
  stderr : String
deriving DecidableEq

/-- The command up to the point where it reads its input. -/
structure Session where
  table : Table
  verbose : Bool
  natives : NativeClass
  /-- What has been printed so far. -/
  output : String

inductive Start where
  | finished (outcome : Outcome)
  | awaitingInput (session : Session)

/-- The failed outcome of a command that has printed `output`. -/
def fail (output message : String) : Outcome :=
  ⟨1, output, "error: " ++ message ++ "\n"⟩

def usage : Outcome :=
  ⟨1, "", "usage: regsave [-v] [--save-area sysv|win64] [platform]\n"⟩

/-- The log of a command is part of what it prints, if it is verbose. -/
def newLog (verbose : Bool) : Log :=
  if verbose then .buffer "" else .off

def logged (log : Log) : String :=
  log.text?.getD ""

/-- The convention's save areas at every vector width. Only x86-64 has conventions. -/
def saveAreas (t : Table) (convention : String) : Except String String :=
  if t.name ≠ X86.platform then .error ("no callee-saved area layout for " ++ t.name)
  else
    match X86.Convention.named? convention with
    | none => .error ("unknown calling convention " ++ convention)
    | some c =>
      .ok <| String.join (X86.VectorWidth.all.map fun width =>
        "# " ++ c.name ++ " with " ++ toString width.bytes ++ "-byte vectors\n" ++
          (c.saveArea width).text) ++ "\n"

/-- What is printed for the option that asks for save areas. -/
def saveAreasFor (t : Table) : Option String → Except String String
  | none => .ok ""
  | some convention => saveAreas t convention

/-- Everything that is done for a platform's table before the input is read. -/
def startOn (t : Table) (o : Options) : Start :=
  let registration := t.register NativeClass.nativeEntryPoint (newLog o.verbose)
  let output := logged registration.log
  match registration.outcome with
  | .error e => .finished (fail output e.message)
  | .ok () =>
    let output := output ++ if o.verbose then t.summary ++ "\n" else ""
    match saveAreasFor t o.saveArea with
    | .error message => .finished (fail output message)
    | .ok areas => .awaitingInput ⟨t, o.verbose, registration.binder, output ++ areas⟩

def start (args : List String) : Start :=
  match Options.ofArguments? args with
  | none => .finished usage
  | some o =>
    match machineTable? o.machine with
    | none => .finished (fail "" ("unknown platform " ++ o.machine))
    | some t => startOn t o

namespace Session

/-- Answers the signatures one after another, up to the first that has no policy. -/
def answer (s : Session) (output : String) : List Signature → Outcome
  | [] => ⟨0, output, ""⟩
  | x :: rest =>
    match s.natives.callComputePolicy s.table (x.storages.map Storage.toRaw) (newLog s.verbose) with
    | (.error e, log) =>
      fail (output ++ logged log) ("line " ++ toString x.line ++ ": " ++ e.message)
    | (.ok policy, log) => s.answer (output ++ logged log ++ policy ++ "\n") rest

def finishText (s : Session) (text : String) : Outcome :=
  match s.table.signatures text with
  | .error e =>
    fail s.output ("line " ++ toString e.span.lo.line ++ ", col " ++ toString e.span.lo.column ++
      ": " ++ e.message)
  | .ok signatures => s.answer s.output signatures

/-- Ends the command with its input, which has to be UTF-8. -/
def finish (s : Session) (input : ByteArray) : Outcome :=
  match String.fromUTF8? input with
  | none => fail s.output "stream did not contain valid UTF-8"
  | some text => s.finishText text

end Session

def run (args : List String) (input : ByteArray) : Outcome :=
  match start args with
  | .finished outcome => outcome
  | .awaitingInput session => session.finish input

end ForeignCall.Command
