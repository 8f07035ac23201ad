/-!
# Diagnostic logs

A log is written to and never read back by the code that writes it. No write can fail: a log that
is off or whose sink is closed drops what it is given.
-/

namespace ForeignCall

inductive Log where
  | off
  /-- Collects the text written so far. -/
  | buffer (text : String)
  /-- A sink that takes no writes. -/
  | closed
deriving DecidableEq

namespace Log

def write : Log → String → Log
  | buffer text, more => buffer (text ++ more)
  | log, _ => log

@[simp] theorem write_empty (log : Log) : log.write "" = log := by
  cases log <;> simp [write]

@[simp] theorem write_write (log : Log) (first second : String) :
    (log.write first).write second = log.write (first ++ second) := by
  cases log <;> simp [write, String.append_assoc]

def writeLine (log : Log) (line : String) : Log :=
  log.write (line ++ "\n")

/-- Whether there is a sink, be it open or closed. -/
def isEnabled : Log → Bool
  | off => false
  | _ => true

/-- What has been collected, where the log collects at all. -/
def text? : Log → Option String
  | buffer text => some text
  | _ => none

end Log

end ForeignCall
