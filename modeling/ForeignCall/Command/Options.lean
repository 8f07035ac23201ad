/-!
# Command-line options

An argument list is a sequence of options and at most one platform. The option for save areas takes
the argument after it, whatever that looks like; any other argument with a dash in front that is not
an option is refused, and the requests for help are refused with it.
-/

namespace ForeignCall

structure Options where
  platform : Option String := none
  verbose : Bool := false
  /-- The convention whose save areas are asked for. -/
  saveArea : Option String := none
deriving DecidableEq

namespace Options

/-- Reads arguments on top of the options read so far. -/
def read (o : Options) : List String → Option Options
  | [] => some o
  | arg :: rest =>
    if arg = "-v" ∨ arg = "--verbose" then { o with verbose := true }.read rest
    else if arg = "--save-area" then
      match rest with
      | [] => none
      | convention :: rest => { o with saveArea := some convention }.read rest
    else if arg.toList.head? = some '-' ∨ o.platform.isSome then none
    else { o with platform := some arg }.read rest

def ofArguments? (args : List String) : Option Options :=
  read {} args

/-- The platform asked for, else x86-64. -/
def machine (o : Options) : String :=
  o.platform.getD "x86_64"

end Options

end ForeignCall
