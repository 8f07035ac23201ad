import ForeignCall.Storage
import ForeignCall.Text.TokenStream

/-!
# Call signatures

One line of text lists the storages of one call. Where the text is not a signature, the error tells
what was found in the place of what, and where.
-/

namespace ForeignCall

structure Signature where
  line : Nat
  storages : List Storage
deriving DecidableEq

/-- What may stand at a place of a signature. -/
inductive Expectation where
  | storageClass
  | colon
  | storageIndex
  | endOfLine
deriving DecidableEq

def Expectation.text : Expectation → String
  | storageClass => "a storage class"
  | colon => "':'"
  | storageIndex => "a storage index"
  | endOfLine => "end of line"

inductive ParseFault where
  | unknownClass (name table : String)
  /-- A number above the largest 32-bit signed one. -/
  | outOfRange (digits : String)
  | unexpected (wanted : Expectation) (found : Token)
deriving DecidableEq

def ParseFault.message : ParseFault → String
  | unknownClass name table => "no storage class " ++ name ++ " in register table " ++ table
  | outOfRange digits => "'" ++ digits ++ "' is out of range"
  | unexpected wanted found => "expected " ++ wanted.text ++ " but found " ++ found.text

structure ParseError where
  fault : ParseFault
  span : Span

def ParseError.message (e : ParseError) : String :=
  e.fault.message

end ForeignCall
