import BranchMarkup.Diagnostic
import BranchMarkup.Json.Read
import BranchMarkup.Tree.Decode
import BranchMarkup.Tree.Schema
/-! A program from its JSON text. -/
namespace BranchMarkup

namespace Json

def Stop.offset (size : Nat) : Stop → Nat
  | .at _ left => size - left
  | .pending _ rest => size - Text.byteLength rest

def Stop.fault : Stop → Fault
  | .at fault _ => fault
  | .pending fault _ => fault

/-- The place is told as line and column; the span is empty and stands before the last byte read,
unless that byte ends a line. -/
def Stop.diagnostic (text : List Char) (s : Stop) : Diagnostic :=
  let offset := s.offset (Text.byteLength text)
  let (line, column) := lineColumn offset text
  let start := offset - min column 1
  (Diagnostic.error
    ("invalid tree: " ++ s.fault.message ++ " at line " ++ toString line ++ " column " ++
      toString column)
    (.ofOffsets start start)).withHelp "the input must be a serialized SourceUnit"

end Json

namespace Program

/-- Reads a program in JSON. What follows the schema can always be decoded, so that the last fault
does not arise. -/
def ofJsonChars (text : List Char) : Except Json.Stop Program := do
  let j ← Json.readAll NodeKind.layout (.named .program) text
  match Program.decode j with
  | some p => return p
  | none => Json.failAt .expectedValue text

/-- A program that has no name of its own takes the given one. -/
def ofJsonText (name text : String) : Except Diagnostic Program :=
  match ofJsonChars text.toList with
  | .ok p => .ok (if p.name = "" then { p with name } else p)
  | .error stop => .error (stop.diagnostic text.toList)

end Program
end BranchMarkup
