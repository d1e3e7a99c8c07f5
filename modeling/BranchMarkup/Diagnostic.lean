import BranchMarkup.Span
/-! What a reader of the program text is told about it. -/
namespace BranchMarkup

inductive Severity where
  | error
  | warning
deriving DecidableEq, Repr

structure Diagnostic where
  severity : Severity
  message : String
  span : Span
  notes : List String
  help : Option String
deriving DecidableEq, Repr

namespace Diagnostic

def error (message : String) (span : Span) : Diagnostic := ⟨.error, message, span, [], none⟩

def withNote (d : Diagnostic) (note : String) : Diagnostic := { d with notes := d.notes ++ [note] }

def withHelp (d : Diagnostic) (help : String) : Diagnostic := { d with help := some help }

end Diagnostic
end BranchMarkup
