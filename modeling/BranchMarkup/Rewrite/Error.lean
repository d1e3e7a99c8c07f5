import BranchMarkup.Fault
import BranchMarkup.Branch
/-! Why a program cannot be rewritten. Each cause is fatal for the program. -/
namespace BranchMarkup

/-- What stood as a condition's value in place of an expression in braces. -/
inductive ConditionDefect where
  | emptyContainer
  | string
  | element
deriving DecidableEq, Repr

/-- How a child list fails to be one that reading a text can produce. -/
inductive ShapeDefect where
  | emptyTag
  | selfClosingWithChildren (tag : String) (count : Nat)
  | adjacentText
deriving DecidableEq, Repr

inductive RewriteCause where
  | missingCondition
  | invalidCondition (found : ConditionDefect)
  | orphaned (branch : Branch)
  | malformed (defect : ShapeDefect)
  | tooDeep
deriving DecidableEq, Repr

structure RewriteError where
  cause : RewriteCause
  span : Span
  /-- The printed form of the node at fault. -/
  node : Option String
  file : Option String
deriving DecidableEq, Repr

def ConditionDefect.describe : ConditionDefect → String
  | emptyContainer => "an empty expression container"
  | string => "a string literal"
  | element => "an element"

def ShapeDefect.message : ShapeDefect → String
  | emptyTag => "element has an empty tag name"
  | selfClosingWithChildren tag count =>
    "self-closing <" ++ tag ++ " /> has " ++ toString count ++ " children"
  | adjacentText => "child list has adjacent text nodes"

/-- The attribute that holds a branch's condition. -/
def conditionName : String := "condition"

namespace RewriteCause

def message : RewriteCause → String
  | missingCondition => "Missing '" ++ conditionName ++ "' property"
  | invalidCondition found =>
    "'" ++ conditionName ++ "' property should be an expression container, found " ++ found.describe
  | orphaned branch =>
    branch.shown ++
      " has no matching <If> or <ElseIf>. Only whitespace is allowed between them."
  | malformed defect => defect.message
  | tooDeep => nestingMessage

def help : RewriteCause → String
  | missingCondition => "add a condition: `<If condition=\x7bexpr\x7d>`"
  | invalidCondition _ => "wrap the condition in braces: `condition=\x7bexpr\x7d`"
  | orphaned _ => "place <ElseIf>/<Else> directly after an <If> or <ElseIf> sibling"
  | malformed _ => "the tree handed to the transform is not valid JSX"
  | tooDeep => nestingHelp

end RewriteCause

namespace RewriteError

def of (cause : RewriteCause) (span : Span) : RewriteError := ⟨cause, span, none, none⟩

def message (e : RewriteError) : String := e.cause.message

def inFile (e : RewriteError) (file : String) : RewriteError := { e with file := some file }

/-- The message, then the file and the node on lines of their own. -/
def shown (e : RewriteError) : String :=
  e.message ++ (e.file.elim "" ("\nIn file " ++ ·)) ++ (e.node.elim "" ("\nAt node " ++ ·))

def diagnostic (e : RewriteError) : Diagnostic :=
  ⟨.error, e.message, e.span,
    (e.file.map ("in file " ++ ·)).toList ++ (e.node.map ("at node " ++ ·)).toList,
    some e.cause.help⟩

end RewriteError
end BranchMarkup
