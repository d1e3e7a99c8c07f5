import BranchMarkup.Token
import BranchMarkup.Diagnostic
/-! What can be wrong with a program text. -/
namespace BranchMarkup

/-- What stood to be read where something else was found. -/
inductive Wanted where
  | token (kind : Token.Kind)
  | tagName
  | expression
  | attributeValue
  | importClause
deriving DecidableEq, Repr

inductive Fault where
  | unterminatedComment
  | unterminatedString (quote : Char)
  | lineBreakInString
  | invalidEscape
  | unexpectedChar (c : Char)
  | expected (wanted : Wanted) (found : Token.Kind)
  | unexpectedChild (found : Token.Kind)
  | spreadAttribute
  | fragmentValue
  | unclosedFragment
  | unclosedElement (name : String)
  | fragmentClosedBy (name : String)
  | elementClosedBy (opened name : String)
  | tooDeep
deriving DecidableEq, Repr

/-- How many levels of nesting a program may have. -/
def maxNesting : Nat := 256

def nestingMessage : String :=
  "nesting depth exceeded (maximum " ++ toString maxNesting ++ " levels)"

def nestingHelp : String := "extract deeply nested markup into separate components"

/-- At least four upper-case hexadecimal digits. -/
def hexCode (c : Char) : String :=
  let digits := (Nat.toDigits 16 c.toNat).map Char.toUpper
  String.ofList (List.replicate (4 - digits.length) '0' ++ digits)

def Wanted.describe : Wanted → String
  | token k => k.describe
  | tagName => "tag name"
  | expression => "expression"
  | attributeValue => "attribute value"
  | importClause => "import clause"

namespace Fault

def message : Fault → String
  | unterminatedComment => "unterminated block comment"
  | unterminatedString _ => "unterminated string literal"
  | lineBreakInString => "line break inside string literal"
  | invalidEscape => "invalid unicode escape"
  | unexpectedChar c => "unexpected character '" ++ c.toString ++ "' (U+" ++ hexCode c ++ ")"
  | expected wanted found => "expected " ++ wanted.describe ++ ", found " ++ found.describe
  | unexpectedChild found => "unexpected " ++ found.describe ++ " in JSX children"
  | spreadAttribute => "spread attributes are not supported"
  | fragmentValue => "fragment attribute values are not supported"
  | unclosedFragment => "unclosed fragment"
  | unclosedElement name => "unclosed <" ++ name ++ ">"
  | fragmentClosedBy name => "expected closing tag </>, found </" ++ name ++ ">"
  | elementClosedBy opened name =>
    "expected closing tag </" ++ opened ++ ">, found </" ++ name ++ ">"
  | tooDeep => nestingMessage

def help? : Fault → Option String
  | unterminatedComment => some "close the comment with `*/`"
  | unterminatedString quote => some ("close the string with `" ++ quote.toString ++ "`")
  | lineBreakInString => some "use `\\n` to embed a newline"
  | invalidEscape => some "unicode escapes take exactly four hex digits: `\\u00e9`"
  | unexpectedChar _ => some "this character is not part of the supported JavaScript/JSX subset"
  | expected .importClause _ =>
    some "write `import Name from \"module\"` or `import \x7b Name \x7d from \"module\"`"
  | expected _ _ => none
  | unexpectedChild _ => none
  | spreadAttribute => some "pass the props explicitly: `name=\x7bvalue\x7d`"
  | fragmentValue => some "wrap the fragment in braces: `name=\x7b<>...</>\x7d`"
  | unclosedFragment => some "add the matching closing tag"
  | unclosedElement _ => some "add the matching closing tag"
  | fragmentClosedBy _ => some "fragments opened with <> close with </>"
  | elementClosedBy opened _ => some ("close the element with </" ++ opened ++ ">")
  | tooDeep => some nestingHelp

def notes : Fault → List String
  | elementClosedBy opened _ => ["<" ++ opened ++ "> opened here"]
  | _ => []

def diagnostic (f : Spanned Fault) : Diagnostic :=
  ⟨.error, f.val.message, f.span, f.val.notes, f.val.help?⟩

end Fault

/-- What a run comes to, where it can be evaluated. -/
theorem exists_ok_of_any {ε α : Type} {x : Except ε α} {P : α → Bool}
    (h : x.toOption.any P = true) : ∃ a, x = .ok a ∧ P a = true := by
  cases x with
  | error => cases h
  | ok a => exact ⟨a, rfl, h⟩

end BranchMarkup
