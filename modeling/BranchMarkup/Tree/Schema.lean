import BranchMarkup.Json.Shape
import BranchMarkup.Tree.Encode
/-! The layout of trees as JSON, which says what a reader accepts. -/
namespace BranchMarkup

/-- The records and choices of a tree. -/
inductive NodeKind where
  | program
  | placedText
  /-- A node and its span. -/
  | placed (node : NodeKind)
  | span
  | statement
  | importDecl
  | importSpecifier
  | binding
  | bindingKind
  | expr
  | literal
  | member
  | call
  | unary
  | unaryOp
  | binary
  | binaryOp
  | conditional
  | provenance
  | branch
  | element
  | attr
  | attrValue
  | container
  | fragment
  | child
deriving DecidableEq, Repr

namespace NodeKind

open Json (Shape RecordField Layout Content)

def field (name : String) (shape : Shape NodeKind) : RecordField NodeKind :=
  ⟨name, shape, .required⟩

def nullable (name : String) (shape : Shape NodeKind) : RecordField NodeKind :=
  ⟨name, shape, .nullable⟩

def node (k : NodeKind) : Shape NodeKind := .named (.placed k)

def placedString : Shape NodeKind := .named .placedText

def record (title : String) (fields : List (RecordField NodeKind)) : Layout NodeKind :=
  .record ("struct " ++ title) fields

/-- A record that only one variant holds. -/
def variantRecord (title : String) (fields : List (RecordField NodeKind)) : Layout NodeKind :=
  .record ("struct variant " ++ title) fields

/-- A choice among bare names. -/
def bareChoice (names : List String) : Layout NodeKind := .choice (names.map (·, .nothing))

def placedRecord (shape : Shape NodeKind) : Layout NodeKind :=
  record "Spanned" [field "node" shape, field "span" (.named span)]

def layout : NodeKind → Layout NodeKind
  | program => record "SourceUnit"
    [field "name" .text, field "stmts" (.list (node statement)),
     ⟨"comments", .list placedString, .listable⟩]
  | placedText => placedRecord .text
  | placed k => placedRecord (.named k)
  | span => record "Span"
    [field "file_id" (.word 16), field "start" (.word 32), field "end" (.word 32)]
  | statement => .choice
    [("Import", .value (.named importDecl)), ("Binding", .fields binding),
     ("ExportDefault", .value (node expr)), ("Expr", .value (node expr))]
  | importDecl => record "ImportDecl"
    [nullable "default" placedString, nullable "namespace" placedString,
     field "named" (.list (.named importSpecifier)), field "source" placedString]
  | importSpecifier => record "ImportSpecifier"
    [field "imported" placedString, nullable "local" placedString]
  | binding => variantRecord "Stmt::Binding"
    [field "kind" (.named bindingKind), field "name" placedString, field "init" (node expr)]
  | bindingKind => bareChoice ["Const", "Let"]
  | expr => .choice
    [("Literal", .value (.named literal)), ("Ident", .value .text), ("Member", .fields member),
     ("Call", .fields call), ("Unary", .fields unary), ("Binary", .fields binary),
     ("Conditional", .fields conditional), ("Element", .value (.named element)),
     ("Fragment", .value (.named fragment))]
  | literal => .choice
    [("Null", .nothing), ("Bool", .value .flag), ("Number", .value .text), ("Str", .value .text)]
  | member => variantRecord "Expr::Member"
    [field "object" (node expr), field "property" placedString]
  | call => variantRecord "Expr::Call"
    [field "callee" (node expr), field "args" (.list (node expr))]
  | unary => variantRecord "Expr::Unary"
    [field "op" (.named unaryOp), field "operand" (node expr)]
  | unaryOp => bareChoice ["Not", "Neg"]
  | binary => variantRecord "Expr::Binary"
    [field "op" (.named binaryOp), field "lhs" (node expr), field "rhs" (node expr)]
  | binaryOp => bareChoice
    ["StrictEq", "StrictNe", "Eq", "Ne", "Lt", "Gt", "Le", "Ge", "And", "Or",
     "Add", "Sub", "Mul", "Div", "Rem"]
  | conditional => variantRecord "Expr::Conditional"
    [field "test" (node expr), field "consequent" (node expr), field "alternate" (node expr),
     nullable "provenance" (.named provenance)]
  | provenance => record "Provenance"
    [field "origin" (.named span), field "branch" (.named branch)]
  | branch => bareChoice ["If", "ElseIf", "Else"]
  | element => record "Element"
    [field "name" placedString, field "attrs" (.list (node attr)),
     field "children" (.list (node child)), field "self_closing" .flag]
  | attr => record "Attribute"
    [field "name" placedString, nullable "value" (node attrValue)]
  | attrValue => .choice
    [("Str", .value .text), ("Container", .value (.named container)),
     ("Element", .value (.named element))]
  | container => record "Container" [nullable "expr" (node expr)]
  | fragment => record "Fragment"
    [field "children" (.list (node child)), nullable "provenance" (.named provenance)]
  | child => .choice
    [("Element", .value (.named element)), ("Text", .value .text),
     ("Container", .value (.named container)), ("Fragment", .value (.named fragment))]

end NodeKind
end BranchMarkup
