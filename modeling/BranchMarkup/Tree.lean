import BranchMarkup.Branch
/-! The tree of a program: expressions, and markup among them. Every node holds its own span, so an
element is the same value wherever it stands: as an expression, a child or an attribute's value. -/
namespace BranchMarkup

inductive Literal where
  | null
  | bool (b : Bool)
  /-- The digits as written, so that printing changes nothing. -/
  | number (digits : String)
  | string (s : String)
deriving DecidableEq, Repr

inductive UnaryOp where
  | not
  | neg
deriving DecidableEq, Repr

inductive BinaryOp where
  | strictEq | strictNe | looseEq | looseNe
  | lt | gt | le | ge
  | and | or
  | add | sub | mul | div | rem
deriving DecidableEq, Repr

def UnaryOp.text : UnaryOp → String
  | not => "!"
  | neg => "-"

namespace BinaryOp

def text : BinaryOp → String
  | strictEq => "===" | strictNe => "!==" | looseEq => "==" | looseNe => "!="
  | lt => "<" | gt => ">" | le => "<=" | ge => ">="
  | and => "&&" | or => "||"
  | add => "+" | sub => "-" | mul => "*" | div => "/" | rem => "%"

/-- How tightly the operator holds its left operand. -/
def power : BinaryOp → Nat
  | or => 2
  | and => 4
  | strictEq | strictNe | looseEq | looseNe => 6
  | lt | gt | le | ge => 8
  | add | sub => 10
  | mul | div | rem => 12

/-- The right operand is held tighter by one, so that equal operators group to the left. -/
def rightPower (op : BinaryOp) : Nat := op.power + 1

end BinaryOp

mutual

inductive Expr where
  | literal (value : Literal) (span : Span)
  | ident (name : String) (span : Span)
  | member (object : Expr) (property : Spanned String) (span : Span)
  | call (callee : Expr) (args : List Expr) (span : Span)
  | unary (op : UnaryOp) (operand : Expr) (span : Span)
  | binary (op : BinaryOp) (lhs rhs : Expr) (span : Span)
  | conditional (test consequent alternate : Expr) (provenance : Option Provenance) (span : Span)
  | element (elem : Element)
  | fragment (frag : Fragment)

structure Element where
  name : Spanned String
  attrs : List Attribute
  children : List Child
  selfClosing : Bool
  span : Span

/-- Children without a tag; a rewrite marks the fragments it makes. -/
structure Fragment where
  children : List Child
  provenance : Option Provenance
  span : Span

structure Attribute where
  name : Spanned String
  value : Option AttrValue
  span : Span

inductive AttrValue where
  | text (s : String) (span : Span)
  | container (expr : Option Expr) (span : Span)
  | element (elem : Element)

/-- A child of an element or fragment. A container without an expression held nothing but
comments. -/
inductive Child where
  | text (s : String) (span : Span)
  | container (expr : Option Expr) (span : Span)
  | element (elem : Element)
  | fragment (frag : Fragment)

end

def Expr.span : Expr → Span
  | literal _ s | ident _ s | member _ _ s | call _ _ s | unary _ _ s | binary _ _ _ s
  | conditional _ _ _ _ s => s
  | element e => e.span
  | fragment f => f.span

def Child.span : Child → Span
  | text _ s | container _ s => s
  | element e => e.span
  | fragment f => f.span

def AttrValue.span : AttrValue → Span
  | text _ s | container _ s => s
  | element e => e.span

def Expr.nullAt (s : Span) : Expr := .literal .null s

inductive BindingKind where
  | const
  | mutable
deriving DecidableEq, Repr

def BindingKind.text : BindingKind → String
  | const => "const"
  | mutable => "let"

structure ImportSpecifier where
  imported : Spanned String
  localName : Option (Spanned String)
deriving DecidableEq, Repr

/-- `import a, * as b, { c, d as e } from "source"`, or `import "source"`. -/
structure ImportDecl where
  default : Option (Spanned String)
  namespaceName : Option (Spanned String)
  named : List ImportSpecifier
  source : Spanned String
deriving DecidableEq, Repr

def ImportDecl.isSideEffect (d : ImportDecl) : Bool :=
  d.default.isNone && d.namespaceName.isNone && d.named.isEmpty

inductive Statement where
  | imports (decl : ImportDecl)
  | binding (kind : BindingKind) (name : Spanned String) (init : Expr)
  | exportDefault (value : Expr)
  | expr (value : Expr)

def Statement.expr? : Statement → Option Expr
  | imports _ => none
  | binding _ _ e | exportDefault e | expr e => some e

structure Program where
  name : String
  statements : List (Spanned Statement)
  /-- Comments in source order, delimiters included. -/
  comments : List (Spanned String)

end BranchMarkup
