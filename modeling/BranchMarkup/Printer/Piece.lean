import BranchMarkup.Tree
import BranchMarkup.Json
/-! A printed tree as a list of pieces. Most are text; the others are places where comments go, and
the ends of nodes that stand for a branch. The tree alone decides the list, so comments and
positions are left to one pass over it. -/
namespace BranchMarkup

inductive MappingKind where
  | conditional
  | fragment
deriving DecidableEq, Repr

inductive Piece where
  | text (s : String)
  /-- The comments an empty container at this place held. -/
  | heldComments (container : Span)
  /-- The comments that start from one offset on, before another. -/
  | leadingComments (start stop : UInt32)
  /-- The comments that start from an offset on. -/
  | trailingComments (start : UInt32)
  /-- A node that stands for a branch begins. -/
  | opens
  /-- The node opened last ends. -/
  | closes (kind : MappingKind) (provenance : Provenance)
deriving DecidableEq, Repr

/-- Line separators and control characters are escaped along with quotes and backslashes. -/
def quoteChar (c : Char) : List Char :=
  if c = '"' then ['\\', '"']
  else if c = '\\' then ['\\', '\\']
  else if c = '\n' then ['\\', 'n']
  else if c = '\r' then ['\\', 'r']
  else if c = '\t' then ['\\', 't']
  else if c = '\u2028' then ['\\', 'u', '2', '0', '2', '8']
  else if c = '\u2029' then ['\\', 'u', '2', '0', '2', '9']
  else if c.toNat < 0x20 then
    ['\\', 'u', '0', '0', Json.hexDigit (c.toNat / 16), Json.hexDigit (c.toNat % 16)]
  else [c]

def quoteString (s : String) : String :=
  String.ofList ('"' :: (s.toList.flatMap quoteChar ++ ['"']))

/-- Attribute strings have no escapes, so the quote is one that the text does not hold, if there is
such a one. -/
def quoteAttribute (s : String) : String :=
  if '"' ∈ s.toList then "'" ++ s ++ "'" else "\"" ++ s ++ "\""

def Literal.text : Literal → String
  | null => "null"
  | bool b => if b then "true" else "false"
  | number digits => digits
  | string s => quoteString s

namespace Expr

/-- How tightly an expression binds; where more is asked for, it needs parentheses. -/
def precedence : Expr → Nat
  | conditional .. => 1
  | binary op .. => op.power
  | unary .. => 14
  | member .. | call .. => 15
  | literal .. | ident .. | element _ | fragment _ => 16

/-- A second minus right after the first would read as one operator. -/
def startsWithMinus : Expr → Bool
  | unary op _ _ => op = .neg
  | literal (.number digits) _ => digits.toList.head? = some '-'
  | _ => false

end Expr

namespace Piece

def parenthesized (needed : Bool) (ps : List Piece) : List Piece :=
  if needed then text "(" :: (ps ++ [text ")"]) else ps

def marked (kind : MappingKind) (provenance : Option Provenance) (ps : List Piece) : List Piece :=
  match provenance with
  | none => ps
  | some p => opens :: (ps ++ [closes kind p])

end Piece

mutual

def Expr.pieces : Expr → List Piece
  | .literal value _ => [.text value.text]
  | .ident name _ => [.text name]
  | .member object property _ =>
    Piece.parenthesized (object.precedence < 15) object.pieces ++ [.text ("." ++ property.val)]
  | .call callee args _ =>
    Piece.parenthesized (callee.precedence < 15) callee.pieces ++
      .text "(" :: (Expr.argumentPieces args ++ [.text ")"])
  | .unary op operand _ =>
    .text op.text :: ((if op = .neg && operand.startsWithMinus then [.text " "] else []) ++
      Piece.parenthesized (operand.precedence < 14) operand.pieces)
  | .binary op lhs rhs _ =>
    Piece.parenthesized (lhs.precedence < op.power) lhs.pieces ++
      .text (" " ++ op.text ++ " ") ::
        Piece.parenthesized (rhs.precedence < op.rightPower) rhs.pieces
  | .conditional test consequent alternate provenance _ =>
    Piece.marked .conditional provenance
      (Piece.parenthesized (test.precedence < 2) test.pieces ++
        .text " ? " :: (Piece.parenthesized (consequent.precedence < 2) consequent.pieces ++
          .text " : " :: Piece.parenthesized (alternate.precedence < 2) alternate.pieces))
  | .element e => e.pieces
  | .fragment f => f.pieces

def Expr.argumentPieces : List Expr → List Piece
  | [] => []
  | [e] => e.pieces
  | e :: es => e.pieces ++ .text ", " :: Expr.argumentPieces es

def Element.pieces : Element → List Piece
  | ⟨name, attrs, children, selfClosing, _⟩ =>
    .text ("<" ++ name.val) :: (Attribute.piecesAll attrs ++
      if selfClosing && children.isEmpty then [.text " />"]
      else .text ">" :: (Child.piecesAll children ++ [.text ("</" ++ name.val ++ ">")]))

def Fragment.pieces : Fragment → List Piece
  | ⟨children, provenance, _⟩ =>
    Piece.marked .fragment provenance (.text "<>" :: (Child.piecesAll children ++ [.text "</>"]))

def Attribute.pieces : Attribute → List Piece
  | ⟨name, none, _⟩ => [.text (" " ++ name.val)]
  | ⟨name, some value, _⟩ => .text (" " ++ name.val ++ "=") :: value.pieces

def Attribute.piecesAll : List Attribute → List Piece
  | [] => []
  | a :: as => a.pieces ++ Attribute.piecesAll as

def AttrValue.pieces : AttrValue → List Piece
  | .text s _ => [.text (quoteAttribute s)]
  | .container none span => [.text "\x7b", .heldComments span, .text "\x7d"]
  | .container (some e) _ => .text "\x7b" :: (e.pieces ++ [.text "\x7d"])
  | .element e => e.pieces

def Child.pieces : Child → List Piece
  | .text s _ => [.text s]
  | .container none span => [.text "\x7b", .heldComments span, .text "\x7d"]
  | .container (some e) _ => .text "\x7b" :: (e.pieces ++ [.text "\x7d"])
  | .element e => e.pieces
  | .fragment f => f.pieces

def Child.piecesAll : List Child → List Piece
  | [] => []
  | c :: cs => c.pieces ++ Child.piecesAll cs

end

/-- A name that is bound under itself is written once. -/
def ImportSpecifier.text (s : ImportSpecifier) : String :=
  match s.localName with
  | some l => if l.val = s.imported.val then l.val else s.imported.val ++ " as " ++ l.val
  | none => s.imported.val

/-- What stands between `import` and `from`, a text for each form that is there. -/
def ImportDecl.clauses (d : ImportDecl) : List String :=
  (d.default.map (·.val)).toList ++
  (d.namespaceName.map ("* as " ++ ·.val)).toList ++
  if d.named.isEmpty then []
  else ["\x7b " ++ ", ".intercalate (d.named.map ImportSpecifier.text) ++ " \x7d"]

def ImportDecl.text (d : ImportDecl) : String :=
  if d.isSideEffect then "import " ++ quoteString d.source.val
  else "import " ++ ", ".intercalate d.clauses ++ " from " ++ quoteString d.source.val

def Statement.pieces : Statement → List Piece
  | imports d => [.text d.text]
  | binding kind name init => .text (kind.text ++ " " ++ name.val ++ " = ") :: init.pieces
  | exportDefault e => .text "export default " :: e.pieces
  | expr e => e.pieces

def Statement.isImport : Statement → Bool
  | imports _ => true
  | _ => false

namespace Program

/-- The statements after one that ended at `cursor`; an empty line parts the imports from the
rest. -/
def piecesFrom (cursor : UInt32) (afterImport : Bool) : List (Spanned Statement) → List Piece
  | [] => [.trailingComments cursor]
  | s :: ss =>
    (if afterImport && !s.val.isImport then [.text "\n"] else []) ++
      .leadingComments cursor s.span.start :: (s.val.pieces ++
        .text ";\n" :: piecesFrom s.span.stop s.val.isImport ss)

def pieces (p : Program) : List Piece := piecesFrom 0 false p.statements

end Program
end BranchMarkup
