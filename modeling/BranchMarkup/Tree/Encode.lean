import BranchMarkup.Tree
import BranchMarkup.Json
/-! Trees as JSON. A span stands beside the node it belongs to; a variant is an object with its name
as the only key, or the bare name if it holds nothing. -/
namespace BranchMarkup

/-- A variant that holds something. -/
def Json.variant (name : String) (content : Json) : Json := .object [(name, content)]

def Json.optional {α : Type} (encode : α → Json) : Option α → Json
  | none => .null
  | some a => encode a

def Span.encode (s : Span) : Json :=
  .object [("file_id", .number s.fileId.toNat), ("start", .number s.start.toNat),
    ("end", .number s.stop.toNat)]

/-- A node and its span. -/
def Json.placed (node : Json) (span : Span) : Json :=
  .object [("node", node), ("span", span.encode)]

def Spanned.encode (s : Spanned String) : Json := .placed (.string s.val) s.span

def Branch.encode : Branch → Json
  | when => .string "If"
  | elseWhen => .string "ElseIf"
  | otherwise => .string "Else"

def Provenance.encode (p : Provenance) : Json :=
  .object [("origin", p.origin.encode), ("branch", p.branch.encode)]

def Literal.encode : Literal → Json
  | null => .string "Null"
  | bool b => .variant "Bool" (.bool b)
  | number digits => .variant "Number" (.string digits)
  | string s => .variant "Str" (.string s)

def UnaryOp.encode : UnaryOp → Json
  | not => .string "Not"
  | neg => .string "Neg"

def BinaryOp.name : BinaryOp → String
  | strictEq => "StrictEq" | strictNe => "StrictNe" | looseEq => "Eq" | looseNe => "Ne"
  | lt => "Lt" | gt => "Gt" | le => "Le" | ge => "Ge"
  | and => "And" | or => "Or"
  | add => "Add" | sub => "Sub" | mul => "Mul" | div => "Div" | rem => "Rem"

def BinaryOp.encode (op : BinaryOp) : Json := .string op.name

mutual

def Expr.encode : Expr → Json
  | .literal value span => .placed (.variant "Literal" value.encode) span
  | .ident name span => .placed (.variant "Ident" (.string name)) span
  | .member object property span =>
    .placed (.variant "Member" (.object
      [("object", object.encode), ("property", property.encode)])) span
  | .call callee args span =>
    .placed (.variant "Call" (.object
      [("callee", callee.encode), ("args", .array (Expr.encodeAll args))])) span
  | .unary op operand span =>
    .placed (.variant "Unary" (.object
      [("op", op.encode), ("operand", operand.encode)])) span
  | .binary op lhs rhs span =>
    .placed (.variant "Binary" (.object
      [("op", op.encode), ("lhs", lhs.encode), ("rhs", rhs.encode)])) span
  | .conditional test consequent alternate provenance span =>
    .placed (.variant "Conditional" (.object
      [("test", test.encode), ("consequent", consequent.encode), ("alternate", alternate.encode),
       ("provenance", .optional Provenance.encode provenance)])) span
  | .element e => .placed (.variant "Element" e.encode) e.span
  | .fragment f => .placed (.variant "Fragment" f.encode) f.span

def Expr.encodeAll : List Expr → List Json
  | [] => []
  | e :: es => e.encode :: Expr.encodeAll es

def Expr.encodeContainer : Option Expr → Json
  | none => .object [("expr", .null)]
  | some e => .object [("expr", e.encode)]

/-- Without its span, which stands outside. -/
def Element.encode : Element → Json
  | ⟨name, attrs, children, selfClosing, _⟩ =>
    .object [("name", name.encode), ("attrs", .array (Attribute.encodeAll attrs)),
      ("children", .array (Child.encodeAll children)), ("self_closing", .bool selfClosing)]

def Fragment.encode : Fragment → Json
  | ⟨children, provenance, _⟩ =>
    .object [("children", .array (Child.encodeAll children)),
      ("provenance", .optional Provenance.encode provenance)]

def Attribute.encode : Attribute → Json
  | ⟨name, none, span⟩ => .placed (.object [("name", name.encode), ("value", .null)]) span
  | ⟨name, some value, span⟩ =>
    .placed (.object [("name", name.encode), ("value", value.encode)]) span

def Attribute.encodeAll : List Attribute → List Json
  | [] => []
  | a :: as => a.encode :: Attribute.encodeAll as

def AttrValue.encode : AttrValue → Json
  | .text s span => .placed (.variant "Str" (.string s)) span
  | .container e span => .placed (.variant "Container" (Expr.encodeContainer e)) span
  | .element e => .placed (.variant "Element" e.encode) e.span

def Child.encode : Child → Json
  | .element e => .placed (.variant "Element" e.encode) e.span
  | .text s span => .placed (.variant "Text" (.string s)) span
  | .container e span => .placed (.variant "Container" (Expr.encodeContainer e)) span
  | .fragment f => .placed (.variant "Fragment" f.encode) f.span

def Child.encodeAll : List Child → List Json
  | [] => []
  | c :: cs => c.encode :: Child.encodeAll cs

end

def ImportSpecifier.encode (s : ImportSpecifier) : Json :=
  .object [("imported", s.imported.encode), ("local", .optional Spanned.encode s.localName)]

def ImportDecl.encode (d : ImportDecl) : Json :=
  .object [("default", .optional Spanned.encode d.default),
    ("namespace", .optional Spanned.encode d.namespaceName),
    ("named", .array (d.named.map ImportSpecifier.encode)), ("source", d.source.encode)]

def BindingKind.encode : BindingKind → Json
  | const => .string "Const"
  | mutable => .string "Let"

def Statement.encode : Statement → Json
  | imports d => .variant "Import" d.encode
  | binding kind name init => .variant "Binding" (.object
      [("kind", kind.encode), ("name", name.encode), ("init", init.encode)])
  | exportDefault e => .variant "ExportDefault" e.encode
  | expr e => .variant "Expr" e.encode

def Program.encode (p : Program) : Json :=
  .object [("name", .string p.name),
    ("stmts", .array (p.statements.map fun s => .placed s.val.encode s.span)),
    ("comments", .array (p.comments.map Spanned.encode))]

end BranchMarkup
