import BranchMarkup.Tree.Encode
/-! Trees from the JSON that `encode` makes: fields in their order, none left out. -/
namespace BranchMarkup

/-- All values, or none. -/
def allSome {α : Type} : List (Option α) → Option (List α)
  | [] => some []
  | none :: _ => none
  | some a :: as => (allSome as).map (a :: ·)

def Json.decodeOptional {α : Type} (decode : Json → Option α) : Json → Option (Option α)
  | .null => some none
  | j => (decode j).map some

def Span.decode : Json → Option Span
  | .object [("file_id", .number f), ("start", .number a), ("end", .number b)] =>
    some ⟨.ofNat f, .ofNat a, .ofNat b⟩
  | _ => none

def Spanned.decode : Json → Option (Spanned String)
  | .object [("node", .string s), ("span", span)] => do return ⟨s, ← Span.decode span⟩
  | _ => none

def Branch.decode : Json → Option Branch
  | .string name => ofTag? name
  | _ => none

def Provenance.decode : Json → Option Provenance
  | .object [("origin", origin), ("branch", branch)] => do
    return ⟨← Span.decode origin, ← Branch.decode branch⟩
  | _ => none

def Literal.decode : Json → Option Literal
  | .string "Null" => some .null
  | .object [("Bool", .bool b)] => some (.bool b)
  | .object [("Number", .string digits)] => some (.number digits)
  | .object [("Str", .string s)] => some (.string s)
  | _ => none

def UnaryOp.decode : Json → Option UnaryOp
  | .string "Not" => some .not
  | .string "Neg" => some .neg
  | _ => none

def BinaryOp.decode : Json → Option BinaryOp
  | .string name =>
    [strictEq, strictNe, looseEq, looseNe, lt, gt, le, ge, and, or, add, sub, mul, div, rem].find?
      (·.name = name)
  | _ => none

mutual

def Expr.decode : Json → Option Expr
  | .object [("node", .object [("Literal", value)]), ("span", span)] => do
    return .literal (← Literal.decode value) (← Span.decode span)
  | .object [("node", .object [("Ident", .string name)]), ("span", span)] => do
    return .ident name (← Span.decode span)
  | .object [("node", .object [("Member", .object
      [("object", object), ("property", property)])]), ("span", span)] => do
    return .member (← Expr.decode object) (← Spanned.decode property) (← Span.decode span)
  | .object [("node", .object [("Call", .object
      [("callee", callee), ("args", .array args)])]), ("span", span)] => do
    return .call (← Expr.decode callee) (← Expr.decodeAll args) (← Span.decode span)
  | .object [("node", .object [("Unary", .object
      [("op", op), ("operand", operand)])]), ("span", span)] => do
    return .unary (← UnaryOp.decode op) (← Expr.decode operand) (← Span.decode span)
  | .object [("node", .object [("Binary", .object
      [("op", op), ("lhs", lhs), ("rhs", rhs)])]), ("span", span)] => do
    return .binary (← BinaryOp.decode op) (← Expr.decode lhs) (← Expr.decode rhs)
      (← Span.decode span)
  | .object [("node", .object [("Conditional", .object
      [("test", test), ("consequent", consequent), ("alternate", alternate),
       ("provenance", provenance)])]), ("span", span)] => do
    return .conditional (← Expr.decode test) (← Expr.decode consequent) (← Expr.decode alternate)
      (← Json.decodeOptional Provenance.decode provenance) (← Span.decode span)
  | .object [("node", .object [("Element", e)]), ("span", span)] => do
    return .element (← Element.decode (← Span.decode span) e)
  | .object [("node", .object [("Fragment", f)]), ("span", span)] => do
    return .fragment (← Fragment.decode (← Span.decode span) f)
  | _ => none

def Expr.decodeAll : List Json → Option (List Expr)
  | [] => some []
  | j :: js => do return (← Expr.decode j) :: (← Expr.decodeAll js)

def Expr.decodeContainer : Json → Option (Option Expr)
  | .object [("expr", .null)] => some none
  | .object [("expr", e)] => (Expr.decode e).map some
  | _ => none

def Element.decode (span : Span) : Json → Option Element
  | .object [("name", name), ("attrs", .array attrs), ("children", .array children),
      ("self_closing", .bool selfClosing)] => do
    return ⟨← Spanned.decode name, ← Attribute.decodeAll attrs, ← Child.decodeAll children,
      selfClosing, span⟩
  | _ => none

def Fragment.decode (span : Span) : Json → Option Fragment
  | .object [("children", .array children), ("provenance", provenance)] => do
    return ⟨← Child.decodeAll children, ← Json.decodeOptional Provenance.decode provenance, span⟩
  | _ => none

def Attribute.decode : Json → Option Attribute
  | .object [("node", .object [("name", name), ("value", .null)]), ("span", span)] => do
    return ⟨← Spanned.decode name, none, ← Span.decode span⟩
  | .object [("node", .object [("name", name), ("value", value)]), ("span", span)] => do
    return ⟨← Spanned.decode name, some (← AttrValue.decode value), ← Span.decode span⟩
  | _ => none

def Attribute.decodeAll : List Json → Option (List Attribute)
  | [] => some []
  | j :: js => do return (← Attribute.decode j) :: (← Attribute.decodeAll js)

def AttrValue.decode : Json → Option AttrValue
  | .object [("node", .object [("Str", .string s)]), ("span", span)] => do
    return .text s (← Span.decode span)
  | .object [("node", .object [("Container", container)]), ("span", span)] => do
    return .container (← Expr.decodeContainer container) (← Span.decode span)
  | .object [("node", .object [("Element", e)]), ("span", span)] => do
    return .element (← Element.decode (← Span.decode span) e)
  | _ => none

def Child.decode : Json → Option Child
  | .object [("node", .object [("Element", e)]), ("span", span)] => do
    return .element (← Element.decode (← Span.decode span) e)
  | .object [("node", .object [("Text", .string s)]), ("span", span)] => do
    return .text s (← Span.decode span)
  | .object [("node", .object [("Container", container)]), ("span", span)] => do
    return .container (← Expr.decodeContainer container) (← Span.decode span)
  | .object [("node", .object [("Fragment", f)]), ("span", span)] => do
    return .fragment (← Fragment.decode (← Span.decode span) f)
  | _ => none

def Child.decodeAll : List Json → Option (List Child)
  | [] => some []
  | j :: js => do return (← Child.decode j) :: (← Child.decodeAll js)

end

def ImportSpecifier.decode : Json → Option ImportSpecifier
  | .object [("imported", imported), ("local", localName)] => do
    return ⟨← Spanned.decode imported, ← Json.decodeOptional Spanned.decode localName⟩
  | _ => none

def ImportDecl.decode : Json → Option ImportDecl
  | .object [("default", default), ("namespace", space), ("named", .array named),
      ("source", source)] => do
    return ⟨← Json.decodeOptional Spanned.decode default,
      ← Json.decodeOptional Spanned.decode space,
      ← allSome (named.map ImportSpecifier.decode), ← Spanned.decode source⟩
  | _ => none

def BindingKind.decode : Json → Option BindingKind
  | .string "Const" => some .const
  | .string "Let" => some .mutable
  | _ => none

def Statement.decode : Json → Option Statement
  | .object [("Import", d)] => (ImportDecl.decode d).map .imports
  | .object [("Binding", .object [("kind", kind), ("name", name), ("init", init)])] => do
    return .binding (← BindingKind.decode kind) (← Spanned.decode name) (← Expr.decode init)
  | .object [("ExportDefault", e)] => (Expr.decode e).map .exportDefault
  | .object [("Expr", e)] => (Expr.decode e).map .expr
  | _ => none

def Statement.decodePlaced : Json → Option (Spanned Statement)
  | .object [("node", s), ("span", span)] => do return ⟨← Statement.decode s, ← Span.decode span⟩
  | _ => none

def Program.decode : Json → Option Program
  | .object [("name", .string name), ("stmts", .array stmts), ("comments", .array comments)] => do
    return ⟨name, ← allSome (stmts.map Statement.decodePlaced),
      ← allSome (comments.map Spanned.decode)⟩
  | _ => none

end BranchMarkup
