import BranchMarkup.Tree
/-! A tree without the places it was read from and without the marks a rewrite leaves. -/
namespace BranchMarkup

/-- The value alone. -/
def Spanned.bare {α : Type} (x : Spanned α) : Spanned α := ⟨x.val, .zero⟩

mutual

def Expr.bare : Expr → Expr
  | .literal value _ => .literal value .zero
  | .ident name _ => .ident name .zero
  | .member object property _ => .member object.bare property.bare .zero
  | .call callee args _ => .call callee.bare (Expr.bareAll args) .zero
  | .unary op operand _ => .unary op operand.bare .zero
  | .binary op lhs rhs _ => .binary op lhs.bare rhs.bare .zero
  | .conditional test consequent alternate _ _ =>
    .conditional test.bare consequent.bare alternate.bare none .zero
  | .element e => .element e.bare
  | .fragment f => .fragment f.bare

def Expr.bareAll : List Expr → List Expr
  | [] => []
  | e :: es => e.bare :: Expr.bareAll es

def Element.bare : Element → Element
  | ⟨name, attrs, children, selfClosing, _⟩ =>
    ⟨name.bare, Attribute.bareAll attrs, Child.bareAll children, selfClosing, .zero⟩

def Fragment.bare : Fragment → Fragment
  | ⟨children, _, _⟩ => ⟨Child.bareAll children, none, .zero⟩

def Attribute.bareAll : List Attribute → List Attribute
  | [] => []
  | ⟨name, none, _⟩ :: as => ⟨name.bare, none, .zero⟩ :: Attribute.bareAll as
  | ⟨name, some value, _⟩ :: as => ⟨name.bare, some value.bare, .zero⟩ :: Attribute.bareAll as

def AttrValue.bare : AttrValue → AttrValue
  | .text s _ => .text s .zero
  | .container none _ => .container none .zero
  | .container (some e) _ => .container (some e.bare) .zero
  | .element e => .element e.bare

def Child.bare : Child → Child
  | .text s _ => .text s .zero
  | .container none _ => .container none .zero
  | .container (some e) _ => .container (some e.bare) .zero
  | .element e => .element e.bare
  | .fragment f => .fragment f.bare

def Child.bareAll : List Child → List Child
  | [] => []
  | c :: cs => c.bare :: Child.bareAll cs

end

/-- A name that is bound under itself is as good as one without another name. -/
def ImportSpecifier.bare (s : ImportSpecifier) : ImportSpecifier :=
  ⟨s.imported.bare, (s.localName.filter (·.val ≠ s.imported.val)).map Spanned.bare⟩

def ImportDecl.bare (d : ImportDecl) : ImportDecl :=
  ⟨d.default.map Spanned.bare, d.namespaceName.map Spanned.bare, d.named.map ImportSpecifier.bare,
    d.source.bare⟩

def Statement.bare : Statement → Statement
  | imports d => imports d.bare
  | binding kind name init => binding kind name.bare init.bare
  | exportDefault value => exportDefault value.bare
  | expr value => expr value.bare

/-- The statements alone. -/
def Program.bare (p : Program) : List Statement := p.statements.map (·.val.bare)

end BranchMarkup
