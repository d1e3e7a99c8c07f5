import BranchMarkup.Tree
/-! The branch elements of a tree, and attributes found by name. -/
namespace BranchMarkup

namespace Element

def branch? (e : Element) : Option Branch := Branch.ofTag? e.name.val

/-- The first attribute of that name; later ones are ignored. -/
def find? (e : Element) (name : String) : Option Attribute :=
  e.attrs.find? (·.name.val == name)

end Element

def Child.element? : Child → Option Element
  | .element e => some e
  | _ => none

def Child.branch? (c : Child) : Option Branch := c.element?.bind Element.branch?

def Expr.branch? : Expr → Option Branch
  | .element e => e.branch?
  | _ => none

mutual

/-- Spans of the branch elements, an element before what it holds and attributes before children. -/
def Expr.branches : Expr → List Span
  | .literal .. | .ident .. => []
  | .member object _ _ => object.branches
  | .call callee args _ => callee.branches ++ Expr.branchesAll args
  | .unary _ operand _ => operand.branches
  | .binary _ lhs rhs _ => lhs.branches ++ rhs.branches
  | .conditional test consequent alternate _ _ =>
    test.branches ++ consequent.branches ++ alternate.branches
  | .element e => e.branches
  | .fragment f => f.branches

def Expr.branchesAll : List Expr → List Span
  | [] => []
  | e :: es => e.branches ++ Expr.branchesAll es

def Element.branches : Element → List Span
  | ⟨name, attrs, children, _, span⟩ =>
    (if (Branch.ofTag? name.val).isSome then [span] else []) ++
      Attribute.branchesAll attrs ++ Child.branchesAll children

def Fragment.branches : Fragment → List Span
  | ⟨children, _, _⟩ => Child.branchesAll children

def Attribute.branches : Attribute → List Span
  | ⟨_, none, _⟩ => []
  | ⟨_, some value, _⟩ => value.branches

def Attribute.branchesAll : List Attribute → List Span
  | [] => []
  | a :: as => a.branches ++ Attribute.branchesAll as

def AttrValue.branches : AttrValue → List Span
  | .text .. | .container none _ => []
  | .container (some e) _ => e.branches
  | .element e => e.branches

def Child.branches : Child → List Span
  | .text .. | .container none _ => []
  | .container (some e) _ => e.branches
  | .element e => e.branches
  | .fragment f => f.branches

def Child.branchesAll : List Child → List Span
  | [] => []
  | c :: cs => c.branches ++ Child.branchesAll cs

end

namespace Program

def branches (p : Program) : List Span :=
  p.statements.flatMap fun s => (s.val.expr?.map Expr.branches).getD []

/-- The expression of the first statement that has one. -/
def firstExpr? (p : Program) : Option Expr := p.statements.findSome? (·.val.expr?)

end Program
end BranchMarkup
