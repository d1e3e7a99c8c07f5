import BranchMarkup.Printer.Piece
/-! How many levels deep the printed form of a tree goes when it is read: one for an element or
fragment, for the arms of a conditional, for an operator before its operand, and for the parentheses
that an operand is put in. -/
namespace BranchMarkup

/-- The levels of what is put in parentheses if that is needed. -/
def Piece.groupLevels (needed : Bool) (levels : Nat) : Nat := if needed then levels + 1 else levels

mutual

def Expr.levels : Expr → Nat
  | .literal .. | .ident .. => 0
  | .member object _ _ => Piece.groupLevels (object.precedence < 15) object.levels
  | .call callee args _ =>
    max (Piece.groupLevels (callee.precedence < 15) callee.levels) (Expr.levelsAll args)
  | .unary _ operand _ => Piece.groupLevels (operand.precedence < 14) operand.levels + 1
  | .binary op lhs rhs _ =>
    max (Piece.groupLevels (lhs.precedence < op.power) lhs.levels)
      (Piece.groupLevels (rhs.precedence < op.rightPower) rhs.levels)
  | .conditional test consequent alternate _ _ =>
    max (Piece.groupLevels (test.precedence < 2) test.levels)
      (max (Piece.groupLevels (consequent.precedence < 2) consequent.levels)
        (Piece.groupLevels (alternate.precedence < 2) alternate.levels) + 1)
  | .element e => e.levels
  | .fragment f => f.levels

def Expr.levelsAll : List Expr → Nat
  | [] => 0
  | e :: es => max e.levels (Expr.levelsAll es)

def Element.levels : Element → Nat
  | ⟨_, attrs, children, _, _⟩ => max (Attribute.levelsAll attrs) (Child.levelsAll children) + 1

def Fragment.levels : Fragment → Nat
  | ⟨children, _, _⟩ => Child.levelsAll children + 1

def Attribute.levelsAll : List Attribute → Nat
  | [] => 0
  | ⟨_, none, _⟩ :: as => Attribute.levelsAll as
  | ⟨_, some value, _⟩ :: as => max value.levels (Attribute.levelsAll as)

def AttrValue.levels : AttrValue → Nat
  | .text .. | .container none _ => 0
  | .container (some e) _ => e.levels
  | .element e => e.levels

def Child.levels : Child → Nat
  | .text .. | .container none _ => 0
  | .container (some e) _ => e.levels
  | .element e => e.levels
  | .fragment f => f.levels

def Child.levelsAll : List Child → Nat
  | [] => 0
  | c :: cs => max c.levels (Child.levelsAll cs)

end

def Statement.levels (s : Statement) : Nat := s.expr?.elim 0 Expr.levels

/-- The levels of the statement that goes deepest. -/
def Program.levels (p : Program) : Nat :=
  p.statements.foldr (fun s n => max s.val.levels n) 0

end BranchMarkup
