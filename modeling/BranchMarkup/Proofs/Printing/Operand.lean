import BranchMarkup.Printer.Levels
import BranchMarkup.Proofs.Printing.Comments
import BranchMarkup.Proofs.Reading.Grammar
import BranchMarkup.Proofs.Reading.Place
import BranchMarkup.Tree.Bare
/-! Reading operands back. An operator takes its left operand before it is itself seen, so what is
said of an expression is what reading it leaves to be read: anything that can follow the
expression can follow it where it was read. -/
namespace BranchMarkup
namespace Parse

def Untrailed (c : Cursor) : Prop := c.kind ≠ .symbol .dot ∧ c.kind ≠ .symbol .lparen

/-- Nothing goes on from here that an expression could take in. -/
structure Closes (c : Cursor) : Prop where
  untrailed : Untrailed c
  no_operator : BinaryOp.ofToken? c.token.val = none
  no_question : c.kind ≠ .symbol .question

/-- Symbols that only stand after an expression. -/
def endsExpr : Symbol → Bool
  | .rparen | .rbrace | .comma | .colon | .semicolon => true
  | _ => false

theorem closes_of_symbol {c : Cursor} {s : Symbol} (hc : c.token.val = .symbol s)
    (hs : endsExpr s = true) : Closes c := by
  have hkind : c.kind = .symbol s := Cursor.kind_symbol.2 hc
  constructor
  · constructor
    all_goals
      rw [hkind]
      rintro ⟨⟩
      cases hs
  · rw [hc]
    cases s <;> first
      | rfl
      | cases hs
  · rw [hkind]
    rintro ⟨⟩
    cases hs

/-- The expression is read between the cursors as one of precedence `p`, `h` levels deep. -/
structure ReadsAt (p h : Nat) (c : Cursor) (e : Expr) (c' : Cursor) : Prop where
  trailing : 15 ≤ p → ∀ {k out d}, ReadsTrailing c' k e out d → ReadsUnary c (max h k) out d
  unary : 14 ≤ p → Untrailed c' → ReadsUnary c h e c'
  binary : 2 ≤ p → Untrailed c' →
    (∀ op, BinaryOp.ofToken? c'.token.val = some op → op.power ≤ p) →
      ∀ {power k out d}, power ≤ p → ReadsBinaryRest power c' k e out d →
        ReadsBinary power c (max h k) out d
  expr : Closes c' → ReadsExpr c h e c'
  begins : beginsExpr c.kind = true

section
variable {p q h : Nat} {c c' : Cursor} {e : Expr}

theorem ReadsAt.mono (he : ReadsAt p h c e c') (hq : q ≤ p) : ReadsAt q h c e c' where
  trailing hp := he.trailing (Nat.le_trans hp hq)
  unary hp := he.unary (Nat.le_trans hp hq)
  binary hp hc hop _ _ _ _ hpower :=
    he.binary (Nat.le_trans hp hq) hc (fun op h => Nat.le_trans (hop op h) hq)
      (Nat.le_trans hpower hq)
  expr := he.expr
  begins := he.begins

theorem ReadsAt.of_expr (hc : beginsExpr c.kind = true) (he : Closes c' → ReadsExpr c h e c') :
    ReadsAt 1 h c e c' where
  trailing hp := absurd hp (by decide)
  unary hp := absurd hp (by decide)
  binary hp := absurd hp (by decide)
  expr := he
  begins := hc

theorem ReadsAt.of_binary (hp : p < 14) (hbegins : beginsExpr c.kind = true)
    (he : Untrailed c' → (∀ op, BinaryOp.ofToken? c'.token.val = some op → op.power ≤ p) →
      ∀ {power k out d}, power ≤ p → ReadsBinaryRest power c' k e out d →
        ReadsBinary power c (max h k) out d) : ReadsAt p h c e c' where
  trailing hp' := absurd hp (by omega)
  unary hp' := absurd hp (by omega)
  binary _ := he
  expr hc := by
    have hno : ∀ op, BinaryOp.ofToken? c'.token.val = some op → False := by simp [hc.no_operator]
    have hread := he hc.untrailed (fun op h => (hno op h).elim) (Nat.zero_le p)
      (.done fun op h => (hno op h).elim)
    rw [Nat.max_zero] at hread
    exact .plain hread hc.no_question
  begins := hbegins

theorem ReadsAt.of_unary (hp : p < 15) (hbegins : beginsExpr c.kind = true)
    (he : Untrailed c' → ReadsUnary c h e c') :
    ReadsAt p h c e c' where
  trailing hp' := absurd hp (by omega)
  unary _ := he
  binary _ hc _ _ _ _ _ _ hrest := .mk (he hc) hrest
  expr hc := by
    have hread : ReadsBinary 0 c (max h 0) e c' :=
      .mk (he hc.untrailed) (.done (by simp [hc.no_operator]))
    rw [Nat.max_zero] at hread
    exact .plain hread hc.no_question
  begins := hbegins

theorem ReadsAt.of_trailing (hbegins : beginsExpr c.kind = true)
    (he : ∀ {k out d}, ReadsTrailing c' k e out d → ReadsUnary c (max h k) out d) :
    ReadsAt p h c e c' := by
  have hunary : Untrailed c' → ReadsUnary c h e c' := by
    intro hc
    have hread := he (.done hc.1 hc.2)
    rwa [Nat.max_zero] at hread
  have hbelow : ReadsAt 14 h c e c' := .of_unary (by decide) hbegins hunary
  exact {
    trailing := fun _ => he
    unary := fun _ => hunary
    binary := fun _ hc _ _ _ _ _ _ hrest => .mk (hunary hc) hrest
    expr := hbelow.expr
    begins := hbegins }

theorem ReadsAt.of_primary (hop : UnaryOp.ofToken? c.token.val = none)
    (he : ReadsPrimary c h e c') : ReadsAt p h c e c' :=
  .of_trailing he.beginsExpr fun hrest => .trailing hop he hrest

/-- In parentheses an expression goes anywhere. -/
theorem ReadsAt.parenthesized (hc : c.token.val = .symbol .lparen)
    (he : ReadsAt q h (c.bump .script) e c') (hc' : c'.token.val = .symbol .rparen) :
    ReadsAt p (h + 1) c e (c'.bump .script) := by
  apply ReadsAt.of_primary
  · rw [hc]
    rfl
  · exact .parenthesized (Cursor.kind_symbol.2 hc) (he.expr (closes_of_symbol hc' rfl))
      (Cursor.kind_symbol.2 hc')

end

end Parse
end BranchMarkup
