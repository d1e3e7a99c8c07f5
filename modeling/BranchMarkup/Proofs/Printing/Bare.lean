import BranchMarkup.Proofs.Printing.Spells
import BranchMarkup.Tree.Bare
/-! The text that pieces spell does not tell where a tree was read from. -/
namespace BranchMarkup

/-- A piece without places, if it shows in the text at all. -/
def Piece.bare? : Piece → Option Piece
  | text s => some (text s)
  | heldComments _ => some (heldComments .zero)
  | leadingComments .. => some (leadingComments 0 0)
  | trailingComments _ => some (trailingComments 0)
  | opens | closes .. => none

/-! What is spelled -/

theorem Piece.Writes.unique {p : Piece} {g h k l : List (List String)} {t u : List Char}
    (ht : p.Writes g t) (hu : p.Writes h u) (heq : g ++ k = h ++ l) : k = l ∧ t = u := by
  cases p with
  | text | opens | closes =>
    obtain ⟨rfl, rfl⟩ := ht
    obtain ⟨rfl, rfl⟩ := hu
    exact ⟨heq, rfl⟩
  | heldComments | leadingComments | trailingComments =>
    obtain ⟨cs, rfl, -, rfl⟩ := ht
    obtain ⟨ds, rfl, -, rfl⟩ := hu
    obtain ⟨rfl, rfl⟩ := List.cons.inj heq
    exact ⟨rfl, rfl⟩

/-- The pieces and the comments decide the text. -/
theorem Spells.unique {ps : List Piece} {gs : List (List String)} {t u : List Char}
    (ht : Spells ps gs t) (hu : Spells ps gs u) : t = u := by
  induction ps generalizing gs t u with
  | nil => rw [(spells_nil.1 ht).2, (spells_nil.1 hu).2]
  | cons p ps ih =>
    obtain ⟨t, t', g, h, hg, hh, rfl, rfl⟩ := ht
    obtain ⟨u, u', k, l, hk, hl, heq, rfl⟩ := hu
    obtain ⟨rfl, rfl⟩ := hg.unique hk heq
    rw [ih hh hl]

theorem Spells.bare {ps : List Piece} {gs : List (List String)} {t : List Char}
    (h : Spells ps gs t) : Spells (ps.filterMap Piece.bare?) gs t := by
  induction ps generalizing gs t with
  | nil => exact h
  | cons p ps ih =>
    obtain ⟨t, u, g, k, hg, hk, rfl, rfl⟩ := h
    cases p with
    | text | heldComments | leadingComments | trailingComments =>
      exact ⟨t, u, g, k, hg, ih hk, rfl, rfl⟩
    | opens | closes =>
      obtain ⟨rfl, rfl⟩ := hg
      exact ih hk

/-! The pieces of a bare tree -/

section
variable {ps : List Piece}

theorem bare_parenthesized {needed : Bool} : (Piece.parenthesized needed ps).filterMap Piece.bare? =
    Piece.parenthesized needed (ps.filterMap Piece.bare?) := by
  cases needed <;> simp [Piece.parenthesized, Piece.bare?]

theorem bare_marked {kind : MappingKind} {provenance : Option Provenance} :
    (Piece.marked kind provenance ps).filterMap Piece.bare? = ps.filterMap Piece.bare? := by
  cases provenance with
  | none => rfl
  | some o =>
    rw [Piece.marked, List.filterMap_cons_none rfl, List.filterMap_append]
    exact List.append_nil _

end

theorem Expr.precedence_bare (e : Expr) : e.bare.precedence = e.precedence := by
  cases e <;> rfl

theorem Expr.startsWithMinus_bare (e : Expr) : e.bare.startsWithMinus = e.startsWithMinus := by
  cases e with
  | literal l => cases l <;> rfl
  | _ => rfl

theorem Child.isEmpty_bareAll (cs : List Child) : (Child.bareAll cs).isEmpty = cs.isEmpty := by
  cases cs <;> rfl

mutual

theorem Expr.pieces_bare : (e : Expr) → e.bare.pieces = e.pieces.filterMap Piece.bare?
  | .literal .. | .ident .. => rfl
  | .member object _ _ => by
    simp [Expr.bare, Expr.pieces, Piece.bare?, bare_parenthesized, object.pieces_bare, object.precedence_bare,
      Spanned.bare]
  | .call callee args _ => by
    simp [Expr.bare, Expr.pieces, Piece.bare?, bare_parenthesized, callee.pieces_bare, callee.precedence_bare,
      Expr.argumentPieces_bare args]
  | .unary op operand _ => by
    rw [Expr.bare, Expr.pieces, Expr.pieces, operand.startsWithMinus_bare]
    split <;> simp [Piece.bare?, bare_parenthesized, operand.pieces_bare, operand.precedence_bare]
  | .binary _ lhs rhs _ => by
    simp [Expr.bare, Expr.pieces, Piece.bare?, bare_parenthesized, lhs.pieces_bare, rhs.pieces_bare,
      lhs.precedence_bare, rhs.precedence_bare]
  | .conditional test consequent alternate _ _ => by
    rw [Expr.bare, Expr.pieces, Expr.pieces, bare_marked, Piece.marked]
    simp [Piece.bare?, bare_parenthesized, test.pieces_bare, consequent.pieces_bare,
      alternate.pieces_bare, test.precedence_bare, consequent.precedence_bare,
      alternate.precedence_bare]
  | .element e => e.pieces_bare
  | .fragment f => f.pieces_bare

theorem Expr.argumentPieces_bare : (es : List Expr) →
    Expr.argumentPieces (Expr.bareAll es) = (Expr.argumentPieces es).filterMap Piece.bare?
  | [] => rfl
  | [e] => e.pieces_bare
  | e :: e' :: es => by
    have h := Expr.argumentPieces_bare (e' :: es)
    simp only [Expr.bareAll, Expr.argumentPieces, List.filterMap_append, List.filterMap_cons] at h ⊢
    rw [h, e.pieces_bare]
    rfl

theorem Element.pieces_bare : (e : Element) → e.bare.pieces = e.pieces.filterMap Piece.bare?
  | ⟨name, attrs, children, selfClosing, span⟩ => by
    rw [Element.bare, Element.pieces, Element.pieces, Child.isEmpty_bareAll]
    split <;> simp [Piece.bare?, Attribute.pieces_bareAll attrs, Child.pieces_bareAll children,
      Spanned.bare]

theorem Fragment.pieces_bare : (f : Fragment) → f.bare.pieces = f.pieces.filterMap Piece.bare?
  | ⟨children, _, _⟩ => by
    rw [Fragment.bare, Fragment.pieces, Fragment.pieces, bare_marked, Piece.marked]
    simp [Piece.bare?, Child.pieces_bareAll children]

theorem Attribute.pieces_bareAll : (as : List Attribute) →
    Attribute.piecesAll (Attribute.bareAll as) = (Attribute.piecesAll as).filterMap Piece.bare?
  | [] => rfl
  | ⟨name, none, _⟩ :: as => by
    simp [Attribute.bareAll, Attribute.piecesAll, Attribute.pieces, Piece.bare?, Spanned.bare, Attribute.pieces_bareAll as]
  | ⟨name, some value, _⟩ :: as => by
    simp [Attribute.bareAll, Attribute.piecesAll, Attribute.pieces, Piece.bare?, Spanned.bare, value.pieces_bare,
      Attribute.pieces_bareAll as]

theorem AttrValue.pieces_bare : (v : AttrValue) → v.bare.pieces = v.pieces.filterMap Piece.bare?
  | .text .. | .container none _ => rfl
  | .container (some e) _ => by simp [AttrValue.bare, AttrValue.pieces, Piece.bare?, e.pieces_bare]
  | .element e => e.pieces_bare

theorem Child.pieces_bare : (c : Child) → c.bare.pieces = c.pieces.filterMap Piece.bare?
  | .text .. | .container none _ => rfl
  | .container (some e) _ => by simp [Child.bare, Child.pieces, Piece.bare?, e.pieces_bare]
  | .element e => e.pieces_bare
  | .fragment f => f.pieces_bare

theorem Child.pieces_bareAll : (cs : List Child) →
    Child.piecesAll (Child.bareAll cs) = (Child.piecesAll cs).filterMap Piece.bare?
  | [] => rfl
  | c :: cs => by
    simp [Child.bareAll, Child.piecesAll, c.pieces_bare, Child.pieces_bareAll cs]

end

/-! Statements -/

theorem ImportSpecifier.text_bare (s : ImportSpecifier) : s.bare.text = s.text := by
  obtain ⟨imported, localName⟩ := s
  cases localName with
  | none => rfl
  | some l => by_cases h : l.val = imported.val <;> simp [bare, text, Spanned.bare, Option.filter, h]

theorem ImportDecl.text_bare (d : ImportDecl) : d.bare.text = d.text := by
  obtain ⟨default, namespaceName, named, source⟩ := d
  have hnamed : (named.map ImportSpecifier.bare).map ImportSpecifier.text =
      named.map ImportSpecifier.text := by
    simp [ImportSpecifier.text_bare]
  simp [bare, text, isSideEffect, clauses, hnamed, Spanned.bare, Function.comp_def]

theorem Statement.pieces_bare (s : Statement) :
    s.bare.pieces = s.pieces.filterMap Piece.bare? := by
  cases s with
  | imports d => simp [bare, pieces, Piece.bare?, d.text_bare]
  | binding _ _ e | exportDefault e | expr e =>
    simp [bare, pieces, Piece.bare?, e.pieces_bare, Spanned.bare]

theorem Statement.isImport_bare (s : Statement) : s.bare.isImport = s.isImport := by
  cases s <;> rfl

/-- Of the pieces of a program all but the places follow from the bare statements. -/
theorem Program.bare_piecesFrom {ss ts : List (Spanned Statement)}
    (h : ss.map (·.val.bare) = ts.map (·.val.bare)) (a b : UInt32) (after : Bool) :
    (piecesFrom a after ss).filterMap Piece.bare? =
      (piecesFrom b after ts).filterMap Piece.bare? := by
  induction ss generalizing ts a b after with
  | nil =>
    obtain rfl := List.map_eq_nil_iff.1 h.symm
    rfl
  | cons s ss ih =>
    cases ts with
    | nil => cases h
    | cons t ts =>
      obtain ⟨hst, hsts⟩ := List.cons.inj h
      have hpieces := congrArg Statement.pieces hst
      rw [Statement.pieces_bare, Statement.pieces_bare] at hpieces
      have himport := congrArg Statement.isImport hst
      rw [Statement.isImport_bare, Statement.isImport_bare] at himport
      rw [piecesFrom, piecesFrom, himport]
      simp only [List.filterMap_append, List.filterMap_cons, hpieces,
        ih hsts s.span.stop t.span.stop t.val.isImport]
      rfl

end BranchMarkup
