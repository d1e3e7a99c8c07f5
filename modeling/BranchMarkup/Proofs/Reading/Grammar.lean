import Mathlib.Data.Nat.Basic
import Mathlib.Order.Basic
import BranchMarkup.Parser
import BranchMarkup.Proofs.Reading.Cursor
/-! The grammar: what is read between two cursors, and how many levels deep the reading goes. A
reader that finds no fault makes a derivation, and a derivation that fits into the levels that are
left is what a reader finds. -/
namespace BranchMarkup

/-- The keyword that opens a binding. -/
def BindingKind.keyword : BindingKind → Keyword
  | const => .kwConst
  | mutable => .kwLet

namespace Parse

/-- The part of a tag name after the first. -/
inductive ReadsTagRest : Cursor → Spanned String → Spanned String → Cursor → Prop where
  | done {c name} : c.kind ≠ .symbol .dot → c.kind ≠ .symbol .colon → ReadsTagRest c name name c
  | part {c joint text part c' name name'} : c.token.val = .symbol joint →
      joint = .dot ∧ text = "." ∨ joint = .colon ∧ text = ":" →
      (c.bump .tag).token.val = .ident part →
      ReadsTagRest ((c.bump .tag).bump .tag)
        ⟨name.val ++ text ++ part, name.span.merge (c.bump .tag).token.span⟩ name' c' →
      ReadsTagRest c name name' c'

/-- A tag name; nothing where the tag ends at once. -/
inductive ReadsTag : Cursor → Spanned String → Cursor → Prop where
  | empty {c} : c.kind = .symbol .gt → ReadsTag c ⟨"", c.token.span⟩ c
  | name {c first name c'} : c.token.val = .ident first →
      ReadsTagRest (c.bump .tag) ⟨first, c.token.span⟩ name c' → ReadsTag c name c'

/-- Expressions that are a token. -/
def atom? (t : Spanned Token) : Option Expr :=
  match t.val with
  | .number digits => some (.literal (.number digits) t.span)
  | .string s => some (.literal (.string s) t.span)
  | .keyword .kwTrue => some (.literal (.bool true) t.span)
  | .keyword .kwFalse => some (.literal (.bool false) t.span)
  | .keyword .kwNull => some (.nullAt t.span)
  | .ident name => some (.ident name t.span)
  | _ => none

mutual

inductive ReadsExpr : Cursor → Nat → Expr → Cursor → Prop where
  | plain {c h e c'} : ReadsBinary 0 c h e c' → c'.kind ≠ .symbol .question → ReadsExpr c h e c'
  | conditional {c h k l test consequent alternate c₁ c₂ c'} : ReadsBinary 0 c h test c₁ →
      c₁.kind = .symbol .question → ReadsExpr (c₁.bump .script) k consequent c₂ →
      c₂.kind = .symbol .colon → ReadsExpr (c₂.bump .script) l alternate c' →
      ReadsExpr c (max h (max k l + 1))
        (.conditional test consequent alternate none (test.span.merge alternate.span)) c'

inductive ReadsBinary : Nat → Cursor → Nat → Expr → Cursor → Prop where
  | mk {power c h k lhs e c₁ c'} : ReadsUnary c h lhs c₁ → ReadsBinaryRest power c₁ k lhs e c' →
      ReadsBinary power c (max h k) e c'

inductive ReadsBinaryRest : Nat → Cursor → Nat → Expr → Expr → Cursor → Prop where
  | done {power c e} :
      (∀ op, BinaryOp.ofToken? c.token.val = some op → op.power < power) →
      ReadsBinaryRest power c 0 e e c
  | more {power c h k op lhs rhs e c₁ c'} : BinaryOp.ofToken? c.token.val = some op →
      power ≤ op.power → ReadsBinary op.rightPower (c.bump .script) h rhs c₁ →
      ReadsBinaryRest power c₁ k (.binary op lhs rhs (lhs.span.merge rhs.span)) e c' →
      ReadsBinaryRest power c (max h k) lhs e c'

inductive ReadsUnary : Cursor → Nat → Expr → Cursor → Prop where
  | operator {c h op operand c'} : UnaryOp.ofToken? c.token.val = some op →
      ReadsUnary (c.bump .script) h operand c' →
      ReadsUnary c (h + 1) (.unary op operand (c.token.span.merge operand.span)) c'
  | trailing {c h k e e' c₁ c'} : UnaryOp.ofToken? c.token.val = none → ReadsPrimary c h e c₁ →
      ReadsTrailing c₁ k e e' c' → ReadsUnary c (max h k) e' c'

inductive ReadsTrailing : Cursor → Nat → Expr → Expr → Cursor → Prop where
  | done {c e} : c.kind ≠ .symbol .dot → c.kind ≠ .symbol .lparen → ReadsTrailing c 0 e e c
  | member {c h property e e' c'} : c.kind = .symbol .dot →
      (c.bump .script).word? = some property →
      ReadsTrailing ((c.bump .script).bump .script) h
        (.member e ⟨property, (c.bump .script).token.span⟩
          (e.span.merge (c.bump .script).token.span)) e' c' →
      ReadsTrailing c h e e' c'
  | call {c h k args e e' c₁ c'} : c.kind = .symbol .lparen →
      ReadsArguments (c.bump .script) h args c₁ → c₁.kind = .symbol .rparen →
      ReadsTrailing (c₁.bump .script) k
        (.call e args (e.span.merge (c₁.bump .script).last)) e' c' →
      ReadsTrailing c (max h k) e e' c'

inductive ReadsArguments : Cursor → Nat → List Expr → Cursor → Prop where
  | none {c} : c.kind = .symbol .rparen → ReadsArguments c 0 [] c
  | last {c h e c'} : c.kind ≠ .symbol .rparen → ReadsExpr c h e c' → c'.kind ≠ .symbol .comma →
      ReadsArguments c h [e] c'
  | more {c h k e es c₁ c'} : c.kind ≠ .symbol .rparen → ReadsExpr c h e c₁ →
      c₁.kind = .symbol .comma → ReadsArguments (c₁.bump .script) k es c' →
      ReadsArguments c (max h k) (e :: es) c'

inductive ReadsPrimary : Cursor → Nat → Expr → Cursor → Prop where
  | atom {c e} : atom? c.token = some e → ReadsPrimary c 0 e (c.bump .script)
  | parenthesized {c h e c₁} : c.kind = .symbol .lparen → ReadsExpr (c.bump .script) h e c₁ →
      c₁.kind = .symbol .rparen → ReadsPrimary c (h + 1) e (c₁.bump .script)
  | markup {c h m c'} : c.kind = .symbol .lt →
      ReadsMarkup c.token.span .script (c.bump .tag) h m c' → ReadsPrimary c h m.toExpr c'

/-- Markup without the `<` that opens it, which stood at the span; the mode is for what follows. -/
inductive ReadsMarkup : Span → Mode → Cursor → Nat → Markup → Cursor → Prop where
  | fragment {start after c h cs c'} : c.kind = .symbol .gt →
      ReadsChildren (c.bump .child) h cs c' → c'.kind = .symbol .gt →
      ReadsMarkup start after c (h + 1)
        (.fragment ⟨cs, none, start.merge (c'.bump after).last⟩) (c'.bump after)
  | selfClosing {start after c h name attrs c₁ c₂} : c.kind ≠ .symbol .gt → ReadsTag c name c₁ →
      ReadsAttributes c₁ h attrs c₂ → c₂.kind = .symbol .slash →
      (c₂.bump .tag).kind = .symbol .gt →
      ReadsMarkup start after c (h + 1)
        (.element ⟨name, attrs, [], true, start.merge ((c₂.bump .tag).bump after).last⟩)
        ((c₂.bump .tag).bump after)
  | element {start after c h k name name' attrs cs c₁ c₂ c₃ c'} : c.kind ≠ .symbol .gt →
      ReadsTag c name c₁ → ReadsAttributes c₁ h attrs c₂ → c₂.kind = .symbol .gt →
      ReadsChildren (c₂.bump .child) k cs c₃ → ReadsTag c₃ name' c' → name'.val = name.val →
      c'.kind = .symbol .gt →
      ReadsMarkup start after c (max h k + 1)
        (.element ⟨name, attrs, cs, false, start.merge (c'.bump after).last⟩) (c'.bump after)

/-- Children, and the `</` that ends them. -/
inductive ReadsChildren : Cursor → Nat → List Child → Cursor → Prop where
  | close {c} : c.kind = .symbol .lt → (c.bump .tag).kind = .symbol .slash →
      ReadsChildren c 0 [] ((c.bump .tag).bump .tag)
  | text {c h raw cs c'} : c.token.val = .text raw → ReadsChildren (c.bump .child) h cs c' →
      ReadsChildren c h (.text raw c.token.span :: cs) c'
  | container {c h k inner cs c₁ c'} : c.kind = .symbol .lbrace →
      ReadsContainer (c.bump .script) h inner c₁ → c₁.kind = .symbol .rbrace →
      ReadsChildren (c₁.bump .child) k cs c' →
      ReadsChildren c (max h k)
        (.container inner (c.token.span.merge (c₁.bump .child).last) :: cs) c'
  | markup {c h k m cs c₁ c'} : c.kind = .symbol .lt → (c.bump .tag).kind ≠ .symbol .slash →
      ReadsMarkup c.token.span .child (c.bump .tag) h m c₁ → ReadsChildren c₁ k cs c' →
      ReadsChildren c (max h k) (m.toChild :: cs) c'

inductive ReadsContainer : Cursor → Nat → Option Expr → Cursor → Prop where
  | empty {c} : c.kind = .symbol .rbrace → ReadsContainer c 0 none c
  | expr {c h e c'} : c.kind ≠ .symbol .rbrace → ReadsExpr c h e c' → ReadsContainer c h (some e) c'

inductive ReadsAttributes : Cursor → Nat → List Attribute → Cursor → Prop where
  | done {c} : c.kind ≠ .ident → c.kind ≠ .symbol .lbrace → ReadsAttributes c 0 [] c
  | more {c h k name value attrs c₁ c₂ c'} : c.kind = .ident → ReadsTag c name c₁ →
      ReadsAttrValue c₁ h value c₂ → ReadsAttributes c₂ k attrs c' →
      ReadsAttributes c (max h k) (⟨name, value, name.span.merge c₂.last⟩ :: attrs) c'

inductive ReadsAttrValue : Cursor → Nat → Option AttrValue → Cursor → Prop where
  | bare {c} : c.kind ≠ .symbol .eq → ReadsAttrValue c 0 none c
  | text {c s} : c.kind = .symbol .eq → (c.bump .tag).token.val = .string s →
      ReadsAttrValue c 0 (some (.text s (c.bump .tag).token.span)) ((c.bump .tag).bump .tag)
  | container {c h inner c'} : c.kind = .symbol .eq → (c.bump .tag).kind = .symbol .lbrace →
      ReadsContainer ((c.bump .tag).bump .script) h inner c' → c'.kind = .symbol .rbrace →
      ReadsAttrValue c h
        (some (.container inner ((c.bump .tag).token.span.merge (c'.bump .tag).last)))
        (c'.bump .tag)
  | element {c h e c'} : c.kind = .symbol .eq → (c.bump .tag).kind = .symbol .lt →
      ReadsMarkup (c.bump .tag).token.span .tag ((c.bump .tag).bump .tag) h (.element e) c' →
      ReadsAttrValue c h (some (.element e)) c'

end

/-! Statements -/

inductive ReadsSpecifier : Cursor → ImportSpecifier → Cursor → Prop where
  | plain {c name} : c.word? = some name → (c.bump .script).kind ≠ .keyword .kwAs →
      ReadsSpecifier c ⟨⟨name, c.token.span⟩, none⟩ (c.bump .script)
  | renamed {c name localName} : c.word? = some name → (c.bump .script).kind = .keyword .kwAs →
      ((c.bump .script).bump .script).token.val = .ident localName →
      ReadsSpecifier c
        ⟨⟨name, c.token.span⟩, some ⟨localName, ((c.bump .script).bump .script).token.span⟩⟩
        (((c.bump .script).bump .script).bump .script)

inductive ReadsSpecifiers : Cursor → List ImportSpecifier → Cursor → Prop where
  | none {c} : c.kind = .symbol .rbrace → ReadsSpecifiers c [] c
  | last {c s c'} : c.kind ≠ .symbol .rbrace → ReadsSpecifier c s c' → c'.kind ≠ .symbol .comma →
      ReadsSpecifiers c [s] c'
  | more {c s ss c₁ c'} : c.kind ≠ .symbol .rbrace → ReadsSpecifier c s c₁ →
      c₁.kind = .symbol .comma → ReadsSpecifiers (c₁.bump .script) ss c' →
      ReadsSpecifiers c (s :: ss) c'

inductive ReadsSource : Cursor → Spanned String → Cursor → Prop where
  | mk {c s} : c.kind = .keyword .kwFrom → (c.bump .script).token.val = .string s →
      ReadsSource c ⟨s, (c.bump .script).token.span⟩ ((c.bump .script).bump .script)

/-- What follows the default name of an import, or stands in its place. -/
inductive ReadsClause (default : Option (Spanned String)) : Cursor → ImportDecl → Cursor → Prop where
  | all {c name source c'} : c.kind = .symbol .star → (c.bump .script).kind = .keyword .kwAs →
      ((c.bump .script).bump .script).token.val = .ident name →
      ReadsSource (((c.bump .script).bump .script).bump .script) source c' →
      ReadsClause default c
        ⟨default, some ⟨name, ((c.bump .script).bump .script).token.span⟩, [], source⟩ c'
  | named {c named source c₁ c'} : c.kind = .symbol .lbrace →
      ReadsSpecifiers (c.bump .script) named c₁ → c₁.kind = .symbol .rbrace →
      ReadsSource (c₁.bump .script) source c' → ReadsClause default c ⟨default, none, named, source⟩ c'

inductive ReadsImport : Cursor → ImportDecl → Cursor → Prop where
  | sideEffect {c s} : c.kind = .keyword .kwImport → (c.bump .script).token.val = .string s →
      ReadsImport c ⟨none, none, [], ⟨s, (c.bump .script).token.span⟩⟩
        ((c.bump .script).bump .script)
  | clause {c d c'} : c.kind = .keyword .kwImport → (c.bump .script).kind ≠ .string →
      (c.bump .script).kind ≠ .ident → ReadsClause none (c.bump .script) d c' → ReadsImport c d c'
  | default {c name source c'} : c.kind = .keyword .kwImport →
      (c.bump .script).token.val = .ident name →
      ((c.bump .script).bump .script).kind ≠ .symbol .comma →
      ReadsSource ((c.bump .script).bump .script) source c' →
      ReadsImport c ⟨some ⟨name, (c.bump .script).token.span⟩, none, [], source⟩ c'
  | both {c name d c'} : c.kind = .keyword .kwImport →
      (c.bump .script).token.val = .ident name →
      ((c.bump .script).bump .script).kind = .symbol .comma →
      ReadsClause (some ⟨name, (c.bump .script).token.span⟩)
        (((c.bump .script).bump .script).bump .script) d c' →
      ReadsImport c d c'

/-- Keywords that no expression begins with. -/
def opensStatement (k : Token.Kind) : Bool :=
  k = .keyword .kwImport || k = .keyword .kwConst || k = .keyword .kwLet || k = .keyword .kwExport

inductive ReadsBody : Cursor → Nat → Statement → Cursor → Prop where
  | imports {c d c'} : ReadsImport c d c' → ReadsBody c 0 (.imports d) c'
  | binding {c h kind name e c'} : c.kind = .keyword kind.keyword →
      (c.bump .script).token.val = .ident name →
      ((c.bump .script).bump .script).kind = .symbol .eq →
      ReadsExpr (((c.bump .script).bump .script).bump .script) h e c' →
      ReadsBody c h (.binding kind ⟨name, (c.bump .script).token.span⟩ e) c'
  | exportDefault {c h e c'} : c.kind = .keyword .kwExport →
      (c.bump .script).kind = .keyword .kwDefault →
      ReadsExpr ((c.bump .script).bump .script) h e c' → ReadsBody c h (.exportDefault e) c'
  | expr {c h e c'} : opensStatement c.kind = false → ReadsExpr c h e c' → ReadsBody c h (.expr e) c'

inductive ReadsStatement : Cursor → Nat → Spanned Statement → Cursor → Prop where
  | closed {c h s c'} : ReadsBody c h s c' → c'.kind = .symbol .semicolon →
      ReadsStatement c h ⟨s, c.token.span.merge (c'.bump .script).last⟩ (c'.bump .script)
  | bare {c h s c'} : ReadsBody c h s c' → c'.kind ≠ .symbol .semicolon →
      ReadsStatement c h ⟨s, c.token.span.merge c'.last⟩ c'

inductive ReadsStatements : Cursor → Nat → List (Spanned Statement) → Cursor → Prop where
  | none {c} : c.kind = .endOfFile → ReadsStatements c 0 [] c
  | more {c h k s ss c₁ c'} : c.kind ≠ .endOfFile → ReadsStatement c h s c₁ →
      ReadsStatements (c₁.past c.token.span) k ss c' →
      ReadsStatements c (max h k) (s :: ss) c'

/-- Tokens that an expression can begin with. -/
def beginsExpr : Token.Kind → Bool
  | .number | .string | .ident | .keyword .kwTrue | .keyword .kwFalse | .keyword .kwNull
  | .symbol .lparen | .symbol .lt | .symbol .bang | .symbol .minus => true
  | _ => false

theorem ReadsPrimary.beginsExpr {c h e c'} (he : ReadsPrimary c h e c') :
    beginsExpr c.kind = true := by
  cases he with
  | atom h =>
    unfold atom? at h
    split at h <;> first
      | cases h; done
      | (next ht => rw [Cursor.kind, ht]; rfl)
  | parenthesized h => rw [h]; rfl
  | markup h => rw [h]; rfl

theorem ReadsUnary.beginsExpr {c h e c'} (he : ReadsUnary c h e c') :
    beginsExpr c.kind = true := by
  cases he with
  | operator h =>
    unfold UnaryOp.ofToken? at h
    split at h <;> first
      | cases h; done
      | (next ht => rw [Cursor.kind, ht]; rfl)
  | trailing _ h => exact h.beginsExpr

theorem ReadsExpr.beginsExpr {c h e c'} (he : ReadsExpr c h e c') : beginsExpr c.kind = true := by
  cases he with
  | plain h | conditional h =>
    cases h with
    | mk h _ => exact h.beginsExpr

/-! Where a semicolon or the end of the text follows -/

theorem ReadsPrimary.readsUnary {c h e c'} (he : ReadsPrimary c h e c')
    (hend : c'.kind = .symbol .semicolon ∨ c'.kind = .endOfFile) : ReadsUnary c h e c' := by
  have hop : UnaryOp.ofToken? c.token.val = none := by
    cases he with
    | atom hatom =>
      unfold atom? at hatom
      split at hatom <;> first
        | cases hatom; done
        | (next ht => rw [ht]; rfl)
    | parenthesized hkind | markup hkind =>
      rw [Cursor.kind_symbol.1 hkind]
      rfl
  have htrailing : ReadsTrailing c' 0 e e c' := by
    rcases hend with hend | hend <;> exact .done (by simp [hend]) (by simp [hend])
  exact Nat.max_zero h ▸ .trailing hop he htrailing

theorem ReadsUnary.readsExpr {c h e c'} (he : ReadsUnary c h e c')
    (hend : c'.kind = .symbol .semicolon ∨ c'.kind = .endOfFile) : ReadsExpr c h e c' := by
  have hrest : ReadsBinaryRest 0 c' 0 e e c' := by
    refine .done fun op hop => ?_
    rcases hend with hend | hend
    · rw [Cursor.kind_symbol.1 hend] at hop
      cases hop
    · rw [Cursor.kind_endOfFile.1 hend] at hop
      cases hop
  have hbinary := ReadsBinary.mk he hrest
  rw [Nat.max_zero] at hbinary
  exact .plain hbinary (by rcases hend with hend | hend <;> simp [hend])

theorem ReadsStatements.last {c h s c'} (hc : c.kind ≠ .endOfFile) (hs : ReadsStatement c h s c')
    (hend : c'.kind = .endOfFile) : ReadsStatements c h [s] c' := by
  have hpast : c'.past c.token.span = c' := by
    unfold Cursor.past
    split
    · rw [Cursor.bump, if_pos (Cursor.kind_endOfFile.1 hend)]
    · rfl
  have hnone : ReadsStatements (c'.past c.token.span) 0 [] c' := by
    rw [hpast]
    exact .none hend
  exact Nat.max_zero h ▸ .more hc hs hnone

/-! Reading takes tokens: at least one wherever something is read. -/

theorem ne_endOfFile_of_kind {c : Cursor} {k : Token.Kind} (h : c.kind = k) (hk : k ≠ .endOfFile) :
    c.token.val ≠ .endOfFile := by
  intro he
  rw [Cursor.kind, he] at h
  exact hk h.symm

theorem left_bump_lt_of_kind {c : Cursor} {k : Token.Kind} (h : c.kind = k) (hk : k ≠ .endOfFile)
    (mode : Mode) : (c.bump mode).left < c.left :=
  Cursor.left_bump_lt (ne_endOfFile_of_kind h hk) mode

theorem ReadsTagRest.left_le {c name name' c'} (h : ReadsTagRest c name name' c') :
    c'.left ≤ c.left := by
  induction h with
  | done => exact Nat.le_refl _
  | part _ _ _ _ ih =>
    exact ih.trans ((Cursor.left_bump_le ..).trans (Cursor.left_bump_le ..))

theorem ReadsTag.left_le {c name c'} (h : ReadsTag c name c') : c'.left ≤ c.left := by
  cases h with
  | empty => exact Nat.le_refl _
  | name _ h => exact h.left_le.trans (Cursor.left_bump_le ..)

theorem ReadsTag.left_lt {c name c'} (h : ReadsTag c name c') (hc : c.kind ≠ .symbol .gt) :
    c'.left < c.left := by
  cases h with
  | empty h => exact absurd h hc
  | name hf h => exact Nat.lt_of_le_of_lt h.left_le (Cursor.left_bump_lt (by simp [hf]) _)

theorem left_bump_lt_of_binaryOp {c : Cursor} {op : BinaryOp}
    (h : BinaryOp.ofToken? c.token.val = some op) (mode : Mode) :
    (c.bump mode).left < c.left :=
  Cursor.left_bump_lt (fun he => by simp [he, BinaryOp.ofToken?] at h) mode

theorem left_bump_lt_of_unaryOp {c : Cursor} {op : UnaryOp}
    (h : UnaryOp.ofToken? c.token.val = some op) (mode : Mode) :
    (c.bump mode).left < c.left :=
  Cursor.left_bump_lt (fun he => by simp [he, UnaryOp.ofToken?] at h) mode

theorem left_bump_lt_of_atom {c : Cursor} {e : Expr} (h : atom? c.token = some e) (mode : Mode) :
    (c.bump mode).left < c.left :=
  Cursor.left_bump_lt (fun he => by simp [he, atom?] at h) mode

mutual

theorem ReadsExpr.left_lt {c h e c'} : ReadsExpr c h e c' → c'.left < c.left
  | .plain h _ => h.left_lt
  | .conditional h _ h' _ h'' =>
    have harm := Nat.lt_of_lt_of_le h'.left_lt ((Cursor.left_bump_le ..).trans (Nat.le_of_lt h.left_lt))
    Nat.lt_trans (Nat.lt_of_lt_of_le h''.left_lt (Cursor.left_bump_le ..)) harm

theorem ReadsBinary.left_lt {power c h e c'} : ReadsBinary power c h e c' → c'.left < c.left
  | .mk h h' => Nat.lt_of_le_of_lt h'.left_le h.left_lt

theorem ReadsBinaryRest.left_le {power c h lhs e c'} :
    ReadsBinaryRest power c h lhs e c' → c'.left ≤ c.left
  | .done _ => Nat.le_refl _
  | .more _ _ h h' =>
    h'.left_le.trans (Nat.le_of_lt (Nat.lt_of_lt_of_le h.left_lt (Cursor.left_bump_le ..)))

theorem ReadsUnary.left_lt {c h e c'} : ReadsUnary c h e c' → c'.left < c.left
  | .operator _ h => Nat.lt_of_lt_of_le h.left_lt (Cursor.left_bump_le ..)
  | .trailing _ h h' => Nat.lt_of_le_of_lt h'.left_le h.left_lt

theorem ReadsTrailing.left_le {c h e e' c'} : ReadsTrailing c h e e' c' → c'.left ≤ c.left
  | .done _ _ => Nat.le_refl _
  | .member _ _ h => h.left_le.trans ((Cursor.left_bump_le ..).trans (Cursor.left_bump_le ..))
  | .call _ h _ h' =>
    h'.left_le.trans ((Cursor.left_bump_le ..).trans (h.left_le.trans (Cursor.left_bump_le ..)))

theorem ReadsArguments.left_le {c h es c'} : ReadsArguments c h es c' → c'.left ≤ c.left
  | .none _ => Nat.le_refl _
  | .last _ h _ => Nat.le_of_lt h.left_lt
  | .more _ h _ h' =>
    h'.left_le.trans ((Cursor.left_bump_le ..).trans (Nat.le_of_lt h.left_lt))

theorem ReadsPrimary.left_lt {c h e c'} : ReadsPrimary c h e c' → c'.left < c.left
  | .atom h => left_bump_lt_of_atom h _
  | .parenthesized _ h _ =>
    Nat.lt_of_le_of_lt (Cursor.left_bump_le ..)
      (Nat.lt_of_lt_of_le h.left_lt (Cursor.left_bump_le ..))
  | .markup _ h => Nat.lt_of_lt_of_le h.left_lt (Cursor.left_bump_le ..)

theorem ReadsMarkup.left_lt {start after c h m c'} :
    ReadsMarkup start after c h m c' → c'.left < c.left
  | .fragment _ h _ =>
    Nat.lt_of_le_of_lt (Cursor.left_bump_le ..)
      (Nat.lt_of_lt_of_le h.left_lt (Cursor.left_bump_le ..))
  | .selfClosing hc h h' _ _ =>
    Nat.lt_of_le_of_lt ((Cursor.left_bump_le ..).trans ((Cursor.left_bump_le ..).trans h'.left_le))
      (h.left_lt hc)
  | .element hc h h' _ h'' hclose _ _ =>
    have hinside := Nat.lt_of_lt_of_le h''.left_lt ((Cursor.left_bump_le ..).trans h'.left_le)
    Nat.lt_of_le_of_lt ((Cursor.left_bump_le ..).trans (hclose.left_le.trans (Nat.le_of_lt hinside)))
      (h.left_lt hc)

theorem ReadsChildren.left_lt {c h cs c'} : ReadsChildren c h cs c' → c'.left < c.left
  | .close h _ => Nat.lt_of_le_of_lt (Cursor.left_bump_le ..) (left_bump_lt_of_kind h (by decide) _)
  | .text _ h => Nat.lt_of_lt_of_le h.left_lt (Cursor.left_bump_le ..)
  | .container _ h _ h' =>
    Nat.lt_of_lt_of_le h'.left_lt
      ((Cursor.left_bump_le ..).trans (h.left_le.trans (Cursor.left_bump_le ..)))
  | .markup _ _ h h' =>
    Nat.lt_trans h'.left_lt (Nat.lt_of_lt_of_le h.left_lt (Cursor.left_bump_le ..))

theorem ReadsContainer.left_le {c h e c'} : ReadsContainer c h e c' → c'.left ≤ c.left
  | .empty _ => Nat.le_refl _
  | .expr _ h => Nat.le_of_lt h.left_lt

theorem ReadsAttributes.left_le {c h as c'} : ReadsAttributes c h as c' → c'.left ≤ c.left
  | .done _ _ => Nat.le_refl _
  | .more _ h h' h'' => h''.left_le.trans (h'.left_le.trans h.left_le)

theorem ReadsAttrValue.left_le {c h v c'} : ReadsAttrValue c h v c' → c'.left ≤ c.left
  | .bare _ => Nat.le_refl _
  | .text _ _ => (Cursor.left_bump_le ..).trans (Cursor.left_bump_le ..)
  | .container _ _ h _ =>
    (Cursor.left_bump_le ..).trans
      (h.left_le.trans ((Cursor.left_bump_le ..).trans (Cursor.left_bump_le ..)))
  | .element _ _ h =>
    (Nat.le_of_lt h.left_lt).trans ((Cursor.left_bump_le ..).trans (Cursor.left_bump_le ..))

end

theorem left_bump_lt_of_word? {c : Cursor} {name : String} (h : c.word? = some name)
    (mode : Mode) : (c.bump mode).left < c.left :=
  Cursor.left_bump_lt (fun he => by simp [he, Cursor.word?] at h) mode

theorem ReadsSpecifier.left_lt {c s c'} (h : ReadsSpecifier c s c') : c'.left < c.left := by
  cases h with
  | plain h _ => exact left_bump_lt_of_word? h _
  | renamed h _ _ =>
    exact Nat.lt_of_le_of_lt ((Cursor.left_bump_le ..).trans (Cursor.left_bump_le ..))
      (left_bump_lt_of_word? h _)

theorem ReadsSpecifiers.left_le {c ss c'} (h : ReadsSpecifiers c ss c') : c'.left ≤ c.left := by
  induction h with
  | none => exact Nat.le_refl _
  | last _ h _ => exact Nat.le_of_lt h.left_lt
  | more _ h _ _ ih => exact (ih.trans (Cursor.left_bump_le ..)).trans (Nat.le_of_lt h.left_lt)

theorem ReadsSource.left_le {c s c'} (h : ReadsSource c s c') : c'.left ≤ c.left := by
  cases h
  exact (Cursor.left_bump_le ..).trans (Cursor.left_bump_le ..)

theorem ReadsClause.left_le {default c d c'} (h : ReadsClause default c d c') :
    c'.left ≤ c.left := by
  cases h with
  | all _ _ _ h =>
    exact h.left_le.trans ((Cursor.left_bump_le ..).trans
      ((Cursor.left_bump_le ..).trans (Cursor.left_bump_le ..)))
  | named _ h _ h' =>
    exact h'.left_le.trans ((Cursor.left_bump_le ..).trans
      (h.left_le.trans (Cursor.left_bump_le ..)))

theorem ReadsImport.left_lt {c d c'} (h : ReadsImport c d c') : c'.left < c.left := by
  cases h with
  | sideEffect h _ =>
    exact Nat.lt_of_le_of_lt (Cursor.left_bump_le ..) (left_bump_lt_of_kind h (by decide) _)
  | clause h _ _ h' =>
    exact Nat.lt_of_le_of_lt h'.left_le (left_bump_lt_of_kind h (by decide) _)
  | default h _ _ h' =>
    exact Nat.lt_of_le_of_lt (h'.left_le.trans (Cursor.left_bump_le ..))
      (left_bump_lt_of_kind h (by decide) _)
  | both h _ _ h' =>
    exact Nat.lt_of_le_of_lt
      (h'.left_le.trans ((Cursor.left_bump_le ..).trans (Cursor.left_bump_le ..)))
      (left_bump_lt_of_kind h (by decide) _)

theorem ReadsBody.left_lt {c h s c'} (h : ReadsBody c h s c') : c'.left < c.left := by
  cases h with
  | imports h => exact h.left_lt
  | binding _ _ _ h =>
    exact Nat.lt_of_lt_of_le h.left_lt ((Cursor.left_bump_le ..).trans
      ((Cursor.left_bump_le ..).trans (Cursor.left_bump_le ..)))
  | exportDefault _ _ h =>
    exact Nat.lt_of_lt_of_le h.left_lt ((Cursor.left_bump_le ..).trans (Cursor.left_bump_le ..))
  | expr _ h => exact h.left_lt

theorem ReadsStatement.left_lt {c h s c'} (h : ReadsStatement c h s c') : c'.left < c.left := by
  cases h with
  | closed h _ => exact Nat.lt_of_le_of_lt (Cursor.left_bump_le ..) h.left_lt
  | bare h _ => exact h.left_lt

end Parse
end BranchMarkup
