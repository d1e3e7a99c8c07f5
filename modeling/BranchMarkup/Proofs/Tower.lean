import BranchMarkup.Printer.Levels
import BranchMarkup.Proofs.Printing.Program
import BranchMarkup.Proofs.Rewritten
/-! Branches that hold nothing but another, for any number of them: what they are read from, and the
conditionals that a rewrite makes of them, each in an arm of the one before. -/
namespace BranchMarkup

/-! How long a printed text is -/

/-- What a piece adds to the text where no comments are left. -/
def Piece.bytes : Piece → Nat
  | .text s => s.utf8ByteSize
  | _ => 0

theorem Print.utf8ByteSize_addAll {p : Print} (h : p.comments = []) (ps : List Piece) :
    (p.addAll ps).text.utf8ByteSize = p.text.utf8ByteSize + (ps.map Piece.bytes).sum := by
  induction ps generalizing p with
  | nil => rfl
  | cons piece ps ih =>
    have hadd : (p.add piece).comments = [] ∧
        (p.add piece).text.utf8ByteSize = p.text.utf8ByteSize + piece.bytes := by
      cases piece with
      | text s => exact ⟨h, String.utf8ByteSize_append ..⟩
      | heldComments | leadingComments | trailingComments =>
        simp [add, takeComments, h, heldText, linesText, Piece.bytes]
      | opens => exact ⟨h, rfl⟩
      | closes kind provenance =>
        rw [add]
        split <;> exact ⟨h, rfl⟩
    rw [show p.addAll (piece :: ps) = (p.add piece).addAll ps from rfl, ih hadd.1, hadd.2,
      List.map_cons, List.sum_cons, Nat.add_assoc]

theorem Program.utf8ByteSize_format {p : Program} (h : p.comments = []) :
    p.format.utf8ByteSize = (p.pieces.map Piece.bytes).sum := by
  have hempty : (Print.ofComments p.comments).text.utf8ByteSize = 0 := rfl
  rw [format_eq (by simp [h]), print, Print.utf8ByteSize_addAll h, hempty, Nat.zero_add]

/-! The sample -/

def branchSample (children : List Child) : Element :=
  ⟨⟨"If", .zero⟩, [⟨⟨"condition", .zero⟩, none, .zero⟩], children, false, .zero⟩

/-- `n` branches around another, each the only child of the one outside it. A reader of this counts
a level each; of the conditionals they become each stands in the parentheses of an arm as well. -/
def towerSample : Nat → Element
  | 0 => branchSample []
  | n + 1 => branchSample [.element (towerSample n)]

theorem branchSample_levels (children : List Child) :
    (branchSample children).levels = Child.levelsAll children + 1 := by
  simp [branchSample, Element.levels, Attribute.levelsAll]

theorem branchSample_bytes (children : List Child) :
    ((branchSample children).pieces.map Piece.bytes).sum =
      ((Child.piecesAll children).map Piece.bytes).sum + 19 := by
  have hopen : Piece.bytes (.text ("<" ++ "If")) = 3 := by decide
  have hattr : Piece.bytes (.text (" " ++ "condition")) = 10 := by decide
  have hclose : Piece.bytes (.text ("</" ++ "If" ++ ">")) = 5 := by decide
  have hend : Piece.bytes (.text ">") = 1 := by decide
  simp only [branchSample, Element.pieces, Attribute.piecesAll, Attribute.pieces, Bool.false_and,
    Bool.false_eq_true, ↓reduceIte, List.cons_append, List.nil_append, List.map_cons,
    List.map_append, List.map_nil, List.sum_cons, List.sum_append, List.sum_nil, hopen, hattr,
    hclose, hend]
  omega

theorem branchSample_legible {children : List Child} (h : ∀ c ∈ children, c.Legible)
    (htexts : Chain.adjacentText? children = none) : (branchSample children).Legible := by
  have hname : Scanner.IsTagName "If".toList :=
    .of_word ⟨'I', ['f'], rfl, by decide, List.all_eq_true.1 rfl⟩
  have hattr : Scanner.IsTagName "condition".toList :=
    .of_word ⟨'c', "ondition".toList, rfl, by decide, List.all_eq_true.1 rfl⟩
  refine Element.legible_iff.2 ⟨⟨hname, nofun, htexts⟩, fun a ha => ?_, h⟩
  rw [branchSample, List.mem_singleton] at ha
  rw [ha, Attribute.legible_iff]
  exact ⟨hattr, nofun⟩

theorem towerSample_levels (n : Nat) : (towerSample n).levels = n + 1 := by
  induction n with
  | zero => rfl
  | succ n ih =>
    rw [towerSample, branchSample_levels, Child.levelsAll, Child.levels, ih]
    exact congrArg (· + 1) (Nat.max_zero _)

theorem towerSample_bytes (n : Nat) :
    ((towerSample n).pieces.map Piece.bytes).sum = 19 * (n + 1) := by
  induction n with
  | zero => decide
  | succ n ih =>
    rw [towerSample, branchSample_bytes, Child.piecesAll, Child.piecesAll, List.append_nil,
      Child.pieces, ih, Nat.mul_succ 19 (n + 1)]

theorem towerSample_legible (n : Nat) : (towerSample n).Legible := by
  induction n with
  | zero => exact branchSample_legible (List.forall_mem_nil _) rfl
  | succ n ih =>
    refine branchSample_legible (fun c hc => ?_) rfl
    rw [List.mem_singleton.1 hc]
    exact Child.legible_element.2 ih

/-! A tree that is like another up to its places -/

theorem Expr.eq_of_bare_binary {e l r : Expr} {op : BinaryOp} {s : Span}
    (h : e.bare = .binary op l r s) :
    ∃ x y t, e = .binary op x y t ∧ x.bare = l ∧ y.bare = r := by
  cases e with
  | binary op' x y t =>
    simp only [Expr.bare, Expr.binary.injEq] at h
    obtain ⟨rfl, hx, hy, -⟩ := h
    exact ⟨x, y, t, rfl, hx, hy⟩
  | _ => simp [Expr.bare] at h

theorem Expr.eq_of_bare_element {e : Expr} {elem : Element} (h : e.bare = .element elem) :
    ∃ f, e = .element f ∧ f.bare = elem := by
  cases e with
  | element f => exact ⟨f, rfl, Expr.element.inj h⟩
  | _ => simp [Expr.bare] at h

theorem Expr.eq_of_bare_literal {e : Expr} {value : Literal} {s : Span}
    (h : e.bare = .literal value s) : ∃ t, e = .literal value t := by
  cases e with
  | literal value' t =>
    simp only [Expr.bare, Expr.literal.injEq] at h
    exact ⟨t, by rw [h.1]⟩
  | _ => simp [Expr.bare] at h

theorem Expr.eq_of_bare_ident {e : Expr} {name : String} {s : Span}
    (h : e.bare = .ident name s) : ∃ t, e = .ident name t := by
  cases e with
  | ident name' t =>
    simp only [Expr.bare, Expr.ident.injEq] at h
    exact ⟨t, by rw [h.1]⟩
  | _ => simp [Expr.bare] at h

theorem Statement.eq_of_bare_expr {x : Statement} {e : Expr} (h : x.bare = .expr e) :
    ∃ f, x = .expr f ∧ f.bare = e := by
  cases x with
  | expr f => exact ⟨f, rfl, Statement.expr.inj h⟩
  | _ => simp [Statement.bare] at h

theorem eq_of_bare_branchSample {e : Element} {cs : List Child} (h : e.bare = branchSample cs) :
    ∃ s s' s'' t cs', e = ⟨⟨"If", s⟩, [⟨⟨"condition", s'⟩, none, s''⟩], cs', false, t⟩ ∧
      Child.bareAll cs' = cs := by
  obtain ⟨⟨tag, s⟩, attrs, children, closing, t⟩ := e
  simp only [branchSample, Element.bare, Spanned.bare, Element.mk.injEq, Spanned.mk.injEq] at h
  obtain ⟨⟨rfl, -⟩, hattrs, hchildren, rfl, -⟩ := h
  obtain - | ⟨⟨⟨name, s'⟩, - | value, s''⟩, - | ⟨⟨name', - | value', _⟩, attrs⟩⟩ := attrs <;>
    simp [Attribute.bareAll, Spanned.bare] at hattrs
  subst hattrs
  exact ⟨_, _, _, _, _, rfl, hchildren⟩

namespace Rewrite

/-- Branches around each other, as many as that and at whatever places, with a literal inside. -/
inductive Tower (top : Literal) : Nat → Expr → Prop where
  | top {s} : Tower top 0 (.literal top s)
  | branch {n e s} : e.branch? = some .when → Chain.checkElement e = .ok () →
      Chain.condition e = .ok (.literal (.bool true) s) →
      Tower top n (Chain.collapse e.children (Chain.origin e)) → Tower top (n + 1) (.element e)

theorem tower_of_bare {n : Nat} {e : Element} (h : e.bare = (towerSample n).bare) :
    Tower .null (n + 1) (.element e) := by
  induction n generalizing e with
  | zero =>
    obtain ⟨_, _, _, _, cs, rfl, hcs⟩ := eq_of_bare_branchSample h
    obtain - | _ := cs
    · exact .branch rfl rfl rfl .top
    · cases hcs
  | succ n ih =>
    obtain ⟨_, _, _, _, cs, rfl, hcs⟩ := eq_of_bare_branchSample h
    obtain - | ⟨c, cs⟩ := cs
    · cases hcs
    · obtain ⟨hc, hcs⟩ := List.cons.inj hcs
      obtain - | _ := cs
      · cases c with
        | element e => exact .branch rfl rfl rfl (ih (Child.element.inj hc))
        | container inner => cases inner <;> cases hc
        | _ => cases hc
      · cases hcs

theorem tower_of_bare_text {e : Element} {text : String} {s : Span}
    (h : e.bare = branchSample [.text text s]) (hink : (Child.text text s).isSignificant = true) :
    Tower (.string text) 1 (.element e) := by
  obtain ⟨_, _, _, _, cs, rfl, hcs⟩ := eq_of_bare_branchSample h
  obtain - | ⟨c, cs⟩ := cs
  · cases hcs
  · obtain ⟨hc, hcs⟩ := List.cons.inj hcs
    obtain - | _ := cs
    · cases c with
      | text text' t =>
        simp only [Child.bare, Child.text.injEq] at hc
        obtain ⟨rfl, -⟩ := hc
        refine .branch rfl rfl rfl ?_
        have hkept : [Child.text text' t].filter Child.isSignificant = [.text text' t] :=
          List.filter_cons_of_pos hink
        simp only [Chain.collapse, hkept]
        exact .top
      | container inner => cases inner <;> cases hc
      | _ => cases hc
    · cases hcs

theorem Tower.isParenthesizedArm {top : Literal} {n : Nat} {c : Expr} (h : Tower top (n + 1) c) :
    Rewrite.isParenthesizedArm c = true := by
  cases h with
  | branch hb => simpa [Rewrite.isParenthesizedArm] using hb

theorem build_of_admits [NestingLimit] {D : Nat} {e : Element} {s : Span}
    (hcheck : Chain.checkElement e = .ok ())
    (htest : Chain.condition e = .ok (.literal (.bool true) s)) (hD : NestingLimit.Admits D) :
    (Chain.build D e []).result = .ok (Chain.conditional e (.literal (.bool true) s)
      (Chain.collapse e.children (Chain.origin e)) (.nullAt e.span.after)) :=
  (Chain.Builds.last (Chain.arm_eq_ok.2 ⟨hD, hcheck, htest, rfl⟩)).build_eq

/-- Conditionals that always hold, each in the arm of the one before, with a literal inside. -/
inductive Cascade (top : Literal) : Nat → Expr → Prop where
  | top {s} : Cascade top 0 (.literal top s)
  | arm {n c s t origin span} : Cascade top n c →
      Cascade top (n + 1) (.conditional (.literal (.bool true) s) c (.nullAt t) origin span)

/-- Where a walk may come that deep every one of the branches becomes a conditional. -/
theorem Tower.walks [NestingLimit] {top : Literal} {n : Nat} {c : Expr} (h : Tower top n c) {d : Nat}
    (hd : ∀ k ≤ d + 2 * n, NestingLimit.Admits k) : ∃ k c', Walks d c k c' ∧ Cascade top n c' := by
  induction h generalizing d with
  | top => exact ⟨_, _, .literal, .top⟩
  | @branch n e s hb hcheck htest _ ih =>
    have hone : NestingLimit.Admits (d + 1) := hd _ (by omega)
    have hbuilt := build_of_admits hcheck htest hone
    cases hparen : Rewrite.isParenthesizedArm (Chain.collapse e.children (Chain.origin e)) with
    | false =>
      obtain ⟨k, c', hw, hc⟩ := ih (d := d + 1) fun k hk => hd k (by omega)
      exact ⟨_, _, .standalone hb hbuilt
        (.conditional .literal hone (.bare hparen) hw (.bare rfl) .literal), .arm hc⟩
    | true =>
      obtain ⟨k, c', hw, hc⟩ := ih (d := d + 2) fun k hk => hd k (by omega)
      have htwo : NestingLimit.Admits (d + 1 + 1) := hd _ (by omega)
      exact ⟨_, _, .standalone hb hbuilt
        (.conditional .literal hone (.parenthesized hparen htwo) hw (.bare rfl) .literal), .arm hc⟩

end Rewrite
end BranchMarkup
