import Mathlib
import BranchMarkup.Proofs.Walk
import BranchMarkup.Tree.Parts
/-! What a rewrite leaves behind: no branch element, no sentinel import, and every other statement
with what a rewrite has no business with. -/
namespace BranchMarkup

theorem Child.branchesAll_joinText (t : String) (s : Span) (cs : List Child) :
    Child.branchesAll (Child.joinText (.text t s) cs) = Child.branchesAll cs := by
  unfold Child.joinText
  split <;> simp_all [Child.branchesAll, Child.branches]

namespace Rewrite

mutual

theorem Walks.branches_eq_nil {d e k e'} : Walks d e k e' → e'.branches = []
  | .literal | .ident => rfl
  | .member h | .unary h => h.branches_eq_nil
  | .call h hs => by simp [Expr.branches, h.branches_eq_nil, hs.branches_eq_nil]
  | .binary h h' => by simp [Expr.branches, h.branches_eq_nil, h'.branches_eq_nil]
  | .conditional h _ _ h' _ h'' => by
    simp [Expr.branches, h.branches_eq_nil, h'.branches_eq_nil, h''.branches_eq_nil]
  | .element hb h => h.branches_eq_nil hb
  | .standalone _ _ h => h.branches_eq_nil
  | .fragment h => h.branches_eq_nil

theorem WalksAll.branches_eq_nil {d es k es'} : WalksAll d es k es' → Expr.branchesAll es' = []
  | .nil => rfl
  | .cons h hs => by simp [Expr.branchesAll, h.branches_eq_nil, hs.branches_eq_nil]

/-- The element keeps its name, so it is no branch element if it was none. -/
theorem WalksElement.branches_eq_nil {d e k e'} :
    WalksElement d e k e' → e.branch? = none → e'.branches = []
  | .mk _ _ ha _ hc, hb => by
    simp only [Element.branch?] at hb
    simp [Element.branches, hb, ha.branches_eq_nil, hc.branches_eq_nil]

theorem WalksFragment.branches_eq_nil {d f k f'} : WalksFragment d f k f' → f'.branches = []
  | .mk _ _ _ h => h.branches_eq_nil

theorem WalksAttributes.branches_eq_nil {d as k as'} :
    WalksAttributes d as k as' → Attribute.branchesAll as' = []
  | .nil => rfl
  | .bare h => by simp [Attribute.branchesAll, Attribute.branches, h.branches_eq_nil]
  | .valued h hs => by
    simp [Attribute.branchesAll, Attribute.branches, h.branches_eq_nil, hs.branches_eq_nil]

theorem WalksValue.branches_eq_nil {d v k v'} : WalksValue d v k v' → v'.branches = []
  | .text | .empty => rfl
  | .container h => h.branches_eq_nil
  | .element hb h => h.branches_eq_nil hb
  | .standalone _ _ h => h.branches_eq_nil

theorem WalksChildren.branches_eq_nil {d cs k cs'} :
    WalksChildren d cs k cs' → Child.branchesAll cs' = []
  | .nil => rfl
  | .text h => by rw [Child.branchesAll_joinText, h.branches_eq_nil]
  | .empty h => by simp [Child.branchesAll, Child.branches, h.branches_eq_nil]
  | .container h hs => by
    simp [Child.branchesAll, Child.branches, h.branches_eq_nil, hs.branches_eq_nil]
  | .fragment h hs => by
    simp [Child.branchesAll, Child.branches, h.branches_eq_nil, hs.branches_eq_nil]
  | .element hb h hs => by
    simp [Child.branchesAll, Child.branches, h.branches_eq_nil hb, hs.branches_eq_nil]
  | .chain _ _ h hs => by
    simp [Child.branchesAll, Child.branches, h.branches_eq_nil, hs.branches_eq_nil]

end

end Rewrite

/-- A statement without the expressions in it. -/
inductive Statement.Outline where
  | imports (decl : ImportDecl)
  | binding (kind : BindingKind) (name : Spanned String)
  | exportDefault
  | expr
deriving DecidableEq, Repr

def Statement.outline : Statement → Statement.Outline
  | imports decl => .imports decl
  | binding kind name _ => .binding kind name
  | exportDefault _ => .exportDefault
  | expr _ => .expr

/-- What each statement is, and where. -/
def Program.outlines (p : Program) : List (Spanned Statement.Outline) :=
  p.statements.map fun s => ⟨s.val.outline, s.span⟩

namespace Rewrite

theorem WalksStatement.outline_eq {x k x'} (h : WalksStatement x k x') : x'.outline = x.outline := by
  cases h <;> rfl

theorem WalksStatement.isSentinelImport_eq {x k x'} (h : WalksStatement x k x') :
    x'.isSentinelImport = x.isSentinelImport := by
  cases h <;> rfl

theorem WalksStatement.branches_eq_nil {x k x'} (h : WalksStatement x k x') :
    (x'.expr?.map Expr.branches).getD [] = [] := by
  cases h with
  | imports => rfl
  | binding h | exportDefault h | expr h => exact h.branches_eq_nil

theorem WalksStatements.branches_eq_nil {xs k xs'} (h : WalksStatements xs k xs') :
    (xs'.flatMap fun s => (s.val.expr?.map Expr.branches).getD []) = [] := by
  induction h with
  | nil => rfl
  | removed _ _ ih => exact ih
  | kept _ h _ ih => rw [List.flatMap_cons, h.branches_eq_nil, ih, List.append_nil]

/-- The statements that are left are the others, one for one. -/
theorem WalksStatements.outlines_eq {xs k xs'} (h : WalksStatements xs k xs') :
    xs'.map (fun s => (⟨s.val.outline, s.span⟩ : Spanned Statement.Outline)) =
      (xs.filter fun s => !s.val.isSentinelImport).map fun s => ⟨s.val.outline, s.span⟩ := by
  induction h with
  | nil => rfl
  | removed hx _ ih => rw [ih, List.filter_cons_of_neg (by simp [hx])]
  | kept hx h _ ih =>
    rw [List.map_cons, ih, List.filter_cons_of_pos (by simp [hx]), List.map_cons, h.outline_eq]

theorem WalksStatements.not_isSentinelImport {xs k xs'} (h : WalksStatements xs k xs') :
    ∀ s ∈ xs', s.val.isSentinelImport = false := by
  induction h with
  | nil => simp
  | removed _ _ ih => exact ih
  | kept hx h _ ih =>
    intro s hs
    rcases List.mem_cons.1 hs with rfl | hs
    · exact h.isSentinelImport_eq.trans hx
    · exact ih s hs

end Rewrite

/-- After a rewrite no branch element is listed, none stands anywhere in the tree, and there is no
sentinel import. All other statements are there, in order, each with its kind, its name and its
place. -/
theorem Program.rewrite_leaves_no_branch {p q : Program} {counted : Stats}
    (h : p.rewrite = .ok (q, counted)) :
    q.branches = [] ∧
    (∀ e, q.Has Element.attrs (.element e) → e.branch? = none) ∧
    (∀ s ∈ q.statements, s.val.isSentinelImport = false) ∧
    q.outlines = ({ p with
      statements := p.statements.filter fun s => !s.val.isSentinelImport } : Program).outlines := by
  obtain ⟨-, hw⟩ := Program.walksStatements_of_rewrite h
  have hb : q.branches = [] := hw.branches_eq_nil
  exact ⟨hb, fun e => Program.branch?_eq_none_of_has hb, hw.not_isSentinelImport, hw.outlines_eq⟩

/-- `import { If } from "jsx-conditionals"`, then an element with a chain among its children, whose
first link holds a lone branch as the value of an attribute. -/
def Program.chainSample : Program :=
  let named (s : String) : Spanned String := ⟨s, .zero⟩
  let tested (name : String) : Attribute :=
    ⟨named conditionName, some (.container (some (.ident name .zero)) .zero), .zero⟩
  let lone : Element := ⟨named "If", [tested "b"], [.text "x" .zero], false, .zero⟩
  let first : Element := ⟨named "If", [tested "a"],
    [.element ⟨named "p", [⟨named "title", some (.element lone), .zero⟩], [], true, .zero⟩],
    false, .zero⟩
  let last : Element := ⟨named "Else", [], [.text "y" .zero], false, .zero⟩
  ⟨"a.jsx",
    [⟨.imports ⟨none, none, [⟨named "If", none⟩], named sentinelModule⟩, .ofOffsets 0 38⟩,
      ⟨.exportDefault (.element ⟨named "div", [],
        [.element first, .text "\n" .zero, .element last], false, .zero⟩), .ofOffsets 39 140⟩], []⟩

theorem Program.rewrite_leaves_no_branch_sample :
    ∃ q, chainSample.rewrite = .ok (q, ⟨2, 1, 1⟩) ∧ q.branches = [] ∧
      q.outlines = [⟨.exportDefault, .ofOffsets 39 140⟩] := by
  have hrun : chainSample.rewrite.toOption.any (·.2 = ⟨2, 1, 1⟩) = true := by cbv
  obtain ⟨⟨q, counted⟩, h, hcounted⟩ := exists_ok_of_any hrun
  obtain rfl := of_decide_eq_true hcounted
  obtain ⟨hb, -, -, ho⟩ := rewrite_leaves_no_branch h
  exact ⟨q, h, hb, ho⟩

end BranchMarkup
