import BranchMarkup.Tree.Branches
import BranchMarkup.Rewrite.Error
/-! Every node of a tree, of whatever kind, and what stands below it. -/
namespace BranchMarkup

/-- The attributes that a rewrite looks into: of a branch element that is the condition, if the
branch has one; the others go with the element. -/
def Element.liveAttrs (e : Element) : List Attribute :=
  match e.branch? with
  | none => e.attrs
  | some b => if b.tests then (e.find? conditionName).toList else []

theorem Element.liveAttrs_sublist (e : Element) : e.liveAttrs.Sublist e.attrs := by
  unfold liveAttrs
  split
  · exact List.Sublist.refl _
  · split
    · unfold find?
      rw [← List.head?_filter, ← List.take_one]
      exact (List.take_sublist ..).trans List.filter_sublist
    · exact List.nil_sublist _

theorem Element.liveAttrs_subset (e : Element) : e.liveAttrs ⊆ e.attrs := e.liveAttrs_sublist.subset

inductive TreeNode where
  | expr (e : Expr)
  | element (e : Element)
  | fragment (f : Fragment)
  | attr (a : Attribute)
  | value (v : AttrValue)
  | child (c : Child)

namespace TreeNode

/-- The nodes right below a node, in source order; `attrs` says which attributes of an element are
looked at. -/
def parts (attrs : Element → List Attribute) : TreeNode → List TreeNode
  | expr (.literal ..) | expr (.ident ..) => []
  | expr (.member object _ _) => [expr object]
  | expr (.call callee args _) => expr callee :: args.map expr
  | expr (.unary _ operand _) => [expr operand]
  | expr (.binary _ lhs rhs _) => [expr lhs, expr rhs]
  | expr (.conditional test consequent alternate _ _) =>
    [expr test, expr consequent, expr alternate]
  | expr (.element e) => [element e]
  | expr (.fragment f) => [fragment f]
  | element e => (attrs e).map attr ++ e.children.map child
  | fragment f => f.children.map child
  | attr a => a.value.toList.map value
  | value (.text ..) => []
  | value (.container e _) => e.toList.map expr
  | value (.element e) => [element e]
  | child (.text ..) => []
  | child (.container e _) => e.toList.map expr
  | child (.element e) => [element e]
  | child (.fragment f) => [fragment f]

/-- `n.Within attrs m`: `n` is `m` or stands somewhere below it. -/
inductive Within (attrs : Element → List Attribute) (n : TreeNode) : TreeNode → Prop where
  | self : Within attrs n n
  | part {l m : TreeNode} : l ∈ m.parts attrs → Within attrs n l → Within attrs n m

theorem Within.mono {as bs : Element → List Attribute} (h : ∀ e, as e ⊆ bs e) {n m : TreeNode}
    (hn : n.Within as m) : n.Within bs m := by
  induction hn with
  | self => exact .self
  | @part l m hl _ ih =>
    refine .part ?_ ih
    cases m with
    | element e =>
      simp only [parts, List.mem_append, List.mem_map] at hl ⊢
      exact hl.imp_left fun ⟨a, ha, hl⟩ => ⟨a, h e ha, hl⟩
    | expr e => cases e <;> exact hl
    | value v => cases v <;> exact hl
    | child c => cases c <;> exact hl
    | fragment _ | attr _ => exact hl

/-- Every node of the tree is so. -/
def Throughout (P : TreeNode → Prop) (n : TreeNode) : Prop :=
  ∀ m : TreeNode, m.Within Element.attrs n → P m

theorem throughout_iff {P : TreeNode → Prop} {n : TreeNode} :
    n.Throughout P ↔ P n ∧ ∀ l ∈ n.parts Element.attrs, l.Throughout P := by
  constructor
  · exact fun h => ⟨h n .self, fun l hl m hm => h m (.part hl hm)⟩
  · rintro ⟨hn, hparts⟩ m hm
    cases hm with
    | self => exact hn
    | part hl hm => exact hparts _ hl m hm

theorem Throughout.self {P : TreeNode → Prop} {n : TreeNode} (h : n.Throughout P) : P n := h n .self

theorem Throughout.part {P : TreeNode → Prop} {l n : TreeNode} (h : n.Throughout P)
    (hl : l ∈ n.parts Element.attrs) : l.Throughout P :=
  (throughout_iff.1 h).2 l hl

theorem Throughout.mono {P Q : TreeNode → Prop} {n : TreeNode} (h : n.Throughout P)
    (hPQ : ∀ m, P m → Q m) : n.Throughout Q :=
  fun m hm => hPQ m (h m hm)

theorem sizeOf_part {attrs : Element → List Attribute} (hattrs : ∀ e, attrs e ⊆ e.attrs)
    {l n : TreeNode} (hl : l ∈ n.parts attrs) : sizeOf l < sizeOf n := by
  cases n with
  | expr e =>
    cases e with
    | call callee args =>
      simp only [parts, List.mem_cons, List.mem_map] at hl
      rcases hl with rfl | ⟨a, ha, rfl⟩
      · simp only [expr.sizeOf_spec, Expr.call.sizeOf_spec]
        omega
      · have := List.sizeOf_lt_of_mem ha
        simp only [expr.sizeOf_spec, Expr.call.sizeOf_spec]
        omega
    | literal | ident => contradiction
    | member | unary | element | fragment =>
      obtain rfl := List.mem_singleton.1 hl
      simp +arith
    | binary =>
      simp only [parts, List.mem_cons, List.not_mem_nil, or_false] at hl
      rcases hl with rfl | rfl <;> simp +arith
    | conditional =>
      simp only [parts, List.mem_cons, List.not_mem_nil, or_false] at hl
      rcases hl with rfl | rfl | rfl <;> simp +arith
  | element e =>
    cases e
    simp only [parts, List.mem_append, List.mem_map] at hl
    rcases hl with ⟨a, ha, rfl⟩ | ⟨c, hc, rfl⟩
    · have : sizeOf a < sizeOf _ := List.sizeOf_lt_of_mem (hattrs _ ha)
      dsimp only at this
      simp only [attr.sizeOf_spec, element.sizeOf_spec, Element.mk.sizeOf_spec]
      omega
    · have := List.sizeOf_lt_of_mem hc
      simp only [child.sizeOf_spec, element.sizeOf_spec, Element.mk.sizeOf_spec]
      omega
  | fragment f =>
    cases f
    simp only [parts, List.mem_map] at hl
    obtain ⟨c, hc, rfl⟩ := hl
    have := List.sizeOf_lt_of_mem hc
    simp only [child.sizeOf_spec, fragment.sizeOf_spec, Fragment.mk.sizeOf_spec]
    omega
  | attr a => rcases a with ⟨_, _ | v, _⟩ <;> simp_all [parts]; omega
  | value v => rcases v with _ | ⟨_ | e, _⟩ | _ <;> simp_all [parts]; omega
  | child c => rcases c with _ | ⟨_ | e, _⟩ | _ | _ <;> simp_all [parts]; omega

/-- The node and all that stand below it, in source order. -/
def nodes (attrs : Element → List Attribute) (hattrs : ∀ e, attrs e ⊆ e.attrs) (n : TreeNode) :
    List TreeNode :=
  n :: (n.parts attrs).attach.flatMap fun l => l.val.nodes attrs hattrs
termination_by n
decreasing_by exact sizeOf_part hattrs l.property

section
variable {attrs : Element → List Attribute} {hattrs : ∀ e, attrs e ⊆ e.attrs}

theorem nodes_eq (n : TreeNode) :
    n.nodes attrs hattrs = n :: (n.parts attrs).flatMap (nodes attrs hattrs) := by
  rw [nodes, List.flatMap_subtype (g := nodes attrs hattrs) (fun _ _ => rfl)]
  simp

theorem mem_nodes {m n : TreeNode} : m ∈ n.nodes attrs hattrs ↔ m.Within attrs n := by
  constructor
  · intro h
    induction hn : sizeOf n using Nat.strongRecOn generalizing n with
    | ind k ih =>
      rw [nodes_eq, List.mem_cons, List.mem_flatMap] at h
      rcases h with rfl | ⟨l, hl, hm⟩
      · exact .self
      · exact .part hl (ih _ (hn ▸ sizeOf_part hattrs hl) hm rfl)
  · intro h
    induction h with
    | self =>
      rw [nodes_eq]
      exact List.mem_cons_self
    | part hl _ ih =>
      rw [nodes_eq]
      exact List.mem_cons_of_mem _ (List.mem_flatMap.2 ⟨_, hl, ih⟩)

end

/-- All nodes of the tree. -/
def all : TreeNode → List TreeNode := nodes Element.attrs fun _ => List.Subset.refl _

theorem all_eq (n : TreeNode) : n.all = n :: (n.parts Element.attrs).flatMap all := nodes_eq n

theorem filterMap_all {α : Type} (f : TreeNode → Option α) (n : TreeNode) : n.all.filterMap f =
    (f n).toList ++ (n.parts Element.attrs).flatMap fun l => l.all.filterMap f := by
  rw [all_eq, List.filterMap_cons, List.filterMap_flatMap]
  cases f n <;> rfl

theorem throughout_iff_all {P : TreeNode → Prop} {n : TreeNode} :
    n.Throughout P ↔ ∀ m ∈ n.all, P m :=
  forall_congr' fun _ => imp_congr_left mem_nodes.symm

end TreeNode

/-- `n` stands somewhere in the program. -/
def Program.Has (attrs : Element → List Attribute) (p : Program) (n : TreeNode) : Prop :=
  ∃ s ∈ p.statements, ∃ e, s.val.expr? = some e ∧ n.Within attrs (.expr e)

theorem Program.Has.mono {as bs : Element → List Attribute} (h : ∀ e, as e ⊆ bs e) {p : Program}
    {n : TreeNode} (hn : p.Has as n) : p.Has bs n := by
  obtain ⟨s, hs, e, he, hw⟩ := hn
  exact ⟨s, hs, e, he, hw.mono h⟩

/-! The spans of branch elements that are listed are those of the branch elements that stand in the
tree. -/

theorem Expr.branchesAll_eq (es : List Expr) :
    Expr.branchesAll es = es.flatMap Expr.branches := by
  induction es with
  | nil => rfl
  | cons e es ih => simp only [Expr.branchesAll, List.flatMap_cons, ih]

theorem Attribute.branchesAll_eq (as : List Attribute) :
    Attribute.branchesAll as = as.flatMap Attribute.branches := by
  induction as with
  | nil => rfl
  | cons a as ih => simp only [Attribute.branchesAll, List.flatMap_cons, ih]

theorem Child.branchesAll_eq (cs : List Child) :
    Child.branchesAll cs = cs.flatMap Child.branches := by
  induction cs with
  | nil => rfl
  | cons c cs ih => simp only [Child.branchesAll, List.flatMap_cons, ih]

namespace TreeNode

def branches : TreeNode → List Span
  | expr e => e.branches
  | element e => e.branches
  | fragment f => f.branches
  | attr a => a.branches
  | value v => v.branches
  | child c => c.branches

/-- The span of a node that is itself a branch element. -/
def ownBranch : TreeNode → List Span
  | element e => if e.branch?.isSome then [e.span] else []
  | _ => []

theorem branches_eq (n : TreeNode) :
    n.branches = n.ownBranch ++ (n.parts Element.attrs).flatMap branches := by
  cases n with
  | expr e =>
    cases e <;> simp [parts, branches, ownBranch, Expr.branches, Expr.branchesAll_eq,
      List.flatMap_map]
  | element e =>
    cases e
    simp only [parts, branches, ownBranch, Element.branches, Element.branch?,
      Attribute.branchesAll_eq, Child.branchesAll_eq, List.flatMap_append, List.flatMap_map,
      List.append_assoc]
    rfl
  | fragment f =>
    cases f
    simp [parts, branches, ownBranch, Fragment.branches, Child.branchesAll_eq, List.flatMap_map]
  | attr a =>
    rcases a with ⟨_, _ | v, _⟩ <;> simp [parts, branches, ownBranch, Attribute.branches]
  | value v =>
    rcases v with _ | ⟨_ | e, _⟩ | _ <;> simp [parts, branches, ownBranch, AttrValue.branches]
  | child c =>
    rcases c with _ | ⟨_ | e, _⟩ | _ | _ <;> simp [parts, branches, ownBranch, Child.branches]

theorem ownBranch_subset_of_within {n m : TreeNode} (h : n.Within Element.attrs m) :
    n.ownBranch ⊆ m.branches := by
  induction h with
  | self =>
    rw [branches_eq]
    exact List.subset_append_left _ _
  | part hl _ ih =>
    rw [branches_eq]
    exact fun s hs => List.mem_append_right _ (List.mem_flatMap.2 ⟨_, hl, ih hs⟩)

end TreeNode

/-- A conditional that a rewrite made. -/
def TreeNode.rewritten? : TreeNode → Option Expr
  | expr (.conditional test consequent alternate (some origin) span) =>
    some (.conditional test consequent alternate (some origin) span)
  | _ => none

/-- The conditionals in the tree that a rewrite made, in source order. -/
def TreeNode.conditionals (n : TreeNode) : List Expr := n.all.filterMap rewritten?

theorem TreeNode.conditionals_eq (n : TreeNode) :
    n.conditionals = n.rewritten?.toList ++ (n.parts Element.attrs).flatMap conditionals :=
  n.filterMap_all rewritten?

def Program.conditionals (p : Program) : List Expr :=
  p.statements.flatMap fun s => s.val.expr?.toList.flatMap fun e => (TreeNode.expr e).conditionals

theorem Program.branch?_eq_none_of_has {p : Program} (h : p.branches = []) {e : Element}
    (he : p.Has Element.attrs (.element e)) : e.branch? = none := by
  obtain ⟨s, hs, x, hx, hw⟩ := he
  have hb : x.branches = [] := by
    have := List.flatMap_eq_nil_iff.1 h s hs
    simpa [hx] using this
  have hsub := TreeNode.ownBranch_subset_of_within hw
  simp only [TreeNode.branches, hb, TreeNode.ownBranch] at hsub
  cases hbr : e.branch? with
  | none => rfl
  | some b => simp [hbr] at hsub

end BranchMarkup
