import Mathlib.Algebra.BigOperators.Group.Multiset.Basic
import Mathlib.Tactic.Abel
import BranchMarkup.Proofs.Building
import BranchMarkup.Proofs.Terminal
import BranchMarkup.Parser
import BranchMarkup.Printer.Piece
import BranchMarkup.Tree.Parts
/-! What a rewrite accounts for. Every branch element that a rewrite comes to is owed an entry in its
counts, a conditional if it tests, and a fragment if more than one child of it counts. A rewrite pays
each of these once: what was owed before is there after, or is counted. -/
namespace BranchMarkup

inductive Entry where
  /-- A conditional that stands for a branch. -/
  | conditional (origin : Provenance)
  /-- A fragment that stands for the body of a branch. -/
  | fragment (origin : Provenance)
  /-- An element that opens a chain. -/
  | chain
  /-- A link that continues one. -/
  | link
  /-- An import of the module that is not there at run time. -/
  | sentinel
deriving DecidableEq, Repr

def Branch.entry : Branch → Entry
  | when => .chain
  | elseWhen | otherwise => .link

namespace Chain

/-- A body is made a fragment if more than one child of it counts. -/
def bodyEntries (children : List Child) (origin : Provenance) : List Entry :=
  if 2 ≤ (children.filter Child.isSignificant).length then [.fragment origin] else []

theorem bodyEntries_cases (children : List Child) (origin : Provenance) :
    bodyEntries children origin = [] ∨ bodyEntries children origin = [.fragment origin] := by
  unfold bodyEntries
  split
  · exact .inr rfl
  · exact .inl rfl

def entries (e : Element) (b : Branch) : List Entry :=
  (if b.tests then [.conditional ⟨e.span, b⟩] else []) ++ bodyEntries e.children ⟨e.span, b⟩

end Chain

namespace TreeNode

/-- The entries of a node alone: those that it has, and those that it is owed. -/
def entries : TreeNode → List Entry
  | expr (.conditional _ _ _ (some origin) _) => [.conditional origin]
  | fragment ⟨_, some origin, _⟩ => [.fragment origin]
  | element e =>
    match e.branch? with
    | none => []
    | some b => b.entry :: Chain.entries e b
  | _ => []

/-- The nodes that a rewrite comes to. -/
def live : TreeNode → List TreeNode := nodes Element.liveAttrs Element.liveAttrs_subset

theorem live_eq (n : TreeNode) : n.live = n :: (n.parts Element.liveAttrs).flatMap live := nodes_eq n

def ledger (n : TreeNode) : Multiset Entry := n.live.flatMap entries

def ledgerAll (ns : List TreeNode) : Multiset Entry := (ns.map ledger).sum

@[simp] theorem ledgerAll_nil : ledgerAll [] = 0 := rfl

@[simp] theorem ledgerAll_cons (n : TreeNode) (ns : List TreeNode) :
    ledgerAll (n :: ns) = n.ledger + ledgerAll ns := by
  simp [ledgerAll]

@[simp] theorem ledgerAll_append (ns ms : List TreeNode) :
    ledgerAll (ns ++ ms) = ledgerAll ns + ledgerAll ms := by
  simp [ledgerAll]

theorem ledgerAll_eq_coe (ns : List TreeNode) :
    ledgerAll ns = ((ns.flatMap live).flatMap entries : Multiset Entry) := by
  induction ns with
  | nil => rfl
  | cons n ns ih => rw [List.flatMap_cons, List.flatMap_append, ← Multiset.coe_add, ← ih,
      ledgerAll_cons, ledger]

theorem ledger_eq (n : TreeNode) :
    n.ledger = n.entries + ledgerAll (n.parts Element.liveAttrs) := by
  rw [ledger, live_eq, List.flatMap_cons, ← Multiset.coe_add, ledgerAll_eq_coe]

end TreeNode

open TreeNode (ledgerAll ledgerAll_nil ledgerAll_cons ledgerAll_append ledger_eq)

section
attribute [local simp] TreeNode.entries TreeNode.parts

namespace Expr

variable {s : Span}

@[simp] theorem ledger_literal {v : Literal} : (TreeNode.expr (.literal v s)).ledger = 0 :=
  ledger_eq _

@[simp] theorem ledger_ident {n : String} : (TreeNode.expr (.ident n s)).ledger = 0 := ledger_eq _

@[simp] theorem ledger_nullAt : (TreeNode.expr (.nullAt s)).ledger = 0 := ledger_eq _

@[simp] theorem ledger_member {o : Expr} {p : Spanned String} :
    (TreeNode.expr (.member o p s)).ledger = (TreeNode.expr o).ledger := by
  simp [ledger_eq (.expr (.member ..))]

@[simp] theorem ledger_call {c : Expr} {as : List Expr} :
    (TreeNode.expr (.call c as s)).ledger = (TreeNode.expr c).ledger + ledgerAll (as.map .expr) := by
  simp [ledger_eq (.expr (.call ..))]

@[simp] theorem ledger_unary {op : UnaryOp} {o : Expr} :
    (TreeNode.expr (.unary op o s)).ledger = (TreeNode.expr o).ledger := by
  simp [ledger_eq (.expr (.unary ..))]

@[simp] theorem ledger_binary {op : BinaryOp} {x y : Expr} :
    (TreeNode.expr (.binary op x y s)).ledger =
      (TreeNode.expr x).ledger + (TreeNode.expr y).ledger := by
  simp [ledger_eq (.expr (.binary ..))]

theorem ledger_conditional {t c a : Expr} {p : Option Provenance} :
    (TreeNode.expr (.conditional t c a p s)).ledger = p.toList.map Entry.conditional +
      ((TreeNode.expr t).ledger + ((TreeNode.expr c).ledger + (TreeNode.expr a).ledger)) := by
  cases p <;> simp [ledger_eq (.expr (.conditional ..))]

@[simp] theorem ledger_element {e : Element} :
    (TreeNode.expr (.element e)).ledger = (TreeNode.element e).ledger := by
  simp [ledger_eq (.expr (.element _))]

@[simp] theorem ledger_fragment {f : Fragment} :
    (TreeNode.expr (.fragment f)).ledger = (TreeNode.fragment f).ledger := by
  simp [ledger_eq (.expr (.fragment _))]

end Expr

theorem Element.ledger_of_branch?_eq_none {e : Element} (h : e.branch? = none) :
    (TreeNode.element e).ledger =
      ledgerAll (e.attrs.map .attr) + ledgerAll (e.children.map .child) := by
  simp [ledger_eq (.element e), h, Element.liveAttrs]

theorem Fragment.ledger_mk {cs : List Child} {p : Option Provenance} {s : Span} :
    (TreeNode.fragment ⟨cs, p, s⟩).ledger =
      p.toList.map Entry.fragment + ledgerAll (cs.map .child) := by
  cases p <;> simp [ledger_eq (.fragment _)]

section
variable {name : Spanned String} {s : Span}

@[simp] theorem Attribute.ledger_bare : (TreeNode.attr ⟨name, none, s⟩).ledger = 0 := ledger_eq _

@[simp] theorem Attribute.ledger_valued {v : AttrValue} :
    (TreeNode.attr ⟨name, some v, s⟩).ledger = (TreeNode.value v).ledger := by
  simp [ledger_eq (.attr _)]

@[simp] theorem AttrValue.ledger_text {t : String} : (TreeNode.value (.text t s)).ledger = 0 :=
  ledger_eq _

@[simp] theorem AttrValue.ledger_empty : (TreeNode.value (.container none s)).ledger = 0 :=
  ledger_eq _

@[simp] theorem AttrValue.ledger_container {e : Expr} :
    (TreeNode.value (.container (some e) s)).ledger = (TreeNode.expr e).ledger := by
  simp [ledger_eq (.value (.container ..))]

@[simp] theorem AttrValue.ledger_element {e : Element} :
    (TreeNode.value (.element e)).ledger = (TreeNode.element e).ledger := by
  simp [ledger_eq (.value (.element _))]

@[simp] theorem Child.ledger_text {t : String} : (TreeNode.child (.text t s)).ledger = 0 :=
  ledger_eq _

@[simp] theorem Child.ledger_empty : (TreeNode.child (.container none s)).ledger = 0 := ledger_eq _

@[simp] theorem Child.ledger_container {e : Expr} :
    (TreeNode.child (.container (some e) s)).ledger = (TreeNode.expr e).ledger := by
  simp [ledger_eq (.child (.container ..))]

@[simp] theorem Child.ledger_element {e : Element} :
    (TreeNode.child (.element e)).ledger = (TreeNode.element e).ledger := by
  simp [ledger_eq (.child (.element _))]

@[simp] theorem Child.ledger_fragment {f : Fragment} :
    (TreeNode.child (.fragment f)).ledger = (TreeNode.fragment f).ledger := by
  simp [ledger_eq (.child (.fragment _))]

end

end

def Stats.ledger (k : Stats) : Multiset Entry :=
  .replicate k.chains .chain + .replicate k.branches .link +
    .replicate k.importsRemoved .sentinel

@[simp] theorem Stats.ledger_zero : (0 : Stats).ledger = 0 := rfl

@[simp] theorem Stats.ledger_add (k l : Stats) : (k + l).ledger = k.ledger + l.ledger := by
  simp only [ledger, Stats.add_def, Multiset.replicate_add]
  abel

/-! Children that are dropped, put together or taken as links -/

namespace Child

theorem ledger_of_not_significant {c : Child} (h : c.isSignificant = false) :
    (TreeNode.child c).ledger = 0 := by
  cases c with
  | text => exact ledger_text
  | container e =>
    cases e with
    | none => exact ledger_empty
    | some e => cases h
  | element | fragment => cases h

theorem ledgerAll_filter (cs : List Child) :
    ledgerAll ((cs.filter isSignificant).map .child) = ledgerAll (cs.map .child) := by
  induction cs with
  | nil => rfl
  | cons c cs ih =>
    cases hc : c.isSignificant with
    | true => simp [hc, ih]
    | false => simp [hc, ih, ledger_of_not_significant hc]

theorem ledgerAll_joinText (s : String) (span : Span) (cs : List Child) :
    ledgerAll ((joinText (.text s span) cs).map .child) = ledgerAll (cs.map .child) := by
  unfold joinText
  split
  · next heq =>
    cases heq
    simp
  · simp

theorem ledger_alone (c : Child) : (TreeNode.expr c.alone).ledger = (TreeNode.child c).ledger := by
  cases c with
  | container e => cases e <;> simp [alone]
  | _ => simp [alone]

end Child

namespace Chain

theorem ledger_collapse (cs : List Child) (o : Provenance) :
    (TreeNode.expr (collapse cs o)).ledger = bodyEntries cs o + ledgerAll (cs.map .child) := by
  rw [← Child.ledgerAll_filter]
  unfold collapse bodyEntries
  split
  · next h => simp [h]
  · next c h => simp [h, Child.ledger_alone]
  · next hnone hone =>
    have hmany : 2 ≤ (cs.filter Child.isSignificant).length := by
      match hkept : cs.filter Child.isSignificant with
      | [] => exact absurd hkept hnone
      | [c] => exact absurd hkept (hone c)
      | _ :: _ :: _ => simp
    rw [if_pos hmany, Expr.ledger_fragment, Fragment.ledger_mk]
    rfl

theorem ledger_condition {e : Element} {b : Branch} {test : Expr} (hb : e.branch? = some b)
    (htests : b.tests = true) (h : condition e = .ok test) :
    ledgerAll (e.liveAttrs.map .attr) = (TreeNode.expr test).ledger := by
  simp only [Element.liveAttrs, hb, htests, ↓reduceIte]
  unfold condition at h
  split at h <;> cases h
  · next heq => simp [heq]
  · next heq => simp [heq]

theorem ledger_element {e : Element} {b : Branch} (hb : e.branch? = some b) :
    (TreeNode.element e).ledger = {b.entry} + (entries e b + (ledgerAll (e.liveAttrs.map .attr) +
      ledgerAll (e.children.map .child))) := by
  rw [ledger_eq]
  simp only [TreeNode.entries, hb, TreeNode.parts, ledgerAll_append]
  rw [← Multiset.cons_coe, ← Multiset.singleton_add, add_assoc]

theorem ledger_conditional {e : Element} {b : Branch} {test : Expr} (alternate : Expr)
    (hb : e.branch? = some b) (htests : b.tests = true) (htest : condition e = .ok test) :
    (TreeNode.element e).ledger + (TreeNode.expr alternate).ledger = {b.entry} +
      (TreeNode.expr (conditional e test (collapse e.children (origin e)) alternate)).ledger := by
  rw [ledger_element hb, conditional, Expr.ledger_conditional, ledger_condition hb htests htest]
  simp only [ledger_collapse, origin, hb, Option.getD_some, entries, htests, ↓reduceIte,
    ← Multiset.coe_add, Option.toList, List.map_cons, List.map_nil]
  abel

/-- What the links of a chain are owed is in the conditional of the chain, or is counted. -/
theorem Builds.ledger {d e links built} (h : Builds d e links built) :
    ∀ b, e.branch? = some b → b.tests = true → Links links →
      ledgerAll ((e :: links).map .element) =
        {b.entry} + .replicate links.length .link + (TreeNode.expr built).ledger := by
  induction h with
  | @last _ e _ _ ha =>
    intro b hb htests _
    obtain ⟨-, -, ht, rfl⟩ := arm_eq_ok.1 ha
    have hfirst := ledger_conditional (.nullAt e.span.after) hb htests ht
    simpa using hfirst
  | @next _ e link links _ _ alternate ha hlink _ ih =>
    intro b hb htests hlinks
    obtain ⟨-, -, ht, rfl⟩ := arm_eq_ok.1 ha
    have hlinks : Links links := by
      cases hlinks with
      | next _ h => exact h
      | last h => exact .none
    have hrest := ih _ hlink rfl hlinks
    have hfirst := ledger_conditional alternate hb htests ht
    calc ledgerAll ((e :: link :: links).map .element)
        = .replicate (link :: links).length .link +
          ((TreeNode.element e).ledger + (TreeNode.expr alternate).ledger) := by
          rw [List.map_cons, ledgerAll_cons, hrest, List.length_cons, Multiset.replicate_succ,
            ← Multiset.singleton_add, Branch.entry]
          abel
      _ = _ := by
          rw [hfirst]
          abel
  | @otherwise _ e link links _ _ alternate ha hlink hlast =>
    intro b hb htests hlinks
    obtain ⟨-, -, ht, rfl⟩ := arm_eq_ok.1 ha
    obtain ⟨-, hbody⟩ := lastArm_eq_ok.1 hlast
    cases hlinks with
    | next h _ => exact absurd h hlink
    | last hlink =>
      have hfirst := ledger_conditional alternate hb htests ht
      have hlast : (TreeNode.element link).ledger =
          {Entry.link} + (TreeNode.expr alternate).ledger := by
        rw [ledger_element hlink, ← hbody, ledger_collapse]
        simp [entries, Branch.tests, Branch.entry, Element.liveAttrs, hlink]
      calc ledgerAll ((e :: [link]).map .element)
          = {Entry.link} + ((TreeNode.element e).ledger + (TreeNode.expr alternate).ledger) := by
            simp only [List.map_cons, List.map_nil, ledgerAll_cons, ledgerAll_nil, hlast]
            abel
        _ = _ := by
            rw [hfirst]
            simp only [List.length_singleton, Multiset.replicate_one]
            abel

theorem ledger_takeLinks (cs : List Child) :
    ledgerAll (cs.map .child) =
      ledgerAll ((takeLinks cs).1.map .element) + ledgerAll ((takeLinks cs).2.map .child) := by
  fun_induction takeLinks cs with
  | case1 => rfl
  | case2 e cs h links left heq ih =>
    rw [heq] at ih
    simp [ih, add_assoc]
  | case3 e cs h => simp
  | case4 => simp
  | case5 => simp
  | case6 c cs _ h links left heq ih =>
    rw [heq] at ih
    have hc : (TreeNode.child c).ledger = 0 := Child.ledger_of_not_significant (by simpa using h)
    simp [ih, hc]

end Chain

/-! Walking -/

namespace Rewrite

theorem ledger_chain {d : Nat} {e : Element} {links : List Element} {built : Expr}
    (hb : e.branch? = some .when) (hlinks : Chain.Links links)
    (h : (Chain.build d e links).result = .ok built) :
    ledgerAll ((e :: links).map .element) =
      (chainStats links.length).ledger + (TreeNode.expr built).ledger := by
  rw [(Chain.builds_of_build h).ledger _ hb rfl hlinks, Stats.ledger]
  simp [chainStats, Branch.entry]

theorem ledger_standalone {d : Nat} {e : Element} {built : Expr} (hb : e.branch? = some .when)
    (h : (Chain.build d e []).result = .ok built) :
    (TreeNode.element e).ledger = (chainStats 0).ledger + (TreeNode.expr built).ledger := by
  have := ledger_chain hb .none h
  simpa using this

mutual

theorem Walks.ledger {d e k e'} :
    Walks d e k e' → (TreeNode.expr e).ledger = (TreeNode.expr e').ledger + k.ledger
  | .literal | .ident => by simp
  | .member h | .unary h => by simpa using h.ledger
  | .call h hs => by
    simp only [Expr.ledger_call, h.ledger, hs.ledger, Stats.ledger_add]
    abel
  | .binary h h' => by
    simp only [Expr.ledger_binary, h.ledger, h'.ledger, Stats.ledger_add]
    abel
  | .conditional h _ _ h' _ h'' => by
    simp only [Expr.ledger_conditional, h.ledger, h'.ledger, h''.ledger, Stats.ledger_add]
    abel
  | .element hb h => by simpa using h.ledger hb
  | .standalone hb hbuilt h => by
    rw [Expr.ledger_element, ledger_standalone hb hbuilt, h.ledger, Stats.ledger_add]
    abel
  | .fragment h => by simpa using h.ledger

theorem WalksAll.ledger {d es k es'} :
    WalksAll d es k es' → ledgerAll (es.map .expr) = ledgerAll (es'.map .expr) + k.ledger
  | .nil => by simp
  | .cons h hs => by
    simp only [List.map_cons, ledgerAll_cons, h.ledger, hs.ledger, Stats.ledger_add]
    abel

theorem WalksElement.ledger {d e k e'} : WalksElement d e k e' → e.branch? = none →
    (TreeNode.element e).ledger = (TreeNode.element e').ledger + k.ledger
  | @WalksElement.mk _ _ n _ _ c s _ _ as' cs' _ _ ha _ hc, hb => by
    rw [Element.ledger_of_branch?_eq_none hb,
      Element.ledger_of_branch?_eq_none (e := ⟨n, as', cs', c, s⟩) hb, ha.ledger, hc.ledger,
      Stats.ledger_add]
    abel

theorem WalksFragment.ledger {d f k f'} : WalksFragment d f k f' →
    (TreeNode.fragment f).ledger = (TreeNode.fragment f').ledger + k.ledger
  | .mk _ _ _ h => by
    rw [Fragment.ledger_mk, Fragment.ledger_mk, h.ledger, add_assoc]

theorem WalksAttributes.ledger {d as k as'} : WalksAttributes d as k as' →
    ledgerAll (as.map .attr) = ledgerAll (as'.map .attr) + k.ledger
  | .nil => by simp
  | .bare hs => by simpa using hs.ledger
  | .valued h hs => by
    simp only [List.map_cons, ledgerAll_cons, Attribute.ledger_valued, h.ledger, hs.ledger,
      Stats.ledger_add]
    abel

theorem WalksValue.ledger {d v k v'} :
    WalksValue d v k v' → (TreeNode.value v).ledger = (TreeNode.value v').ledger + k.ledger
  | .text | .empty => by simp
  | .container h => by simpa using h.ledger
  | .element hb h => by simpa using h.ledger hb
  | .standalone hb hbuilt h => by
    rw [AttrValue.ledger_element, ledger_standalone hb hbuilt, h.ledger, Stats.ledger_add,
      AttrValue.ledger_container]
    abel

theorem WalksChildren.ledger {d cs k cs'} : WalksChildren d cs k cs' →
    ledgerAll (cs.map .child) = ledgerAll (cs'.map .child) + k.ledger
  | .nil => by simp
  | .text h => by
    rw [Child.ledgerAll_joinText]
    simpa using h.ledger
  | .empty h => by simpa using h.ledger
  | .container h hs => by
    simp only [List.map_cons, ledgerAll_cons, Child.ledger_container, h.ledger, hs.ledger,
      Stats.ledger_add]
    abel
  | .fragment h hs => by
    simp only [List.map_cons, ledgerAll_cons, Child.ledger_fragment, h.ledger, hs.ledger,
      Stats.ledger_add]
    abel
  | .element hb h hs => by
    simp only [List.map_cons, ledgerAll_cons, Child.ledger_element, h.ledger hb, hs.ledger,
      Stats.ledger_add]
    abel
  | @WalksChildren.chain _ _ e cs _ _ _ _ _ hb hbuilt h hs => by
    have hchain := ledger_chain hb (Chain.links_takeLinks cs) hbuilt
    rw [List.map_cons, ledgerAll_cons] at hchain
    rw [List.map_cons, ledgerAll_cons, Child.ledger_element, Chain.ledger_takeLinks cs, ← add_assoc,
      hchain, h.ledger, hs.ledger]
    simp only [List.map_cons, ledgerAll_cons, Child.ledger_container, Stats.ledger_add]
    abel

end

theorem WalksStatement.ledger {x k x'} (h : WalksStatement x k x') :
    ledgerAll (x.expr?.toList.map .expr) = ledgerAll (x'.expr?.toList.map .expr) + k.ledger := by
  cases h with
  | imports => rfl
  | binding h | exportDefault h | expr h => simpa [Statement.expr?] using h.ledger

end Rewrite

namespace Program

/-- The expressions of the statements, as nodes. -/
def roots (p : Program) : List TreeNode :=
  p.statements.flatMap fun s => s.val.expr?.toList.map .expr

theorem has_iff {attrs : Element → List Attribute} {p : Program} {n : TreeNode} :
    p.Has attrs n ↔ ∃ r ∈ p.roots, n.Within attrs r := by
  simp only [Has, roots, List.mem_flatMap, List.mem_map, Option.mem_toList]
  constructor
  · rintro ⟨s, hs, e, he, hn⟩
    exact ⟨_, ⟨s, hs, e, he, rfl⟩, hn⟩
  · rintro ⟨_, ⟨s, hs, e, he, rfl⟩, hn⟩
    exact ⟨s, hs, e, he, hn⟩

/-- The imports that a rewrite removes. -/
def sentinels (p : Program) : Nat := p.statements.countP (·.val.isSentinelImport)

def ledger (p : Program) : Multiset Entry :=
  ledgerAll p.roots + .replicate p.sentinels .sentinel

/-- Nothing that a program is owed is lost in a rewrite, and nothing is there twice. -/
theorem ledger_of_rewrite {p q : Program} {counted : Stats} (h : p.rewrite = .ok (q, counted)) :
    p.ledger = q.ledger + counted.ledger := by
  obtain ⟨-, hw⟩ := walksStatements_of_rewrite h
  clear h
  unfold ledger roots sentinels
  generalize p.statements = xs, q.statements = xs' at hw
  induction hw with
  | nil => rfl
  | @removed x xs k xs' hx _ ih =>
    have hone : (⟨0, 0, 1⟩ : Stats).ledger = {.sentinel} := rfl
    rw [List.flatMap_cons, Rewrite.expr?_of_isSentinelImport hx, List.countP_cons_of_pos (by exact hx),
      Multiset.replicate_succ, ← Multiset.singleton_add, Stats.ledger_add, hone]
    calc ledgerAll _ + ({.sentinel} + Multiset.replicate _ .sentinel)
        = {.sentinel} + (ledgerAll (xs.flatMap fun s => s.val.expr?.toList.map .expr) +
            Multiset.replicate _ .sentinel) := add_left_comm ..
      _ = _ := by
        rw [ih]
        abel
  | @kept x xs k l v xs' hx h _ ih =>
    have hx' : v.isSentinelImport = false := by rw [h.isSentinelImport_eq, hx]
    rw [List.flatMap_cons, List.flatMap_cons, ledgerAll_append, ledgerAll_append, h.ledger,
      Stats.ledger_add, List.countP_cons_of_neg (by simp [hx]),
      List.countP_cons_of_neg (by simp [hx'])]
    calc _ = ledgerAll (v.expr?.toList.map .expr) + k.ledger +
          (ledgerAll (xs.flatMap fun s => s.val.expr?.toList.map .expr) +
            Multiset.replicate _ .sentinel) := add_assoc ..
      _ = _ := by
        rw [ih]
        abel

end Program

/-! What was owed, read off the nodes themselves -/

namespace TreeNode

/-- The branch that a node stands for. -/
def mark? : TreeNode → Option (MappingKind × Provenance)
  | expr (.conditional _ _ _ origin _) => origin.map (.conditional, ·)
  | fragment ⟨_, origin, _⟩ => origin.map (.fragment, ·)
  | _ => none

/-- The branch element that a node is. -/
def link? : TreeNode → Option Provenance
  | element e => e.branch?.map (⟨e.span, ·⟩)
  | _ => none

end TreeNode

def Entry.mark? : Entry → Option (MappingKind × Provenance)
  | conditional o => some (.conditional, o)
  | fragment o => some (.fragment, o)
  | chain | link | sentinel => none

namespace TreeNode

theorem filterMap_mark?_entries {n : TreeNode} (h : n.link? = none) :
    n.entries.filterMap Entry.mark? = n.mark?.toList := by
  cases n with
  | expr e =>
    cases e with
    | conditional t c a p => cases p <;> rfl
    | _ => rfl
  | fragment f =>
    obtain ⟨cs, p, s⟩ := f
    cases p <;> rfl
  | element e =>
    simp only [link?, Option.map_eq_none_iff] at h
    simp [entries, h, mark?]
  | _ => rfl

theorem entries_of_link? {n : TreeNode} {o : Provenance} (h : n.link? = some o) :
    ∃ e, n = .element e ∧ n.entries = o.branch.entry ::
      ((if o.branch.tests then [.conditional o] else []) ++ Chain.bodyEntries e.children o) := by
  cases n with
  | element e =>
    obtain ⟨b, hb, rfl⟩ := Option.map_eq_some_iff.1 h
    exact ⟨e, rfl, by simp [entries, hb, Chain.entries]⟩
  | _ => cases h

theorem count_entries_of_not_link {n : TreeNode} (h : n.link? = none) :
    n.entries.count .chain = 0 ∧ n.entries.count .link = 0 ∧ n.entries.count .sentinel = 0 := by
  cases n with
  | expr e =>
    cases e with
    | conditional t c a p => cases p <;> exact ⟨rfl, rfl, rfl⟩
    | _ => exact ⟨rfl, rfl, rfl⟩
  | fragment f =>
    obtain ⟨cs, p, s⟩ := f
    cases p <;> exact ⟨rfl, rfl, rfl⟩
  | element e =>
    simp only [link?, Option.map_eq_none_iff] at h
    simp [entries, h]
  | _ => exact ⟨rfl, rfl, rfl⟩

theorem count_flatMap_entries (ns : List TreeNode) :
    (ns.flatMap entries).count .chain = (ns.filterMap link?).countP (·.branch = .when) ∧
      (ns.flatMap entries).count .link = (ns.filterMap link?).countP (·.branch ≠ .when) ∧
      (ns.flatMap entries).count .sentinel = 0 := by
  induction ns with
  | nil => exact ⟨rfl, rfl, rfl⟩
  | cons n ns ih =>
    rw [List.flatMap_cons, List.count_append, List.count_append, List.count_append, ih.1, ih.2.1,
      ih.2.2]
    cases h : n.link? with
    | none =>
      obtain ⟨hchain, hlink, hsentinel⟩ := count_entries_of_not_link h
      rw [hchain, hlink, hsentinel, List.filterMap_cons_none h, Nat.zero_add, Nat.zero_add]
      exact ⟨rfl, rfl, rfl⟩
    | some o =>
      obtain ⟨e, -, heq⟩ := entries_of_link? h
      rw [heq, List.filterMap_cons_some h, List.countP_cons, List.countP_cons]
      rcases Chain.bodyEntries_cases e.children o with hbody | hbody <;> rw [hbody] <;>
        cases o.branch <;> simp [Branch.entry, Branch.tests, Nat.add_comm]

theorem live_eq_all {n : TreeNode} (h : n.Throughout (·.link? = none)) : n.live = n.all := by
  induction hn : sizeOf n using Nat.strongRecOn generalizing n with
  | ind k ih =>
    have hparts : n.parts Element.liveAttrs = n.parts Element.attrs := by
      cases n with
      | element e =>
        have he := h.self
        simp only [link?, Option.map_eq_none_iff] at he
        simp only [parts, Element.liveAttrs, he]
      | expr e => cases e <;> rfl
      | value v => cases v <;> rfl
      | child c => cases c <;> rfl
      | fragment | attr => rfl
    rw [live_eq, all_eq, hparts]
    congr 1
    apply List.flatMap_congr
    intro l hl
    exact ih _ (hn ▸ sizeOf_part (fun _ => List.Subset.refl _) hl) (h.part hl) rfl

end TreeNode

namespace Program

/-- The branch elements that a rewrite comes to. -/
def links (p : Program) : List Provenance := (p.roots.flatMap TreeNode.live).filterMap TreeNode.link?

/-- The branches that nodes of the program stand for. -/
def marks (p : Program) : List (MappingKind × Provenance) :=
  (p.roots.flatMap TreeNode.all).filterMap TreeNode.mark?

theorem not_link_of_rewrite {p q : Program} {counted : Stats} (h : p.rewrite = .ok (q, counted)) :
    ∀ r ∈ q.roots, r.Throughout (·.link? = none) := by
  intro r hr n hn
  have hb : q.branches = [] := (walksStatements_of_rewrite h).2.branches_eq_nil
  cases n with
  | element e => simp [TreeNode.link?, branch?_eq_none_of_has hb (has_iff.2 ⟨r, hr, hn⟩)]
  | _ => rfl

theorem links_eq_nil_of_rewrite {p q : Program} {counted : Stats}
    (h : p.rewrite = .ok (q, counted)) : q.links = [] := by
  rw [links, List.filterMap_eq_nil_iff]
  intro n hn
  obtain ⟨r, hr, hn⟩ := List.mem_flatMap.1 hn
  exact not_link_of_rewrite h r hr n
    ((TreeNode.mem_nodes.1 hn).mono Element.liveAttrs_subset)

theorem sentinels_eq_zero_of_rewrite {p q : Program} {counted : Stats}
    (h : p.rewrite = .ok (q, counted)) : q.sentinels = 0 := by
  rw [sentinels, List.countP_eq_zero]
  intro s hs
  simp [(walksStatements_of_rewrite h).2.not_isSentinelImport s hs]

theorem count_ledger (p : Program) :
    p.ledger.count .chain = p.links.countP (·.branch = .when) ∧
      p.ledger.count .link = p.links.countP (·.branch ≠ .when) ∧
      p.ledger.count .sentinel = p.sentinels := by
  obtain ⟨hchain, hlink, hsentinel⟩ :=
    TreeNode.count_flatMap_entries (p.roots.flatMap TreeNode.live)
  simp only [ledger, TreeNode.ledgerAll_eq_coe, Multiset.count_add, Multiset.coe_count,
    Multiset.count_replicate, hchain, hlink, hsentinel, links]
  simp

end Program

theorem Entry.filterMap_mark?_replicate {x : Entry} (h : x.mark? = none) (n : Nat) :
    (Multiset.replicate n x).filterMap Entry.mark? = 0 := by
  rw [← Multiset.coe_replicate, Multiset.filterMap_coe, List.filterMap_replicate_of_none h]
  rfl

theorem Stats.filterMap_mark?_ledger (k : Stats) : k.ledger.filterMap Entry.mark? = 0 := by
  simp only [ledger, Multiset.filterMap_add]
  rw [Entry.filterMap_mark?_replicate rfl, Entry.filterMap_mark?_replicate rfl,
    Entry.filterMap_mark?_replicate rfl]
  rfl

theorem Stats.count_ledger (k : Stats) : k.ledger.count .chain = k.chains ∧
    k.ledger.count .link = k.branches ∧ k.ledger.count .sentinel = k.importsRemoved := by
  simp [ledger, Multiset.count_replicate]

namespace Program

theorem filterMap_mark?_ledger (p : Program) : p.ledger.filterMap Entry.mark? =
    (((p.roots.flatMap TreeNode.live).flatMap TreeNode.entries).filterMap Entry.mark? :
      List (MappingKind × Provenance)) := by
  rw [ledger, Multiset.filterMap_add, Entry.filterMap_mark?_replicate rfl, add_zero,
    TreeNode.ledgerAll_eq_coe, Multiset.filterMap_coe]

theorem counted_of_rewrite {p q : Program} {counted : Stats} (h : p.rewrite = .ok (q, counted)) :
    counted.chains = p.links.countP (·.branch = .when) ∧
      counted.branches = p.links.countP (·.branch ≠ .when) ∧
      counted.importsRemoved = p.sentinels := by
  have count (x : Entry) : p.ledger.count x = q.ledger.count x + counted.ledger.count x := by
    rw [ledger_of_rewrite h, Multiset.count_add]
  have hq := q.count_ledger
  rw [links_eq_nil_of_rewrite h, sentinels_eq_zero_of_rewrite h] at hq
  refine ⟨?_, ?_, ?_⟩
  · rw [← p.count_ledger.1, count, hq.1, counted.count_ledger.1, List.countP_nil, Nat.zero_add]
  · rw [← p.count_ledger.2.1, count, hq.2.1, counted.count_ledger.2.1, List.countP_nil,
      Nat.zero_add]
  · rw [← p.count_ledger.2.2, count, hq.2.2, counted.count_ledger.2.2, Nat.zero_add]

theorem marks_of_rewrite {p q : Program} {counted : Stats} (h : p.rewrite = .ok (q, counted)) :
    q.marks.Perm (((p.roots.flatMap TreeNode.live).flatMap TreeNode.entries).filterMap
      Entry.mark?) := by
  have hentries (ns : List TreeNode) (hns : ∀ r ∈ ns, r.Throughout (·.link? = none)) :
      ((ns.flatMap TreeNode.live).flatMap TreeNode.entries).filterMap Entry.mark? =
        (ns.flatMap TreeNode.all).filterMap TreeNode.mark? := by
    rw [List.flatMap_congr fun r hr => TreeNode.live_eq_all (hns r hr), List.filterMap_flatMap,
      List.filterMap_eq_flatMap_toList TreeNode.mark?]
    apply List.flatMap_congr
    intro n hn
    obtain ⟨r, hr, hn⟩ := List.mem_flatMap.1 hn
    exact TreeNode.filterMap_mark?_entries (hns r hr n (TreeNode.mem_nodes.1 hn))
  have hmarks := congrArg (Multiset.filterMap Entry.mark?) (ledger_of_rewrite h)
  rw [Multiset.filterMap_add, counted.filterMap_mark?_ledger, add_zero, filterMap_mark?_ledger,
    filterMap_mark?_ledger, Multiset.coe_eq_coe, hentries _ (not_link_of_rewrite h)] at hmarks
  exact hmarks.symm

/-- The branches that nodes which a rewrite comes to stand for already. -/
def liveMarks (p : Program) : List (MappingKind × Provenance) :=
  (p.roots.flatMap TreeNode.live).filterMap TreeNode.mark?

/-- Of the marks that nodes have and are owed, the conditionals: those they have, and one for every
branch element that tests. -/
theorem conditionals_owed (ns : List TreeNode) :
    (((ns.flatMap TreeNode.entries).filterMap Entry.mark?).filter (·.1 = .conditional)).Perm
      ((ns.filterMap TreeNode.mark?).filter (·.1 = .conditional) ++
        ((ns.filterMap TreeNode.link?).filter (·.branch.tests)).map (.conditional, ·)) := by
  induction ns with
  | nil => exact .refl _
  | cons n ns ih =>
    rw [List.flatMap_cons, List.filterMap_append, List.filter_append]
    cases h : n.link? with
    | none =>
      have hmark : (n :: ns).filterMap TreeNode.mark? =
          n.mark?.toList ++ ns.filterMap TreeNode.mark? := by
        rw [List.filterMap_cons]
        cases n.mark? <;> rfl
      rw [TreeNode.filterMap_mark?_entries h, List.filterMap_cons_none h, hmark,
        List.filter_append, List.append_assoc]
      exact ih.append_left _
    | some o =>
      obtain ⟨e, rfl, heq⟩ := TreeNode.entries_of_link? h
      have hown : (((TreeNode.element e).entries.filterMap Entry.mark?).filter
          (·.1 = .conditional)) = if o.branch.tests then [(.conditional, o)] else [] := by
        rw [heq]
        rcases Chain.bodyEntries_cases e.children o with hbody | hbody <;> rw [hbody] <;>
          cases o.branch <;> rfl
      rw [hown, List.filterMap_cons_some h, List.filterMap_cons_none rfl, List.filter_cons]
      split
      · exact (ih.cons _).trans List.perm_middle.symm
      · exact ih

theorem mem_of_mem_owed {ns : List TreeNode} {m : MappingKind × Provenance}
    (hm : m ∈ (ns.flatMap TreeNode.entries).filterMap Entry.mark?) :
    m ∈ ns.filterMap TreeNode.mark? ∨ m.2 ∈ ns.filterMap TreeNode.link? := by
  rw [List.filterMap_flatMap, List.mem_flatMap] at hm
  obtain ⟨n, hn, hm⟩ := hm
  cases h : n.link? with
  | none =>
    rw [TreeNode.filterMap_mark?_entries h, Option.mem_toList] at hm
    exact .inl (List.mem_filterMap.2 ⟨n, hn, hm⟩)
  | some o =>
    obtain ⟨e, -, heq⟩ := TreeNode.entries_of_link? h
    have hsame : m.2 = o := by
      revert m
      rw [heq]
      rcases Chain.bodyEntries_cases e.children o with hbody | hbody <;> rw [hbody] <;>
        cases o.branch <;> simp [Branch.entry, Branch.tests, Entry.mark?, or_imp, forall_and]
    exact .inr (List.mem_filterMap.2 ⟨n, hn, hsame ▸ h⟩)

/-- The conditionals of a rewritten program that stand for branches: those there were where the
rewrite came, and one for every branch element that tests. -/
theorem conditionals_of_rewrite {p q : Program} {counted : Stats}
    (h : p.rewrite = .ok (q, counted)) :
    (q.marks.filter (·.1 = .conditional)).Perm (p.liveMarks.filter (·.1 = .conditional) ++
      (p.links.filter (·.branch.tests)).map (.conditional, ·)) :=
  ((marks_of_rewrite h).filter _).trans (conditionals_owed _)

/-- A program without marks has, after a rewrite, a conditional for every branch element that tests
and is come to, and marks for no others. -/
theorem marks_of_rewrite_unmarked {p q : Program} {counted : Stats}
    (h : p.rewrite = .ok (q, counted)) (hp : ∀ r ∈ p.roots, r.Throughout (·.mark? = none)) :
    (q.marks.filter (·.1 = .conditional)).Perm
        ((p.links.filter (·.branch.tests)).map (.conditional, ·)) ∧
      ∀ m ∈ q.marks, m.2 ∈ p.links := by
  have hlive : p.liveMarks = [] := by
    rw [liveMarks, List.filterMap_eq_nil_iff]
    intro n hn
    obtain ⟨r, hr, hn⟩ := List.mem_flatMap.1 hn
    exact hp r hr n ((TreeNode.mem_nodes.1 hn).mono Element.liveAttrs_subset)
  constructor
  · have hconditionals := conditionals_of_rewrite h
    rwa [hlive] at hconditionals
  · intro m hm
    rcases mem_of_mem_owed ((marks_of_rewrite h).mem_iff.1 hm) with hm | hm
    · exact absurd (hlive ▸ hm : m ∈ []) List.not_mem_nil
    · exact hm

/-- Every branch element outside the attributes that go with their branch is accounted for once: an
`If` as a chain, an `ElseIf` or `Else` as a link of one, and each that tests by one conditional of
its own in the result, beside those there were. -/
theorem accounts_of_rewrite {p q : Program} {counted : Stats} (h : p.rewrite = .ok (q, counted)) :
    counted.chains = p.links.countP (·.branch = .when) ∧
    counted.branches =
      p.links.countP (·.branch = .elseWhen) + p.links.countP (·.branch = .otherwise) ∧
    counted.importsRemoved = p.statements.countP (·.val.isSentinelImport) ∧
    (q.marks.filter (·.1 = .conditional)).Perm (p.liveMarks.filter (·.1 = .conditional) ++
      (p.links.filter (·.branch.tests)).map (.conditional, ·)) := by
  obtain ⟨hchains, hbranches, himports⟩ := counted_of_rewrite h
  refine ⟨hchains, ?_, himports, conditionals_of_rewrite h⟩
  rw [hbranches]
  induction p.links with
  | nil => rfl
  | cons o os ih =>
    simp only [List.countP_cons, ih]
    cases o.branch <;> simp <;> omega

/-- Two chains, one in the last branch of the other; the `If` in `k` goes with its branch. -/
def accountsSample : String :=
  "import \"jsx-conditionals\"; <p><If condition k=<If /> /><ElseIf condition=\x7ba\x7d />" ++
    "<Else><If condition>b</If></Else></p>"

theorem accounts_of_rewrite_sample : ∃ p q, parse "a.jsx" accountsSample = .ok p ∧
    p.rewrite = .ok (q, ⟨2, 2, 1⟩) ∧ p.branches.length = 5 ∧
    p.links.countP (·.branch = .when) = 2 ∧
    p.links.countP (·.branch = .elseWhen) + p.links.countP (·.branch = .otherwise) = 2 := by
  have h : (parse "a.jsx" accountsSample).toOption.any (fun p => p.branches.length = 5 ∧
      p.rewrite.toOption.any fun r => r.2 = ⟨2, 2, 1⟩) = true := by
    decide +kernel
  obtain ⟨p, hp, h⟩ := exists_ok_of_any h
  obtain ⟨hbranches, h⟩ := of_decide_eq_true h
  obtain ⟨⟨q, counted⟩, hr, hcounted⟩ := exists_ok_of_any h
  obtain rfl := of_decide_eq_true hcounted
  obtain ⟨hchains, hlinks, -⟩ := accounts_of_rewrite hr
  exact ⟨p, q, hp, hr, hbranches, hchains.symm, hlinks.symm⟩

end Program
end BranchMarkup
