import Mathlib
import BranchMarkup.Proofs.Ledger
/-! The names that a program uses, and those its statements bind. A rewrite takes away the tags of
branches, with the attributes that go with them, and no other use of a name; of the names that the
removed imports bind, those that are used otherwise are bound no more. -/
namespace BranchMarkup

/-- What of the tag is a name: the rest of a dotted tag or of one with a colon is not looked up. -/
def Element.base (e : Element) : String :=
  String.ofList (e.name.val.toList.takeWhile fun c => c ≠ '.' && c ≠ ':')

namespace TreeNode

/-- The name that a node uses. -/
def reference? : TreeNode → Option String
  | expr (.ident name _) => some name
  | element e => some e.base
  | _ => none

/-- The name that a node uses in a rewritten program too. -/
def lasting? (n : TreeNode) : Option String := if n.link?.isSome then none else n.reference?

/-- The names used at and below a node, where a rewrite comes to, by other than branches. -/
def lasting (n : TreeNode) : List String := n.live.filterMap lasting?

def lastingAll (ns : List TreeNode) : List String := ns.flatMap lasting

@[simp] theorem lastingAll_nil : lastingAll [] = [] := rfl

@[simp] theorem lastingAll_cons (n : TreeNode) (ns : List TreeNode) :
    lastingAll (n :: ns) = n.lasting ++ lastingAll ns := List.flatMap_cons

@[simp] theorem lastingAll_append (ns ms : List TreeNode) :
    lastingAll (ns ++ ms) = lastingAll ns ++ lastingAll ms := List.flatMap_append

theorem lasting_eq (n : TreeNode) :
    n.lasting = n.lasting?.toList ++ lastingAll (n.parts Element.liveAttrs) := by
  rw [lasting, live_eq, List.filterMap_cons, List.filterMap_flatMap, lastingAll]
  cases n.lasting? <;> rfl

theorem lasting_of_parts {n : TreeNode} (h : n.lasting? = none) :
    n.lasting = lastingAll (n.parts Element.liveAttrs) := by
  rw [lasting_eq, h]
  rfl

theorem lasting_of_part {m n : TreeNode} (h : n.lasting? = none)
    (hparts : n.parts Element.liveAttrs = [m]) : n.lasting = m.lasting := by
  rw [lasting_of_parts h, hparts, lastingAll_cons, lastingAll_nil, List.append_nil]

theorem lasting_congr {m n : TreeNode} (hown : m.lasting? = n.lasting?)
    (hparts : lastingAll (m.parts Element.liveAttrs) = lastingAll (n.parts Element.liveAttrs)) :
    m.lasting = n.lasting := by
  rw [lasting_eq, lasting_eq, hown, hparts]

end TreeNode

open TreeNode (lastingAll lastingAll_nil lastingAll_cons lastingAll_append lasting_eq lasting_of_parts
  lasting_of_part lasting_congr)

/-! Children that are dropped, put together or taken as links -/

namespace Child

theorem lasting_of_ignorable {c : Child} (h : c.isSignificant = false) :
    (TreeNode.child c).lasting = [] := by
  rw [lasting_of_parts rfl]
  cases c with
  | text s _ => rfl
  | container e _ =>
    cases e with
    | none => rfl
    | some e => cases h
  | element e => cases h
  | fragment f => cases h

theorem lastingAll_filter (cs : List Child) :
    lastingAll ((cs.filter isSignificant).map .child) = lastingAll (cs.map .child) := by
  induction cs with
  | nil => rfl
  | cons c cs ih =>
    cases hc : c.isSignificant with
    | true => simp [hc, ih]
    | false => simp [hc, ih, lasting_of_ignorable hc]

theorem lasting_text (s : String) (span : Span) : (TreeNode.child (.text s span)).lasting = [] :=
  lasting_of_parts rfl

theorem lastingAll_joinText (s : String) (span : Span) (cs : List Child) :
    lastingAll ((joinText (.text s span) cs).map .child) = lastingAll (cs.map .child) := by
  unfold joinText
  split
  · next heq =>
    cases heq
    simp [lasting_text]
  · simp [lasting_text]

theorem lasting_alone (c : Child) : (TreeNode.expr c.alone).lasting = (TreeNode.child c).lasting := by
  cases c with
  | text s _ => exact lasting_congr rfl rfl
  | container e _ =>
    cases e with
    | none => exact lasting_congr rfl rfl
    | some e => exact (lasting_of_part rfl rfl).symm
  | element e => exact lasting_congr rfl rfl
  | fragment f => exact lasting_congr rfl rfl

end Child

namespace Chain

theorem lasting_collapse (cs : List Child) (o : Provenance) :
    (TreeNode.expr (collapse cs o)).lasting = lastingAll (cs.map .child) := by
  rw [← Child.lastingAll_filter]
  unfold collapse
  split
  · next h => rw [h]; exact lasting_of_parts rfl
  · next c h => simp [h, Child.lasting_alone]
  · exact (lasting_of_part rfl rfl).trans (lasting_of_parts rfl)

theorem lasting_condition {e : Element} {b : Branch} {test : Expr} (hb : e.branch? = some b)
    (htests : b.tests = true) (h : condition e = .ok test) :
    lastingAll (e.liveAttrs.map .attr) = (TreeNode.expr test).lasting := by
  simp only [Element.liveAttrs, hb, htests, ↓reduceIte]
  unfold condition at h
  split at h <;> cases h
  · next heq =>
    rw [heq, Option.toList_some, List.map_singleton, lastingAll_cons, lastingAll_nil, List.append_nil]
    exact lasting_congr rfl rfl
  · next heq =>
    rw [heq, Option.toList_some, List.map_singleton, lastingAll_cons, lastingAll_nil, List.append_nil]
    exact (lasting_of_part rfl rfl).trans (lasting_of_part rfl rfl)

theorem lasting_element {e : Element} {b : Branch} (hb : e.branch? = some b) :
    (TreeNode.element e).lasting =
      lastingAll (e.liveAttrs.map .attr) ++ lastingAll (e.children.map .child) := by
  rw [lasting_of_parts (by simp [TreeNode.lasting?, TreeNode.link?, hb]), TreeNode.parts, lastingAll_append]

theorem lasting_conditional {e : Element} {b : Branch} {test : Expr} (alternate : Expr)
    (hb : e.branch? = some b) (htests : b.tests = true) (htest : condition e = .ok test) :
    (TreeNode.expr (conditional e test (collapse e.children (origin e)) alternate)).lasting =
      (TreeNode.element e).lasting ++ (TreeNode.expr alternate).lasting := by
  rw [conditional, lasting_of_parts rfl, lasting_element hb, lasting_condition hb htests htest]
  simp [TreeNode.parts, lasting_collapse]

theorem Builds.lasting {d e links built} (h : Builds d e links built) :
    ∀ b, e.branch? = some b → b.tests = true → Links links →
      (TreeNode.expr built).lasting = lastingAll ((e :: links).map .element) := by
  induction h with
  | @last _ e _ _ ha =>
    intro b hb htests _
    obtain ⟨-, -, ht, rfl⟩ := arm_eq_ok.1 ha
    rw [lasting_conditional _ hb htests ht, Expr.nullAt, lasting_of_parts (n := .expr (.literal ..)) rfl]
    rfl
  | @next _ e link links _ _ alternate ha hlink _ ih =>
    intro b hb htests hlinks
    obtain ⟨-, -, ht, rfl⟩ := arm_eq_ok.1 ha
    have hlinks : Links links := by
      cases hlinks with
      | next _ h => exact h
      | last h => exact .none
    rw [lasting_conditional _ hb htests ht, ih _ hlink rfl hlinks]
    rfl
  | @otherwise _ e link links _ _ alternate ha hlink hlast =>
    intro b hb htests hlinks
    obtain ⟨-, -, ht, rfl⟩ := arm_eq_ok.1 ha
    obtain ⟨-, hbody⟩ := lastArm_eq_ok.1 hlast
    cases hlinks with
    | next h _ => exact absurd h hlink
    | last hlink =>
      have hattrs : link.liveAttrs = [] := by simp [Element.liveAttrs, hlink, Branch.tests]
      rw [lasting_conditional _ hb htests ht, ← hbody, lasting_collapse, List.map_cons, List.map_singleton,
        lastingAll_cons, lastingAll_cons, lasting_element hlink, hattrs]
      simp

theorem lastingAll_takeLinks (cs : List Child) :
    lastingAll (cs.map .child) =
      lastingAll ((takeLinks cs).1.map .element) ++ lastingAll ((takeLinks cs).2.map .child) := by
  have helement (e : Element) : (TreeNode.child (.element e)).lasting = (TreeNode.element e).lasting :=
    lasting_of_part rfl rfl
  fun_induction takeLinks cs with
  | case1 => rfl
  | case2 e cs h links left heq ih =>
    rw [heq] at ih
    simp [ih, helement]
  | case3 e cs h => simp [helement]
  | case4 => simp
  | case5 => simp
  | case6 c cs _ h links left heq ih =>
    rw [heq] at ih
    simp [ih, Child.lasting_of_ignorable (Bool.eq_false_iff.2 h)]

end Chain

/-! Walking -/

namespace Rewrite

theorem lasting_chain {d : Nat} {e : Element} {links : List Element} {built : Expr}
    (hb : e.branch? = some .when) (hlinks : Chain.Links links)
    (h : (Chain.build d e links).result = .ok built) :
    (TreeNode.expr built).lasting = lastingAll ((e :: links).map .element) :=
  (Chain.builds_of_build h).lasting _ hb rfl hlinks

theorem lasting_standalone {d : Nat} {e : Element} {built : Expr} (hb : e.branch? = some .when)
    (h : (Chain.build d e []).result = .ok built) :
    (TreeNode.expr built).lasting = (TreeNode.element e).lasting :=
  (lasting_chain hb .none h).trans (List.append_nil _)

mutual

theorem Walks.lasting {d e k e'} : Walks d e k e' → (TreeNode.expr e').lasting = (TreeNode.expr e).lasting
  | .literal | .ident => rfl
  | .member h | .unary h => by
    refine lasting_congr rfl ?_
    simp [TreeNode.parts, h.lasting]
  | .call h hs => by
    refine lasting_congr rfl ?_
    simp [TreeNode.parts, h.lasting, hs.lasting]
  | .binary h h' => by
    refine lasting_congr rfl ?_
    simp [TreeNode.parts, h.lasting, h'.lasting]
  | .conditional h _ _ h' _ h'' => by
    refine lasting_congr rfl ?_
    simp [TreeNode.parts, h.lasting, h'.lasting, h''.lasting]
  | .element hb h => by
    refine lasting_congr rfl ?_
    simp [TreeNode.parts, h.lasting hb]
  | .standalone hb hbuilt h => by
    rw [h.lasting, lasting_standalone hb hbuilt]
    exact (lasting_of_part rfl rfl).symm
  | .fragment h => by
    refine lasting_congr rfl ?_
    simp [TreeNode.parts, h.lasting]

theorem WalksAll.lasting {d es k es'} :
    WalksAll d es k es' → lastingAll (es'.map .expr) = lastingAll (es.map .expr)
  | .nil => rfl
  | .cons h hs => by simp [h.lasting, hs.lasting]

theorem WalksElement.lasting {d e k e'} : WalksElement d e k e' → e.branch? = none →
    (TreeNode.element e').lasting = (TreeNode.element e).lasting
  | .mk _ _ ha _ hc, hb => by
    have hb' := hb
    rw [Element.branch?] at hb'
    refine lasting_congr ?_ ?_
    · simp [TreeNode.lasting?, TreeNode.link?, Element.branch?, hb', TreeNode.reference?, Element.base]
    · simp [TreeNode.parts, Element.liveAttrs, Element.branch?, hb', ha.lasting, hc.lasting]

theorem WalksFragment.lasting {d f k f'} : WalksFragment d f k f' →
    (TreeNode.fragment f').lasting = (TreeNode.fragment f).lasting
  | .mk _ _ _ h => lasting_congr rfl h.lasting

theorem WalksAttributes.lasting {d as k as'} : WalksAttributes d as k as' →
    lastingAll (as'.map .attr) = lastingAll (as.map .attr)
  | .nil => rfl
  | .bare hs => by simp [hs.lasting]
  | @WalksAttributes.valued _ _ n v s _ _ _ v' _ h hs => by
    have hattr : (TreeNode.attr ⟨n, some v', s⟩).lasting = (TreeNode.attr ⟨n, some v, s⟩).lasting :=
      lasting_congr rfl (by simp [TreeNode.parts, h.lasting])
    simp [hattr, hs.lasting]

theorem WalksValue.lasting {d v k v'} :
    WalksValue d v k v' → (TreeNode.value v').lasting = (TreeNode.value v).lasting
  | .text | .empty => rfl
  | .container h => lasting_congr rfl (by simp [TreeNode.parts, h.lasting])
  | .element hb h => lasting_congr rfl (by simp [TreeNode.parts, h.lasting hb])
  | .standalone hb hbuilt h => by
    rw [lasting_of_part (n := .value (.container ..)) rfl rfl, h.lasting, lasting_standalone hb hbuilt]
    exact (lasting_of_part rfl rfl).symm

theorem WalksChildren.lasting {d cs k cs'} : WalksChildren d cs k cs' →
    lastingAll (cs'.map .child) = lastingAll (cs.map .child)
  | .nil => rfl
  | .text h => by
    rw [Child.lastingAll_joinText, h.lasting, List.map_cons, lastingAll_cons, Child.lasting_text,
      List.nil_append]
  | .empty h => by simp [h.lasting]
  | @WalksChildren.container _ _ e s _ _ _ e' _ h hs => by
    have hchild : (TreeNode.child (.container (some e') s)).lasting =
        (TreeNode.child (.container (some e) s)).lasting :=
      lasting_congr rfl (by simp [TreeNode.parts, h.lasting])
    simp [hchild, hs.lasting]
  | @WalksChildren.fragment _ _ f _ _ _ f' _ h hs => by
    have hchild : (TreeNode.child (.fragment f')).lasting = (TreeNode.child (.fragment f)).lasting :=
      lasting_congr rfl (by simp [TreeNode.parts, h.lasting])
    simp [hchild, hs.lasting]
  | @WalksChildren.element _ _ e _ _ _ e' _ hb h hs => by
    have hchild : (TreeNode.child (.element e')).lasting = (TreeNode.child (.element e)).lasting :=
      lasting_congr rfl (by simp [TreeNode.parts, h.lasting hb])
    simp [hchild, hs.lasting]
  | @WalksChildren.chain _ _ e cs _ _ _ e' _ hb hbuilt h hs => by
    have hcontainer : (TreeNode.child (.container (some e') e.span)).lasting = (TreeNode.expr e').lasting :=
      lasting_of_part rfl rfl
    have helement : (TreeNode.child (.element e)).lasting = (TreeNode.element e).lasting :=
      lasting_of_part rfl rfl
    rw [List.map_cons, lastingAll_cons, hcontainer, h.lasting,
      lasting_chain hb (Chain.links_takeLinks cs) hbuilt, hs.lasting, List.map_cons, List.map_cons,
      lastingAll_cons, lastingAll_cons, helement, Chain.lastingAll_takeLinks cs, List.append_assoc]

end

theorem WalksStatement.lasting {x k x'} (h : WalksStatement x k x') :
    lastingAll (x'.expr?.toList.map .expr) = lastingAll (x.expr?.toList.map .expr) := by
  cases h with
  | imports => rfl
  | binding h | exportDefault h | expr h => simp [Statement.expr?, h.lasting]

end Rewrite

def ImportSpecifier.bound (s : ImportSpecifier) : String := (s.localName.getD s.imported).val

def ImportDecl.bound (d : ImportDecl) : List String :=
  d.default.toList.map (·.val) ++ d.namespaceName.toList.map (·.val) ++ d.named.map ImportSpecifier.bound

/-- The names that a statement binds. -/
def Statement.bound : Statement → List String
  | imports d => d.bound
  | binding _ name _ => [name.val]
  | exportDefault _ | expr _ => []

theorem Rewrite.WalksStatement.bound_eq {x k x'} (h : WalksStatement x k x') : x'.bound = x.bound := by
  cases h <;> rfl

namespace Program

/-- The names that expressions and tags of the program use, one for every use. -/
def references (p : Program) : List String := (p.roots.flatMap TreeNode.all).filterMap TreeNode.reference?

def lastingReferences (p : Program) : List String := lastingAll p.roots

def bound (p : Program) : List String := p.statements.flatMap (·.val.bound)

/-- The name is bound by imports that a rewrite removes, and by nothing else. -/
def Loses (p : Program) (name : String) : Prop :=
  name ∈ p.bound ∧ ∀ s ∈ p.statements, name ∈ s.val.bound → s.val.isSentinelImport = true

instance (p : Program) (name : String) : Decidable (p.Loses name) := inferInstanceAs (Decidable (_ ∧ _))

theorem mem_references {p : Program} {name : String} :
    name ∈ p.references ↔ ∃ n, p.Has Element.attrs n ∧ n.reference? = some name := by
  simp only [references, List.mem_filterMap, List.mem_flatMap, has_iff, TreeNode.all, TreeNode.mem_nodes]

theorem mem_lastingReferences {p : Program} {name : String} :
    name ∈ p.lastingReferences ↔
      ∃ n, p.Has Element.liveAttrs n ∧ n.link? = none ∧ n.reference? = some name := by
  have hlasting (n : TreeNode) :
      n.lasting? = some name ↔ n.link? = none ∧ n.reference? = some name := by
    rw [TreeNode.lasting?]
    cases n.link? <;> simp
  simp only [lastingReferences, lastingAll, TreeNode.lasting, List.mem_flatMap, List.mem_filterMap, has_iff,
    TreeNode.live, TreeNode.mem_nodes, hlasting]
  constructor
  · rintro ⟨r, hr, n, hn, h⟩
    exact ⟨n, ⟨r, hr, hn⟩, h⟩
  · rintro ⟨n, ⟨r, hr, hn⟩, h⟩
    exact ⟨r, hr, n, hn, h⟩

theorem lastingReferences_eq {p : Program} (h : ∀ r ∈ p.roots, r.Throughout (·.link? = none)) :
    p.lastingReferences = p.references := by
  rw [lastingReferences, lastingAll, references, List.filterMap_flatMap]
  refine List.flatMap_congr fun r hr => ?_
  rw [TreeNode.lasting, TreeNode.live_eq_all (h r hr)]
  refine List.filterMap_congr fun n hn => ?_
  rw [TreeNode.lasting?, h r hr n (TreeNode.mem_nodes.1 hn)]
  rfl

theorem lastingReferences_of_rewrite {p q : Program} {counted : Stats} (h : p.rewrite = .ok (q, counted)) :
    q.lastingReferences = p.lastingReferences := by
  obtain ⟨-, hw⟩ := walksStatements_of_rewrite h
  clear h
  unfold lastingReferences roots
  generalize p.statements = xs, q.statements = xs' at hw
  induction hw with
  | nil => rfl
  | removed hx _ ih => rw [ih, List.flatMap_cons, Rewrite.expr?_of_isSentinelImport hx]; rfl
  | kept _ h _ ih =>
    rw [List.flatMap_cons, List.flatMap_cons, lastingAll_append, lastingAll_append, ih]
    exact congrArg (· ++ _) h.lasting

theorem bound_of_rewrite {p q : Program} {counted : Stats} (h : p.rewrite = .ok (q, counted)) :
    q.bound = (p.statements.filter (!·.val.isSentinelImport)).flatMap (·.val.bound) := by
  obtain ⟨-, hw⟩ := walksStatements_of_rewrite h
  clear h
  unfold bound
  generalize p.statements = xs, q.statements = xs' at hw
  induction hw with
  | nil => rfl
  | removed hx _ ih => rw [ih, List.filter_cons_of_neg (by simp [hx])]
  | kept hx h _ ih =>
    rw [List.filter_cons_of_pos (by simp [hx]), List.flatMap_cons, List.flatMap_cons, ih, h.bound_eq]

/-- A rewritten program uses the names that were used before by other than branches, where it came to,
in the same order. Those of them are bound no more which the removed imports alone had bound. -/
theorem references_of_rewrite {p q : Program} {counted : Stats} (h : p.rewrite = .ok (q, counted)) :
    q.references = p.lastingReferences ∧
      ∀ name, p.Loses name → name ∉ q.bound ∧
        ((∃ n, q.Has Element.attrs n ∧ n.reference? = some name) ↔
          ∃ n, p.Has Element.liveAttrs n ∧ n.link? = none ∧ n.reference? = some name) := by
  have hsame : q.references = p.lastingReferences := by
    rw [← lastingReferences_eq (not_link_of_rewrite h), lastingReferences_of_rewrite h]
  refine ⟨hsame, fun name hlost => ⟨?_, ?_⟩⟩
  · rw [bound_of_rewrite h]
    intro hmem
    obtain ⟨s, hs, hname⟩ := List.mem_flatMap.1 hmem
    obtain ⟨hs, hkept⟩ := List.mem_filter.1 hs
    rw [hlost.2 s hs hname] at hkept
    exact absurd hkept (by decide)
  · rw [← mem_references, ← mem_lastingReferences, hsame]

/-- `<If condition={a}>x</If>` -/
def ifSample : Element :=
  ⟨⟨"If", .zero⟩, [⟨⟨conditionName, .zero⟩, some (.container (some (.ident "a" .zero)) .zero), .zero⟩],
    [.text "x" .zero], false, .zero⟩

/-- `import { If } from` the module that is removed, and a chain. -/
def importSample : Program :=
  ⟨"a.jsx", [⟨.imports ⟨none, none, [⟨⟨"If", .zero⟩, none⟩], ⟨sentinelModule, .zero⟩⟩, .zero⟩,
    ⟨.expr (.element ifSample), .zero⟩], []⟩

theorem lastingReferences_importSample : importSample.lastingReferences = ["a"] :=
  calc importSample.lastingReferences
      = lastingAll [.expr (.element ifSample)] := rfl
    _ = (TreeNode.element ifSample).lasting := (List.append_nil _).trans (lasting_of_part rfl rfl)
    _ = (TreeNode.expr (.ident "a" .zero)).lasting ++ lastingAll [.child (.text "x" .zero)] := by
      rw [Chain.lasting_element (b := .when) rfl, Chain.lasting_condition (b := .when) rfl rfl rfl]
      rfl
    _ = ["a"] := by
      rw [lasting_eq, lastingAll_cons, Child.lasting_text]
      rfl

theorem references_of_rewrite_import :
    ∃ q, importSample.rewrite = .ok (q, ⟨1, 0, 1⟩) ∧ importSample.Loses "If" ∧ "If" ∉ q.bound ∧
      q.references = ["a"] := by
  have hrun : importSample.rewrite.toOption.any (·.2 = ⟨1, 0, 1⟩) = true := by cbv
  obtain ⟨⟨q, counted⟩, hq, hcounted⟩ := exists_ok_of_any hrun
  obtain rfl := of_decide_eq_true hcounted
  obtain ⟨hsame, hlost⟩ := references_of_rewrite hq
  have hbound : importSample.Loses "If" := by decide
  exact ⟨q, hq, hbound, (hlost "If" hbound).1, hsame.trans lastingReferences_importSample⟩

/-- `import { If as When }` from the module that is removed, and `<When condition={a}>x</When>`. -/
def aliasSample : String :=
  "import \x7b If as When \x7d from \"jsx-conditionals\"; <When condition=\x7ba\x7d>x</When>;"

/-- A tag that is an alias is no branch: it stays, and its import goes. -/
theorem references_of_rewrite_alias_ne :
    ¬ ∀ (name source : String) (p q : Program) (counted : Stats), parse name source = .ok p →
      p.rewrite = .ok (q, counted) → ∀ n, p.Loses n → n ∉ q.references := by
  intro hno
  have h : (parse "a.jsx" aliasSample).toOption.any (fun p => p.Loses "When" ∧
      p.rewrite.toOption.any fun r => r.1.roots.any fun root =>
        (root.parts Element.attrs).any fun n => n.reference? = some "When") = true := by
    decide +kernel
  obtain ⟨p, hp, h⟩ := exists_ok_of_any h
  obtain ⟨hlost, h⟩ := of_decide_eq_true h
  obtain ⟨r, hr, h⟩ := exists_ok_of_any h
  simp only [List.any_eq_true, decide_eq_true_eq] at h
  obtain ⟨root, hroot, n, hn, hname⟩ := h
  refine hno _ _ p r.1 r.2 hp hr "When" hlost ?_
  exact mem_references.2 ⟨n, has_iff.2 ⟨root, hroot, .part hn .self⟩, hname⟩

end Program
end BranchMarkup
