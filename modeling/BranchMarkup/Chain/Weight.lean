import BranchMarkup.Chain
/-! A weight of trees that building a chain never raises: the conditional weighs no more than the
elements it is built from. It is what a rewrite, which walks over its own output, ends by. -/
namespace BranchMarkup

mutual

def Expr.weight : Expr → Nat
  | .literal .. | .ident .. => 1
  | .member object _ _ => object.weight + 1
  | .call callee args _ => callee.weight + Expr.weightAll args + 1
  | .unary _ operand _ => operand.weight + 1
  | .binary _ lhs rhs _ => lhs.weight + rhs.weight + 1
  | .conditional test consequent alternate _ _ =>
    test.weight + consequent.weight + alternate.weight + 1
  | .element e => e.weight + 1
  | .fragment f => f.weight + 1

def Expr.weightAll : List Expr → Nat
  | [] => 0
  | e :: es => e.weight + Expr.weightAll es + 1

def Element.weight : Element → Nat
  | ⟨_, attrs, children, _, _⟩ => Attribute.weightAll attrs + Child.weightAll children + 4

def Fragment.weight : Fragment → Nat
  | ⟨children, _, _⟩ => Child.weightAll children + 1

def Attribute.weight : Attribute → Nat
  | ⟨_, none, _⟩ => 1
  | ⟨_, some value, _⟩ => value.weight + 1

def Attribute.weightAll : List Attribute → Nat
  | [] => 0
  | a :: as => a.weight + Attribute.weightAll as + 1

def AttrValue.weight : AttrValue → Nat
  | .text .. | .container none _ => 1
  | .container (some e) _ => e.weight + 1
  | .element e => e.weight + 1

def Child.weight : Child → Nat
  | .text .. | .container none _ => 1
  | .container (some e) _ => e.weight + 1
  | .element e => e.weight + 1
  | .fragment f => f.weight + 1

def Child.weightAll : List Child → Nat
  | [] => 0
  | c :: cs => c.weight + Child.weightAll cs + 1

end

def Element.weightSum : List Element → Nat
  | [] => 0
  | e :: es => e.weight + Element.weightSum es

attribute [local simp] Expr.weight Fragment.weight Attribute.weight Attribute.weightAll
  AttrValue.weight Child.weight Child.weightAll

theorem Element.weight_eq (e : Element) :
    e.weight = Attribute.weightAll e.attrs + Child.weightAll e.children + 4 := by
  cases e; rfl

theorem Attribute.weight_le_of_mem {a : Attribute} {as : List Attribute} (h : a ∈ as) :
    a.weight ≤ Attribute.weightAll as := by
  induction as with
  | nil => contradiction
  | cons b bs ih =>
    simp only [Attribute.weightAll]
    rcases List.mem_cons.1 h with rfl | h
    · omega
    · have := ih h; omega

theorem Child.weight_alone_le (c : Child) : c.alone.weight ≤ c.weight := by
  cases c with
  | container e _ => cases e <;> simp [Child.alone, Expr.nullAt]
  | _ => simp [Child.alone]

theorem Child.weightAll_filter_le (p : Child → Bool) (cs : List Child) :
    Child.weightAll (cs.filter p) ≤ Child.weightAll cs := by
  induction cs with
  | nil => simp
  | cons c cs ih =>
    simp only [List.filter_cons]
    split <;> simp only [Child.weightAll] <;> omega

namespace Chain

theorem weight_collapse_le (cs : List Child) (origin : Provenance) :
    (collapse cs origin).weight ≤ Child.weightAll cs + 2 := by
  have h := Child.weightAll_filter_le Child.isSignificant cs
  unfold collapse
  split
  · simp [Expr.nullAt]
  · next c heq =>
    rw [heq] at h
    have := c.weight_alone_le
    simp only [Child.weightAll] at h
    omega
  · simp only [Expr.weight, Fragment.weight]
    omega

theorem weight_condition_le {e : Element} {test : Expr} (h : condition e = .ok test) :
    test.weight ≤ Attribute.weightAll e.attrs := by
  have mem : ∀ {a}, e.find? conditionName = some a → a.weight ≤ Attribute.weightAll e.attrs :=
    fun h => Attribute.weight_le_of_mem (List.mem_of_find?_eq_some h)
  unfold condition at h
  split at h <;> first
    | contradiction
    | (next heq =>
        cases h; have := mem heq; simp_all; done)
    | (next heq =>
        cases h; have := mem heq; simp only [Attribute.weight, AttrValue.weight] at this; omega)

theorem weight_arm_le [NestingLimit] {depth : Nat} {e : Element} {test consequent : Expr}
    (h : arm depth e = .ok (test, consequent)) :
    test.weight + consequent.weight + 2 ≤ e.weight := by
  unfold arm at h
  split at h
  · contradiction
  · cases hs : checkElement e with
    | error x => rw [hs] at h; contradiction
    | ok u =>
      cases hc : condition e with
      | error x => rw [hs, hc] at h; contradiction
      | ok t =>
        rw [hs, hc] at h
        cases h
        have h1 := weight_condition_le hc
        have h2 := weight_collapse_le e.children (origin e)
        rw [e.weight_eq]
        omega

theorem weight_lastArm_le {e : Element} {c : Expr} (h : lastArm e = .ok c) :
    c.weight ≤ e.weight := by
  unfold lastArm at h
  cases hs : checkElement e with
  | error x => rw [hs] at h; contradiction
  | ok u =>
    rw [hs] at h
    cases h
    have := weight_collapse_le e.children ⟨e.span, .otherwise⟩
    rw [e.weight_eq]
    exact Nat.le_trans this (by omega)

theorem weight_build_le [NestingLimit] {depth : Nat} {e : Element} {links : List Element} {c : Expr}
    (h : (build depth e links).result = .ok c) :
    c.weight ≤ e.weight + Element.weightSum links := by
  induction links generalizing depth e c with
  | nil =>
    unfold build at h
    split at h
    · contradiction
    · next ha _ =>
      cases h
      have := weight_arm_le ha
      simp only [conditional, Expr.weight, Expr.nullAt]
      omega
    · contradiction
  | cons link links ih =>
    unfold build at h
    split at h
    · contradiction
    · contradiction
    · next ha heq =>
      cases heq
      have h1 := weight_arm_le ha
      simp only [Element.weightSum]
      generalize hb : (if link.branch? = some .elseWhen then build (depth + 2) link links
        else ⟨0, lastArm link⟩ : Built) = alternate at h
      cases hr : alternate.result with
      | error x => simp [hr, Except.map] at h
      | ok a =>
        simp only [hr, Except.map, Except.ok.injEq] at h
        subst h
        have h2 : a.weight ≤ link.weight + Element.weightSum links := by
          split at hb <;> subst hb
          · exact ih hr
          · exact Nat.le_trans (weight_lastArm_le hr) (Nat.le_add_right _ _)
        simp only [conditional, Expr.weight]
        omega

theorem weight_takeLinks (cs : List Child) :
    Element.weightSum (takeLinks cs).1 + Child.weightAll (takeLinks cs).2 ≤ Child.weightAll cs := by
  fun_induction takeLinks cs with
  | case1 => simp [Element.weightSum]
  | case2 e cs h links left heq ih =>
    rw [heq] at ih
    simp only [Element.weightSum, Child.weightAll, Child.weight] at ih ⊢
    omega
  | case3 e cs h =>
    simp only [Element.weightSum, Child.weightAll, Child.weight]
    omega
  | case4 => simp [Element.weightSum]
  | case5 => simp [Element.weightSum]
  | case6 c cs _ h links left heq ih =>
    rw [heq] at ih
    simp only [Child.weightAll] at ih ⊢
    omega

end Chain
end BranchMarkup
