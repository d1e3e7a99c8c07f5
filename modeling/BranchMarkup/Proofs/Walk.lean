import BranchMarkup.Rewrite
/-! What a walk does to each kind of node, said once. A walk that succeeds is a derivation of
`Walks`, with the level it is at and what it counts, and every derivation is walked; what holds of
every rewritten program is proved by recursion on the derivation. -/
namespace BranchMarkup

instance : Add Stats := ⟨fun a b =>
  ⟨a.chains + b.chains, a.branches + b.branches, a.importsRemoved + b.importsRemoved⟩⟩

instance : Zero Stats := ⟨.zero⟩

theorem Stats.add_def (a b : Stats) :
    a + b = ⟨a.chains + b.chains, a.branches + b.branches, a.importsRemoved + b.importsRemoved⟩ :=
  rfl

@[simp] theorem Stats.add_zero (a : Stats) : a + 0 = a := rfl

@[simp] theorem Stats.zero_add (a : Stats) : 0 + a = a := by
  simp [Stats.add_def, show (0 : Stats) = ⟨0, 0, 0⟩ from rfl]

theorem Stats.add_assoc (a b c : Stats) : a + b + c = a + (b + c) := by
  simp [Stats.add_def, Nat.add_assoc]

namespace Rewrite

/-- What one chain counts, with that many links after its first. -/
def chainStats (links : Nat) : Stats := ⟨1, links, 0⟩

/-- The level at which an arm of a conditional is walked. -/
inductive ArmLevel [NestingLimit] (d : Nat) (arm : Expr) : Nat → Prop where
  | bare : isParenthesizedArm arm = false → ArmLevel d arm d
  | parenthesized : isParenthesizedArm arm = true → NestingLimit.Admits (d + 1) →
      ArmLevel d arm (d + 1)

section
variable [NestingLimit]

mutual

inductive Walks : Nat → Expr → Stats → Expr → Prop where
  | literal {d v s} : Walks d (.literal v s) 0 (.literal v s)
  | ident {d n s} : Walks d (.ident n s) 0 (.ident n s)
  | member {d o p s k o'} : Walks d o k o' → Walks d (.member o p s) k (.member o' p s)
  | call {d c as s k l c' as'} : Walks d c k c' → WalksAll d as l as' →
      Walks d (.call c as s) (k + l) (.call c' as' s)
  | unary {d op o s k o'} : Walks d o k o' → Walks d (.unary op o s) k (.unary op o' s)
  | binary {d op x y s k l x' y'} : Walks d x k x' → Walks d y l y' →
      Walks d (.binary op x y s) (k + l) (.binary op x' y' s)
  | conditional {d t c a p s dc da k l m t' c' a'} : Walks d t k t' →
      NestingLimit.Admits (d + 1) → ArmLevel (d + 1) c dc → Walks dc c l c' → ArmLevel (d + 1) a da → Walks da a m a' →
      Walks d (.conditional t c a p s) (k + l + m) (.conditional t' c' a' p s)
  | element {d e k e'} : e.branch? = none → WalksElement d e k e' →
      Walks d (.element e) k (.element e')
  | standalone {d e k built e'} : e.branch? = some .when →
      (Chain.build (d + 1) e []).result = .ok built → Walks d built k e' →
      Walks d (.element e) (chainStats 0 + k) e'
  | fragment {d f k f'} : WalksFragment d f k f' → Walks d (.fragment f) k (.fragment f')

inductive WalksAll : Nat → List Expr → Stats → List Expr → Prop where
  | nil {d} : WalksAll d [] 0 []
  | cons {d e es k l e' es'} : Walks d e k e' → WalksAll d es l es' →
      WalksAll d (e :: es) (k + l) (e' :: es')

inductive WalksElement : Nat → Element → Stats → Element → Prop where
  | mk {d n as cs c s k l as' cs'} : Chain.checkElement ⟨n, as, cs, c, s⟩ = .ok () →
      NestingLimit.Admits (d + 1) → WalksAttributes (d + 1) as k as' →
      Chain.check none cs = .ok () → WalksChildren (d + 1) cs l cs' →
      WalksElement d ⟨n, as, cs, c, s⟩ (k + l) ⟨n, as', cs', c, s⟩

inductive WalksFragment : Nat → Fragment → Stats → Fragment → Prop where
  | mk {d cs p s k cs'} : Chain.checkFragment ⟨cs, p, s⟩ = .ok () →
      NestingLimit.Admits (d + 1) → Chain.check none cs = .ok () → WalksChildren (d + 1) cs k cs' →
      WalksFragment d ⟨cs, p, s⟩ k ⟨cs', p, s⟩

inductive WalksAttributes : Nat → List Attribute → Stats → List Attribute → Prop where
  | nil {d} : WalksAttributes d [] 0 []
  | bare {d n s as k as'} : WalksAttributes d as k as' →
      WalksAttributes d (⟨n, none, s⟩ :: as) k (⟨n, none, s⟩ :: as')
  | valued {d n v s as k l v' as'} : WalksValue d v k v' → WalksAttributes d as l as' →
      WalksAttributes d (⟨n, some v, s⟩ :: as) (k + l) (⟨n, some v', s⟩ :: as')

inductive WalksValue : Nat → AttrValue → Stats → AttrValue → Prop where
  | text {d t s} : WalksValue d (.text t s) 0 (.text t s)
  | empty {d s} : WalksValue d (.container none s) 0 (.container none s)
  | container {d e s k e'} : Walks d e k e' →
      WalksValue d (.container (some e) s) k (.container (some e') s)
  | element {d e k e'} : e.branch? = none → WalksElement d e k e' →
      WalksValue d (.element e) k (.element e')
  | standalone {d e k built e'} : e.branch? = some .when →
      (Chain.build (d + 1) e []).result = .ok built → Walks d built k e' →
      WalksValue d (.element e) (chainStats 0 + k) (.container (some e') e.span)

inductive WalksChildren : Nat → List Child → Stats → List Child → Prop where
  | nil {d} : WalksChildren d [] 0 []
  | text {d t s cs k cs'} : WalksChildren d cs k cs' →
      WalksChildren d (.text t s :: cs) k (Child.joinText (.text t s) cs')
  | empty {d s cs k cs'} : WalksChildren d cs k cs' →
      WalksChildren d (.container none s :: cs) k (.container none s :: cs')
  | container {d e s cs k l e' cs'} : Walks d e k e' → WalksChildren d cs l cs' →
      WalksChildren d (.container (some e) s :: cs) (k + l) (.container (some e') s :: cs')
  | fragment {d f cs k l f' cs'} : WalksFragment d f k f' → WalksChildren d cs l cs' →
      WalksChildren d (.fragment f :: cs) (k + l) (.fragment f' :: cs')
  | element {d e cs k l e' cs'} : e.branch? = none → WalksElement d e k e' →
      WalksChildren d cs l cs' →
      WalksChildren d (.element e :: cs) (k + l) (.element e' :: cs')
  | chain {d e cs k l built e' cs'} : e.branch? = some .when →
      (Chain.build (d + 1) e (Chain.takeLinks cs).1).result = .ok built → Walks d built k e' →
      WalksChildren d (Chain.takeLinks cs).2 l cs' →
      WalksChildren d (.element e :: cs) (chainStats (Chain.takeLinks cs).1.length + k + l)
        (.container (some e') e.span :: cs')

end

end

/-! A step of a walk that succeeds, taken apart. -/

section
variable {α β : Type} {s : Stats}

theorem bind_eq_ok {m : Rewrite α} {f : α → Rewrite β} {r : β × Stats} :
    (m >>= f) s = .ok r ↔ ∃ a t, m s = .ok (a, t) ∧ f a t = .ok r := by
  simp only [bind, StateT.bind]
  cases m s with
  | error x => simp [Except.bind]
  | ok r =>
    obtain ⟨a, t⟩ := r
    constructor
    · exact fun h => ⟨a, t, rfl, h⟩
    · rintro ⟨a', t', h, hf⟩
      cases h
      exact hf

theorem pure_eq_ok {a b : α} {t : Stats} : (pure a : Rewrite α) s = .ok (b, t) ↔ a = b ∧ s = t := by
  show Except.ok (a, s) = .ok (b, t) ↔ a = b ∧ s = t
  simp

theorem throw_eq_ok {x : RewriteError} {r : α × Stats} :
    (throw x : Rewrite α) s = .ok r ↔ False := by
  simp [throw, throwThe, MonadExceptOf.throw, StateT.lift, bind, Except.bind]

theorem lift_eq_ok {m : Except RewriteError α} {a : α} {t : Stats} :
    (liftM m : Rewrite α) s = .ok (a, t) ↔ m = .ok a ∧ s = t := by
  cases m <;> simp [liftM, monadLift, MonadLift.monadLift, StateT.lift, bind, Except.bind, pure,
    Except.pure]

theorem enter_eq_ok [NestingLimit] {d d' : Nat} {span : Span} {t : Stats} :
    enter d span s = .ok (d', t) ↔
      NestingLimit.Admits (d + 1) ∧ d + 1 = d' ∧ s = t := by
  unfold enter
  split
  · next h => simp [pure_eq_ok, h]
  · next h => simp [throw_eq_ok, h]

theorem armDepth_eq_ok [NestingLimit] {d d' : Nat} {arm : Expr} {t : Stats} :
    armDepth d arm s = .ok (d', t) ↔ ArmLevel d arm d' ∧ s = t := by
  unfold armDepth
  split
  · next h =>
    rw [enter_eq_ok]
    constructor
    · rintro ⟨hd, rfl, rfl⟩
      exact ⟨.parenthesized h hd, rfl⟩
    · rintro ⟨hl, rfl⟩
      cases hl with
      | bare hb => simp [h] at hb
      | parenthesized _ hd => exact ⟨hd, rfl, rfl⟩
  · next h =>
    rw [pure_eq_ok]
    constructor
    · rintro ⟨rfl, rfl⟩
      exact ⟨.bare (by simpa using h), rfl⟩
    · rintro ⟨hl, rfl⟩
      cases hl with
      | bare => exact ⟨rfl, rfl⟩
      | parenthesized hp => exact absurd hp h

theorem countChain_eq_ok {n : Nat} {u : Unit} {t : Stats} :
    countChain n s = .ok (u, t) ↔ t = s + chainStats n := by
  show Except.ok ((), { s with chains := s.chains + 1, branches := s.branches + n }) = .ok (u, t) ↔ _
  simp [Stats.add_def, chainStats, eq_comm]

end

variable [NestingLimit]

/-! The equations of the walk over a chain, without the proof that it ends. -/

theorem walkStandalone_eq (d : Nat) (e : Element) :
    walkStandalone d e =
      match (Chain.build (d + 1) e []).result with
      | .error x => throw x
      | .ok built => countChain 0 >>= fun _ => walk d built := by
  rw [walkStandalone]
  split <;> simp_all

theorem walkChildren_chain (d : Nat) {e : Element} (h : e.branch? = some .when) (cs : List Child) :
    walkChildren d (.element e :: cs) =
      match (Chain.build (d + 1) e (Chain.takeLinks cs).1).result with
      | .error x => throw x
      | .ok built => do
        countChain (Chain.takeLinks cs).1.length
        let w ← walk d built
        let cs' ← walkChildren d (Chain.takeLinks cs).2
        return .container (some w) e.span :: cs' := by
  rw [walkChildren]
  split <;> simp_all
  split <;> simp_all

/-! A walk that succeeds is a derivation, and the count grows by what the derivation says. The
recursion is that of the walk, so it ends by the same weight. -/

mutual

theorem walks_of_walk {d : Nat} {e e' : Expr} {s t : Stats} (h : walk d e s = .ok (e', t)) :
    ∃ k, Walks d e k e' ∧ t = s + k := by
  match e with
  | .literal .. | .ident .. =>
    simp only [walk, pure_eq_ok] at h
    obtain ⟨rfl, rfl⟩ := h
    exact ⟨0, by constructor, rfl⟩
  | .member o _ _ =>
    simp only [walk, bind_eq_ok, pure_eq_ok] at h
    obtain ⟨o', u, ho, rfl, rfl⟩ := h
    obtain ⟨k, hk, rfl⟩ := walks_of_walk ho
    exact ⟨k, .member hk, rfl⟩
  | .call c as _ =>
    simp only [walk, bind_eq_ok, pure_eq_ok] at h
    obtain ⟨c', u, hc, as', v, ha, rfl, rfl⟩ := h
    obtain ⟨k, hk, rfl⟩ := walks_of_walk hc
    obtain ⟨l, hl, rfl⟩ := walksAll_of_walkAll ha
    exact ⟨k + l, .call hk hl, Stats.add_assoc ..⟩
  | .unary _ o _ =>
    simp only [walk, bind_eq_ok, pure_eq_ok] at h
    obtain ⟨o', u, ho, rfl, rfl⟩ := h
    obtain ⟨k, hk, rfl⟩ := walks_of_walk ho
    exact ⟨k, .unary hk, rfl⟩
  | .binary _ x y _ =>
    simp only [walk, bind_eq_ok, pure_eq_ok] at h
    obtain ⟨x', u, hx, y', v, hy, rfl, rfl⟩ := h
    obtain ⟨k, hk, rfl⟩ := walks_of_walk hx
    obtain ⟨l, hl, rfl⟩ := walks_of_walk hy
    exact ⟨k + l, .binary hk hl, Stats.add_assoc ..⟩
  | .conditional c x y _ _ =>
    simp only [walk, bind_eq_ok, pure_eq_ok, enter_eq_ok, armDepth_eq_ok] at h
    obtain ⟨c', _, hc, _, _, ⟨hd, rfl, rfl⟩, dx, _, ⟨hdx, rfl⟩, x', _, hx, dy, _, ⟨hdy, rfl⟩, y', _,
      hy, rfl, rfl⟩ := h
    obtain ⟨k, hk, rfl⟩ := walks_of_walk hc
    obtain ⟨l, hl, rfl⟩ := walks_of_walk hx
    obtain ⟨m, hm, rfl⟩ := walks_of_walk hy
    exact ⟨k + l + m, .conditional hk hd hdx hl hdy hm, by simp only [Stats.add_assoc]⟩
  | .element elem =>
    cases hb : elem.branch? with
    | none =>
      simp only [walk, hb, bind_eq_ok, pure_eq_ok] at h
      obtain ⟨w, u, hw, rfl, rfl⟩ := h
      obtain ⟨k, hk, rfl⟩ := walksElement_of_walkElement hw
      exact ⟨k, .element hb hk, rfl⟩
    | some b =>
      cases b with
      | when =>
        simp only [walk, hb] at h
        obtain ⟨built, k, hbuilt, hk, rfl⟩ := walks_of_walkStandalone h
        exact ⟨chainStats 0 + k, .standalone hb hbuilt hk, rfl⟩
      | elseWhen | otherwise => simp only [walk, hb, throw_eq_ok] at h
  | .fragment frag =>
    simp only [walk, bind_eq_ok, pure_eq_ok] at h
    obtain ⟨w, u, hw, rfl, rfl⟩ := h
    obtain ⟨k, hk, rfl⟩ := walksFragment_of_walkFragment hw
    exact ⟨k, .fragment hk, rfl⟩
termination_by 2 * e.weight
decreasing_by all_goals simp only [Expr.weight]; omega

theorem walksAll_of_walkAll {d : Nat} {es es' : List Expr} {s t : Stats}
    (h : walkAll d es s = .ok (es', t)) : ∃ k, WalksAll d es k es' ∧ t = s + k := by
  match es with
  | [] =>
    simp only [walkAll, pure_eq_ok] at h
    obtain ⟨rfl, rfl⟩ := h
    exact ⟨0, .nil, rfl⟩
  | e :: es =>
    simp only [walkAll, bind_eq_ok, pure_eq_ok] at h
    obtain ⟨e', u, he, w, v, hw, rfl, rfl⟩ := h
    obtain ⟨k, hk, rfl⟩ := walks_of_walk he
    obtain ⟨l, hl, rfl⟩ := walksAll_of_walkAll hw
    exact ⟨k + l, .cons hk hl, Stats.add_assoc ..⟩
termination_by 2 * Expr.weightAll es
decreasing_by all_goals simp only [Expr.weightAll]; omega

theorem walks_of_walkStandalone {d : Nat} {e : Element} {e' : Expr} {s t : Stats}
    (h : walkStandalone d e s = .ok (e', t)) :
    ∃ built k, (Chain.build (d + 1) e []).result = .ok built ∧ Walks d built k e' ∧
      t = s + (chainStats 0 + k) := by
  cases hbuilt : (Chain.build (d + 1) e []).result with
  | error x => simp only [walkStandalone_eq, hbuilt, throw_eq_ok] at h
  | ok built =>
    simp only [walkStandalone_eq, hbuilt, bind_eq_ok, countChain_eq_ok] at h
    obtain ⟨_, _, rfl, hw⟩ := h
    obtain ⟨k, hk, rfl⟩ := walks_of_walk hw
    exact ⟨built, k, rfl, hk, Stats.add_assoc ..⟩
termination_by 2 * e.weight + 1
decreasing_by
  have := Chain.weight_build_le hbuilt
  simp only [Element.weightSum] at this
  omega

theorem walksElement_of_walkElement {d : Nat} {e e' : Element} {s t : Stats}
    (h : walkElement d e s = .ok (e', t)) : ∃ k, WalksElement d e k e' ∧ t = s + k := by
  match e with
  | ⟨n, as, cs, c, sp⟩ =>
    simp only [walkElement, bind_eq_ok, pure_eq_ok, lift_eq_ok, enter_eq_ok] at h
    obtain ⟨_, _, ⟨hs, rfl⟩, _, _, ⟨hd, rfl, rfl⟩, as', u, ha, _, _, ⟨hc, rfl⟩, cs', v, hw, rfl,
      rfl⟩ := h
    obtain ⟨k, hk, rfl⟩ := walksAttributes_of_walkAttributes ha
    obtain ⟨l, hl, rfl⟩ := walksChildren_of_walkChildren hw
    exact ⟨k + l, .mk hs hd hk hc hl, Stats.add_assoc ..⟩
termination_by 2 * e.weight
decreasing_by all_goals simp only [Element.weight]; omega

theorem walksFragment_of_walkFragment {d : Nat} {f f' : Fragment} {s t : Stats}
    (h : walkFragment d f s = .ok (f', t)) : ∃ k, WalksFragment d f k f' ∧ t = s + k := by
  match f with
  | ⟨cs, p, sp⟩ =>
    simp only [walkFragment, bind_eq_ok, pure_eq_ok, lift_eq_ok, enter_eq_ok] at h
    obtain ⟨_, _, ⟨hs, rfl⟩, _, _, ⟨hd, rfl, rfl⟩, _, _, ⟨hc, rfl⟩, cs', u, hw, rfl, rfl⟩ := h
    obtain ⟨k, hk, rfl⟩ := walksChildren_of_walkChildren hw
    exact ⟨k, .mk hs hd hc hk, rfl⟩
termination_by 2 * f.weight
decreasing_by all_goals simp only [Fragment.weight]; omega

theorem walksAttributes_of_walkAttributes {d : Nat} {as as' : List Attribute} {s t : Stats}
    (h : walkAttributes d as s = .ok (as', t)) : ∃ k, WalksAttributes d as k as' ∧ t = s + k := by
  match as with
  | [] =>
    simp only [walkAttributes, pure_eq_ok] at h
    obtain ⟨rfl, rfl⟩ := h
    exact ⟨0, .nil, rfl⟩
  | ⟨_, none, _⟩ :: as =>
    simp only [walkAttributes, bind_eq_ok, pure_eq_ok] at h
    obtain ⟨w, u, hw, rfl, rfl⟩ := h
    obtain ⟨k, hk, rfl⟩ := walksAttributes_of_walkAttributes hw
    exact ⟨k, .bare hk, rfl⟩
  | ⟨_, some v, _⟩ :: as =>
    simp only [walkAttributes, bind_eq_ok, pure_eq_ok] at h
    obtain ⟨v', u, hv, w, _, hw, rfl, rfl⟩ := h
    obtain ⟨k, hk, rfl⟩ := walksValue_of_walkValue hv
    obtain ⟨l, hl, rfl⟩ := walksAttributes_of_walkAttributes hw
    exact ⟨k + l, .valued hk hl, Stats.add_assoc ..⟩
termination_by 2 * Attribute.weightAll as
decreasing_by all_goals simp only [Attribute.weightAll, Attribute.weight]; omega

theorem walksValue_of_walkValue {d : Nat} {v v' : AttrValue} {s t : Stats}
    (h : walkValue d v s = .ok (v', t)) : ∃ k, WalksValue d v k v' ∧ t = s + k := by
  match v with
  | .text .. | .container none _ =>
    simp only [walkValue, pure_eq_ok] at h
    obtain ⟨rfl, rfl⟩ := h
    exact ⟨0, by constructor, rfl⟩
  | .container (some e) _ =>
    simp only [walkValue, bind_eq_ok, pure_eq_ok] at h
    obtain ⟨w, u, hw, rfl, rfl⟩ := h
    obtain ⟨k, hk, rfl⟩ := walks_of_walk hw
    exact ⟨k, .container hk, rfl⟩
  | .element elem =>
    cases hb : elem.branch? with
    | none =>
      simp only [walkValue, hb, bind_eq_ok, pure_eq_ok] at h
      obtain ⟨w, u, hw, rfl, rfl⟩ := h
      obtain ⟨k, hk, rfl⟩ := walksElement_of_walkElement hw
      exact ⟨k, .element hb hk, rfl⟩
    | some b =>
      cases b with
      | when =>
        simp only [walkValue, hb, bind_eq_ok, pure_eq_ok] at h
        obtain ⟨w, u, hw, rfl, rfl⟩ := h
        obtain ⟨built, k, hbuilt, hk, rfl⟩ := walks_of_walkStandalone hw
        exact ⟨chainStats 0 + k, .standalone hb hbuilt hk, rfl⟩
      | elseWhen | otherwise => simp only [walkValue, hb, throw_eq_ok] at h
termination_by 2 * v.weight
decreasing_by all_goals simp only [AttrValue.weight]; omega

theorem walksChildren_of_walkChildren {d : Nat} {cs cs' : List Child} {s t : Stats}
    (h : walkChildren d cs s = .ok (cs', t)) : ∃ k, WalksChildren d cs k cs' ∧ t = s + k := by
  match cs with
  | [] =>
    simp only [walkChildren, pure_eq_ok] at h
    obtain ⟨rfl, rfl⟩ := h
    exact ⟨0, .nil, rfl⟩
  | .text .. :: cs =>
    simp only [walkChildren, bind_eq_ok, pure_eq_ok] at h
    obtain ⟨w, u, hw, rfl, rfl⟩ := h
    obtain ⟨k, hk, rfl⟩ := walksChildren_of_walkChildren hw
    exact ⟨k, .text hk, rfl⟩
  | .container none _ :: cs =>
    simp only [walkChildren, bind_eq_ok, pure_eq_ok] at h
    obtain ⟨w, u, hw, rfl, rfl⟩ := h
    obtain ⟨k, hk, rfl⟩ := walksChildren_of_walkChildren hw
    exact ⟨k, .empty hk, rfl⟩
  | .container (some e) _ :: cs =>
    simp only [walkChildren, bind_eq_ok, pure_eq_ok] at h
    obtain ⟨e', u, he, w, v, hw, rfl, rfl⟩ := h
    obtain ⟨k, hk, rfl⟩ := walks_of_walk he
    obtain ⟨l, hl, rfl⟩ := walksChildren_of_walkChildren hw
    exact ⟨k + l, .container hk hl, Stats.add_assoc ..⟩
  | .fragment f :: cs =>
    simp only [walkChildren, bind_eq_ok, pure_eq_ok] at h
    obtain ⟨f', u, hf, w, v, hw, rfl, rfl⟩ := h
    obtain ⟨k, hk, rfl⟩ := walksFragment_of_walkFragment hf
    obtain ⟨l, hl, rfl⟩ := walksChildren_of_walkChildren hw
    exact ⟨k + l, .fragment hk hl, Stats.add_assoc ..⟩
  | .element elem :: cs =>
    cases hb : elem.branch? with
    | none =>
      simp only [walkChildren, hb, bind_eq_ok, pure_eq_ok] at h
      obtain ⟨e', u, he, w, v, hw, rfl, rfl⟩ := h
      obtain ⟨k, hk, rfl⟩ := walksElement_of_walkElement he
      obtain ⟨l, hl, rfl⟩ := walksChildren_of_walkChildren hw
      exact ⟨k + l, .element hb hk hl, Stats.add_assoc ..⟩
    | some b =>
      cases b with
      | when =>
        rw [walkChildren_chain d hb] at h
        cases hbuilt : (Chain.build (d + 1) elem (Chain.takeLinks cs).1).result with
        | error x => simp only [hbuilt, throw_eq_ok] at h
        | ok built =>
          simp only [hbuilt, bind_eq_ok, pure_eq_ok, countChain_eq_ok] at h
          obtain ⟨_, _, rfl, e', u, he, w, v, hw, rfl, rfl⟩ := h
          obtain ⟨k, hk, rfl⟩ := walks_of_walk he
          obtain ⟨l, hl, rfl⟩ := walksChildren_of_walkChildren hw
          exact ⟨_, .chain hb hbuilt hk hl, by simp only [Stats.add_assoc]⟩
      | elseWhen | otherwise => simp only [walkChildren, hb, throw_eq_ok] at h
termination_by 2 * Child.weightAll cs
decreasing_by
  all_goals simp only [Child.weightAll, Child.weight]
  all_goals first
    | omega
    | (have hb := Chain.weight_build_le hbuilt; have ht := Chain.weight_takeLinks cs; omega)

end

/-! Statements and programs -/

omit [NestingLimit] in
theorem expr?_of_isSentinelImport {x : Statement} (h : x.isSentinelImport = true) :
    x.expr? = none := by
  cases x with
  | imports => rfl
  | _ => cases h

inductive WalksStatement : Statement → Stats → Statement → Prop where
  | imports {decl} : WalksStatement (.imports decl) 0 (.imports decl)
  | binding {kind name e k e'} : Walks 0 e k e' →
      WalksStatement (.binding kind name e) k (.binding kind name e')
  | exportDefault {e k e'} : Walks 0 e k e' → WalksStatement (.exportDefault e) k (.exportDefault e')
  | expr {e k e'} : Walks 0 e k e' → WalksStatement (.expr e) k (.expr e')

theorem walksStatement_of_walkStatement {x x' : Statement} {s t : Stats}
    (h : walkStatement x s = .ok (x', t)) : ∃ k, WalksStatement x k x' ∧ t = s + k := by
  cases x with
  | imports decl =>
    simp only [walkStatement, pure_eq_ok] at h
    obtain ⟨rfl, rfl⟩ := h
    exact ⟨0, .imports, rfl⟩
  | binding kind name e =>
    simp only [walkStatement, bind_eq_ok, pure_eq_ok] at h
    obtain ⟨e', u, he, rfl, rfl⟩ := h
    obtain ⟨k, hk, rfl⟩ := walks_of_walk he
    exact ⟨k, .binding hk, rfl⟩
  | exportDefault e =>
    simp only [walkStatement, bind_eq_ok, pure_eq_ok] at h
    obtain ⟨e', u, he, rfl, rfl⟩ := h
    obtain ⟨k, hk, rfl⟩ := walks_of_walk he
    exact ⟨k, .exportDefault hk, rfl⟩
  | expr e =>
    simp only [walkStatement, bind_eq_ok, pure_eq_ok] at h
    obtain ⟨e', u, he, rfl, rfl⟩ := h
    obtain ⟨k, hk, rfl⟩ := walks_of_walk he
    exact ⟨k, .expr hk, rfl⟩

inductive WalksStatements : List (Spanned Statement) → Stats → List (Spanned Statement) → Prop where
  | nil : WalksStatements [] 0 []
  | removed {x xs k xs'} : x.val.isSentinelImport = true → WalksStatements xs k xs' →
      WalksStatements (x :: xs) (⟨0, 0, 1⟩ + k) xs'
  | kept {x xs k l v xs'} : x.val.isSentinelImport = false → WalksStatement x.val k v →
      WalksStatements xs l xs' → WalksStatements (x :: xs) (k + l) (⟨v, x.span⟩ :: xs')

theorem walksStatements_of_walkStatements {xs xs' : List (Spanned Statement)} {s t : Stats}
    (h : walkStatements xs s = .ok (xs', t)) : ∃ k, WalksStatements xs k xs' ∧ t = s + k := by
  induction xs generalizing s xs' t with
  | nil =>
    simp only [walkStatements, pure_eq_ok] at h
    obtain ⟨rfl, rfl⟩ := h
    exact ⟨0, .nil, rfl⟩
  | cons x xs ih =>
    cases hs : x.val.isSentinelImport with
    | true =>
      simp only [walkStatements, hs, ↓reduceIte, bind_eq_ok] at h
      obtain ⟨_, u, hu, hw⟩ := h
      obtain rfl : u = s + ⟨0, 0, 1⟩ := by
        cases hu
        rfl
      obtain ⟨k, hk, rfl⟩ := ih hw
      exact ⟨_, .removed hs hk, Stats.add_assoc ..⟩
    | false =>
      simp only [walkStatements, hs, Bool.false_eq_true, ↓reduceIte, bind_eq_ok, pure_eq_ok] at h
      obtain ⟨v, u, hv, w, _, hw, rfl, rfl⟩ := h
      obtain ⟨k, hk, rfl⟩ := walksStatement_of_walkStatement hv
      obtain ⟨l, hl, rfl⟩ := ih hw
      exact ⟨_, .kept hs hk hl, Stats.add_assoc ..⟩

/-! What has a derivation is walked. -/

mutual

theorem Walks.walk_eq {d e k e'} : Walks d e k e' → ∀ s, walk d e s = .ok (e', s + k)
  | .literal, s | .ident, s => by simp [walk, pure_eq_ok]
  | .member h, s => by
    simp only [walk, bind_eq_ok, pure_eq_ok]
    exact ⟨_, _, h.walk_eq s, rfl, rfl⟩
  | .call h hs, s => by
    simp only [walk, bind_eq_ok, pure_eq_ok]
    exact ⟨_, _, h.walk_eq s, _, _, hs.walkAll_eq _, rfl, Stats.add_assoc ..⟩
  | .unary h, s => by
    simp only [walk, bind_eq_ok, pure_eq_ok]
    exact ⟨_, _, h.walk_eq s, rfl, rfl⟩
  | .binary h h', s => by
    simp only [walk, bind_eq_ok, pure_eq_ok]
    exact ⟨_, _, h.walk_eq s, _, _, h'.walk_eq _, rfl, Stats.add_assoc ..⟩
  | .conditional h hd hl h' hl' h'', s => by
    simp only [walk, bind_eq_ok, pure_eq_ok, enter_eq_ok, armDepth_eq_ok]
    refine ⟨_, _, h.walk_eq s, _, _, ⟨hd, rfl, rfl⟩, _, _, ⟨hl, rfl⟩, _, _, h'.walk_eq _, _, _,
      ⟨hl', rfl⟩, _, _, h''.walk_eq _, rfl, ?_⟩
    simp only [Stats.add_assoc]
  | .element hb h, s => by
    simp only [walk, hb, bind_eq_ok, pure_eq_ok]
    exact ⟨_, _, h.walkElement_eq s, rfl, rfl⟩
  | .standalone hb hbuilt h, s => by
    simp only [walk, hb, walkStandalone_eq, hbuilt, bind_eq_ok, countChain_eq_ok]
    refine ⟨(), _, rfl, (h.walk_eq _).trans ?_⟩
    rw [Stats.add_assoc]
  | .fragment h, s => by
    simp only [walk, bind_eq_ok, pure_eq_ok]
    exact ⟨_, _, h.walkFragment_eq s, rfl, rfl⟩

theorem WalksAll.walkAll_eq {d es k es'} :
    WalksAll d es k es' → ∀ s, walkAll d es s = .ok (es', s + k)
  | .nil, s => by simp [walkAll, pure_eq_ok]
  | .cons h hs, s => by
    simp only [walkAll, bind_eq_ok, pure_eq_ok]
    exact ⟨_, _, h.walk_eq s, _, _, hs.walkAll_eq _, rfl, Stats.add_assoc ..⟩

theorem WalksElement.walkElement_eq {d e k e'} :
    WalksElement d e k e' → ∀ s, walkElement d e s = .ok (e', s + k)
  | .mk hs hd ha hc h, s => by
    simp only [walkElement, bind_eq_ok, pure_eq_ok, lift_eq_ok, enter_eq_ok]
    exact ⟨(), _, ⟨hs, rfl⟩, _, _, ⟨hd, rfl, rfl⟩, _, _, ha.walkAttributes_eq s, (), _, ⟨hc, rfl⟩,
      _, _, h.walkChildren_eq _, rfl, Stats.add_assoc ..⟩

theorem WalksFragment.walkFragment_eq {d f k f'} :
    WalksFragment d f k f' → ∀ s, walkFragment d f s = .ok (f', s + k)
  | .mk hs hd hc h, s => by
    simp only [walkFragment, bind_eq_ok, pure_eq_ok, lift_eq_ok, enter_eq_ok]
    exact ⟨(), _, ⟨hs, rfl⟩, _, _, ⟨hd, rfl, rfl⟩, (), _, ⟨hc, rfl⟩, _, _, h.walkChildren_eq s,
      rfl, rfl⟩

theorem WalksAttributes.walkAttributes_eq {d as k as'} :
    WalksAttributes d as k as' → ∀ s, walkAttributes d as s = .ok (as', s + k)
  | .nil, s => by simp [walkAttributes, pure_eq_ok]
  | .bare h, s => by
    simp only [walkAttributes, bind_eq_ok, pure_eq_ok]
    exact ⟨_, _, h.walkAttributes_eq s, rfl, rfl⟩
  | .valued h hs, s => by
    simp only [walkAttributes, bind_eq_ok, pure_eq_ok]
    exact ⟨_, _, h.walkValue_eq s, _, _, hs.walkAttributes_eq _, rfl, Stats.add_assoc ..⟩

theorem WalksValue.walkValue_eq {d v k v'} :
    WalksValue d v k v' → ∀ s, walkValue d v s = .ok (v', s + k)
  | .text, s | .empty, s => by simp [walkValue, pure_eq_ok]
  | .container h, s => by
    simp only [walkValue, bind_eq_ok, pure_eq_ok]
    exact ⟨_, _, h.walk_eq s, rfl, rfl⟩
  | .element hb h, s => by
    simp only [walkValue, hb, bind_eq_ok, pure_eq_ok]
    exact ⟨_, _, h.walkElement_eq s, rfl, rfl⟩
  | .standalone hb hbuilt h, s => by
    simp only [walkValue, hb, walkStandalone_eq, hbuilt, bind_eq_ok, pure_eq_ok, countChain_eq_ok]
    exact ⟨_, _, ⟨(), _, rfl, h.walk_eq _⟩, rfl, Stats.add_assoc ..⟩

theorem WalksChildren.walkChildren_eq {d cs k cs'} :
    WalksChildren d cs k cs' → ∀ s, walkChildren d cs s = .ok (cs', s + k)
  | .nil, s => by simp [walkChildren, pure_eq_ok]
  | .text h, s | .empty h, s => by
    simp only [walkChildren, bind_eq_ok, pure_eq_ok]
    exact ⟨_, _, h.walkChildren_eq s, rfl, rfl⟩
  | .container h hs, s => by
    simp only [walkChildren, bind_eq_ok, pure_eq_ok]
    exact ⟨_, _, h.walk_eq s, _, _, hs.walkChildren_eq _, rfl, Stats.add_assoc ..⟩
  | .fragment h hs, s => by
    simp only [walkChildren, bind_eq_ok, pure_eq_ok]
    exact ⟨_, _, h.walkFragment_eq s, _, _, hs.walkChildren_eq _, rfl, Stats.add_assoc ..⟩
  | .element hb h hs, s => by
    simp only [walkChildren, hb, bind_eq_ok, pure_eq_ok]
    exact ⟨_, _, h.walkElement_eq s, _, _, hs.walkChildren_eq _, rfl, Stats.add_assoc ..⟩
  | .chain hb hbuilt h hs, s => by
    simp only [walkChildren_chain _ hb, hbuilt, bind_eq_ok, pure_eq_ok, countChain_eq_ok]
    refine ⟨(), _, rfl, _, _, h.walk_eq _, _, _, hs.walkChildren_eq _, rfl, ?_⟩
    simp only [Stats.add_assoc]

end

theorem WalksStatement.walkStatement_eq {x k x'} (h : WalksStatement x k x') (s : Stats) :
    walkStatement x s = .ok (x', s + k) := by
  cases h with
  | imports => simp [walkStatement, pure_eq_ok]
  | binding h | exportDefault h | expr h =>
    simp only [walkStatement, bind_eq_ok, pure_eq_ok]
    exact ⟨_, _, h.walk_eq s, rfl, rfl⟩

theorem WalksStatements.walkStatements_eq {xs k xs'} (h : WalksStatements xs k xs') (s : Stats) :
    walkStatements xs s = .ok (xs', s + k) := by
  induction h generalizing s with
  | nil => simp [walkStatements, pure_eq_ok]
  | removed hx _ ih =>
    simp only [walkStatements, hx, ↓reduceIte, bind_eq_ok]
    refine ⟨(), s + ⟨0, 0, 1⟩, rfl, (ih _).trans ?_⟩
    rw [Stats.add_assoc]
  | kept hx h _ ih =>
    simp only [walkStatements, hx, Bool.false_eq_true, ↓reduceIte, bind_eq_ok, pure_eq_ok]
    exact ⟨_, _, h.walkStatement_eq s, _, _, ih _, rfl, Stats.add_assoc ..⟩

end Rewrite

/-- A rewrite changes the statements alone, and counts what their walk counts. -/
theorem Program.walksStatements_of_rewrite [NestingLimit] {p q : Program} {counted : Stats}
    (h : p.rewrite = .ok (q, counted)) :
    q = { p with statements := q.statements } ∧
      Rewrite.WalksStatements p.statements counted q.statements := by
  cases hw : (Rewrite.walkStatements p.statements).run .zero with
  | error x => simp [Program.rewrite, hw, bind, Except.bind] at h
  | ok r =>
    obtain ⟨xs, t⟩ := r
    simp only [Program.rewrite, hw, bind, Except.bind, pure, Except.pure, Except.ok.injEq,
      Prod.mk.injEq] at h
    obtain ⟨rfl, rfl⟩ := h
    obtain ⟨k, hk, rfl⟩ := Rewrite.walksStatements_of_walkStatements hw
    refine ⟨rfl, ?_⟩
    rw [show Stats.zero + k = k from Stats.zero_add k]
    exact hk

/-- A rewrite succeeds exactly where there is a derivation for the statements. -/
theorem Program.rewrite_eq_ok_iff [NestingLimit] {p q : Program} {counted : Stats} :
    p.rewrite = .ok (q, counted) ↔
      q = { p with statements := q.statements } ∧
        Rewrite.WalksStatements p.statements counted q.statements := by
  constructor
  · exact walksStatements_of_rewrite
  · rintro ⟨hq, h⟩
    have hw : (Rewrite.walkStatements p.statements).run .zero = .ok (q.statements, 0 + counted) :=
      h.walkStatements_eq 0
    simp only [rewrite, hw, bind, Except.bind, pure, Except.pure, Stats.zero_add]
    rw [← hq]

end BranchMarkup
