import BranchMarkup.Proofs.Walk
/-! Where a walk fails. `Steps` says to which parts a walk goes from where it is and at which level,
`Raises` what it can find wrong there; a walk that fails has come by steps to a place that raises
its error. -/
namespace BranchMarkup
namespace Rewrite

/-- What a walk is at. -/
inductive Site where
  | expr (e : Expr)
  | all (es : List Expr)
  | element (e : Element)
  | fragment (f : Fragment)
  | attributes (as : List Attribute)
  | value (v : AttrValue)
  | children (cs : List Child)

/-- `Steps d m d' n`: from `m` at level `d` a walk goes to `n` at level `d'`. -/
inductive Steps [NestingLimit] : Nat → Site → Nat → Site → Prop where
  | member {d o p s} : Steps d (.expr (.member o p s)) d (.expr o)
  | callee {d c as s} : Steps d (.expr (.call c as s)) d (.expr c)
  | arguments {d c as s} : Steps d (.expr (.call c as s)) d (.all as)
  | unary {d op o s} : Steps d (.expr (.unary op o s)) d (.expr o)
  | left {d op x y s} : Steps d (.expr (.binary op x y s)) d (.expr x)
  | right {d op x y s} : Steps d (.expr (.binary op x y s)) d (.expr y)
  | test {d t c a p s} : Steps d (.expr (.conditional t c a p s)) d (.expr t)
  | consequent {d t c a p s d'} : ArmLevel (d + 1) c d' →
      Steps d (.expr (.conditional t c a p s)) d' (.expr c)
  | alternate {d t c a p s d'} : ArmLevel (d + 1) a d' →
      Steps d (.expr (.conditional t c a p s)) d' (.expr a)
  | element {d e} : e.branch? = none → Steps d (.expr (.element e)) d (.element e)
  | standalone {d e built} : e.branch? = some .when →
      (Chain.build (d + 1) e []).result = .ok built → Steps d (.expr (.element e)) d (.expr built)
  | fragment {d f} : Steps d (.expr (.fragment f)) d (.fragment f)
  | first {d e es} : Steps d (.all (e :: es)) d (.expr e)
  | others {d e es} : Steps d (.all (e :: es)) d (.all es)
  | attributes {d e} : e.branch? = none → Steps d (.element e) (d + 1) (.attributes e.attrs)
  | elementChildren {d e} : e.branch? = none → Steps d (.element e) (d + 1) (.children e.children)
  | fragmentChildren {d f} : Steps d (.fragment f) (d + 1) (.children f.children)
  | value {d n v s as} : Steps d (.attributes (⟨n, some v, s⟩ :: as)) d (.value v)
  | otherAttributes {d a as} : Steps d (.attributes (a :: as)) d (.attributes as)
  | valueExpr {d e s} : Steps d (.value (.container (some e) s)) d (.expr e)
  | valueElement {d e} : e.branch? = none → Steps d (.value (.element e)) d (.element e)
  | valueStandalone {d e built} : e.branch? = some .when →
      (Chain.build (d + 1) e []).result = .ok built → Steps d (.value (.element e)) d (.expr built)
  | childExpr {d e s cs} : Steps d (.children (.container (some e) s :: cs)) d (.expr e)
  | childFragment {d f cs} : Steps d (.children (.fragment f :: cs)) d (.fragment f)
  | childElement {d e cs} : e.branch? = none →
      Steps d (.children (.element e :: cs)) d (.element e)
  | otherChildren {d c cs} : c.branch? = none → Steps d (.children (c :: cs)) d (.children cs)
  | chain {d e cs built} : e.branch? = some .when →
      (Chain.build (d + 1) e (Chain.takeLinks cs).1).result = .ok built →
      Steps d (.children (.element e :: cs)) d (.expr built)
  | afterChain {d e cs} : e.branch? = some .when →
      Steps d (.children (.element e :: cs)) d (.children (Chain.takeLinks cs).2)

/-- `Raises d n x`: a walk that is at `n` at level `d` can fail there with `x`. -/
inductive Raises [NestingLimit] : Nat → Site → RewriteError → Prop where
  | conditional {d t c a p s} : ¬ NestingLimit.Admits (d + 1) →
      Raises d (.expr (.conditional t c a p s)) ⟨.tooDeep, s, none, none⟩
  | consequent {d t c a p s} : isParenthesizedArm c = true → ¬ NestingLimit.Admits (d + 1 + 1) →
      Raises d (.expr (.conditional t c a p s)) ⟨.tooDeep, c.span, none, none⟩
  | alternate {d t c a p s} : isParenthesizedArm a = true → ¬ NestingLimit.Admits (d + 1 + 1) →
      Raises d (.expr (.conditional t c a p s)) ⟨.tooDeep, a.span, none, none⟩
  | orphan {d e b} : e.branch? = some b → b ≠ .when → Raises d (.expr (.element e)) (orphan b e)
  | standalone {d e x} : e.branch? = some .when → (Chain.build (d + 1) e []).result = .error x →
      Raises d (.expr (.element e)) x
  | element {d e x} : Chain.checkElement e = .error x → Raises d (.element e) x
  | elementLevel {d e} : ¬ NestingLimit.Admits (d + 1) →
      Raises d (.element e) ⟨.tooDeep, e.span, none, none⟩
  | elementChains {d e x} : Chain.check none e.children = .error x → Raises d (.element e) x
  | fragment {d f x} : Chain.checkFragment f = .error x → Raises d (.fragment f) x
  | fragmentLevel {d f} : ¬ NestingLimit.Admits (d + 1) →
      Raises d (.fragment f) ⟨.tooDeep, f.span, none, none⟩
  | fragmentChains {d f x} : Chain.check none f.children = .error x → Raises d (.fragment f) x
  | valueOrphan {d e b} : e.branch? = some b → b ≠ .when →
      Raises d (.value (.element e)) (Rewrite.orphan b e)
  | valueStandalone {d e x} : e.branch? = some .when →
      (Chain.build (d + 1) e []).result = .error x → Raises d (.value (.element e)) x
  | childOrphan {d e b cs} : e.branch? = some b → b ≠ .when →
      Raises d (.children (.element e :: cs)) (Rewrite.orphan b e)
  | chain {d e x cs} : e.branch? = some .when →
      (Chain.build (d + 1) e (Chain.takeLinks cs).1).result = .error x →
      Raises d (.children (.element e :: cs)) x

/-- A walk that starts at a site fails. -/
inductive Fails [NestingLimit] : Nat → Site → RewriteError → Prop where
  | here {d n x} : Raises d n x → Fails d n x
  | step {d n d' n' x} : Steps d n d' n' → Fails d' n' x → Fails d n x

/-! A step of a walk that fails, taken apart. -/

section
variable {α β : Type} {s : Stats} {x : RewriteError}

theorem bind_eq_error {m : Rewrite α} {f : α → Rewrite β} :
    (m >>= f) s = .error x ↔ m s = .error x ∨ ∃ a t, m s = .ok (a, t) ∧ f a t = .error x := by
  simp only [bind, StateT.bind]
  cases m s with
  | error y => simp [Except.bind]
  | ok r =>
    obtain ⟨a, t⟩ := r
    constructor
    · exact fun h => .inr ⟨a, t, rfl, h⟩
    · rintro (h | ⟨a', t', h, hf⟩)
      · cases h
      · cases h
        exact hf

theorem pure_eq_error {a : α} : (pure a : Rewrite α) s = .error x ↔ False := by
  show Except.ok (a, s) = .error x ↔ False
  simp

theorem throw_eq_error {y : RewriteError} : (throw y : Rewrite α) s = .error x ↔ y = x := by
  simp [throw, throwThe, MonadExceptOf.throw, StateT.lift, bind, Except.bind]

theorem lift_eq_error {m : Except RewriteError α} :
    (liftM m : Rewrite α) s = .error x ↔ m = .error x := by
  cases m <;> simp [liftM, monadLift, MonadLift.monadLift, StateT.lift, bind, Except.bind, pure,
    Except.pure]

theorem enter_eq_error [NestingLimit] {d : Nat} {span : Span} :
    enter d span s = .error x ↔
      ¬ NestingLimit.Admits (d + 1) ∧ ⟨.tooDeep, span, none, none⟩ = x := by
  unfold enter
  split
  · next h => simp [pure_eq_error, h]
  · next h => simp [throw_eq_error, h]

theorem armDepth_eq_error [NestingLimit] {d : Nat} {arm : Expr} :
    armDepth d arm s = .error x ↔
      isParenthesizedArm arm = true ∧ ¬ NestingLimit.Admits (d + 1) ∧
        ⟨.tooDeep, arm.span, none, none⟩ = x := by
  unfold armDepth
  split
  · next h => simp [enter_eq_error, h]
  · next h => simp [pure_eq_error, h]

theorem countChain_eq_error {n : Nat} : countChain n s = .error x ↔ False := by
  show Except.ok ((), { s with chains := s.chains + 1, branches := s.branches + n }) = .error x ↔ False
  simp

end

variable [NestingLimit]

/-! A walk that fails has come to a place that raises its error. The recursion is that of the walk. -/

mutual

theorem fails_of_walk {d : Nat} {e : Expr} {s : Stats} {x : RewriteError}
    (h : walk d e s = .error x) : Fails d (.expr e) x := by
  match e with
  | .literal .. | .ident .. => simp only [walk, pure_eq_error] at h
  | .member o _ _ =>
    simp only [walk, bind_eq_error, pure_eq_error, and_false, exists_false, or_false] at h
    exact .step .member (fails_of_walk h)
  | .call c as _ =>
    simp only [walk, bind_eq_error, pure_eq_error, and_false, exists_false, or_false] at h
    rcases h with h | ⟨_, _, -, h⟩
    · exact .step .callee (fails_of_walk h)
    · exact .step .arguments (fails_of_walkAll h)
  | .unary _ o _ =>
    simp only [walk, bind_eq_error, pure_eq_error, and_false, exists_false, or_false] at h
    exact .step .unary (fails_of_walk h)
  | .binary _ y z _ =>
    simp only [walk, bind_eq_error, pure_eq_error, and_false, exists_false, or_false] at h
    rcases h with h | ⟨_, _, -, h⟩
    · exact .step .left (fails_of_walk h)
    · exact .step .right (fails_of_walk h)
  | .conditional t c a _ _ =>
    simp only [walk, bind_eq_error, pure_eq_error, enter_eq_error, enter_eq_ok, armDepth_eq_error,
      armDepth_eq_ok, and_false, exists_false, or_false] at h
    rcases h with h | ⟨_, _, -, ⟨hd, rfl⟩ | ⟨_, _, ⟨-, rfl, -⟩, h⟩⟩
    · exact .step .test (fails_of_walk h)
    · exact .here (.conditional hd)
    rcases h with ⟨hc, hd, rfl⟩ | ⟨_, _, ⟨hl, -⟩, h | ⟨_, _, -, h⟩⟩
    · exact .here (.consequent hc hd)
    · exact .step (.consequent hl) (fails_of_walk h)
    rcases h with ⟨ha, hd, rfl⟩ | ⟨_, _, ⟨hl, -⟩, h⟩
    · exact .here (.alternate ha hd)
    · exact .step (.alternate hl) (fails_of_walk h)
  | .element elem =>
    cases hb : elem.branch? with
    | none =>
      simp only [walk, hb, bind_eq_error, pure_eq_error, and_false, exists_false, or_false] at h
      exact .step (.element hb) (fails_of_walkElement hb h)
    | some b =>
      cases b with
      | when =>
        simp only [walk, hb] at h
        rcases fails_of_walkStandalone h with hx | ⟨built, hbuilt, hf⟩
        · exact .here (.standalone hb hx)
        · exact .step (.standalone hb hbuilt) hf
      | elseWhen | otherwise =>
        simp only [walk, hb, throw_eq_error] at h
        subst h
        exact .here (.orphan hb (by decide))
  | .fragment frag =>
    simp only [walk, bind_eq_error, pure_eq_error, and_false, exists_false, or_false] at h
    exact .step .fragment (fails_of_walkFragment h)
termination_by 2 * e.weight
decreasing_by all_goals simp only [Expr.weight]; omega

theorem fails_of_walkAll {d : Nat} {es : List Expr} {s : Stats} {x : RewriteError}
    (h : walkAll d es s = .error x) : Fails d (.all es) x := by
  match es with
  | [] => simp only [walkAll, pure_eq_error] at h
  | e :: es =>
    simp only [walkAll, bind_eq_error, pure_eq_error, and_false, exists_false, or_false] at h
    rcases h with h | ⟨_, _, -, h⟩
    · exact .step .first (fails_of_walk h)
    · exact .step .others (fails_of_walkAll h)
termination_by 2 * Expr.weightAll es
decreasing_by all_goals simp only [Expr.weightAll]; omega

theorem fails_of_walkStandalone {d : Nat} {e : Element} {s : Stats} {x : RewriteError}
    (h : walkStandalone d e s = .error x) :
    (Chain.build (d + 1) e []).result = .error x ∨
      ∃ built, (Chain.build (d + 1) e []).result = .ok built ∧ Fails d (.expr built) x := by
  cases hbuilt : (Chain.build (d + 1) e []).result with
  | error y =>
    simp only [walkStandalone_eq, hbuilt, throw_eq_error] at h
    exact .inl (congrArg _ h)
  | ok built =>
    simp only [walkStandalone_eq, hbuilt, bind_eq_error, countChain_eq_error, false_or] at h
    obtain ⟨_, _, -, h⟩ := h
    exact .inr ⟨built, rfl, fails_of_walk h⟩
termination_by 2 * e.weight + 1
decreasing_by
  have := Chain.weight_build_le hbuilt
  simp only [Element.weightSum] at this
  omega

theorem fails_of_walkElement {d : Nat} {e : Element} {s : Stats} {x : RewriteError}
    (hb : e.branch? = none) (h : walkElement d e s = .error x) : Fails d (.element e) x := by
  match e with
  | ⟨n, as, cs, c, sp⟩ =>
    simp only [walkElement, bind_eq_error, pure_eq_error, lift_eq_error, enter_eq_error,
      enter_eq_ok, and_false, exists_false, or_false] at h
    rcases h with h | ⟨_, _, -, ⟨hd, rfl⟩ | ⟨_, _, ⟨-, rfl, -⟩, h⟩⟩
    · exact .here (.element h)
    · exact .here (.elementLevel hd)
    rcases h with h | ⟨_, _, -, h | ⟨_, _, -, h⟩⟩
    · exact .step (.attributes hb) (fails_of_walkAttributes h)
    · exact .here (.elementChains h)
    · exact .step (.elementChildren hb) (fails_of_walkChildren h)
termination_by 2 * e.weight
decreasing_by all_goals simp only [Element.weight]; omega

theorem fails_of_walkFragment {d : Nat} {f : Fragment} {s : Stats} {x : RewriteError}
    (h : walkFragment d f s = .error x) : Fails d (.fragment f) x := by
  match f with
  | ⟨cs, p, sp⟩ =>
    simp only [walkFragment, bind_eq_error, pure_eq_error, lift_eq_error, enter_eq_error,
      enter_eq_ok, and_false, exists_false, or_false] at h
    rcases h with h | ⟨_, _, -, ⟨hd, rfl⟩ | ⟨_, _, ⟨-, rfl, -⟩, h | ⟨_, _, -, h⟩⟩⟩
    · exact .here (.fragment h)
    · exact .here (.fragmentLevel hd)
    · exact .here (.fragmentChains h)
    · exact .step .fragmentChildren (fails_of_walkChildren h)
termination_by 2 * f.weight
decreasing_by all_goals simp only [Fragment.weight]; omega

theorem fails_of_walkAttributes {d : Nat} {as : List Attribute} {s : Stats} {x : RewriteError}
    (h : walkAttributes d as s = .error x) : Fails d (.attributes as) x := by
  match as with
  | [] => simp only [walkAttributes, pure_eq_error] at h
  | ⟨_, none, _⟩ :: as =>
    simp only [walkAttributes, bind_eq_error, pure_eq_error, and_false, exists_false,
      or_false] at h
    exact .step .otherAttributes (fails_of_walkAttributes h)
  | ⟨_, some v, _⟩ :: as =>
    simp only [walkAttributes, bind_eq_error, pure_eq_error, and_false, exists_false,
      or_false] at h
    rcases h with h | ⟨_, _, -, h⟩
    · exact .step .value (fails_of_walkValue h)
    · exact .step .otherAttributes (fails_of_walkAttributes h)
termination_by 2 * Attribute.weightAll as
decreasing_by all_goals simp only [Attribute.weightAll, Attribute.weight]; omega

theorem fails_of_walkValue {d : Nat} {v : AttrValue} {s : Stats} {x : RewriteError}
    (h : walkValue d v s = .error x) : Fails d (.value v) x := by
  match v with
  | .text .. | .container none _ => simp only [walkValue, pure_eq_error] at h
  | .container (some e) _ =>
    simp only [walkValue, bind_eq_error, pure_eq_error, and_false, exists_false, or_false] at h
    exact .step .valueExpr (fails_of_walk h)
  | .element elem =>
    cases hb : elem.branch? with
    | none =>
      simp only [walkValue, hb, bind_eq_error, pure_eq_error, and_false, exists_false,
        or_false] at h
      exact .step (.valueElement hb) (fails_of_walkElement hb h)
    | some b =>
      cases b with
      | when =>
        simp only [walkValue, hb, bind_eq_error, pure_eq_error, and_false, exists_false,
          or_false] at h
        rcases fails_of_walkStandalone h with hx | ⟨built, hbuilt, hf⟩
        · exact .here (.valueStandalone hb hx)
        · exact .step (.valueStandalone hb hbuilt) hf
      | elseWhen | otherwise =>
        simp only [walkValue, hb, throw_eq_error] at h
        subst h
        exact .here (.valueOrphan hb (by decide))
termination_by 2 * v.weight
decreasing_by all_goals simp only [AttrValue.weight]; omega

theorem fails_of_walkChildren {d : Nat} {cs : List Child} {s : Stats} {x : RewriteError}
    (h : walkChildren d cs s = .error x) : Fails d (.children cs) x := by
  match cs with
  | [] => simp only [walkChildren, pure_eq_error] at h
  | .text .. :: cs | .container none _ :: cs =>
    simp only [walkChildren, bind_eq_error, pure_eq_error, and_false, exists_false, or_false] at h
    exact .step (.otherChildren rfl) (fails_of_walkChildren h)
  | .container (some e) _ :: cs =>
    simp only [walkChildren, bind_eq_error, pure_eq_error, and_false, exists_false, or_false] at h
    rcases h with h | ⟨_, _, -, h⟩
    · exact .step .childExpr (fails_of_walk h)
    · exact .step (.otherChildren rfl) (fails_of_walkChildren h)
  | .fragment f :: cs =>
    simp only [walkChildren, bind_eq_error, pure_eq_error, and_false, exists_false, or_false] at h
    rcases h with h | ⟨_, _, -, h⟩
    · exact .step .childFragment (fails_of_walkFragment h)
    · exact .step (.otherChildren rfl) (fails_of_walkChildren h)
  | .element elem :: cs =>
    cases hb : elem.branch? with
    | none =>
      simp only [walkChildren, hb, bind_eq_error, pure_eq_error, and_false, exists_false,
        or_false] at h
      rcases h with h | ⟨_, _, -, h⟩
      · exact .step (.childElement hb) (fails_of_walkElement hb h)
      · exact .step (.otherChildren hb) (fails_of_walkChildren h)
    | some b =>
      cases b with
      | when =>
        rw [walkChildren_chain d hb] at h
        cases hbuilt : (Chain.build (d + 1) elem (Chain.takeLinks cs).1).result with
        | error y =>
          simp only [hbuilt, throw_eq_error] at h
          subst h
          exact .here (.chain hb hbuilt)
        | ok built =>
          simp only [hbuilt, bind_eq_error, pure_eq_error, countChain_eq_error, and_false,
            exists_false, or_false, false_or] at h
          obtain ⟨_, _, -, h | ⟨_, _, -, h⟩⟩ := h
          · exact .step (.chain hb hbuilt) (fails_of_walk h)
          · exact .step (.afterChain hb) (fails_of_walkChildren h)
      | elseWhen | otherwise =>
        simp only [walkChildren, hb, throw_eq_error] at h
        subst h
        exact .here (.childOrphan hb (by decide))
termination_by 2 * Child.weightAll cs
decreasing_by
  all_goals simp only [Child.weightAll, Child.weight]
  all_goals first
    | omega
    | (have hb := Chain.weight_build_le hbuilt; have ht := Chain.weight_takeLinks cs; omega)

end

theorem fails_of_walkStatement {y : Statement} {s : Stats} {x : RewriteError}
    (h : walkStatement y s = .error x) : ∃ e, y.expr? = some e ∧ Fails 0 (.expr e) x := by
  cases y with
  | imports => simp only [walkStatement, pure_eq_error] at h
  | binding _ _ e | exportDefault e | expr e =>
    simp only [walkStatement, bind_eq_error, pure_eq_error, and_false, exists_false, or_false] at h
    exact ⟨e, rfl, fails_of_walk h⟩

theorem fails_of_walkStatements {ys : List (Spanned Statement)} {s : Stats} {x : RewriteError}
    (h : walkStatements ys s = .error x) :
    ∃ y ∈ ys, ∃ e, y.val.expr? = some e ∧ Fails 0 (.expr e) x := by
  induction ys generalizing s with
  | nil => simp only [walkStatements, pure_eq_error] at h
  | cons y ys ih =>
    have tail : ∀ {t}, walkStatements ys t = .error x →
        ∃ z ∈ y :: ys, ∃ e, z.val.expr? = some e ∧ Fails 0 (.expr e) x := by
      intro t ht
      obtain ⟨z, hz, hf⟩ := ih ht
      exact ⟨z, List.mem_cons_of_mem _ hz, hf⟩
    rw [walkStatements] at h
    split at h
    · rw [bind_eq_error] at h
      rcases h with h | ⟨_, _, -, h⟩
      · cases h
      · exact tail h
    · simp only [bind_eq_error, pure_eq_error, and_false, exists_false, or_false] at h
      rcases h with h | ⟨_, _, -, h⟩
      · exact ⟨y, List.mem_cons_self, fails_of_walkStatement h⟩
      · exact tail h

end Rewrite

/-- A rewrite that fails does so in the expression of some statement. -/
theorem Program.fails_of_rewrite [NestingLimit] {p : Program} {x : RewriteError} (h : p.rewrite = .error x) :
    ∃ s ∈ p.statements, ∃ e, s.val.expr? = some e ∧ Rewrite.Fails 0 (.expr e) x := by
  cases hw : (Rewrite.walkStatements p.statements).run .zero with
  | error y =>
    simp only [Program.rewrite, hw, bind, Except.bind, Except.error.injEq] at h
    subst h
    exact Rewrite.fails_of_walkStatements hw
  | ok r => simp [Program.rewrite, hw, bind, Except.bind, pure, Except.pure] at h

end BranchMarkup
