import BranchMarkup.Chain.Weight
/-! What building a chain does, said once: a conditional for every link that has a condition, each
in the alternate of the one before. -/
namespace BranchMarkup

theorem Child.branch?_eq_some {c : Child} {b : Branch} :
    c.branch? = some b ↔ ∃ e, c = .element e ∧ e.branch? = some b := by
  cases c <;> simp [branch?, element?]

theorem Child.isSignificant_of_branch? {c : Child} {b : Branch} (h : c.branch? = some b) :
    c.isSignificant = true := by
  obtain ⟨e, rfl, -⟩ := branch?_eq_some.1 h
  rfl

namespace Chain

/-- The conditional of a chain, and what was found of each link on the way. -/
inductive Builds [NestingLimit] : Nat → Element → List Element → Expr → Prop where
  | last {d e test consequent} : arm d e = .ok (test, consequent) →
      Builds d e [] (conditional e test consequent (.nullAt e.span.after))
  | next {d e link links test consequent alternate} : arm d e = .ok (test, consequent) →
      link.branch? = some .elseWhen → Builds (d + 2) link links alternate →
      Builds d e (link :: links) (conditional e test consequent alternate)
  | otherwise {d e link links test consequent alternate} : arm d e = .ok (test, consequent) →
      link.branch? ≠ some .elseWhen → lastArm link = .ok alternate →
      Builds d e (link :: links) (conditional e test consequent alternate)

theorem builds_of_build [NestingLimit] {d : Nat} {e : Element} {links : List Element} {built : Expr}
    (h : (build d e links).result = .ok built) : Builds d e links built := by
  induction links generalizing d e built with
  | nil =>
    rw [build.eq_def] at h
    cases ha : arm d e with
    | error x => simp [ha] at h
    | ok r =>
      simp only [ha, Except.ok.injEq] at h
      rw [← h]
      exact .last ha
  | cons link links ih =>
    rw [build.eq_def] at h
    cases ha : arm d e with
    | error x => simp [ha] at h
    | ok r =>
      simp only [ha] at h
      split at h
      · next hl =>
        cases hb : (build (d + 2) link links).result with
        | error x => simp [hb, Except.map] at h
        | ok alternate =>
          simp only [hb, Except.map, Except.ok.injEq] at h
          rw [← h]
          exact .next ha hl (ih hb)
      · next hl =>
        cases hb : lastArm link with
        | error x => simp [hb, Except.map] at h
        | ok alternate =>
          simp only [hb, Except.map, Except.ok.injEq] at h
          rw [← h]
          exact .otherwise ha hl hb

theorem Builds.build_eq [NestingLimit] {d e links built} (h : Builds d e links built) :
    (build d e links).result = .ok built := by
  induction h with
  | last ha =>
    rw [build.eq_def]
    simp only [ha]
  | next ha hl _ ih =>
    rw [build.eq_def]
    simp only [ha, hl, ↓reduceIte, ih, Except.map]
  | otherwise ha hl hlast =>
    rw [build.eq_def]
    simp only [ha, hl, ↓reduceIte, hlast, Except.map]

theorem checkElement_eq_ok {e : Element} : checkElement e = .ok () ↔ shapeDefect? e = none := by
  unfold checkElement
  split <;> simp_all

theorem checkFragment_eq_ok {f : Fragment} :
    checkFragment f = .ok () ↔ adjacentText? f.children = none := by
  unfold checkFragment
  split <;> simp_all

theorem shapeDefect?_eq_none {e : Element} :
    shapeDefect? e = none ↔
      e.name.val ≠ "" ∧ (e.selfClosing = true → e.children = []) ∧
        adjacentText? e.children = none := by
  unfold shapeDefect?
  split
  · next hname => simp [hname]
  · next hname =>
    split
    · next hclosing => simp_all
    · next hclosing => simp_all

theorem arm_eq_ok [NestingLimit] {d : Nat} {e : Element} {test consequent : Expr} :
    arm d e = .ok (test, consequent) ↔
      NestingLimit.Admits d ∧ checkElement e = .ok () ∧ condition e = .ok test ∧
        collapse e.children (origin e) = consequent := by
  unfold arm
  by_cases hd : NestingLimit.Admits d
  · cases checkElement e <;> cases condition e <;>
      simp [hd, bind, Except.bind, pure, Except.pure]
  · simp [hd, throw, throwThe, MonadExceptOf.throw, bind, Except.bind]

theorem lastArm_eq_ok {e : Element} {alternate : Expr} :
    lastArm e = .ok alternate ↔
      checkElement e = .ok () ∧ collapse e.children ⟨e.span, .otherwise⟩ = alternate := by
  unfold lastArm
  cases checkElement e <;> simp [Except.map]

/-- What stands in the way of a chain stands in the way of one of its links. -/
theorem build_eq_error [NestingLimit] {d : Nat} {e : Element} {links : List Element} {x : RewriteError}
    (h : (build d e links).result = .error x) :
    ∃ link ∈ e :: links, ((link = e ∨ link.branch? = some .elseWhen) ∧ ∃ d', arm d' link = .error x) ∨
      lastArm link = .error x := by
  induction links generalizing d e with
  | nil =>
    rw [build.eq_def] at h
    cases ha : arm d e with
    | error y =>
      simp only [ha, Except.error.injEq] at h
      exact ⟨e, List.mem_cons_self, .inl ⟨.inl rfl, d, ha.trans (congrArg _ h)⟩⟩
    | ok r => simp [ha] at h
  | cons link links ih =>
    rw [build.eq_def] at h
    cases ha : arm d e with
    | error y =>
      simp only [ha, Except.error.injEq] at h
      exact ⟨e, List.mem_cons_self, .inl ⟨.inl rfl, d, ha.trans (congrArg _ h)⟩⟩
    | ok r =>
      simp only [ha] at h
      split at h
      · next hlink =>
        cases hb : (build (d + 2) link links).result with
        | error y =>
          simp only [hb, Except.map, Except.error.injEq] at h
          obtain ⟨l, hl, hx⟩ := ih (hb.trans (congrArg _ h))
          refine ⟨l, List.mem_cons_of_mem _ hl, hx.imp_left (And.imp_left fun hkind => ?_)⟩
          exact hkind.elim (fun heq => .inr (heq ▸ hlink)) .inr
        | ok alternate => simp [hb, Except.map] at h
      · cases hb : lastArm link with
        | error y =>
          simp only [hb, Except.map, Except.error.injEq] at h
          exact ⟨link, by simp, .inr (hb.trans (congrArg _ h))⟩
        | ok alternate => simp [hb, Except.map] at h

theorem arm_eq_error [NestingLimit] {d : Nat} {e : Element} {x : RewriteError} (h : arm d e = .error x) :
    x.cause = .tooDeep ∨ checkElement e = .error x ∨ condition e = .error x := by
  unfold arm at h
  by_cases hd : NestingLimit.Admits d
  · cases hs : checkElement e with
    | error y => simp_all [bind, Except.bind]
    | ok u =>
      cases hc : condition e with
      | error y => simp_all [bind, Except.bind]
      | ok test => simp [hd, hs, hc, bind, Except.bind, pure, Except.pure] at h
  · simp only [hd, not_false_eq_true, ↓reduceIte, throw, throwThe, MonadExceptOf.throw, bind,
      Except.bind, Except.error.injEq] at h
    exact .inl (by rw [← h])

theorem lastArm_eq_error {e : Element} {x : RewriteError} :
    lastArm e = .error x ↔ checkElement e = .error x := by
  unfold lastArm
  cases checkElement e <;> simp [Except.map]

theorem Builds.eq_conditional [NestingLimit] {d e links built} (h : Builds d e links built) :
    ∃ test consequent alternate, built = conditional e test consequent alternate := by
  cases h <;> exact ⟨_, _, _, rfl⟩

/-- Links as they follow one that carries a condition: none comes after a last one. -/
inductive Links : List Element → Prop where
  | none : Links []
  | next {e es} : e.branch? = some .elseWhen → Links es → Links (e :: es)
  | last {e} : e.branch? = some .otherwise → Links [e]

theorem links_takeLinks (cs : List Child) : Links (takeLinks cs).1 := by
  fun_induction takeLinks cs with
  | case1 => exact .none
  | case2 e cs h links left heq ih =>
    rw [heq] at ih
    exact .next h ih
  | case3 e cs h => exact .last h
  | case4 => exact .none
  | case5 => exact .none
  | case6 c cs _ h links left heq ih =>
    rw [heq] at ih
    exact ih

/-- A child is taken as a link or is left. -/
theorem mem_takeLinks {c : Child} {cs : List Child} :
    c ∈ cs ↔ (∃ link ∈ (takeLinks cs).1, .element link = c) ∨ c ∈ (takeLinks cs).2 := by
  fun_induction takeLinks cs with
  | case1 => simp
  | case2 e cs h links left heq ih =>
    rw [heq] at ih
    simp [ih, or_assoc, eq_comm]
  | case3 e cs h => simp [eq_comm]
  | case4 => simp
  | case5 => simp
  | case6 c' cs _ h links left heq ih =>
    rw [heq] at ih
    simp [ih, or_left_comm]

end Chain
end BranchMarkup
