import BranchMarkup.Proofs.Beyond
import BranchMarkup.Proofs.Standing
/-! A rewrite counts no level that the reader of its result does not count. A walk that succeeds
under one limit is the same walk under every other that the printed form of its result fits in, and
so what a limit refuses could not have been read. -/
namespace BranchMarkup

namespace Rewrite

variable {source : NestingLimit}

theorem ArmLevel.add_levels_le {d da : Nat} {a a' : Expr} {k : Stats} (hl : ArmLevel d a da)
    (h : Walks da a k a') :
    da + a'.levels ≤ d + Piece.groupLevels (a'.precedence < 2) a'.levels := by
  rw [← Piece.groupLevels_add]
  exact Nat.add_le_add_right (hl.le_groupLevels h le_rfl) _

/-! From the limit that a walk succeeds under to another that admits `n` levels. -/

variable {limit : Option Nat} {n : Nat} (hn : ∀ d ≤ n, @NestingLimit.Admits ⟨limit⟩ d)
include hn

theorem ArmLevel.within {d da : Nat} {a : Expr} (h : ArmLevel d a da) (hda : da ≤ n) :
    @ArmLevel ⟨limit⟩ d a da := by
  let : NestingLimit := ⟨limit⟩
  cases h with
  | bare hbare => exact .bare hbare
  | parenthesized harm => exact .parenthesized harm (hn _ hda)

theorem arm_within {d : Nat} {e : Element} {r : Expr × Expr} (h : Chain.arm d e = .ok r)
    (hd : d ≤ n) : @Chain.arm ⟨limit⟩ d e = .ok r := by
  have hfound := (Chain.arm_eq_ok.1 h).2
  let : NestingLimit := ⟨limit⟩
  exact Chain.arm_eq_ok.2 ⟨hn d hd, hfound⟩

/-- Every link of a chain stands two levels below the one before it: its conditional is an arm of
that one's and printed in parentheses. -/
theorem builds_within {D e links built} (h : Chain.Builds D e links built) {d k e'}
    (hD : D = d + 1) (hw : Walks d built k e') (hle : d + e'.levels ≤ n) :
    @Chain.Builds ⟨limit⟩ D e links built := by
  let : NestingLimit := ⟨limit⟩
  induction h generalizing d k e' with
  | last ha =>
    have hlevel := hw.of_conditional.2
    exact .last (arm_within hn ha (by omega))
  | otherwise ha hlink hlast =>
    have hlevel := hw.of_conditional.2
    exact .otherwise (arm_within hn ha (by omega)) hlink hlast
  | next ha hlink hb ih =>
    have hlevel := hw.of_conditional.2
    have ha := arm_within hn ha (by omega)
    obtain ⟨test, consequent, alternate, rfl⟩ := @Chain.Builds.eq_conditional source _ _ _ _ hb
    cases hw with
    | conditional _ _ _ _ hl hw =>
      have hle' := hl.add_levels_le hw
      cases hl with
      | bare hbare => cases hbare
      | parenthesized =>
        rw [Expr.levels] at hle
        exact .next ha hlink (ih (by omega) hw (by omega))

theorem build_within {d e links built k e'} (h : (Chain.build (d + 1) e links).result = .ok built)
    (hw : Walks d built k e') (hle : d + e'.levels ≤ n) :
    (@Chain.build ⟨limit⟩ (d + 1) e links).result = .ok built := by
  have hb := builds_within hn (Chain.builds_of_build h) rfl hw hle
  let : NestingLimit := ⟨limit⟩
  exact hb.build_eq

set_option linter.unusedSectionVars false in
mutual

theorem Walks.within {d e k e'} : Walks d e k e' → d + e'.levels ≤ n → @Walks ⟨limit⟩ d e k e'
  | .literal, _ | .ident, _ => by
    let : NestingLimit := ⟨limit⟩
    constructor
  | .member h, hle => by
    rw [Expr.levels] at hle
    have h := h.within (Piece.le_of_groupLevels hle)
    let : NestingLimit := ⟨limit⟩
    exact .member h
  | .call h hs, hle => by
    rw [Expr.levels, ← Nat.add_max_add_left, Nat.max_le] at hle
    have h := h.within (Piece.le_of_groupLevels hle.1)
    have hs := hs.within hle.2
    let : NestingLimit := ⟨limit⟩
    exact .call h hs
  | .unary h, hle => by
    rw [Expr.levels, ← Nat.add_assoc] at hle
    have h := h.within (Piece.le_of_groupLevels (Nat.le_of_succ_le hle))
    let : NestingLimit := ⟨limit⟩
    exact .unary h
  | .binary h h', hle => by
    rw [Expr.levels, ← Nat.add_max_add_left, Nat.max_le] at hle
    have h := h.within (Piece.le_of_groupLevels hle.1)
    have h' := h'.within (Piece.le_of_groupLevels hle.2)
    let : NestingLimit := ⟨limit⟩
    exact .binary h h'
  | .conditional h _ hl h' hl' h'', hle => by
    rw [Expr.levels, ← Nat.add_max_add_left, Nat.max_le] at hle
    have hcons := hl.add_levels_le h'
    have halt := hl'.add_levels_le h''
    have h := h.within (Piece.le_of_groupLevels hle.1)
    have hl := hl.within hn (by omega)
    have hl' := hl'.within hn (by omega)
    have h' := h'.within (by omega)
    have h'' := h''.within (by omega)
    have hd := hn (d + 1) (by omega)
    let : NestingLimit := ⟨limit⟩
    exact .conditional h hd hl h' hl' h''
  | .element hb h, hle => by
    have h := h.within hle
    let : NestingLimit := ⟨limit⟩
    exact .element hb h
  | .standalone hb hbuilt h, hle => by
    have hbuilt := build_within hn hbuilt h hle
    have h := h.within hle
    let : NestingLimit := ⟨limit⟩
    exact .standalone hb hbuilt h
  | .fragment h, hle => by
    have h := h.within hle
    let : NestingLimit := ⟨limit⟩
    exact .fragment h

theorem WalksAll.within {d es k es'} :
    WalksAll d es k es' → d + Expr.levelsAll es' ≤ n → @WalksAll ⟨limit⟩ d es k es'
  | .nil, _ => by
    let : NestingLimit := ⟨limit⟩
    exact .nil
  | .cons h hs, hle => by
    rw [Expr.levelsAll, ← Nat.add_max_add_left, Nat.max_le] at hle
    have h := h.within hle.1
    have hs := hs.within hle.2
    let : NestingLimit := ⟨limit⟩
    exact .cons h hs

theorem WalksElement.within {d e k e'} :
    WalksElement d e k e' → d + e'.levels ≤ n → @WalksElement ⟨limit⟩ d e k e'
  | .mk hs _ ha hc h, hle => by
    rw [Element.levels] at hle
    have ha := ha.within (by omega)
    have h := h.within (by omega)
    have hd := hn (d + 1) (by omega)
    let : NestingLimit := ⟨limit⟩
    exact .mk hs hd ha hc h

theorem WalksFragment.within {d f k f'} :
    WalksFragment d f k f' → d + f'.levels ≤ n → @WalksFragment ⟨limit⟩ d f k f'
  | .mk hs _ hc h, hle => by
    rw [Fragment.levels] at hle
    have h := h.within (by omega)
    have hd := hn (d + 1) (by omega)
    let : NestingLimit := ⟨limit⟩
    exact .mk hs hd hc h

theorem WalksAttributes.within {d as k as'} : WalksAttributes d as k as' →
    d + Attribute.levelsAll as' ≤ n → @WalksAttributes ⟨limit⟩ d as k as'
  | .nil, _ => by
    let : NestingLimit := ⟨limit⟩
    exact .nil
  | .bare hs, hle => by
    have hs := hs.within hle
    let : NestingLimit := ⟨limit⟩
    exact .bare hs
  | .valued h hs, hle => by
    rw [Attribute.levelsAll, ← Nat.add_max_add_left, Nat.max_le] at hle
    have h := h.within hle.1
    have hs := hs.within hle.2
    let : NestingLimit := ⟨limit⟩
    exact .valued h hs

theorem WalksValue.within {d v k v'} :
    WalksValue d v k v' → d + v'.levels ≤ n → @WalksValue ⟨limit⟩ d v k v'
  | .text, _ | .empty, _ => by
    let : NestingLimit := ⟨limit⟩
    constructor
  | .container h, hle => by
    have h := h.within hle
    let : NestingLimit := ⟨limit⟩
    exact .container h
  | .element hb h, hle => by
    have h := h.within hle
    let : NestingLimit := ⟨limit⟩
    exact .element hb h
  | .standalone hb hbuilt h, hle => by
    have hbuilt := build_within hn hbuilt h hle
    have h := h.within hle
    let : NestingLimit := ⟨limit⟩
    exact .standalone hb hbuilt h

theorem WalksChildren.within {d cs k cs'} : WalksChildren d cs k cs' →
    d + Child.levelsAll cs' ≤ n → @WalksChildren ⟨limit⟩ d cs k cs'
  | .nil, _ => by
    let : NestingLimit := ⟨limit⟩
    exact .nil
  | .text h, hle => by
    rw [Child.levelsAll_joinText] at hle
    have h := h.within hle
    let : NestingLimit := ⟨limit⟩
    exact .text h
  | .empty h, hle => by
    rw [Child.levelsAll, ← Nat.add_max_add_left, Nat.max_le] at hle
    have h := h.within hle.2
    let : NestingLimit := ⟨limit⟩
    exact .empty h
  | .container h hs, hle => by
    rw [Child.levelsAll, ← Nat.add_max_add_left, Nat.max_le] at hle
    have h := h.within hle.1
    have hs := hs.within hle.2
    let : NestingLimit := ⟨limit⟩
    exact .container h hs
  | .fragment h hs, hle => by
    rw [Child.levelsAll, ← Nat.add_max_add_left, Nat.max_le] at hle
    have h := h.within hle.1
    have hs := hs.within hle.2
    let : NestingLimit := ⟨limit⟩
    exact .fragment h hs
  | .element hb h hs, hle => by
    rw [Child.levelsAll, ← Nat.add_max_add_left, Nat.max_le] at hle
    have h := h.within hle.1
    have hs := hs.within hle.2
    let : NestingLimit := ⟨limit⟩
    exact .element hb h hs
  | .chain hb hbuilt h hs, hle => by
    rw [Child.levelsAll, ← Nat.add_max_add_left, Nat.max_le] at hle
    have hbuilt := build_within hn hbuilt h hle.1
    have h := h.within hle.1
    have hs := hs.within hle.2
    let : NestingLimit := ⟨limit⟩
    exact .chain hb hbuilt h hs

end

theorem WalksStatement.within {x k x'} (h : WalksStatement x k x') (hle : x'.levels ≤ n) :
    @WalksStatement ⟨limit⟩ x k x' := by
  cases h with
  | imports =>
    let : NestingLimit := ⟨limit⟩
    exact .imports
  | binding h =>
    have h := h.within hn (by rwa [Nat.zero_add])
    let : NestingLimit := ⟨limit⟩
    exact .binding h
  | exportDefault h =>
    have h := h.within hn (by rwa [Nat.zero_add])
    let : NestingLimit := ⟨limit⟩
    exact .exportDefault h
  | expr h =>
    have h := h.within hn (by rwa [Nat.zero_add])
    let : NestingLimit := ⟨limit⟩
    exact .expr h

theorem WalksStatements.within {xs k xs'} (h : WalksStatements xs k xs')
    (hle : ∀ s ∈ xs', s.val.levels ≤ n) : @WalksStatements ⟨limit⟩ xs k xs' := by
  let : NestingLimit := ⟨limit⟩
  induction h with
  | nil => exact .nil
  | removed hx _ ih => exact .removed hx (ih hle)
  | kept hx h _ ih =>
    rw [List.forall_mem_cons] at hle
    exact .kept hx (h.within hn hle.1) (ih hle.2)

end Rewrite

namespace Program

/-- A rewrite under another limit; `none` is no limit at all. -/
def rewriteWithin (limit : Option Nat) (p : Program) : Except RewriteError (Program × Stats) :=
  @rewrite ⟨limit⟩ p

theorem levels_le_of_mem {p : Program} {s : Spanned Statement} (hs : s ∈ p.statements) :
    s.val.levels ≤ p.levels := by
  unfold levels
  generalize p.statements = ss at hs
  induction ss with
  | nil => cases hs
  | cons s' ss ih =>
    rcases List.mem_cons.1 hs with rfl | hs
    · exact Nat.le_max_left ..
    · exact Nat.le_trans (ih hs) (Nat.le_max_right ..)

/-- What can be rewritten at all is rewritten within the levels of its result, and to the same. -/
theorem rewriteWithin_of_levels_le {p v : Program} {counted : Stats} {limit : Option Nat}
    (h : p.rewriteWithin limit = .ok (v, counted)) {n : Nat} (hn : v.levels ≤ n) :
    p.rewriteWithin (some n) = .ok (v, counted) := by
  obtain ⟨hq, hw⟩ := (@rewrite_eq_ok_iff ⟨limit⟩ _ _ _).1 h
  have hw : @Rewrite.WalksStatements ⟨some n⟩ p.statements counted v.statements :=
    Rewrite.WalksStatements.within (fun d hd => hd) hw fun s hs =>
      Nat.le_trans (levels_le_of_mem hs) hn
  exact (@rewrite_eq_ok_iff ⟨some n⟩ _ _ _).2 ⟨hq, hw⟩

theorem ReadAt.levels_le {p : Program} {l : Nat} {n : Rewrite.Site} (h : p.ReadAt l n) :
    l + n.levels ≤ p.levels := by
  obtain ⟨x, hx, e, he, henters⟩ := h
  have hle : l + n.levels ≤ 0 + e.levels := henters.levels_le
  have := levels_le_of_mem hx
  rw [Statement.levels, he, Option.elim_some] at this
  omega

/-- What is made where a walk comes is read at no lower level than the walk counts. -/
theorem WalkedAt.readAt {p v : Program} {counted : Stats}
    (hv : p.rewriteWithin none = .ok (v, counted)) {d : Nat} {n : Rewrite.Site}
    (h : p.WalkedAt d n) :
    ∃ n' l, @Rewrite.Becomes ⟨none⟩ d n n' ∧ v.ReadAt l n' ∧ d ≤ l := by
  obtain ⟨x, hx, e, he, hsteps⟩ := h
  obtain ⟨-, hw⟩ := (@rewrite_eq_ok_iff ⟨none⟩ _ _ _).1 hv
  let : NestingLimit := ⟨none⟩
  obtain ⟨x', hx', k, e', he', hwalk⟩ := hw.expr? hx he
  obtain ⟨n', l, hn, henters, hle⟩ := (Rewrite.Becomes.expr hwalk).stepwise le_rfl hsteps
  exact ⟨n', l, hn, ⟨x', hx', e', he', henters⟩, hle⟩

/-- What is refused for its levels could not have been read: without a limit the rewrite comes to
a program that goes deeper than a reader does. Under a limit that its levels fit in nothing is
refused, for what is made at any place is read at no lower level than the walk counts there. Places
are bytes counted in 32 bits, so a reader of a longer text is not spoken of. -/
theorem unreadable_of_tooDeep {file text : String} {p v : Program} {counted : Stats} {span : Span}
    {node source : Option String} (hp : parse file text = .ok p)
    (hfail : p.rewrite = .error ⟨.tooDeep, span, node, source⟩)
    (hv : p.rewriteWithin none = .ok (v, counted)) :
    maxNesting < v.levels ∧
      (v.format.utf8ByteSize < UInt32.size → ∀ name, ∃ fs, parse name v.format = .error fs ∧
        ∃ f ∈ fs, f.val = .tooDeep) ∧
      (∀ n, v.levels ≤ n → p.rewriteWithin (some n) = .ok (v, counted)) ∧
      ∀ d n, p.WalkedAt d n → ∃ n' l, @Rewrite.Becomes ⟨none⟩ d n n' ∧ v.ReadAt l n' ∧
        d ≤ l ∧ l + n'.levels ≤ v.levels := by
  have hdeep : maxNesting < v.levels := by
    by_contra hle
    have hok : p.rewrite = .ok (v, counted) := rewriteWithin_of_levels_le hv (Nat.le_of_not_lt hle)
    rw [hfail] at hok
    cases hok
  refine ⟨hdeep, ?_, fun n hn => rewriteWithin_of_levels_le hv hn, ?_⟩
  · intro hlength name
    have hprintable : v.Printable := @Printable.rewrite ⟨none⟩ _ _ _ (printable_of_parse hp) hv
    exact (parse_format hprintable hlength name).2 hdeep
  · intro d n hwalked
    obtain ⟨n', l, hn, hread, hle⟩ := hwalked.readAt hv
    exact ⟨n', l, hn, hread, hle, hread.levels_le⟩

end Program

/-! A text that a reader takes and a rewrite refuses: branches around each other, so many that the
parentheses of the conditionals they become take the levels that are left. -/

namespace Rewrite

theorem walk_of_not_admits [NestingLimit] {d : Nat} {e : Element} (hb : e.branch? = some .when)
    (hd : ¬ NestingLimit.Admits (d + 1)) (s : Stats) :
    walk d (.element e) s = .error ⟨.tooDeep, e.span, some e.excerpt, none⟩ := by
  have harm : Chain.arm (d + 1) e = .error ⟨.tooDeep, e.span, some e.excerpt, none⟩ := by
    simp [Chain.arm, hd, throw, throwThe, MonadExceptOf.throw, bind, Except.bind]
  have hbuilt : (Chain.build (d + 1) e []).result =
      .error ⟨.tooDeep, e.span, some e.excerpt, none⟩ := by
    rw [Chain.build.eq_def, harm]
  rw [walk]
  simp only [hb, walkStandalone_eq, hbuilt]
  rfl

theorem walk_eq_error_of_arm [NestingLimit] {d : Nat} {e : Element} {s' : Span}
    (hb : e.branch? = some .when) (hcheck : Chain.checkElement e = .ok ())
    (htest : Chain.condition e = .ok (.literal (.bool true) s'))
    (hd : NestingLimit.Admits (d + 1)) {c : Expr}
    (hc : Chain.collapse e.children (Chain.origin e) = c) {s : Stats} {x : RewriteError}
    (h : (armDepth (d + 1) c >>= (walk · c)) (s + chainStats 0) = .error x) :
    walk d (.element e) s = .error x := by
  subst hc
  rw [walk]
  simp only [hb, walkStandalone_eq, build_of_admits hcheck htest hd]
  refine bind_eq_error.2 (.inr ⟨(), _, countChain_eq_ok.2 rfl, ?_⟩)
  rw [Chain.conditional, walk]
  refine bind_eq_error.2 (.inr ⟨_, _, Walks.literal.walk_eq _, ?_⟩)
  refine bind_eq_error.2 (.inr ⟨_, _, enter_eq_ok.2 ⟨hd, rfl, rfl⟩, ?_⟩)
  rcases bind_eq_error.1 h with h | ⟨da, t, hda, h⟩
  · exact bind_eq_error.2 (.inl h)
  · exact bind_eq_error.2 (.inr ⟨da, t, hda, bind_eq_error.2 (.inl h)⟩)

/-- Every branch but the innermost takes two levels. -/
theorem Tower.tooDeep {top : Literal} {n : Nat} {c : Expr} (h : Tower top (n + 1) c) {d : Nat}
    (hd : maxNesting < d + 2 * n + 1) (s : Stats) :
    ∃ span node, walk d c s = .error ⟨.tooDeep, span, node, none⟩ := by
  induction n generalizing d c s with
  | zero =>
    cases h with
    | branch hb =>
      have hno : ¬ NestingLimit.Admits (d + 1) := Nat.not_le.2 hd
      exact ⟨_, _, walk_of_not_admits hb hno s⟩
  | succ n ih =>
    cases h with
    | @branch _ e _ hb hcheck htest hc =>
      have hparen := hc.isParenthesizedArm
      by_cases hone : NestingLimit.Admits (d + 1)
      · by_cases htwo : NestingLimit.Admits (d + 1 + 1)
        · obtain ⟨span, node, h⟩ := ih hc (d := d + 1 + 1) (by omega) (s + chainStats 0)
          refine ⟨span, node, walk_eq_error_of_arm hb hcheck htest hone rfl ?_⟩
          exact bind_eq_error.2 (.inr ⟨_, _, armDepth_eq_ok.2 ⟨.parenthesized hparen htwo, rfl⟩, h⟩)
        · exact ⟨_, _, walk_eq_error_of_arm hb hcheck htest hone rfl
            (bind_eq_error.2 (.inl (armDepth_eq_error.2 ⟨hparen, htwo, rfl⟩)))⟩
      · exact ⟨_, _, walk_of_not_admits hb hone s⟩

theorem walk_binary_eq_error [NestingLimit] {d : Nat} {op : BinaryOp} {lhs rhs : Expr} {span : Span}
    {s : Stats} {x : RewriteError}
    (h : walk d lhs s = .error x ∨ ∃ k lhs', Walks d lhs k lhs' ∧ walk d rhs (s + k) = .error x) :
    walk d (.binary op lhs rhs span) s = .error x := by
  rw [walk]
  rcases h with h | ⟨k, lhs', hw, h⟩
  · exact bind_eq_error.2 (.inl h)
  · exact bind_eq_error.2 (.inr ⟨_, _, hw.walk_eq s, bind_eq_error.2 (.inl h)⟩)

end Rewrite

theorem Expr.Tagged.tooDeep {top : Literal} {n : Nat} {f : Expr}
    (hf : f.Tagged (Rewrite.Tower top (n + 1))) (hn : maxNesting < 2 * n + 1) (s : Stats) :
    ∃ span node, Rewrite.walk 0 f s = .error ⟨.tooDeep, span, node, none⟩ := by
  cases hf with
  | mk htower =>
    obtain ⟨span, node, hwalk⟩ := htower.tooDeep (d := 0) (by omega) (s + (0 + 0))
    exact ⟨span, node, Rewrite.walk_binary_eq_error (.inr ⟨_, _, .binary .literal .ident,
      Rewrite.walk_binary_eq_error (.inl hwalk)⟩)⟩

namespace Program

theorem Veils.rewrite_tooDeep {p : Program} {outer inner : Literal} {m n : Nat}
    (hp : p.Veils (Rewrite.Tower outer m) (Rewrite.Tower inner (n + 1)))
    (hm : ∀ k ≤ 2 * m, NestingLimit.Admits k) (hn : maxNesting < 2 * n + 1) :
    ∃ span node, p.rewrite = .error ⟨.tooDeep, span, node, none⟩ := by
  cases hp with
  | @mk name e f s t he hf =>
    obtain ⟨k, e', hw, -⟩ := he.walks (d := 0) (by rwa [Nat.zero_add])
    obtain ⟨span, node, hwalk⟩ := hf.tooDeep hn (.zero + k)
    refine ⟨span, node, ?_⟩
    have hsecond : Rewrite.walkStatements [⟨.expr f, t⟩] (.zero + k) =
        .error ⟨.tooDeep, span, node, none⟩ :=
      Rewrite.bind_eq_error.2 (.inl (Rewrite.bind_eq_error.2 (.inl hwalk)))
    have hfail : (Rewrite.walkStatements [⟨.expr e, s⟩, ⟨.expr f, t⟩]).run .zero =
        .error ⟨.tooDeep, span, node, none⟩ :=
      Rewrite.bind_eq_error.2 (.inr ⟨_, _, (Rewrite.WalksStatement.expr hw).walkStatement_eq _,
        Rewrite.bind_eq_error.2 (.inl hsecond)⟩)
    rw [rewrite, hfail]
    rfl

theorem Veils.rewriteWithin_none {p : Program} {outer inner : Literal} {m n : Nat}
    (hp : p.Veils (Rewrite.Tower outer m) (Rewrite.Tower inner n)) :
    ∃ v counted, p.rewriteWithin none = .ok (v, counted) ∧
      v.Veils (Rewrite.Cascade outer m) (Rewrite.Cascade inner n) :=
  @Veils.rewritten ⟨none⟩ p outer inner m n hp (fun _ _ => trivial) fun _ _ => trivial

/-- In 128 branches around another a walk comes to level 257. -/
theorem unreadable_of_tooDeep_tower :
    ∃ text p v counted span node, parse "a.jsx" text = .ok p ∧
      p.rewrite = .error ⟨.tooDeep, span, node, none⟩ ∧
      p.rewriteWithin none = .ok (v, counted) ∧ maxNesting < v.levels ∧
      p.rewriteWithin (some v.levels) = .ok (v, counted) := by
  obtain ⟨p, hp, hveils⟩ := exists_parse_veiled (m := 1) (n := 128) (by decide) (by decide) (by decide)
  obtain ⟨span, node, hfail⟩ := hveils.rewrite_tooDeep (fun _ => admits_of_le_two) (by decide)
  obtain ⟨v, counted, hv, -⟩ := hveils.rewriteWithin_none
  obtain ⟨hdeep, -, hwithin, -⟩ := unreadable_of_tooDeep hp hfail hv
  exact ⟨_, p, v, counted, span, node, hp, hfail, hv, hdeep, hwithin _ le_rfl⟩

/-- Beyond the bound what is refused can be read: the statement that goes too deep stands where the
one before it does, and is read as an element with a text in it. -/
theorem unreadable_of_tooDeep_skipped : ∃ p v counted span node q,
    parse "a.jsx" (veiledSample ((UInt32.size - 18) / 2) 128).format = .ok p ∧
      p.rewrite = .error ⟨.tooDeep, span, node, none⟩ ∧
      p.rewriteWithin none = .ok (v, counted) ∧ parse "a.jsx" v.format = .ok q := by
  have hm : 2 * ((UInt32.size - 18) / 2) + 18 = UInt32.size := by decide
  generalize (UInt32.size - 18) / 2 = m at hm
  have hsize : UInt32.size = 4294967296 := rfl
  obtain ⟨p, hp, hveils⟩ := exists_parse_veiled (m := m) (n := 128) (by omega) (by omega) (by decide)
  obtain ⟨span, node, hfail⟩ := hveils.rewrite_tooDeep (fun _ => admits_of_le_two) (by decide)
  obtain ⟨v, counted, hr, hv⟩ := hveils.rewriteWithin_none
  obtain ⟨q, hq, -⟩ := hv.parse_skipped hm "a.jsx"
  exact ⟨p, v, counted, span, node, q, hp, hfail, hr, hq⟩

end Program
end BranchMarkup
