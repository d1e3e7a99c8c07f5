import BranchMarkup.Form
import BranchMarkup.Proofs.Roundtrip
/-! Whether the text of a rewritten program can be read again. Only its levels can stand in the way:
a rewrite counts those of markup, of conditionals and of the parentheses around an arm, and leaves
out the operators and the parentheses before an operand. -/
namespace BranchMarkup

/-- Nothing in a node alone is a level for the reader but none for a rewrite. -/
def TreeNode.Counted : TreeNode → Prop
  | expr (.unary ..) => False
  | expr (.member object _ _) => 15 ≤ object.precedence
  | expr (.call callee _ _) => 15 ≤ callee.precedence
  | expr (.binary op lhs rhs _) => op.power ≤ lhs.precedence ∧ op.rightPower ≤ rhs.precedence
  | expr (.conditional test _ _ _ _) => 2 ≤ test.precedence
  | _ => True

def TreeNode.AllCounted (n : TreeNode) : Prop := n.Throughout TreeNode.Counted

theorem Piece.groupLevels_of_le {bound precedence levels : Nat} (h : bound ≤ precedence) :
    groupLevels (precedence < bound) levels = levels := by
  simp [groupLevels, Nat.not_lt.2 h]

theorem Child.levelsAll_joinText (s : String) (span : Span) (cs : List Child) :
    Child.levelsAll (joinText (.text s span) cs) = Child.levelsAll cs := by
  unfold joinText
  split <;> simp_all [Child.levelsAll, Child.levels]

theorem Child.allCounted_of_joinText {s : String} {span : Span} {cs : List Child}
    (h : ∀ c ∈ joinText (.text s span) cs, (TreeNode.child c).AllCounted) :
    ∀ c ∈ cs, (TreeNode.child c).AllCounted := by
  unfold joinText at h
  split at h
  · next heq =>
    cases heq
    rw [List.forall_mem_cons] at h ⊢
    exact ⟨TreeNode.throughout_iff.2 ⟨trivial, nofun⟩, h.2⟩
  · exact (List.forall_mem_cons.1 h).2

namespace Rewrite

/-- What is printed in parentheses in an arm is walked as such. -/
theorem Walks.isParenthesizedArm {d e k e'} (h : Walks d e k e') (hlow : e'.precedence < 2) :
    isParenthesizedArm e = true := by
  cases h with
  | conditional => rfl
  | standalone hb => simpa [Rewrite.isParenthesizedArm] using hb
  | @binary _ op => cases op <;> simp [Expr.precedence, BinaryOp.power] at hlow
  | _ => simp [Expr.precedence] at hlow

theorem ArmLevel.le {d da : Nat} {a : Expr} (h : ArmLevel d a da) (hd : d ≤ maxNesting) :
    da ≤ maxNesting := by
  cases h with
  | bare => exact hd
  | parenthesized _ hlt => exact hlt

/-- The arm of a conditional at level `d`, with the parentheses around it. -/
theorem ArmLevel.levels_le {d da : Nat} {a a' : Expr} {k : Stats} (hl : ArmLevel d a da)
    (h : Walks da a k a') (hlevels : da + a'.levels ≤ maxNesting) :
    d + Piece.groupLevels (a'.precedence < 2) a'.levels ≤ maxNesting := by
  unfold Piece.groupLevels
  cases hl with
  | bare hbare =>
    rw [if_neg]
    · exact hlevels
    · intro hlow
      rw [h.isParenthesizedArm (by simpa using hlow)] at hbare
      cases hbare
  | parenthesized =>
    split <;> omega

mutual

theorem Walks.levels_le {d e k e'} : Walks d e k e' → d ≤ maxNesting →
    (TreeNode.expr e').AllCounted → d + e'.levels ≤ maxNesting
  | .literal, hd, _ | .ident, hd, _ => hd
  | .member h, hd, hc => by
    rw [Expr.levels, Piece.groupLevels_of_le hc.self]
    exact h.levels_le hd (hc.part (.head _))
  | .call h hs, hd, hc => by
    rw [Expr.levels, Piece.groupLevels_of_le hc.self]
    have hcallee := h.levels_le hd (hc.part (.head _))
    have hargs := hs.levels_le hd fun e hmem =>
      hc.part (List.mem_cons_of_mem _ (List.mem_map.2 ⟨e, hmem, rfl⟩))
    omega
  | .unary _, _, hc => absurd hc.self id
  | .binary h h', hd, hc => by
    rw [Expr.levels, Piece.groupLevels_of_le hc.self.1, Piece.groupLevels_of_le hc.self.2]
    have hl := h.levels_le hd (hc.part (.head _))
    have hr := h'.levels_le hd (hc.part (.tail _ (.head _)))
    omega
  | .conditional h hd' hcons h' halt h'', hd, hc => by
    rw [Expr.levels, Piece.groupLevels_of_le hc.self]
    have ht := h.levels_le hd (hc.part (.head _))
    have hl := h'.levels_le (hcons.le hd') (hc.part (.tail _ (.head _)))
    have hr := h''.levels_le (halt.le hd') (hc.part (.tail _ (.tail _ (.head _))))
    have hl := hcons.levels_le h' hl
    have hr := halt.levels_le h'' hr
    omega
  | .element _ h, _, hc => h.levels_le (hc.part (.head _))
  | .standalone _ _ h, hd, hc => h.levels_le hd hc
  | .fragment h, _, hc => h.levels_le (hc.part (.head _))

theorem WalksAll.levels_le {d es k es'} : WalksAll d es k es' → d ≤ maxNesting →
    (∀ e ∈ es', (TreeNode.expr e).AllCounted) → d + Expr.levelsAll es' ≤ maxNesting
  | .nil, hd, _ => hd
  | .cons h hs, hd, hc => by
    rw [List.forall_mem_cons] at hc
    rw [Expr.levelsAll]
    have hl := h.levels_le hd hc.1
    have hr := hs.levels_le hd hc.2
    omega

theorem WalksElement.levels_le {d e k e'} : WalksElement d e k e' →
    (TreeNode.element e').AllCounted → d + e'.levels ≤ maxNesting
  | .mk _ hd ha _ hcs, hc => by
    rw [Element.levels]
    have hattrs := ha.levels_le hd fun a hmem =>
      hc.part (List.mem_append_left _ (List.mem_map.2 ⟨a, hmem, rfl⟩))
    have hchildren := hcs.levels_le hd fun c hmem =>
      hc.part (List.mem_append_right _ (List.mem_map.2 ⟨c, hmem, rfl⟩))
    omega

theorem WalksFragment.levels_le {d f k f'} : WalksFragment d f k f' →
    (TreeNode.fragment f').AllCounted → d + f'.levels ≤ maxNesting
  | .mk _ hd _ hcs, hc => by
    rw [Fragment.levels]
    have hchildren := hcs.levels_le hd fun c hmem => hc.part (List.mem_map.2 ⟨c, hmem, rfl⟩)
    omega

theorem WalksAttributes.levels_le {d as k as'} : WalksAttributes d as k as' → d ≤ maxNesting →
    (∀ a ∈ as', (TreeNode.attr a).AllCounted) → d + Attribute.levelsAll as' ≤ maxNesting
  | .nil, hd, _ => hd
  | .bare hs, hd, hc => by
    rw [List.forall_mem_cons] at hc
    exact hs.levels_le hd hc.2
  | .valued h hs, hd, hc => by
    rw [List.forall_mem_cons] at hc
    rw [Attribute.levelsAll]
    have hl := h.levels_le hd (hc.1.part (.head _))
    have hr := hs.levels_le hd hc.2
    omega

theorem WalksValue.levels_le {d v k v'} : WalksValue d v k v' → d ≤ maxNesting →
    (TreeNode.value v').AllCounted → d + v'.levels ≤ maxNesting
  | .text, hd, _ | .empty, hd, _ => hd
  | .container h, hd, hc | .standalone _ _ h, hd, hc => h.levels_le hd (hc.part (.head _))
  | .element _ h, _, hc => h.levels_le (hc.part (.head _))

theorem WalksChildren.levels_le {d cs k cs'} : WalksChildren d cs k cs' → d ≤ maxNesting →
    (∀ c ∈ cs', (TreeNode.child c).AllCounted) → d + Child.levelsAll cs' ≤ maxNesting
  | .nil, hd, _ => hd
  | .text h, hd, hc => by
    rw [Child.levelsAll_joinText]
    exact h.levels_le hd (Child.allCounted_of_joinText hc)
  | .empty h, hd, hc => by
    rw [List.forall_mem_cons] at hc
    rw [Child.levelsAll, Child.levels, Nat.zero_max]
    exact h.levels_le hd hc.2
  | .container h hs, hd, hc | .chain _ _ h hs, hd, hc => by
    rw [List.forall_mem_cons] at hc
    rw [Child.levelsAll, Child.levels]
    have hl := h.levels_le hd (hc.1.part (.head _))
    have hr := hs.levels_le hd hc.2
    omega
  | .fragment h hs, hd, hc | .element _ h hs, hd, hc => by
    rw [List.forall_mem_cons] at hc
    rw [Child.levelsAll, Child.levels]
    have hl := h.levels_le (hc.1.part (.head _))
    have hr := hs.levels_le hd hc.2
    omega

end

theorem WalksStatement.levels_le {x k x'} (h : WalksStatement x k x')
    (hc : ∀ e, x'.expr? = some e → (TreeNode.expr e).AllCounted) : x'.levels ≤ maxNesting := by
  cases h with
  | imports => exact Nat.zero_le _
  | binding h | exportDefault h | expr h =>
    have := h.levels_le (Nat.zero_le _) (hc _ rfl)
    rwa [Nat.zero_add] at this

theorem WalksStatements.levels_le {xs k xs'} (h : WalksStatements xs k xs')
    (hc : ∀ s ∈ xs', ∀ e, s.val.expr? = some e → (TreeNode.expr e).AllCounted) :
    ∀ s ∈ xs', s.val.levels ≤ maxNesting := by
  induction h with
  | nil => nofun
  | removed _ _ ih => exact ih hc
  | kept _ h _ ih =>
    rw [List.forall_mem_cons] at hc
    exact List.forall_mem_cons.2 ⟨h.levels_le hc.1, ih hc.2⟩

end Rewrite

namespace Program

theorem levels_le {p : Program} {n : Nat} (h : ∀ s ∈ p.statements, s.val.levels ≤ n) :
    p.levels ≤ n := by
  unfold levels
  generalize p.statements = ss at h
  induction ss with
  | nil => exact Nat.zero_le _
  | cons s ss ih =>
    rw [List.forall_mem_cons] at h
    exact Nat.max_le.2 ⟨h.1, ih h.2⟩

/-- The levels that a rewrite counts are never too many. -/
theorem levels_le_of_rewrite {p q : Program} {counted : Stats} (h : p.rewrite = .ok (q, counted))
    (hcounted : ∀ n, q.Has Element.attrs n → n.Counted) : q.levels ≤ maxNesting := by
  apply levels_le
  apply (walksStatements_of_rewrite h).2.levels_le
  intro s hs e he n hn
  exact hcounted n ⟨s, hs, e, he, hn⟩

/-- A rewritten program is read back as it is, if the levels of its text are not too many. -/
theorem parse_format_of_rewrite {file text : String} {p q : Program} {counted : Stats}
    (hp : parse file text = .ok p) (h : p.rewrite = .ok (q, counted))
    (hlength : q.format.utf8ByteSize < UInt32.size) (name : String) :
    ((∃ r, parse name q.format = .ok r) ↔ q.levels ≤ maxNesting) ∧
      ∀ r, parse name q.format = .ok r → r.bare = q.bare := by
  obtain ⟨hread, hdeep⟩ := parse_format ((printable_of_parse hp).rewrite h) hlength name
  by_cases hlevels : q.levels ≤ maxNesting
  · obtain ⟨r, hr, -, hbare⟩ := hread hlevels
    refine ⟨⟨fun _ => hlevels, fun _ => ⟨r, hr⟩⟩, fun r' hr' => ?_⟩
    cases hr.symm.trans hr'
    exact hbare
  · obtain ⟨fs, hfs, -⟩ := hdeep (Nat.lt_of_not_le hlevels)
    have hno (r : Program) : parse name q.format ≠ .ok r := by
      intro hr
      cases hfs.symm.trans hr
    exact ⟨⟨fun ⟨r, hr⟩ => absurd hr (hno r), fun h => absurd h hlevels⟩, fun r hr => absurd hr (hno r)⟩

end Program

namespace Form

theorem transform_source_eq_ok {file text : String} {wantsMap : Bool} {out : Output} :
    source.transform file text wantsMap = .ok out ↔
      ∃ p q, Program.parse file text = .ok p ∧ p.rewrite = .ok (q, out.stats) ∧
        out.code = q.format ∧
        out.map = if wantsMap then some (mapText file q.formatWithMap.2) else none := by
  unfold transform Program.rewriteIn
  simp only [mapped, ↓reduceIte, read]
  cases Program.parse file text with
  | error fs => simp [Except.mapError, bind, Except.bind]
  | ok p =>
    cases hr : p.rewrite with
    | error x => simp [hr, Except.mapError, bind, Except.bind]
    | ok r =>
      simp only [hr, Except.mapError, bind, Except.bind, pure, Except.pure, Except.ok.injEq]
      constructor
      · rintro rfl
        exact ⟨p, r.1, rfl, hr, rfl, rfl⟩
      · rintro ⟨_, q, rfl, hq, hcode, hmap⟩
        cases hr.symm.trans hq
        obtain ⟨_, _, _⟩ := out
        cases hcode
        cases hmap
        rfl

/-- What is written is read again if its levels are not too many, and then as what was written. A
rewrite sees to all of them but those of operators and of operands in parentheses. -/
theorem parse_of_transform {file text : String} {wantsMap : Bool} {out : Output}
    (h : source.transform file text wantsMap = .ok out) (hlength : out.code.utf8ByteSize < UInt32.size) :
    ∃ p q, Program.parse file text = .ok p ∧ p.rewrite = .ok (q, out.stats) ∧
      out.code = q.format ∧
      (∀ name, (∃ r, Program.parse name out.code = .ok r) ↔ q.levels ≤ maxNesting) ∧
      (∀ name r, Program.parse name out.code = .ok r → r.bare = q.bare) ∧
      ((∀ n, q.Has Element.attrs n → n.Counted) → q.levels ≤ maxNesting) := by
  obtain ⟨p, q, hp, hr, hcode, -⟩ := transform_source_eq_ok.1 h
  rw [hcode] at hlength ⊢
  have hread := Program.parse_format_of_rewrite hp hr hlength
  exact ⟨p, q, hp, hr, rfl, fun name => (hread name).1, fun name => (hread name).2,
    Program.levels_le_of_rewrite hr⟩

theorem parse_of_transform_operators :
    ∃ out, source.transform "a.jsx" (Program.operatorSample 254) false = .ok out ∧
      ∀ name r, Program.parse name out.code ≠ .ok r := by
  obtain ⟨p, q, counted, hp, hr, -, hlength, hdeep⟩ := Program.operatorSample_levels
  have ht : source.transform "a.jsx" (Program.operatorSample 254) false =
      .ok ⟨q.format, none, counted⟩ :=
    transform_source_eq_ok.2 ⟨p, q, hp, hr, rfl, rfl⟩
  refine ⟨_, ht, ?_⟩
  intro name r hread
  obtain ⟨p', q', hp', hr', -, hiff, -⟩ := parse_of_transform ht hlength
  cases hp.symm.trans hp'
  cases hr.symm.trans hr'
  exact absurd ((hiff name).1 ⟨r, hread⟩) (Nat.not_le.2 hdeep)

end Form
end BranchMarkup
