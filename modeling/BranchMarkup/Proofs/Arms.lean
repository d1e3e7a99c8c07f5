import Mathlib
import BranchMarkup.Proofs.Nesting
/-! The arms of a conditional as they are read and as they are printed. A reader takes a conditional in
an arm without parentheses, and the printer puts them there. All other parentheses that it puts are
in the text that was read too, so these are the only levels that it adds. -/
namespace BranchMarkup

mutual

/-- The levels of the printed form without the parentheses around arms. -/
def Expr.openLevels : Expr → Nat
  | .literal .. | .ident .. => 0
  | .member object _ _ => Piece.groupLevels (object.precedence < 15) object.openLevels
  | .call callee args _ =>
    max (Piece.groupLevels (callee.precedence < 15) callee.openLevels) (Expr.openLevelsAll args)
  | .unary _ operand _ => Piece.groupLevels (operand.precedence < 14) operand.openLevels + 1
  | .binary op lhs rhs _ =>
    max (Piece.groupLevels (lhs.precedence < op.power) lhs.openLevels)
      (Piece.groupLevels (rhs.precedence < op.rightPower) rhs.openLevels)
  | .conditional test consequent alternate _ _ =>
    max (Piece.groupLevels (test.precedence < 2) test.openLevels)
      (max consequent.openLevels alternate.openLevels + 1)
  | .element e => e.openLevels
  | .fragment f => f.openLevels

def Expr.openLevelsAll : List Expr → Nat
  | [] => 0
  | e :: es => max e.openLevels (Expr.openLevelsAll es)

def Element.openLevels : Element → Nat
  | ⟨_, attrs, children, _, _⟩ =>
    max (Attribute.openLevelsAll attrs) (Child.openLevelsAll children) + 1

def Fragment.openLevels : Fragment → Nat
  | ⟨children, _, _⟩ => Child.openLevelsAll children + 1

def Attribute.openLevelsAll : List Attribute → Nat
  | [] => 0
  | ⟨_, none, _⟩ :: as => Attribute.openLevelsAll as
  | ⟨_, some value, _⟩ :: as => max value.openLevels (Attribute.openLevelsAll as)

def AttrValue.openLevels : AttrValue → Nat
  | .text .. | .container none _ => 0
  | .container (some e) _ => e.openLevels
  | .element e => e.openLevels

def Child.openLevels : Child → Nat
  | .text .. | .container none _ => 0
  | .container (some e) _ => e.openLevels
  | .element e => e.openLevels
  | .fragment f => f.openLevels

def Child.openLevelsAll : List Child → Nat
  | [] => 0
  | c :: cs => max c.openLevels (Child.openLevelsAll cs)

end

theorem Attribute.openLevelsAll_cons (name : Spanned String) (value : Option AttrValue) (span : Span)
    (as : List Attribute) : Attribute.openLevelsAll (⟨name, value, span⟩ :: as) =
      max (value.elim 0 AttrValue.openLevels) (Attribute.openLevelsAll as) := by
  cases value with
  | none => exact (Nat.zero_max _).symm
  | some value => rfl

def Statement.openLevels (s : Statement) : Nat := s.expr?.elim 0 Expr.openLevels

/-! What the parentheses add -/

/-- A comparison of two counts that goes up a tree. -/
structure Compares (R : Nat → Nat → Prop) : Prop where
  zero : R 0 0
  succ {m n : Nat} : R m n → R (m + 1) (n + 1)
  max {k l m n : Nat} : R k l → R m n → R (max k m) (max l n)

theorem Compares.group {R : Nat → Nat → Prop} (hR : Compares R) {m n : Nat} (needed : Bool)
    (h : R m n) : R (Piece.groupLevels needed m) (Piece.groupLevels needed n) := by
  cases needed with
  | false => exact h
  | true => exact hR.succ h

/-- An arm with its parentheses compares as one without them. -/
def TreeNode.ArmsCompare (R : Nat → Nat → Prop) : TreeNode → Prop
  | expr (.conditional _ consequent alternate _ _) => ∀ e ∈ [consequent, alternate],
    R e.levels e.openLevels →
      R (Piece.groupLevels (e.precedence < 2) e.levels + 1) (e.openLevels + 1)
  | _ => True

section

variable {R : Nat → Nat → Prop} (hR : Compares R)
include hR

mutual

theorem Expr.compare_levels : (e : Expr) → (TreeNode.expr e).Throughout (TreeNode.ArmsCompare R) →
    R e.levels e.openLevels
  | .literal .., _ | .ident .., _ => hR.zero
  | .member object _ _, h => hR.group _ (object.compare_levels (h.part (.head _)))
  | .call callee args _, h =>
    hR.max (hR.group _ (callee.compare_levels (h.part (.head _))))
      (Expr.compare_levelsAll args fun e he =>
        h.part (List.mem_cons_of_mem _ (List.mem_map.2 ⟨e, he, rfl⟩)))
  | .unary _ operand _, h => hR.succ (hR.group _ (operand.compare_levels (h.part (.head _))))
  | .binary _ lhs rhs _, h =>
    hR.max (hR.group _ (lhs.compare_levels (h.part (.head _))))
      (hR.group _ (rhs.compare_levels (h.part (.tail _ (.head _)))))
  | .conditional test consequent alternate _ _, h => by
    have htest := hR.group (test.precedence < 2) (test.compare_levels (h.part (.head _)))
    have hcons := h.self consequent (.head _)
      (consequent.compare_levels (h.part (.tail _ (.head _))))
    have halt := h.self alternate (.tail _ (.head _))
      (alternate.compare_levels (h.part (.tail _ (.tail _ (.head _)))))
    rw [Expr.levels, Expr.openLevels, ← Nat.add_max_add_right, ← Nat.add_max_add_right]
    exact hR.max htest (hR.max hcons halt)
  | .element e, h => e.compare_levels (h.part (.head _))
  | .fragment f, h => f.compare_levels (h.part (.head _))

theorem Expr.compare_levelsAll : (es : List Expr) →
    (∀ e ∈ es, (TreeNode.expr e).Throughout (TreeNode.ArmsCompare R)) →
    R (Expr.levelsAll es) (Expr.openLevelsAll es)
  | [], _ => hR.zero
  | e :: es, h =>
    hR.max (e.compare_levels (h e (.head _)))
      (Expr.compare_levelsAll es fun e he => h e (.tail _ he))

theorem Element.compare_levels : (e : Element) →
    (TreeNode.element e).Throughout (TreeNode.ArmsCompare R) → R e.levels e.openLevels
  | ⟨_, attrs, children, _, _⟩, h =>
    hR.succ (hR.max
      (Attribute.compare_levelsAll attrs fun a ha =>
        h.part (List.mem_append_left _ (List.mem_map.2 ⟨a, ha, rfl⟩)))
      (Child.compare_levelsAll children fun c hc =>
        h.part (List.mem_append_right _ (List.mem_map.2 ⟨c, hc, rfl⟩))))

theorem Fragment.compare_levels : (f : Fragment) →
    (TreeNode.fragment f).Throughout (TreeNode.ArmsCompare R) → R f.levels f.openLevels
  | ⟨children, _, _⟩, h =>
    hR.succ (Child.compare_levelsAll children fun c hc => h.part (List.mem_map.2 ⟨c, hc, rfl⟩))

theorem Attribute.compare_levelsAll : (as : List Attribute) →
    (∀ a ∈ as, (TreeNode.attr a).Throughout (TreeNode.ArmsCompare R)) →
    R (Attribute.levelsAll as) (Attribute.openLevelsAll as)
  | [], _ => hR.zero
  | ⟨_, none, _⟩ :: as, h => Attribute.compare_levelsAll as fun a ha => h a (.tail _ ha)
  | ⟨_, some value, _⟩ :: as, h =>
    hR.max (value.compare_levels ((h _ (.head _)).part (.head _)))
      (Attribute.compare_levelsAll as fun a ha => h a (.tail _ ha))

theorem AttrValue.compare_levels : (v : AttrValue) →
    (TreeNode.value v).Throughout (TreeNode.ArmsCompare R) → R v.levels v.openLevels
  | .text .., _ | .container none _, _ => hR.zero
  | .container (some e) _, h => e.compare_levels (h.part (.head _))
  | .element e, h => e.compare_levels (h.part (.head _))

theorem Child.compare_levels : (c : Child) →
    (TreeNode.child c).Throughout (TreeNode.ArmsCompare R) → R c.levels c.openLevels
  | .text .., _ | .container none _, _ => hR.zero
  | .container (some e) _, h => e.compare_levels (h.part (.head _))
  | .element e, h => e.compare_levels (h.part (.head _))
  | .fragment f, h => f.compare_levels (h.part (.head _))

theorem Child.compare_levelsAll : (cs : List Child) →
    (∀ c ∈ cs, (TreeNode.child c).Throughout (TreeNode.ArmsCompare R)) →
    R (Child.levelsAll cs) (Child.openLevelsAll cs)
  | [], _ => hR.zero
  | c :: cs, h =>
    hR.max (c.compare_levels (h c (.head _)))
      (Child.compare_levelsAll cs fun c hc => h c (.tail _ hc))

end

theorem Statement.compare_levels {s : Statement}
    (h : ∀ e, s.expr? = some e → (TreeNode.expr e).Throughout (TreeNode.ArmsCompare R)) :
    R s.levels s.openLevels := by
  unfold levels openLevels
  cases he : s.expr? with
  | none => exact hR.zero
  | some e => exact e.compare_levels hR (h e he)

end

def Expr.isConditional : Expr → Bool
  | .conditional .. => true
  | _ => false

theorem BinaryOp.two_le_power (op : BinaryOp) : 2 ≤ op.power := by
  cases op <;> decide

theorem Expr.precedence_lt_two {e : Expr} : e.precedence < 2 ↔ e.isConditional = true := by
  cases e with
  | binary op => simpa [precedence, isConditional] using Nat.lt_of_succ_le op.two_le_power
  | _ => simp [precedence, isConditional]

/-- Neither arm is a conditional itself. -/
def TreeNode.PlainArms : TreeNode → Prop
  | expr (.conditional _ consequent alternate _ _) =>
    consequent.isConditional = false ∧ alternate.isConditional = false
  | _ => True

theorem TreeNode.PlainArms.armsCompare {n : TreeNode} (h : n.PlainArms) : n.ArmsCompare (· = ·) := by
  unfold ArmsCompare
  split
  · intro e he hlevels
    have hplain : e.isConditional = false := by
      rcases List.mem_pair.1 he with rfl | rfl
      · exact h.1
      · exact h.2
    rw [Piece.groupLevels_of_le (Nat.not_lt.1 fun hlow => ?_), hlevels]
    rw [Expr.precedence_lt_two, hplain] at hlow
    cases hlow
  · trivial

/-- Parentheses stand around conditionals only, and each of these is a level already. -/
theorem TreeNode.armsCompare_twice (n : TreeNode) : n.ArmsCompare fun m n => m ≤ 2 * n - 1 := by
  unfold ArmsCompare
  split
  · intro e _ hlevels
    have hpos (h : e.precedence < 2) : 0 < e.openLevels := by
      rw [Expr.precedence_lt_two] at h
      cases e with
      | conditional => exact (Nat.succ_pos _).trans_le (le_max_right ..)
      | _ => cases h
    unfold Piece.groupLevels
    simp only [decide_eq_true_eq]
    split
    · next h =>
      have := hpos h
      omega
    · omega
  · trivial

theorem compares_eq : Compares (· = ·) where
  zero := rfl
  succ := congrArg (· + 1)
  max := congrArg₂ max

theorem compares_twice : Compares fun m n => m ≤ 2 * n - 1 where
  zero := Nat.le_refl _
  succ := by omega
  max := by omega

/-! What a reader counts -/

/-- An operand that has to bind as tightly as `bound` goes no deeper than that, with the parentheses
that it needs for it. -/
def Expr.Grouped (bound h : Nat) (e : Expr) : Prop :=
  Piece.groupLevels (e.precedence < bound) e.openLevels ≤ h

namespace Expr.Grouped

variable {bound bound' h k : Nat} {e : Expr}

theorem of_le (he : e.openLevels ≤ h) (hbound : bound ≤ e.precedence) : e.Grouped bound h := by
  rwa [Grouped, Piece.groupLevels_of_le hbound]

theorem of_lt (he : e.openLevels < h) : e.Grouped bound h := by
  unfold Grouped Piece.groupLevels
  split <;> omega

theorem mono (he : e.Grouped bound h) (hk : h ≤ k) : e.Grouped bound k := le_trans he hk

theorem weaken (he : e.Grouped bound h) (hbound : bound' ≤ bound) : e.Grouped bound' h := by
  unfold Grouped Piece.groupLevels at *
  simp only [decide_eq_true_eq] at *
  split at he <;> split <;> omega

theorem openLevels_le (he : e.Grouped bound h) : e.openLevels ≤ h := by
  unfold Grouped Piece.groupLevels at he
  split at he <;> omega

end Expr.Grouped

theorem BinaryOp.rightPower_le (op : BinaryOp) : op.rightPower ≤ 14 := by
  cases op <;> decide

namespace Parse

/-- What was read as an operand of that power, with what is left over: an operator there binds less
tightly. -/
structure Operand (power h : Nat) (e : Expr) (c : Cursor) : Prop where
  grouped : e.Grouped (max power 2) h
  power_lt : ∀ op, BinaryOp.ofToken? c.token.val = some op → op.power < power

theorem grouped_of_atom {t : Spanned Token} {e : Expr} (h : atom? t = some e) : e.Grouped 15 0 := by
  unfold atom? at h
  split at h <;> cases h <;> exact .of_le (Nat.le_refl _) (Nat.le_succ 15)

theorem openLevels_toExpr (m : Markup) : (m.toExpr).openLevels = (m.toChild).openLevels := by
  cases m <;> rfl

mutual

theorem ReadsExpr.openLevels_le {c h e c'} : ReadsExpr c h e c' → e.openLevels ≤ h
  | .plain h _ => (h.operand (Nat.zero_le _)).grouped.openLevels_le
  | .conditional h _ h' _ h'' => by
    have ht : Piece.groupLevels _ _ ≤ _ := (h.operand (Nat.zero_le _)).grouped
    have hl := h'.openLevels_le
    have hr := h''.openLevels_le
    rw [Expr.openLevels]
    exact max_le_max ht (Nat.succ_le_succ (max_le_max hl hr))

theorem ReadsBinary.operand {power c h e c'} : ReadsBinary power c h e c' → power ≤ 14 →
    Operand power h e c'
  | .mk h h', hpower => by
    have hl := h.grouped
    refine h'.operand hpower (hl.weaken (max_le hpower (by decide))) fun op _ => ?_
    exact hl.weaken (Nat.le_of_succ_le op.rightPower_le)

theorem ReadsBinaryRest.operand {power c h k lhs e c'} : ReadsBinaryRest power c k lhs e c' →
    power ≤ 14 → lhs.Grouped (max power 2) h →
    (∀ op, BinaryOp.ofToken? c.token.val = some op → lhs.Grouped op.power h) →
    Operand power (max h k) e c'
  | .done hdone, _, hlhs, _ => ⟨hlhs.mono (le_max_left ..), hdone⟩
  | @ReadsBinaryRest.more _ _ k l op _ rhs _ _ _ hop hpower h h', hle, _, hnext => by
    have hr := h.operand op.rightPower_le
    have hlevels (span : Span) : (Expr.binary op _ rhs span).openLevels ≤ max _ k :=
      max_le_max (hnext op hop) (hr.grouped.weaken (le_max_left ..))
    -- the operator that follows binds no tighter, so this needs no parentheses on its left
    have hrest := h'.operand hle (.of_le (hlevels _) (max_le hpower op.two_le_power)) ?_
    · rwa [max_assoc] at hrest
    · exact fun op' hop' => .of_le (hlevels _) (Nat.le_of_lt_succ (hr.power_lt op' hop'))

theorem ReadsUnary.grouped {c h e c'} : ReadsUnary c h e c' → e.Grouped 14 h
  | .operator _ h => .of_le (Nat.succ_le_succ h.grouped) (Nat.le_refl _)
  | .trailing _ h h' => (h'.grouped h.grouped).weaken (by decide)

theorem ReadsTrailing.grouped {c h k e e' c'} : ReadsTrailing c k e e' c' → e.Grouped 15 h →
    e'.Grouped 15 (max h k)
  | .done _ _, he => he.mono (le_max_left ..)
  | .member _ _ h, he => h.grouped (.of_le he (Nat.le_refl _))
  | @ReadsTrailing.call _ k l args e _ _ _ _ hargs _ h', he => by
    have hlevels (span : Span) : (Expr.call e args span).openLevels ≤ max h k :=
      max_le_max he hargs.openLevels_le
    have hrest := h'.grouped (.of_le (hlevels _) (Nat.le_refl _))
    rwa [max_assoc] at hrest

theorem ReadsArguments.openLevels_le {c h es c'} :
    ReadsArguments c h es c' → Expr.openLevelsAll es ≤ h
  | .none _ => Nat.le_refl _
  | .last _ h _ => max_le h.openLevels_le (Nat.zero_le _)
  | .more _ h _ h' => max_le_max h.openLevels_le h'.openLevels_le

theorem ReadsPrimary.grouped {c h e c'} : ReadsPrimary c h e c' → e.Grouped 15 h
  | .atom h => grouped_of_atom h
  | .parenthesized _ h _ => .of_lt (Nat.lt_succ_of_le h.openLevels_le)
  | @ReadsPrimary.markup _ _ m _ _ h => by
    refine .of_le (openLevels_toExpr m ▸ h.openLevels_le) ?_
    cases m <;> exact Nat.le_succ 15

theorem ReadsMarkup.openLevels_le {start after c h m c'} :
    ReadsMarkup start after c h m c' → (m.toChild).openLevels ≤ h
  | .fragment _ h _ => Nat.succ_le_succ h.openLevels_le
  | .selfClosing _ _ h _ _ => Nat.succ_le_succ (max_le h.openLevels_le (Nat.zero_le _))
  | .element _ _ h _ h' _ _ _ => Nat.succ_le_succ (max_le_max h.openLevels_le h'.openLevels_le)

theorem ReadsChildren.openLevels_le {c h cs c'} :
    ReadsChildren c h cs c' → Child.openLevelsAll cs ≤ h
  | .close _ _ => Nat.le_refl _
  | .text _ h => max_le (Nat.zero_le _) h.openLevels_le
  | .container _ h _ h' => max_le_max (h.openLevels_le _).2 h'.openLevels_le
  | .markup _ _ h h' => max_le_max h.openLevels_le h'.openLevels_le

theorem ReadsContainer.openLevels_le {c h inner c'} : ReadsContainer c h inner c' →
    ∀ span, (AttrValue.container inner span).openLevels ≤ h ∧
      (Child.container inner span).openLevels ≤ h
  | .empty _, _ => ⟨Nat.le_refl _, Nat.le_refl _⟩
  | .expr _ h, _ => ⟨h.openLevels_le, h.openLevels_le⟩

theorem ReadsAttributes.openLevels_le {c h as c'} :
    ReadsAttributes c h as c' → Attribute.openLevelsAll as ≤ h
  | .done _ _ => Nat.le_refl _
  | .more _ _ h h' => (Attribute.openLevelsAll_cons ..).trans_le
    (max_le_max h.openLevels_le h'.openLevels_le)

theorem ReadsAttrValue.openLevels_le {c h v c'} :
    ReadsAttrValue c h v c' → v.elim 0 AttrValue.openLevels ≤ h
  | .bare _ | .text _ _ => Nat.le_refl _
  | .container _ _ h _ => (h.openLevels_le _).1
  | .element _ _ h => h.openLevels_le

end

theorem ReadsStatements.openLevels_le {c h ss c'} (hss : ReadsStatements c h ss c') :
    ∀ s ∈ ss, s.val.openLevels ≤ h := by
  have hbody {c h s c'} (hs : ReadsBody c h s c') : s.openLevels ≤ h := by
    cases hs with
    | imports => exact Nat.zero_le _
    | binding _ _ _ h | exportDefault _ _ h | expr _ h => exact h.openLevels_le
  induction hss with
  | none => exact List.forall_mem_nil _
  | more _ h _ ih =>
    refine List.forall_mem_cons.2 ⟨?_, fun s hs => (ih s hs).trans (le_max_right ..)⟩
    cases h with
    | closed h _ | bare h _ => exact (hbody h).trans (le_max_left ..)

end Parse

namespace Program

/-- A program that was read is printed with no more levels than a reader takes, but for the
parentheses around a conditional in the arm of another. These can double the levels. If there are too
many the text is refused for that, and otherwise it is read as the program it was printed from; so it
always is where no arm is a conditional. -/
theorem parse_format_of_arms {file source : String} {p : Program} (hp : parse file source = .ok p)
    (hlength : p.format.utf8ByteSize < UInt32.size) (name : String) :
    (∀ s ∈ p.statements, s.val.openLevels ≤ maxNesting ∧
        s.val.levels ≤ 2 * s.val.openLevels - 1) ∧
      (p.levels ≤ maxNesting → ∃ q, parse name p.format = .ok q ∧ q.name = name ∧ q.bare = p.bare) ∧
      (maxNesting < p.levels → ∃ fs, parse name p.format = .error fs ∧
        ∃ f ∈ fs, f.val = .tooDeep) ∧
      ((∀ n, p.Has Element.attrs n → n.PlainArms) →
        ∃ q, parse name p.format = .ok q ∧ q.name = name ∧ q.bare = p.bare) := by
  have hopen : ∀ s ∈ p.statements, s.val.openLevels ≤ maxNesting := by
    obtain ⟨k, c, hreads, hk, -⟩ := Parse.readsStatements_of_parse hp
    exact fun s hs => (hreads.openLevels_le s hs).trans hk
  obtain ⟨hread, hdeep⟩ := parse_format (printable_of_parse hp) hlength name
  refine ⟨fun s hs => ⟨hopen s hs, ?_⟩, hread, hdeep, fun hplain => hread ?_⟩
  · exact Statement.compare_levels compares_twice fun e _ n _ => n.armsCompare_twice
  · refine levels_le fun s hs => ?_
    rw [Statement.compare_levels compares_eq fun e he n hn => (hplain n ⟨s, hs, e, he, hn⟩).armsCompare]
    exact hopen s hs

/-- One conditional in the arm of another, and `n` operators in the inner one. -/
def armSample (n : Nat) : String :=
  "a ? b : c ? d : " ++ String.ofList (List.replicate n '!') ++ "e"

theorem exists_levels {name source : String} {n : Nat}
    (h : (parse name source).toOption.any (fun p =>
      p.print.text.utf8ByteSize < UInt32.size && p.levels = n) = true) :
    ∃ p, parse name source = .ok p ∧ p.format.utf8ByteSize < UInt32.size ∧ p.levels = n := by
  obtain ⟨p, hp, h⟩ := exists_ok_of_any h
  simp only [Bool.and_eq_true, decide_eq_true_eq, ← format_eq (printable_of_parse hp).comments] at h
  exact ⟨p, hp, h⟩

theorem armSample_levels : (∃ p, parse "a.jsx" (armSample 2) = .ok p ∧
      p.format.utf8ByteSize < UInt32.size ∧ p.levels = 5) ∧
    ∃ p, parse "a.jsx" (armSample 254) = .ok p ∧
      p.format.utf8ByteSize < UInt32.size ∧ p.levels = 257 :=
  ⟨exists_levels (by decide +kernel), exists_levels (by decide +kernel)⟩

theorem parse_format_of_arms_operators : ∃ p, parse "a.jsx" (armSample 2) = .ok p ∧
    p.format.utf8ByteSize < UInt32.size ∧ ∃ q, parse "a.jsx" p.format = .ok q ∧ q.bare = p.bare := by
  obtain ⟨p, hp, hlength, hlevels⟩ := armSample_levels.1
  obtain ⟨-, hread, -, -⟩ := parse_format_of_arms hp hlength "a.jsx"
  obtain ⟨q, hq, -, hbare⟩ := hread (hlevels.trans_le (by decide))
  exact ⟨p, hp, hlength, q, hq, hbare⟩

/-- With as many operators as a reader takes there, the text can be read, and what is printed of it
cannot. -/
theorem exists_parse_format_refused : ∃ p fs, parse "a.jsx" (armSample 254) = .ok p ∧
    parse "a.jsx" p.format = .error fs := by
  obtain ⟨p, hp, hlength, hlevels⟩ := armSample_levels.2
  have hdeep : maxNesting < p.levels := by
    rw [hlevels]
    decide
  obtain ⟨fs, hfs, -⟩ := (parse_format (printable_of_parse hp) hlength "a.jsx").2 hdeep
  exact ⟨p, fs, hp, hfs⟩

end Program
end BranchMarkup
