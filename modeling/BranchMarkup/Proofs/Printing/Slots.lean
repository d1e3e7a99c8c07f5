import BranchMarkup.Proofs.Printing.Statement
/-! The places for comments of a program that was read. They come in the order of the text, and no
two of them pick one comment, so what is printed at each can be told from the spans alone. -/
namespace BranchMarkup

open BranchMarkup.Span (InOrder)

/-! Places in a tree -/

namespace TreeNode

def pieces : TreeNode → List Piece
  | expr e => e.pieces
  | element e => e.pieces
  | fragment f => f.pieces
  | attr a => a.pieces
  | value v => v.pieces
  | child c => c.pieces

/-- The span of a node that is braces around no expression. -/
def emptyContainer? : TreeNode → Option Span
  | value (.container none span) | child (.container none span) => some span
  | _ => none

def emptyContainers (n : TreeNode) : List Span := n.all.filterMap emptyContainer?

end TreeNode

theorem Expr.slots_argumentPieces (es : List Expr) :
    Piece.slots (Expr.argumentPieces es) = es.flatMap fun e => Piece.slots e.pieces := by
  induction es with
  | nil => rfl
  | cons e es ih => rw [Expr.slots_argumentPieces_cons, ih, List.flatMap_cons]

theorem Attribute.slots_piecesAll (as : List Attribute) :
    Piece.slots (Attribute.piecesAll as) = as.flatMap fun a => Piece.slots a.pieces := by
  induction as with
  | nil => rfl
  | cons a as ih => rw [Attribute.piecesAll, Piece.slots_append, ih, List.flatMap_cons]

theorem Child.slots_piecesAll (cs : List Child) :
    Piece.slots (Child.piecesAll cs) = cs.flatMap fun c => Piece.slots c.pieces := by
  induction cs with
  | nil => rfl
  | cons c cs ih => rw [Child.piecesAll, Piece.slots_append, ih, List.flatMap_cons]

theorem TreeNode.slots_pieces_eq (n : TreeNode) : Piece.slots n.pieces =
    n.emptyContainer?.toList.map .heldComments ++
      (n.parts Element.attrs).flatMap fun l => Piece.slots l.pieces := by
  cases n with
  | expr e =>
    cases e with
    | call => simp [parts, pieces, emptyContainer?, Expr.pieces, Expr.slots_argumentPieces,
        List.flatMap_map]
    | unary op operand =>
      rw [pieces, Expr.pieces]
      split <;> simp [parts, pieces, emptyContainer?]
    | _ => simp [parts, pieces, emptyContainer?, Expr.pieces]
  | element e =>
    cases e
    rw [pieces, Element.pieces]
    split <;> simp_all [parts, pieces, emptyContainer?, Attribute.slots_piecesAll,
      Child.slots_piecesAll, List.flatMap_map]
  | fragment f =>
    cases f
    simp [parts, pieces, emptyContainer?, Fragment.pieces, Child.slots_piecesAll, List.flatMap_map]
  | attr a => rcases a with ⟨_, _ | v, _⟩ <;> simp [parts, pieces, emptyContainer?, Attribute.pieces]
  | value v =>
    rcases v with _ | ⟨_ | e, _⟩ | _ <;> simp [parts, pieces, emptyContainer?, AttrValue.pieces]
  | child c =>
    rcases c with _ | ⟨_ | e, _⟩ | _ | _ <;> simp [parts, pieces, emptyContainer?, Child.pieces]

/-- In a tree comments are held by the empty containers, and nowhere else. -/
theorem TreeNode.slots_pieces (n : TreeNode) :
    Piece.slots n.pieces = n.emptyContainers.map .heldComments := by
  induction hn : sizeOf n using Nat.strongRecOn generalizing n with
  | ind k ih =>
    rw [slots_pieces_eq, emptyContainers, filterMap_all, List.map_append, List.map_flatMap]
    congr 1
    exact List.flatMap_congr fun l hl =>
      ih _ (hn ▸ sizeOf_part (fun _ => List.Subset.refl _) hl) l rfl

def Statement.emptyContainers (s : Statement) : List Span :=
  s.expr?.toList.flatMap fun e => (TreeNode.expr e).emptyContainers

theorem Statement.slots_pieces (s : Statement) :
    Piece.slots s.pieces = s.emptyContainers.map .heldComments := by
  have hexpr (e : Expr) : Piece.slots e.pieces =
      ([e].flatMap fun e => (TreeNode.expr e).emptyContainers).map .heldComments := by
    rw [List.flatMap_singleton]
    exact (TreeNode.expr e).slots_pieces
  cases s with
  | imports => rfl
  | binding _ _ e | exportDefault e | expr e => exact hexpr e

theorem TreeNode.of_emptyContainer? {n : TreeNode} {s : Span} (h : n.emptyContainer? = some s) :
    n.span = s ∧ n.margin = 1 ∧ n.parts Element.attrs = [] := by
  unfold emptyContainer? at h
  split at h <;> cases h <;> exact ⟨rfl, rfl, rfl⟩

theorem TreeNode.Nested.emptyContainer {n : TreeNode} (h : n.Nested) :
    ∃ mid, InOrder n.span.lower mid n.emptyContainer?.toList ∧
      InOrder mid n.span.upper ((n.parts Element.attrs).map TreeNode.span) := by
  cases hempty : n.emptyContainer? with
  | none =>
    refine ⟨n.span.lower, Nat.le_refl _, ?_⟩
    exact InOrder.mono h (Nat.le_add_right ..) (Nat.sub_le ..)
  | some s =>
    obtain ⟨rfl, hmargin, hparts⟩ := of_emptyContainer? hempty
    have hle := InOrder.le h
    rw [hmargin] at hle
    refine ⟨n.span.upper, ?_, ?_⟩
    · rw [Option.toList_some, Span.inOrder_singleton]
      exact ⟨Nat.le_refl _, by omega, Nat.le_refl _⟩
    · rw [hparts]
      exact Nat.le_refl _

theorem Holds.inOrder_emptyContainers {s : Spanned Statement} (hs : Holds s)
    (hlt : s.span.lower < s.span.upper) :
    InOrder s.span.lower s.span.upper s.val.emptyContainers := by
  have hcollected := hs.inOrder_collected (fun _ hn => hn.emptyContainer) hlt
  simp only [List.flatMap_map, ← List.filterMap_eq_flatMap_toList] at hcollected
  exact hcollected

/-! Places one after another -/

theorem Span.encloses_iff {s t : Span} :
    s.encloses t = true ↔ s.lower ≤ t.lower ∧ t.upper ≤ s.upper := by
  simp [encloses, lower, upper, UInt32.le_iff_toNat_le]

namespace Piece

theorem picks_held {container s : Span} : (heldComments container).picks s = true ↔
    container.lower ≤ s.lower ∧ s.upper ≤ container.upper :=
  Span.encloses_iff

theorem picks_leading {a b : UInt32} {s : Span} : (leadingComments a b).picks s = true ↔
    a.toNat ≤ s.lower ∧ s.lower < b.toNat := by
  simp [picks, Span.lower, UInt32.le_iff_toNat_le, UInt32.lt_iff_toNat_lt]

theorem picks_trailing {a : UInt32} {s : Span} :
    (trailingComments a).picks s = true ↔ a.toNat ≤ s.lower := by
  simp [picks, Span.lower, UInt32.le_iff_toNat_le]

def Within (a b : Nat) (p : Piece) : Prop :=
  ∀ s : Span, s.lower < s.upper → p.picks s → a ≤ s.lower ∧ s.lower < b

/-- Places that pick what starts between two offsets, each behind the one before it. -/
def InTurn (a b : Nat) : List Piece → Prop
  | [] => a ≤ b
  | p :: ps => ∃ mid, a ≤ mid ∧ p.Within a mid ∧ InTurn mid b ps

section
variable {a b c : Nat} {p : Piece} {ps qs : List Piece}

theorem InTurn.le (h : InTurn a b ps) : a ≤ b := by
  induction ps generalizing a with
  | nil => exact h
  | cons p ps ih =>
    obtain ⟨mid, hle, -, hps⟩ := h
    exact hle.trans (ih hps)

theorem InTurn.mono (h : InTurn b c ps) (hab : a ≤ b) : InTurn a c ps := by
  cases ps with
  | nil => exact hab.trans h
  | cons p ps =>
    obtain ⟨mid, hle, hp, hps⟩ := h
    refine ⟨mid, hab.trans hle, fun s hs hpick => ?_, hps⟩
    exact ⟨hab.trans (hp s hs hpick).1, (hp s hs hpick).2⟩

theorem InTurn.append (h : InTurn a b ps) (h' : InTurn b c qs) : InTurn a c (ps ++ qs) := by
  induction ps generalizing a with
  | nil => exact h'.mono h
  | cons p ps ih =>
    obtain ⟨mid, hle, hp, hps⟩ := h
    exact ⟨mid, hle, hp, ih hps⟩

theorem InTurn.bounds (h : InTurn a b ps) : ∀ p ∈ ps, p.Within a b := by
  induction ps generalizing a with
  | nil => nofun
  | cons p ps ih =>
    obtain ⟨mid, hle, hp, hps⟩ := h
    have hmid := hps.le
    refine List.forall_mem_cons.2 ⟨fun s hs hpick => ?_, fun q hq s hs hpick => ?_⟩
    · have := hp s hs hpick
      omega
    · have := ih hps q hq s hs hpick
      omega

theorem InTurn.filter_left (hp : p.Within a b) (h : InTurn b c ps) {cs : List (Spanned String)}
    (hcs : ∀ k ∈ cs, k.span.lower < k.span.upper) {x : Piece} (hx : x ∈ ps) :
    (cs.filter fun k => !p.picks k.span).filter (x.picks ·.span) = cs.filter (x.picks ·.span) := by
  rw [List.filter_filter]
  refine List.filter_congr fun k hk => ?_
  cases hpick : x.picks k.span with
  | false => rfl
  | true =>
    have hlower := (h.bounds x hx k.span (hcs k hk) hpick).1
    have hnot : p.picks k.span = false := by
      rw [Bool.eq_false_iff]
      intro hp'
      have := (hp k.span (hcs k hk) hp').2
      omega
    rw [hnot]
    rfl

theorem inTurn_held {ss : List Span} (h : InOrder a b ss) : InTurn a b (ss.map heldComments) := by
  induction ss generalizing a with
  | nil => exact h
  | cons s ss ih =>
    obtain ⟨hlower, hlt, hss⟩ := h
    refine ⟨s.upper, by omega, fun t ht hpick => ?_, ih hss⟩
    have := picks_held.1 hpick
    omega

end
end Piece

open Piece (InTurn)

theorem Laid.inTurn {b : Nat} {a : UInt32} {ss : List (Spanned Statement)}
    {cs : List (Spanned String)} (h : Laid b a.toNat ss cs) (after : Bool) :
    InTurn a.toNat UInt32.size (Piece.slots (Program.piecesFrom a after ss)) := by
  induction ss generalizing a cs after with
  | nil =>
    refine ⟨UInt32.size, Nat.le_of_lt a.toNat_lt, fun s _ hpick => ?_, Nat.le_refl _⟩
    exact ⟨Piece.picks_trailing.1 hpick, s.start.toNat_lt⟩
  | cons s ss ih =>
    obtain ⟨hs, hlt, before, inside, rest, -, hbefore, -, hss⟩ := h
    rw [slots_piecesFrom_cons, Statement.slots_pieces]
    refine ⟨s.span.lower, hbefore.le, fun t _ hpick => Piece.picks_leading.1 hpick, ?_⟩
    exact (Piece.inTurn_held (hs.inOrder_emptyContainers hlt)).append (ih hss _)

/-! What is taken -/

/-- At places one after another a run takes what these pick of all comments, as none is picked
twice. -/
theorem Print.taken_eq {a b : Nat} {ps : List Piece} (h : InTurn a b (Piece.slots ps)) {p : Print}
    (hp : ∀ c ∈ p.comments, c.span.lower < c.span.upper) : p.taken ps =
      (Piece.slots ps).map fun x => (p.comments.filter (x.picks ·.span)).map (·.val) := by
  induction ps generalizing a p with
  | nil => rfl
  | cons piece ps ih =>
    rw [taken]
    by_cases hslot : piece.isSlot
    · rw [Piece.slots, List.filter_cons_of_pos hslot, ← Piece.slots] at h ⊢
      obtain ⟨mid, -, hpiece, hps⟩ := h
      have hleft : ∀ c ∈ (p.add piece).comments, c.span.lower < c.span.upper := by
        rw [comments_add]
        exact fun c hc => hp c (List.mem_filter.1 hc).1
      rw [ih hps hleft, comments_add, Piece.groups, if_pos hslot, List.map_cons,
        List.singleton_append]
      congr 1
      exact List.map_congr_left fun x hx => congrArg _ (InTurn.filter_left hpiece hps hp hx)
    · have hpicks (s : Span) : piece.picks s = false := by
        cases piece <;> first | rfl | exact absurd rfl hslot
      rw [Piece.slots, List.filter_cons_of_neg hslot, ← Piece.slots] at h ⊢
      have hcomments : (p.add piece).comments = p.comments := by
        simp [comments_add, hpicks]
      rw [ih h (hcomments ▸ hp), hcomments, Piece.groups, if_neg hslot, List.nil_append]

/-- Of a list in rising order two filters give it back in order, if the one picks nothing behind what
the other picks. -/
theorem filter_append_filter {α : Type} {f : α → Nat} {p q : α → Bool} {l : List α}
    (hl : l.Pairwise (f · < f ·)) (hpq : ∀ x ∈ l, ∀ y ∈ l, p x → q y → f x < f y) :
    l.filter p ++ l.filter q = l.filter fun x => p x || q x := by
  induction l with
  | nil => rfl
  | cons x l ih =>
    obtain ⟨hx, hl⟩ := List.pairwise_cons.1 hl
    have htail := ih hl fun y hy z hz =>
      hpq y (List.mem_cons_of_mem _ hy) z (List.mem_cons_of_mem _ hz)
    cases hp : p x with
    | true =>
      have hq : q x = false := by
        rw [Bool.eq_false_iff]
        intro hq
        exact Nat.lt_irrefl _ (hpq x List.mem_cons_self x List.mem_cons_self hp hq)
      simp [hp, hq, htail]
    | false =>
      cases hq : q x with
      | false => simp [hp, hq, htail]
      | true =>
        have hnone : l.filter p = [] := by
          rw [List.filter_eq_nil_iff]
          intro y hy hpy
          have := hpq y (List.mem_cons_of_mem _ hy) x List.mem_cons_self hpy hq
          have := hx y hy
          omega
        rw [hnone, List.nil_append] at htail
        simp [hp, hq, hnone, htail]

/-- What places one after another pick of all comments, taken together, is in order. -/
theorem flatMap_picks {a b : Nat} {ps : List Piece} (h : InTurn a b ps) {cs : List (Spanned String)}
    (hcs : ∀ c ∈ cs, c.span.lower < c.span.upper)
    (hsorted : cs.Pairwise (·.span.lower < ·.span.lower)) :
    ps.flatMap (fun x => cs.filter (x.picks ·.span)) =
      cs.filter fun c => ps.any (·.picks c.span) := by
  induction ps generalizing a with
  | nil => simp
  | cons p ps ih =>
    obtain ⟨mid, -, hp, hps⟩ := h
    rw [List.flatMap_cons, ih hps, filter_append_filter hsorted]
    · rfl
    · intro x hx y hy hpick hany
      obtain ⟨q, hq, hpick'⟩ := List.any_eq_true.1 hany
      have h1 := (hp x.span (hcs x hx) hpick).2
      have h2 := (hps.bounds q hq y.span (hcs y hy) hpick').1
      omega

end BranchMarkup
