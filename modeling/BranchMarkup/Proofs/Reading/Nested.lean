import Mathlib
import BranchMarkup.Proofs.Reading.Stands
import BranchMarkup.Proofs.Reading.Unmarked
/-! Where the nodes stand that are read: the parts of a node inside its span, one after another. In a
text too long for the words that spans are stored in this says nothing. -/
namespace BranchMarkup

open BranchMarkup.Span (InOrder)

namespace TreeNode

def span : TreeNode → Span
  | expr e => e.span
  | element e => e.span
  | fragment f => f.span
  | attr a => a.span
  | value v => v.span
  | child c => c.span

/-- Bytes of a node, at both its ends, that belong to no part of it: a bracket or brace. -/
def margin : TreeNode → Nat
  | element _ | fragment _ | value (.container ..) | child (.container ..) => 1
  | _ => 0

/-- The parts of the node stand inside its span, one after another. -/
def Nested (n : TreeNode) : Prop :=
  InOrder (n.span.lower + n.margin) (n.span.upper - n.margin) ((n.parts Element.attrs).map span)

/-- What is collected from all nodes in source order stands in order, if at each node what stands
there comes before the parts. -/
theorem inOrder_collected {own : TreeNode → List Span} {n : TreeNode} (hn : n.Throughout fun m =>
      ∃ mid, InOrder m.span.lower mid (own m) ∧
        InOrder mid m.span.upper ((m.parts Element.attrs).map span)) :
    InOrder n.span.lower n.span.upper (n.all.flatMap own) := by
  induction hsize : sizeOf n using Nat.strongRecOn generalizing n with
  | ind k ih =>
    obtain ⟨mid, hown, hparts⟩ := hn.self
    rw [all_eq, List.flatMap_cons]
    refine hown.append ?_
    have hpart : ∀ l ∈ n.parts Element.attrs,
        InOrder l.span.lower l.span.upper (l.all.flatMap own) := fun l hl =>
      ih _ (hsize ▸ sizeOf_part (fun _ => List.Subset.refl _) hl) (hn.part hl) rfl
    generalize n.parts Element.attrs = ls at hparts hpart
    clear hown
    induction ls generalizing mid with
    | nil => exact hparts
    | cons l ls ihls =>
      rw [List.forall_mem_cons] at hpart
      rw [List.flatMap_cons, List.flatMap_append]
      exact (hpart.1.mono hparts.1 (Nat.le_refl _)).append (ihls _ hparts.2.2 hpart.2)

end TreeNode

namespace Parse

open TreeNode (Nested throughout_iff)

/-- A node was read from `a` on, and all of it before the token at the cursor. -/
structure Placed (n a : Nat) (c : Cursor) (m : TreeNode) : Prop where
  nested : m.Throughout Nested
  lower_le : a ≤ m.span.lower
  lower_lt : m.span.lower < m.span.upper
  upper_le : m.span.upper ≤ c.last.upper
  last_le : a ≤ c.last.lower
  stands : c.Stands n

section
variable {n a : Nat} {c : Cursor} {m : TreeNode}

theorem Placed.upper_le_lower (h : Placed n a c m) : m.span.upper ≤ c.token.span.lower :=
  Nat.le_trans h.upper_le h.stands.last_le

theorem Placed.upper_le_bump (h : Placed n a c m) (hn : n < UInt32.size)
    (hopen : c.token.val ≠ .endOfFile) (mode : Mode) :
    m.span.upper ≤ (c.bump mode).token.span.lower := by
  have hlower := h.stands.lower_lt hopen
  have hnext := h.stands.bump_lower hn hopen mode
  have := h.upper_le_lower
  omega

theorem Placed.mono {b : Nat} (h : Placed n a c m) (hb : b ≤ a) : Placed n b c m :=
  ⟨h.nested, Nat.le_trans hb h.lower_le, h.lower_lt, h.upper_le, Nat.le_trans hb h.last_le, h.stands⟩

theorem Placed.bump (h : Placed n a c m) (hn : n < UInt32.size) (hopen : c.token.val ≠ .endOfFile)
    (mode : Mode) : Placed n a (c.bump mode) m := by
  have hm := h.upper_le_lower
  have hlt := h.stands.lower_lt hopen
  have hlower := h.lower_le
  have hm' := h.lower_lt
  refine ⟨h.nested, h.lower_le, h.lower_lt, ?_, ?_, h.stands.bump hn mode⟩
  · rw [Cursor.last_bump hopen]
    omega
  · rw [Cursor.last_bump hopen]
    omega

/-- A node that reaches from one span to another, with its parts between. -/
theorem placed_merge {s t : Span} (hspan : m.span = s.merge t) (hlower : a ≤ s.lower)
    (hs : s.lower < s.upper) (hst : s.lower ≤ t.lower) (hst' : s.upper ≤ t.upper)
    (ht : t.upper ≤ c.last.upper) (hlast : a ≤ c.last.lower) (hc : c.Stands n)
    (hnested : ∀ l ∈ m.parts Element.attrs, l.Throughout Nested)
    (hinside : InOrder (s.lower + m.margin) (t.upper - m.margin)
      ((m.parts Element.attrs).map TreeNode.span)) : Placed n a c m := by
  have hlow : m.span.lower = s.lower := by rw [hspan, Span.lower_merge, Nat.min_eq_left hst]
  have hupp : m.span.upper = t.upper := by rw [hspan, Span.upper_merge, Nat.max_eq_right hst']
  refine ⟨throughout_iff.2 ⟨?_, hnested⟩, ?_, ?_, ?_, hlast, hc⟩
  · rw [Nested, hlow, hupp]
    exact hinside
  · rwa [hlow]
  · rw [hlow, hupp]
    omega
  · rwa [hupp]

theorem placed_token (hc : c.Stands n) (hn : n < UInt32.size) (hopen : c.token.val ≠ .endOfFile)
    (mode : Mode) (hspan : m.span = c.token.span) (hmargin : m.margin = 0)
    (hparts : m.parts Element.attrs = []) : Placed n c.token.span.lower (c.bump mode) m := by
  refine ⟨throughout_iff.2 ⟨?_, by rw [hparts]; exact List.forall_mem_nil _⟩, ?_, ?_, ?_, ?_, hc.bump hn mode⟩
  · simp only [Nested, hparts, hmargin, hspan, List.map_nil, InOrder]
    exact hc.lower_le
  · rw [hspan]
  · rw [hspan]
    exact hc.lower_lt hopen
  · rw [hspan, Cursor.last_bump hopen]
  · rw [Cursor.last_bump hopen]

theorem placed_atom {e : Expr} (hc : c.Stands n) (hn : n < UInt32.size)
    (h : atom? c.token = some e) : Placed n c.token.span.lower (c.bump .script) (.expr e) := by
  have hopen : c.token.val ≠ .endOfFile := fun he => by simp [atom?, he] at h
  unfold atom? at h
  split at h <;> cases h <;> exact placed_token hc hn hopen .script rfl rfl rfl

theorem Placed.toExpr {m : Markup} (h : Placed n a c m.node) : Placed n a c (.expr m.toExpr) := by
  have hspan : (TreeNode.expr m.toExpr).span = m.node.span := by cases m <;> rfl
  have hparts : (TreeNode.expr m.toExpr).parts Element.attrs = [m.node] := by cases m <;> rfl
  have hlower := h.lower_lt
  refine ⟨throughout_iff.2 ⟨?_, ?_⟩, hspan ▸ h.lower_le, hspan ▸ h.lower_lt, hspan ▸ h.upper_le,
    h.last_le, h.stands⟩
  · simp only [Nested, hparts, hspan, TreeNode.margin, List.map_cons, List.map_nil, InOrder]
    omega
  · rw [hparts]
    exact List.forall_mem_singleton.2 h.nested

theorem Placed.toChild {m : Markup} (h : Placed n a c m.node) : Placed n a c (.child m.toChild) := by
  have hspan : (TreeNode.child m.toChild).span = m.node.span := by cases m <;> rfl
  have hparts : (TreeNode.child m.toChild).parts Element.attrs = [m.node] := by cases m <;> rfl
  have hmargin : (TreeNode.child m.toChild).margin = 0 := by cases m <;> rfl
  have hlower := h.lower_lt
  refine ⟨throughout_iff.2 ⟨?_, ?_⟩, hspan ▸ h.lower_le, hspan ▸ h.lower_lt, hspan ▸ h.upper_le,
    h.last_le, h.stands⟩
  · simp only [Nested, hparts, hspan, hmargin, List.map_cons, List.map_nil, InOrder]
    omega
  · rw [hparts]
    exact List.forall_mem_singleton.2 h.nested

end

/-- Nodes were read from `a` on, one after another, and all of them before the token at the
cursor. -/
structure PlacedAll (n a : Nat) (c : Cursor) (ms : List TreeNode) : Prop where
  nested : ∀ m ∈ ms, m.Throughout Nested
  inOrder : InOrder a c.token.span.lower (ms.map TreeNode.span)
  stands : c.Stands n

section
variable {n a b : Nat} {c c' : Cursor} {m : TreeNode} {ms : List TreeNode}

theorem PlacedAll.nil (hc : c.Stands n) : PlacedAll n c.token.span.lower c [] :=
  ⟨List.forall_mem_nil _, Nat.le_refl _, hc⟩

theorem PlacedAll.cons (h : Placed n a c m) (hms : PlacedAll n b c' ms)
    (hb : m.span.upper ≤ b) : PlacedAll n a c' (m :: ms) :=
  ⟨List.forall_mem_cons.2 ⟨h.nested, hms.nested⟩,
    ⟨h.lower_le, h.lower_lt, hms.inOrder.mono hb (Nat.le_refl _)⟩, hms.stands⟩

theorem PlacedAll.le (h : PlacedAll n a c ms) : a ≤ c.token.span.lower := h.inOrder.le

end

theorem placed_conditional {n a : Nat} {c c₁ c₂ : Cursor} {t x y : Expr} {p : Option Provenance}
    (ht : Placed n a c₁ (.expr t)) (hx : Placed n t.span.upper c₂ (.expr x))
    (hy : Placed n x.span.upper c (.expr y)) :
    Placed n a c (.expr (.conditional t x y p (t.span.merge y.span))) := by
  have h1 : t.span.lower < t.span.upper := ht.lower_lt
  have h2 : t.span.upper ≤ x.span.lower := hx.lower_le
  have h3 : x.span.lower < x.span.upper := hx.lower_lt
  have h4 : x.span.upper ≤ y.span.lower := hy.lower_le
  have h5 : y.span.lower < y.span.upper := hy.lower_lt
  have h6 : x.span.upper ≤ c.last.lower := hy.last_le
  have h7 : a ≤ t.span.lower := ht.lower_le
  refine placed_merge rfl h7 h1 (by omega) (by omega) hy.upper_le (by omega) hy.stands ?_ ?_
  · simp only [TreeNode.parts, List.forall_mem_cons]
    exact ⟨ht.nested, hx.nested, hy.nested, List.forall_mem_nil _⟩
  · exact ⟨Nat.le_refl _, h1, h2, h3, h4, h5, Nat.le_refl _⟩

theorem placed_binary {n a : Nat} {c c₁ : Cursor} {op : BinaryOp} {x y : Expr}
    (hx : Placed n a c₁ (.expr x)) (hy : Placed n x.span.upper c (.expr y)) :
    Placed n a c (.expr (.binary op x y (x.span.merge y.span))) := by
  have h1 : x.span.lower < x.span.upper := hx.lower_lt
  have h2 : x.span.upper ≤ y.span.lower := hy.lower_le
  have h3 : y.span.lower < y.span.upper := hy.lower_lt
  have h4 : x.span.upper ≤ c.last.lower := hy.last_le
  have h5 : a ≤ x.span.lower := hx.lower_le
  refine placed_merge rfl h5 h1 (by omega) (by omega) hy.upper_le (by omega) hy.stands ?_ ?_
  · simp only [TreeNode.parts, List.forall_mem_cons]
    exact ⟨hx.nested, hy.nested, List.forall_mem_nil _⟩
  · exact ⟨Nat.le_refl _, h1, h2, h3, Nat.le_refl _⟩

theorem placed_unary {n : Nat} {c : Cursor} {op : UnaryOp} {s : Span} {x : Expr}
    (hs : s.lower < s.upper) (hx : Placed n s.upper c (.expr x)) :
    Placed n s.lower c (.expr (.unary op x (s.merge x.span))) := by
  have h1 : s.upper ≤ x.span.lower := hx.lower_le
  have h2 : x.span.lower < x.span.upper := hx.lower_lt
  have h3 := hx.last_le
  refine placed_merge rfl (Nat.le_refl _) hs (by omega) (by omega) hx.upper_le (by omega) hx.stands
    ?_ ?_
  · exact List.forall_mem_singleton.2 hx.nested
  · exact ⟨Nat.le_trans (Nat.le_of_lt hs) h1, h2, Nat.le_refl _⟩

theorem placed_postfix {n a : Nat} {c c₁ : Cursor} {x : Expr} {m : TreeNode} {ls : List TreeNode}
    {t : Span} (hx : Placed n a c₁ (.expr x)) (hspan : m.span = x.span.merge t)
    (hmargin : m.margin = 0) (hparts : m.parts Element.attrs = .expr x :: ls)
    (hxt : x.span.upper ≤ t.lower) (ht : t.lower < t.upper) (htc : c.last = t)
    (hc : c.Stands n) (hls : ∀ l ∈ ls, l.Throughout Nested)
    (hinside : InOrder x.span.upper t.upper (ls.map TreeNode.span)) : Placed n a c m := by
  have h1 : x.span.lower < x.span.upper := hx.lower_lt
  have h2 : a ≤ x.span.lower := hx.lower_le
  refine placed_merge hspan h2 h1 (by omega) (by omega) (by rw [htc]) (by rw [htc]; omega) hc ?_ ?_
  · rw [hparts]
    exact List.forall_mem_cons.2 ⟨hx.nested, hls⟩
  · rw [hparts, hmargin]
    exact ⟨Nat.le_refl _, h1, hinside⟩

theorem placed_member {n a : Nat} {c : Cursor} {x : Expr} {property : String} (hn : n < UInt32.size)
    (hx : Placed n a c (.expr x)) (hdot : c.kind = .symbol .dot)
    (hw : (c.bump .script).word? = some property) :
    Placed n a ((c.bump .script).bump .script) (.expr (.member x ⟨property, (c.bump .script).token.span⟩
      (x.span.merge (c.bump .script).token.span))) := by
  have hopen : (c.bump .script).token.val ≠ .endOfFile := fun h => by simp [h, Cursor.word?] at hw
  have hnext := hx.stands.bump hn .script
  have hlower := hx.upper_le_bump hn (ne_endOfFile_of_kind hdot (by decide)) .script
  have hlt := hnext.lower_lt hopen
  exact placed_postfix hx rfl rfl rfl hlower hlt (Cursor.last_bump hopen _) (hnext.bump hn .script)
    (List.forall_mem_nil _) (Nat.le_trans hlower (Nat.le_of_lt hlt))

theorem placed_call {n a : Nat} {c c₁ : Cursor} {x : Expr} {args : List Expr} (hn : n < UInt32.size)
    (hx : Placed n a c (.expr x)) (hparen : c.kind = .symbol .lparen)
    (hargs : PlacedAll n (c.bump .script).token.span.lower c₁ (args.map .expr))
    (hclose : c₁.kind = .symbol .rparen) :
    Placed n a (c₁.bump .script) (.expr (.call x args (x.span.merge (c₁.bump .script).last))) := by
  have hopen : c₁.token.val ≠ .endOfFile := ne_endOfFile_of_kind hclose (by decide)
  have hlower := hx.upper_le_bump hn (ne_endOfFile_of_kind hparen (by decide)) .script
  have hlt := hargs.stands.lower_lt hopen
  have hlast := Cursor.last_bump hopen .script
  rw [hlast]
  refine placed_postfix hx rfl rfl rfl ?_ hlt hlast (hargs.stands.bump hn .script) hargs.nested ?_
  · exact Nat.le_trans hlower hargs.le
  · exact hargs.inOrder.mono hlower (Nat.le_of_lt hlt)

theorem placed_brackets {n : Nat} {c : Cursor} {s t : Span} {m : TreeNode}
    (hs : s.lower < s.upper) (ht : t.lower < t.upper) (htc : c.last = t)
    (hc : c.Stands n) (hspan : m.span = s.merge t) (hmargin : m.margin = 1)
    (hnested : ∀ l ∈ m.parts Element.attrs, l.Throughout Nested)
    (hinside : InOrder s.upper t.lower ((m.parts Element.attrs).map TreeNode.span)) :
    Placed n s.lower c m := by
  have hst := hinside.le
  refine placed_merge hspan (Nat.le_refl _) hs (by omega) (by omega) (by rw [htc])
    (by rw [htc]; omega) hc hnested ?_
  rw [hmargin]
  exact hinside.mono hs (by omega)

/-! Names -/

/-- A name was read from `a` on, up to the token before the cursor. -/
structure PlacedName (n a : Nat) (c : Cursor) (name : Spanned String) : Prop where
  lower_le : a ≤ name.span.lower
  lower_lt : name.span.lower < name.span.upper
  upper_le : name.span.upper ≤ c.last.upper
  last_le : name.span.lower ≤ c.last.lower
  stands : c.Stands n

theorem ReadsTagRest.placed {n a c name name' c'} (h : ReadsTagRest c name name' c')
    (hn : n < UInt32.size) : PlacedName n a c name → PlacedName n a c' name' := by
  induction h with
  | done => exact id
  | @part c joint text part c' name name' hj htext hpart _ ih =>
    intro ⟨h1, h2, h3, _, hc⟩
    have hjoint : c.token.val ≠ .endOfFile := by simp [hj]
    have hopen : (c.bump .tag).token.val ≠ .endOfFile := by simp [hpart]
    have hnext := hc.bump hn .tag
    have h4 := hc.lower_lt hjoint
    have h5 := hc.bump_lower hn hjoint .tag
    have h6 := hc.last_le
    have h7 := hnext.lower_lt hopen
    have hmin : (name.span.merge (c.bump .tag).token.span).lower = name.span.lower := by
      rw [Span.lower_merge]
      omega
    have hmax : (name.span.merge (c.bump .tag).token.span).upper =
        (c.bump .tag).token.span.upper := by
      rw [Span.upper_merge]
      omega
    refine ih ⟨?_, ?_, ?_, ?_, hnext.bump hn .tag⟩
    · rwa [hmin]
    · rw [hmin, hmax]
      omega
    · rw [hmax, Cursor.last_bump hopen]
    · rw [hmin, Cursor.last_bump hopen]
      omega

theorem placedName_first {n : Nat} {c : Cursor} {first : String} (hn : n < UInt32.size)
    (hc : c.Stands n) (hfirst : c.token.val = .ident first) :
    PlacedName n c.token.span.lower (c.bump .tag) ⟨first, c.token.span⟩ := by
  have hopen : c.token.val ≠ .endOfFile := by simp [hfirst]
  refine ⟨Nat.le_refl _, hc.lower_lt hopen, ?_, ?_, hc.bump hn .tag⟩ <;> rw [Cursor.last_bump hopen]

theorem ReadsTag.placed {n c name c'} (h : ReadsTag c name c') (hn : n < UInt32.size)
    (hc : c.Stands n) (hgt : c.kind ≠ .symbol .gt) : PlacedName n c.token.span.lower c' name := by
  cases h with
  | empty h => exact absurd h hgt
  | name hfirst h => exact h.placed hn (placedName_first hn hc hfirst)

theorem ReadsTag.stands {n c name c'} (h : ReadsTag c name c') (hn : n < UInt32.size)
    (hc : c.Stands n) : c'.Stands n ∧ c.token.span.lower ≤ c'.token.span.lower := by
  cases h with
  | empty => exact ⟨hc, Nat.le_refl _⟩
  | name hfirst h =>
    obtain ⟨h1, h2, h3, -, hc'⟩ := h.placed hn (placedName_first hn hc hfirst)
    have h4 := hc'.last_le
    exact ⟨hc', by omega⟩

mutual

theorem ReadsExpr.placed {n c h e c'} (hn : n < UInt32.size) :
    ReadsExpr c h e c' → c.Stands n → Placed n c.token.span.lower c' (.expr e)
  | .plain h _, hc => h.placed hn hc
  | .conditional h hquestion h' hcolon h'', hc => by
    have ht := h.placed hn hc
    have hx := h'.placed hn (ht.stands.bump hn .script)
    have hy := h''.placed hn (hx.stands.bump hn .script)
    have htx := ht.upper_le_bump hn (ne_endOfFile_of_kind hquestion (by decide)) .script
    have hxy := hx.upper_le_bump hn (ne_endOfFile_of_kind hcolon (by decide)) .script
    exact placed_conditional ht (hx.mono htx) (hy.mono hxy)

theorem ReadsBinary.placed {n power c h e c'} (hn : n < UInt32.size) :
    ReadsBinary power c h e c' → c.Stands n → Placed n c.token.span.lower c' (.expr e)
  | .mk h h', hc => h'.placed hn (h.placed hn hc)

theorem ReadsBinaryRest.placed {n a power c h lhs e c'} (hn : n < UInt32.size) :
    ReadsBinaryRest power c h lhs e c' → Placed n a c (.expr lhs) → Placed n a c' (.expr e)
  | .done _, hl => hl
  | .more hop _ h h', hl => by
    have hopen : c.token.val ≠ .endOfFile := fun he => by simp [he, BinaryOp.ofToken?] at hop
    have hr := h.placed hn (hl.stands.bump hn .script)
    exact h'.placed hn (placed_binary hl (hr.mono (hl.upper_le_bump hn hopen .script)))

theorem ReadsUnary.placed {n c h e c'} (hn : n < UInt32.size) :
    ReadsUnary c h e c' → c.Stands n → Placed n c.token.span.lower c' (.expr e)
  | .operator hop h, hc => by
    have hopen : c.token.val ≠ .endOfFile := fun he => by simp [he, UnaryOp.ofToken?] at hop
    have hx := h.placed hn (hc.bump hn .script)
    exact placed_unary (hc.lower_lt hopen) (hx.mono (hc.bump_lower hn hopen .script))
  | .trailing _ h h', hc => h'.placed hn (h.placed hn hc)

theorem ReadsTrailing.placed {n a c h e e' c'} (hn : n < UInt32.size) :
    ReadsTrailing c h e e' c' → Placed n a c (.expr e) → Placed n a c' (.expr e')
  | .done _ _, he => he
  | .member hdot hw h, he => h.placed hn (placed_member hn he hdot hw)
  | .call hparen h hclose h', he =>
    h'.placed hn (placed_call hn he hparen (h.placed hn (he.stands.bump hn .script)) hclose)

theorem ReadsArguments.placed {n c h es c'} (hn : n < UInt32.size) :
    ReadsArguments c h es c' → c.Stands n → PlacedAll n c.token.span.lower c' (es.map .expr)
  | .none _, hc => .nil hc
  | .last _ h _, hc => by
    have he := h.placed hn hc
    exact .cons he (.nil he.stands) he.upper_le_lower
  | .more _ h hcomma h', hc => by
    have he := h.placed hn hc
    exact .cons he (h'.placed hn (he.stands.bump hn .script))
      (he.upper_le_bump hn (ne_endOfFile_of_kind hcomma (by decide)) .script)

theorem ReadsPrimary.placed {n c h e c'} (hn : n < UInt32.size) :
    ReadsPrimary c h e c' → c.Stands n → Placed n c.token.span.lower c' (.expr e)
  | .atom h, hc => placed_atom hc hn h
  | .parenthesized hparen h hclose, hc => by
    have hopen := ne_endOfFile_of_kind hparen (by decide)
    have he := (h.placed hn (hc.bump hn .script)).bump hn (ne_endOfFile_of_kind hclose (by decide))
    have h1 := hc.bump_lower hn hopen .script
    exact (he .script).mono (Nat.le_trans hc.lower_le h1)
  | .markup hlt h, hc => by
    have hopen := ne_endOfFile_of_kind hlt (by decide)
    exact (h.placed hn (hc.bump hn .tag) (hc.lower_lt hopen) (hc.bump_lower hn hopen .tag)).toExpr

theorem ReadsMarkup.placed {n start after c h m c'} (hn : n < UInt32.size) :
    ReadsMarkup start after c h m c' → c.Stands n → start.lower < start.upper →
      start.upper ≤ c.token.span.lower → Placed n start.lower c' m.node
  | @ReadsMarkup.fragment _ _ _ _ cs c' hgt h hclose, hc, hstart, hle => by
    have hopen := ne_endOfFile_of_kind hgt (by decide)
    have hopen' := ne_endOfFile_of_kind hclose (by decide)
    have hcs := h.placed hn (hc.bump hn .child)
    have hlast := Cursor.last_bump hopen' after
    have h1 := hc.lower_lt hopen
    have h2 := hc.bump_lower hn hopen .child
    rw [hlast]
    refine placed_brackets hstart (hcs.stands.lower_lt hopen') hlast (hcs.stands.bump hn after) rfl rfl
      hcs.nested ?_
    exact hcs.inOrder.mono (by omega) (Nat.le_refl _)
  | @ReadsMarkup.selfClosing _ _ _ _ name attrs c₁ c₂ hgt h h' hslash hclose, hc, hstart, hle => by
    have hopen := ne_endOfFile_of_kind hslash (by decide)
    have hopen' := ne_endOfFile_of_kind hclose (by decide)
    obtain ⟨hc₁, h1⟩ := h.stands hn hc
    have has := h'.placed hn hc₁
    have hnext := has.stands.bump hn .tag
    have hlast := Cursor.last_bump hopen' after
    have h2 := has.stands.lower_lt hopen
    have h3 := has.stands.bump_lower hn hopen .tag
    rw [hlast]
    refine placed_brackets hstart (hnext.lower_lt hopen') hlast (hnext.bump hn after) rfl rfl ?_ ?_
    · rw [Markup.node, TreeNode.parts, List.map_nil, List.append_nil]
      exact has.nested
    · rw [Markup.node, TreeNode.parts, List.map_nil, List.append_nil]
      exact has.inOrder.mono (by omega) (by omega)
  | @ReadsMarkup.element _ _ _ _ _ name _ attrs cs c₁ c₂ c₃ c' _ h h' hgt h'' hclose _ hend, hc, hstart,
      hle => by
    have hopen := ne_endOfFile_of_kind hgt (by decide)
    have hopen' := ne_endOfFile_of_kind hend (by decide)
    obtain ⟨hc₁, h1⟩ := h.stands hn hc
    have has := h'.placed hn hc₁
    have hcs := h''.placed hn (has.stands.bump hn .child)
    obtain ⟨hc', h2⟩ := hclose.stands hn hcs.stands
    have hlast := Cursor.last_bump hopen' after
    have h3 := has.stands.lower_lt hopen
    have h4 := has.stands.bump_lower hn hopen .child
    rw [hlast]
    refine placed_brackets hstart (hc'.lower_lt hopen') hlast (hc'.bump hn after) rfl rfl ?_ ?_
    · rw [Markup.node, TreeNode.parts, List.forall_mem_append]
      exact ⟨has.nested, hcs.nested⟩
    · rw [Markup.node, TreeNode.parts, List.map_append]
      have hall := has.inOrder.append (hcs.inOrder.mono (by omega) (Nat.le_refl _))
      exact hall.mono (by omega) h2

theorem ReadsChildren.placed {n c h cs c'} (hn : n < UInt32.size) :
    ReadsChildren c h cs c' → c.Stands n → PlacedAll n c.token.span.lower c' (cs.map .child)
  | .close hlt hslash, hc => by
    have hopen := ne_endOfFile_of_kind hlt (by decide)
    have hopen' := ne_endOfFile_of_kind hslash (by decide)
    have hnext := hc.bump hn .tag
    have h1 := hc.lower_lt hopen
    have h2 := hc.bump_lower hn hopen .tag
    have h3 := hnext.lower_lt hopen'
    have h4 := hnext.bump_lower hn hopen' .tag
    refine ⟨nofun, ?_, hnext.bump hn .tag⟩
    simp only [List.map_nil, InOrder]
    omega
  | @ReadsChildren.text _ _ raw _ _ hraw h, hc => by
    have hopen : c.token.val ≠ .endOfFile := by simp [hraw]
    have ht := placed_token (m := .child (.text raw c.token.span)) hc hn hopen .child rfl rfl rfl
    exact .cons ht (h.placed hn (hc.bump hn .child)) (hc.bump_lower hn hopen .child)
  | @ReadsChildren.container _ _ _ inner _ c₁ _ hbrace h hclose h', hc => by
    have hopen := ne_endOfFile_of_kind hbrace (by decide)
    have hopen' := ne_endOfFile_of_kind hclose (by decide)
    have hinner := h.placed hn (hc.bump hn .script)
    have hlast := Cursor.last_bump hopen' .child
    have hcontainer : Placed n c.token.span.lower (c₁.bump .child)
        (.child (.container inner (c.token.span.merge (c₁.bump .child).last))) := by
      rw [hlast]
      exact placed_brackets (hc.lower_lt hopen) (hinner.stands.lower_lt hopen') hlast
        (hinner.stands.bump hn .child) rfl rfl hinner.nested
        (hinner.inOrder.mono (hc.bump_lower hn hopen .script) (Nat.le_refl _))
    exact .cons hcontainer (h'.placed hn hcontainer.stands) hcontainer.upper_le_lower
  | .markup hlt _ h h', hc => by
    have hopen := ne_endOfFile_of_kind hlt (by decide)
    have hm := h.placed hn (hc.bump hn .tag) (hc.lower_lt hopen) (hc.bump_lower hn hopen .tag)
    exact .cons hm.toChild (h'.placed hn hm.stands) hm.toChild.upper_le_lower

theorem ReadsContainer.placed {n c h inner c'} (hn : n < UInt32.size) :
    ReadsContainer c h inner c' → c.Stands n →
      PlacedAll n c.token.span.lower c' (inner.toList.map .expr)
  | .empty _, hc => .nil hc
  | .expr _ h, hc => by
    have he := h.placed hn hc
    exact .cons he (.nil he.stands) he.upper_le_lower

theorem ReadsAttributes.placed {n c h as c'} (hn : n < UInt32.size) :
    ReadsAttributes c h as c' → c.Stands n → PlacedAll n c.token.span.lower c' (as.map .attr)
  | .done _ _, hc => .nil hc
  | @ReadsAttributes.more _ _ _ name value _ c₁ c₂ _ hident h h' h'', hc => by
    obtain ⟨h1, h2, h3, h4, hc₁⟩ := h.placed hn hc (by simp [hident])
    have h5 := hc₁.last_le
    have hattr : Placed n c.token.span.lower c₂
        (.attr ⟨name, value, name.span.merge c₂.last⟩) := by
      rcases h'.placed hn hc₁ with ⟨rfl, rfl⟩ | ⟨x, rfl, hx⟩
      · exact placed_merge rfl h1 h2 h4 h3 (Nat.le_refl _) (by omega) hc₁ nofun
          (Nat.le_trans (Nat.le_of_lt h2) h3)
      · have h6 : c₁.token.span.lower ≤ x.span.lower := hx.lower_le
        have h7 : x.span.lower < x.span.upper := hx.lower_lt
        have h8 : x.span.upper ≤ c₂.last.upper := hx.upper_le
        have h9 := hx.last_le
        refine placed_merge rfl h1 h2 (by omega) (by omega) (Nat.le_refl _) (by omega) hx.stands
          (List.forall_mem_singleton.2 hx.nested) ⟨?_, h7, h8⟩
        show name.span.lower ≤ x.span.lower
        omega
    exact .cons hattr (h''.placed hn hattr.stands) hattr.upper_le_lower

theorem ReadsAttrValue.placed {n c h v c'} (hn : n < UInt32.size) :
    ReadsAttrValue c h v c' → c.Stands n →
      (c' = c ∧ v = none) ∨ ∃ x, v = some x ∧ Placed n c.token.span.lower c' (.value x)
  | .bare _, _ => .inl ⟨rfl, rfl⟩
  | .text heq hs, hc => by
    have hopen := ne_endOfFile_of_kind heq (by decide)
    have hopen' : (c.bump .tag).token.val ≠ .endOfFile := by simp [hs]
    have hnext := hc.bump hn .tag
    have h1 := hc.bump_lower hn hopen .tag
    refine .inr ⟨_, rfl, ?_⟩
    exact (placed_token hnext hn hopen' .tag rfl rfl rfl).mono (Nat.le_trans hc.lower_le h1)
  | @ReadsAttrValue.container _ _ inner c₁ heq hbrace h hclose, hc => by
    have hopen := ne_endOfFile_of_kind heq (by decide)
    have hopen' := ne_endOfFile_of_kind hbrace (by decide)
    have hopen'' := ne_endOfFile_of_kind hclose (by decide)
    have hnext := hc.bump hn .tag
    have hinner := h.placed hn (hnext.bump hn .script)
    have hlast := Cursor.last_bump hopen'' .tag
    have h1 := hc.bump_lower hn hopen .tag
    refine .inr ⟨_, rfl, ?_⟩
    rw [hlast]
    have hvalue := placed_brackets (m := .value (.container inner _)) (hnext.lower_lt hopen')
      (hinner.stands.lower_lt hopen'') hlast (hinner.stands.bump hn .tag) rfl rfl hinner.nested
      (hinner.inOrder.mono (hnext.bump_lower hn hopen' .script) (Nat.le_refl _))
    exact hvalue.mono (Nat.le_trans hc.lower_le h1)
  | @ReadsAttrValue.element _ _ e _ heq hlt h, hc => by
    have hopen := ne_endOfFile_of_kind heq (by decide)
    have hopen' := ne_endOfFile_of_kind hlt (by decide)
    have hnext := hc.bump hn .tag
    have hm := h.placed hn (hnext.bump hn .tag) (hnext.lower_lt hopen')
      (hnext.bump_lower hn hopen' .tag)
    have h1 := hc.bump_lower hn hopen .tag
    have h2 : e.span.lower < e.span.upper := hm.lower_lt
    refine .inr ⟨_, rfl, .mono ?_ (Nat.le_trans hc.lower_le h1)⟩
    exact ⟨throughout_iff.2 ⟨⟨Nat.le_refl _, h2, Nat.le_refl _⟩,
      List.forall_mem_singleton.2 hm.nested⟩, hm.lower_le, hm.lower_lt, hm.upper_le, hm.last_le,
      hm.stands⟩

end

end Parse
end BranchMarkup
