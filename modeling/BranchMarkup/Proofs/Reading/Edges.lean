import BranchMarkup.Proofs.Reading.Brackets
/-! What stands at the edges of a node that was read: markup is in its tags, and names have places of
their own among the parts. -/
namespace BranchMarkup

open BranchMarkup.Span (InOrder)
open Text (byteLength)

namespace TreeNode

/-- What stands in the node, names included, in source order. -/
def places : TreeNode → List Span
  | expr (.member object property _) => [object.span, property.span]
  | element e => e.name.span :: (e.attrs.map (·.span) ++ e.children.map Child.span)
  | attr a => a.name.span :: a.value.toList.map AttrValue.span
  | n => (n.parts Element.attrs).map span

/-- Names and parts stand inside the node's span, one after another, and markup is in its tags. -/
def Edged (source : List Char) : TreeNode → Prop
  | expr (.member object property s) =>
    InOrder s.lower s.upper (expr (.member object property s)).places
  | element e => InOrder e.span.lower e.span.upper (element e).places ∧ e.Bracketed source
  | fragment f => f.Bracketed source
  | attr a => InOrder a.span.lower a.span.upper (attr a).places
  | _ => True

end TreeNode

namespace Parse

open TreeNode (Edged throughout_iff)

section
variable {source : List Char}

/-- The name, attributes and children of an element stand between its first token and its last. -/
theorem inOrder_element {start : Span} {c c₁ c₂ d : Cursor} {name : Spanned String}
    {attrs : List Attribute} {cs : List Child} {b : Nat}
    (hopens : Opens source start c) (hname : PlacedName (byteLength source) c.token.span.lower c₁ name)
    (hattrs : PlacedAll (byteLength source) c₁.token.span.lower c₂ (attrs.map .attr))
    (hcs : InOrder c₂.token.span.lower b (cs.map Child.span)) (hb : b ≤ d.token.span.lower)
    (hd : d.InText source) :
    InOrder (start.merge d.token.span).lower (start.merge d.token.span).upper
      (name.span :: (attrs.map (·.span) ++ cs.map Child.span)) := by
  obtain ⟨h1, h2, h3, -, hc₁⟩ := hname
  have hlt := hopens.spells.lower_lt (List.cons_ne_nil _ _)
  have hle := hopens.upper_le
  have h4 := hc₁.last_le
  have h5 := hd.stands.lower_le
  have hattrs' : InOrder c₁.token.span.lower c₂.token.span.lower (attrs.map (·.span)) := by
    have hinOrder := hattrs.inOrder
    rwa [List.map_map] at hinOrder
  rw [Span.lower_merge, Span.upper_merge]
  exact ⟨by omega, h2, (hattrs'.append hcs).mono (by omega) (by omega)⟩

/-- An attribute from its name to the end of its value. -/
theorem edged_attribute {a : Nat} {c c' : Cursor} {name : Spanned String} {value : Option AttrValue}
    (hname : PlacedName (byteLength source) a c name)
    (hvalue : (c' = c ∧ value = none) ∨
      ∃ x, value = some x ∧ Placed (byteLength source) c.token.span.lower c' (.value x)) :
    Edged source (.attr ⟨name, value, name.span.merge c'.last⟩) := by
  have h1 := hname.upper_le
  have h2 := hname.stands.last_le
  have hlower : (name.span.merge c'.last).lower ≤ name.span.lower := by
    rw [Span.lower_merge]
    exact Nat.min_le_left ..
  have hupper : c'.last.upper ≤ (name.span.merge c'.last).upper := by
    rw [Span.upper_merge]
    exact Nat.le_max_right ..
  refine ⟨hlower, hname.lower_lt, ?_⟩
  rcases hvalue with ⟨rfl, rfl⟩ | ⟨x, rfl, hx⟩
  · exact Nat.le_trans h1 hupper
  · exact ⟨Nat.le_trans h1 (Nat.le_trans h2 hx.lower_le), hx.lower_lt, Nat.le_trans hx.upper_le hupper⟩

theorem edged_toExpr {m : Markup} (h : m.node.Throughout (Edged source)) :
    (TreeNode.expr m.toExpr).Throughout (Edged source) := by
  cases m <;> exact throughout_iff.2 ⟨trivial, List.forall_mem_singleton.2 h⟩

theorem edged_toChild {m : Markup} (h : m.node.Throughout (Edged source)) :
    (TreeNode.child m.toChild).Throughout (Edged source) := by
  cases m <;> exact throughout_iff.2 ⟨trivial, List.forall_mem_singleton.2 h⟩

mutual

theorem ReadsExpr.edged {c h e c'} : ReadsExpr c h e c' → c.InText source → c'.Clean →
    (TreeNode.expr e).Throughout (Edged source)
  | .plain h _, hc, hclean => h.edged hc hclean
  | .conditional h _ h' _ h'', hc, hclean => by
    have hc₁ := (h.leads.inText hc).bump .script
    have hc₂ := (h'.leads.inText hc₁).bump .script
    have hclean₂ := h''.leads.after.clean hclean
    refine throughout_iff.2 ⟨trivial, ?_⟩
    simp only [TreeNode.parts, List.forall_mem_cons]
    exact ⟨h.edged hc (h'.leads.after.clean hclean₂), h'.edged hc₁ hclean₂, h''.edged hc₂ hclean,
      List.forall_mem_nil _⟩

theorem ReadsBinary.edged {power c h e c'} : ReadsBinary power c h e c' → c.InText source →
    c'.Clean → (TreeNode.expr e).Throughout (Edged source)
  | .mk h h', hc, hclean =>
    h'.edged (h.leads.inText hc) (h.edged hc (h'.leads.clean hclean)) hclean

theorem ReadsBinaryRest.edged {power c h lhs e c'} : ReadsBinaryRest power c h lhs e c' →
    c.InText source → (TreeNode.expr lhs).Throughout (Edged source) → c'.Clean →
      (TreeNode.expr e).Throughout (Edged source)
  | .done _, _, hl, _ => hl
  | .more _ _ h h', hc, hl, hclean => by
    have hc₁ := hc.bump .script
    refine h'.edged (h.leads.inText hc₁) (throughout_iff.2 ⟨trivial, ?_⟩) hclean
    simp only [TreeNode.parts, List.forall_mem_cons]
    exact ⟨hl, h.edged hc₁ (h'.leads.clean hclean), List.forall_mem_nil _⟩

theorem ReadsUnary.edged {c h e c'} : ReadsUnary c h e c' → c.InText source → c'.Clean →
    (TreeNode.expr e).Throughout (Edged source)
  | .operator _ h, hc, hclean =>
    throughout_iff.2 ⟨trivial, List.forall_mem_singleton.2 (h.edged (hc.bump .script) hclean)⟩
  | .trailing _ h h', hc, hclean =>
    h'.edged (h.leads.inText hc) (h.placed hc.short hc.stands) (h.edged hc (h'.leads.clean hclean))
      hclean

theorem ReadsTrailing.edged {a c h e e' c'} : ReadsTrailing c h e e' c' → c.InText source →
    Placed (byteLength source) a c (.expr e) → (TreeNode.expr e).Throughout (Edged source) →
      c'.Clean → (TreeNode.expr e').Throughout (Edged source)
  | .done _ _, _, _, he, _ => he
  | .member hdot hw h, hc, hp, he, hclean => by
    refine h.edged ((hc.bump .script).bump .script) (placed_member hc.short hp hdot hw) ?_ hclean
    have hopen : (c.bump .script).token.val ≠ .endOfFile := fun h => by simp [h, Cursor.word?] at hw
    have h1 := hp.upper_le_bump hc.short (ne_endOfFile_of_kind hdot (by decide)) .script
    have h2 := (hc.bump .script).stands.lower_lt hopen
    refine throughout_iff.2 ⟨⟨?_, hp.lower_lt, h1, h2, ?_⟩, List.forall_mem_singleton.2 he⟩
    · rw [Span.lower_merge]
      exact Nat.min_le_left ..
    · rw [Span.upper_merge]
      exact Nat.le_max_right ..
  | .call hparen h hclose h', hc, hp, he, hclean => by
    have hc₁ := hc.bump .script
    have hargs := h.placed hc.short hc₁.stands
    refine h'.edged ((h.leads.inText hc₁).bump .script) (placed_call hc.short hp hparen hargs hclose)
      ?_ hclean
    exact throughout_iff.2 ⟨trivial, List.forall_mem_cons.2
      ⟨he, List.forall_mem_map.2 (h.edged hc₁ (h'.leads.after.clean hclean))⟩⟩

theorem ReadsArguments.edged {c h es c'} : ReadsArguments c h es c' → c.InText source → c'.Clean →
    ∀ e ∈ es, (TreeNode.expr e).Throughout (Edged source)
  | .none _, _, _ => List.forall_mem_nil _
  | .last _ h _, hc, hclean => List.forall_mem_singleton.2 (h.edged hc hclean)
  | .more _ h _ h', hc, hclean =>
    List.forall_mem_cons.2 ⟨h.edged hc (h'.leads.after.clean hclean),
      h'.edged ((h.leads.inText hc).bump .script) hclean⟩

theorem ReadsPrimary.edged {c h e c'} : ReadsPrimary c h e c' → c.InText source → c'.Clean →
    (TreeNode.expr e).Throughout (Edged source)
  | .atom h, _, _ => by
    unfold atom? at h
    split at h <;> cases h <;> exact throughout_iff.2 ⟨trivial, List.forall_mem_nil _⟩
  | .parenthesized _ h _, hc, hclean => h.edged (hc.bump .script) hclean.of_bump
  | .markup hlt h, hc, hclean => edged_toExpr (h.edged ⟨c, hc, hlt, rfl, rfl⟩ hclean)

theorem ReadsMarkup.edged {start after c h m c'} : ReadsMarkup start after c h m c' →
    Opens source start c → c'.Clean → m.node.Throughout (Edged source)
  | .fragment hgt h hclose, hopens, hclean => by
    have hcs := h.edged (hopens.inText.bump .child) hclean.of_bump
    exact throughout_iff.2 ⟨(ReadsMarkup.fragment hgt h hclose).bracketed hopens hclean,
      List.forall_mem_map.2 hcs⟩
  | .selfClosing hgt h h' hslash hclose, hopens, hclean => by
    have hc := hopens.inText
    have hc₁ := h.leads.inText hc
    have hc₂ := h'.leads.inText hc₁
    have hattrs := h'.placed hc.short hc₁.stands
    have hbracketed := (ReadsMarkup.selfClosing hgt h h' hslash hclose).bracketed hopens hclean
    rw [Cursor.last_bump (ne_endOfFile_of_kind hclose (by decide))] at hbracketed ⊢
    refine throughout_iff.2 ⟨⟨inOrder_element hopens (h.placed hc.short hc.stands hgt) hattrs
      (Nat.le_refl _) (hc₂.lower_bump_le .tag) (hc₂.bump .tag), hbracketed⟩, ?_⟩
    rw [Markup.node, TreeNode.parts, List.map_nil, List.append_nil]
    exact List.forall_mem_map.2 (h'.edged hc₁ hclean.of_bump.of_bump)
  | .element hgt h h' hgt' h'' hclose hname hend, hopens, hclean => by
    have hc := hopens.inText
    have hc₁ := h.leads.inText hc
    have hc₂ := h'.leads.inText hc₁
    have hc₃ := h''.leads.inText (hc₂.bump .child)
    have hclean₃ := hclose.leads.clean hclean.of_bump
    have hattrs := h'.placed hc.short hc₁.stands
    have hcs := (h''.placed hc.short (hc₂.bump .child).stands).inOrder
    rw [List.map_map] at hcs
    have hbracketed := (ReadsMarkup.element hgt h h' hgt' h'' hclose hname hend).bracketed hopens hclean
    rw [Cursor.last_bump (ne_endOfFile_of_kind hend (by decide))] at hbracketed ⊢
    refine throughout_iff.2 ⟨⟨inOrder_element hopens (h.placed hc.short hc.stands hgt) hattrs
      (hcs.mono (hc₂.lower_bump_le .child) (Nat.le_refl _)) (hclose.leads.lower_le hc₃)
      (hclose.leads.inText hc₃), hbracketed⟩, ?_⟩
    rw [Markup.node, TreeNode.parts, List.forall_mem_append]
    exact ⟨List.forall_mem_map.2 (h'.edged hc₁ (h''.leads.after.clean hclean₃)),
      List.forall_mem_map.2 (h''.edged (hc₂.bump .child) hclean₃)⟩

theorem ReadsChildren.edged {c h cs c'} : ReadsChildren c h cs c' → c.InText source → c'.Clean →
    ∀ d ∈ cs, (TreeNode.child d).Throughout (Edged source)
  | .close _ _, _, _ => List.forall_mem_nil _
  | .text _ h, hc, hclean =>
    List.forall_mem_cons.2 ⟨throughout_iff.2 ⟨trivial, List.forall_mem_nil _⟩,
      h.edged (hc.bump .child) hclean⟩
  | .container _ h _ h', hc, hclean => by
    have hc₁ := hc.bump .script
    have hinner := h.edged hc₁ (h'.leads.after.clean hclean)
    exact List.forall_mem_cons.2 ⟨throughout_iff.2 ⟨trivial, List.forall_mem_map.2 hinner⟩,
      h'.edged ((h.leads.inText hc₁).bump .child) hclean⟩
  | .markup hlt _ h h', hc, hclean => by
    have hm := h.edged ⟨c, hc, hlt, rfl, rfl⟩ (h'.leads.clean hclean)
    exact List.forall_mem_cons.2
      ⟨edged_toChild hm, h'.edged (h.leads.inText (hc.bump .tag)) hclean⟩

theorem ReadsContainer.edged {c h inner c'} : ReadsContainer c h inner c' → c.InText source →
    c'.Clean → ∀ e ∈ inner.toList, (TreeNode.expr e).Throughout (Edged source)
  | .empty _, _, _ => List.forall_mem_nil _
  | .expr _ h, hc, hclean => List.forall_mem_singleton.2 (h.edged hc hclean)

theorem ReadsAttributes.edged {c h as c'} : ReadsAttributes c h as c' → c.InText source → c'.Clean →
    ∀ a ∈ as, (TreeNode.attr a).Throughout (Edged source)
  | .done _ _, _, _ => List.forall_mem_nil _
  | .more hident h h' h'', hc, hclean => by
    have hc₁ := h.leads.inText hc
    have hname := h.placed hc.short hc.stands (by simp [hident])
    have hvalue := h'.edged hc₁ (h''.leads.clean hclean)
    refine List.forall_mem_cons.2 ⟨throughout_iff.2 ⟨?_, List.forall_mem_map.2 hvalue⟩,
      h''.edged (h'.leads.inText hc₁) hclean⟩
    exact edged_attribute hname (h'.placed hc.short hc₁.stands)

theorem ReadsAttrValue.edged {c h v c'} : ReadsAttrValue c h v c' → c.InText source → c'.Clean →
    ∀ x ∈ v.toList, (TreeNode.value x).Throughout (Edged source)
  | .bare _, _, _ => List.forall_mem_nil _
  | .text _ _, _, _ =>
    List.forall_mem_singleton.2 (throughout_iff.2 ⟨trivial, List.forall_mem_nil _⟩)
  | .container _ _ h _, hc, hclean => by
    have hinner := h.edged ((hc.bump .tag).bump .script) hclean.of_bump
    exact List.forall_mem_singleton.2 (throughout_iff.2 ⟨trivial, List.forall_mem_map.2 hinner⟩)
  | .element _ hlt h, hc, hclean => by
    have hm := h.edged ⟨_, hc.bump .tag, hlt, rfl, rfl⟩ hclean
    exact List.forall_mem_singleton.2 (throughout_iff.2 ⟨trivial, List.forall_mem_singleton.2 hm⟩)

end

end

end Parse

/-! Statements -/

/-- What stands in the statement, names included, in source order. -/
def Statement.places : Statement → List Span
  | imports d => d.names
  | binding _ name e => [name.span, e.span]
  | exportDefault e | expr e => [e.span]

namespace Cursor

variable {source : List Char} {c : Cursor} {b : Nat} {ss : List Span}

theorem InText.inOrder_skip (h : c.InText source) (mode : Mode)
    (hss : InOrder (c.bump mode).token.span.lower b ss) : InOrder c.token.span.lower b ss :=
  hss.mono (h.lower_bump_le mode) (Nat.le_refl _)

theorem InText.inOrder_cons (h : c.InText source) (hopen : c.token.val ≠ .endOfFile) (mode : Mode)
    (hss : InOrder (c.bump mode).token.span.lower b ss) :
    InOrder c.token.span.lower b (c.token.span :: ss) :=
  ⟨Nat.le_refl _, h.stands.lower_lt hopen,
    hss.mono (h.stands.bump_lower h.short hopen mode) (Nat.le_refl _)⟩

theorem InText.inOrder_last (h : c.InText source) (hopen : c.token.val ≠ .endOfFile) (mode : Mode) :
    InOrder c.token.span.lower (c.bump mode).last.upper [c.token.span] := by
  rw [last_bump hopen]
  exact ⟨Nat.le_refl _, h.stands.lower_lt hopen, Nat.le_refl _⟩

end Cursor

namespace Parse

open TreeNode (Edged)

variable {source : List Char}

theorem ReadsSpecifier.inOrder {c s c'} (h : ReadsSpecifier c s c') (hc : c.InText source) :
    InOrder c.token.span.lower c'.token.span.lower s.names := by
  have hword {d : Cursor} {w : String} (hw : d.word? = some w) : d.token.val ≠ .endOfFile :=
    fun h => by simp [h, Cursor.word?] at hw
  cases h with
  | plain hw => exact hc.inOrder_cons (hword hw) .script (Nat.le_refl _)
  | renamed hw _ hlocal =>
    have hc₁ := hc.bump .script
    refine hc.inOrder_cons (hword hw) .script (hc₁.inOrder_skip .script ?_)
    exact (hc₁.bump .script).inOrder_cons (by simp [hlocal]) .script (Nat.le_refl _)

theorem ReadsSpecifiers.inOrder {c ss c'} (h : ReadsSpecifiers c ss c') (hc : c.InText source) :
    InOrder c.token.span.lower c'.token.span.lower (ss.flatMap ImportSpecifier.names) := by
  induction h with
  | none => exact Nat.le_refl _
  | last _ h _ =>
    rw [List.flatMap_singleton]
    exact h.inOrder hc
  | more _ h _ _ ih =>
    have hc₁ := h.leads.inText hc
    rw [List.flatMap_cons]
    exact (h.inOrder hc).append (hc₁.inOrder_skip .script (ih (hc₁.bump .script)))

theorem ReadsSource.inOrder {c s c'} (h : ReadsSource c s c') (hc : c.InText source) :
    InOrder c.token.span.lower c'.last.upper [s.span] := by
  cases h with
  | mk _ hs => exact hc.inOrder_skip .script ((hc.bump .script).inOrder_last (by simp [hs]) .script)

theorem ReadsClause.inOrder {default c d c'} (h : ReadsClause default c d c') (hc : c.InText source) :
    ∃ rest, d.names = default.toList.map (·.span) ++ rest ∧
      InOrder c.token.span.lower c'.last.upper rest := by
  have hc₁ := hc.bump .script
  cases h with
  | all _ _ hname hsource =>
    have hc₂ := hc₁.bump .script
    refine ⟨_, rfl, hc.inOrder_skip .script (hc₁.inOrder_skip .script ?_)⟩
    exact hc₂.inOrder_cons (by simp [hname]) .script (hsource.inOrder (hc₂.bump .script))
  | named _ hnamed _ hsource =>
    have hc₂ := hnamed.leads.inText hc₁
    refine ⟨_, rfl, hc.inOrder_skip .script
      ((hnamed.inOrder hc₁).append (hc₂.inOrder_skip .script ?_))⟩
    exact hsource.inOrder (hc₂.bump .script)

theorem ReadsImport.inOrder {c d c'} (h : ReadsImport c d c') (hc : c.InText source) :
    InOrder c.token.span.lower c'.last.upper d.names := by
  have hc₁ := hc.bump .script
  have hc₂ := hc₁.bump .script
  refine hc.inOrder_skip .script ?_
  cases h with
  | sideEffect _ hs => exact hc₁.inOrder_last (by simp [hs]) .script
  | clause _ _ _ h =>
    obtain ⟨rest, hnames, hrest⟩ := h.inOrder hc₁
    rw [hnames]
    exact hrest
  | default _ hname _ h => exact hc₁.inOrder_cons (by simp [hname]) .script (h.inOrder hc₂)
  | both _ hname _ h =>
    obtain ⟨rest, hnames, hrest⟩ := h.inOrder (hc₂.bump .script)
    rw [hnames]
    exact hc₁.inOrder_cons (by simp [hname]) .script (hc₂.inOrder_skip .script hrest)

theorem ReadsBody.inOrder {c h s c'} (hs : ReadsBody c h s c') (hc : c.InText source) :
    InOrder c.token.span.lower c'.last.upper s.places := by
  have hc₁ := hc.bump .script
  have hc₂ := hc₁.bump .script
  have hexpr {d : Cursor} {h : Nat} {e : Expr} (he : ReadsExpr d h e c') (hd : d.InText source) :
      InOrder d.token.span.lower c'.last.upper [e.span] :=
    have hp := he.placed hd.short hd.stands
    ⟨hp.lower_le, hp.lower_lt, hp.upper_le⟩
  cases hs with
  | imports h => exact h.inOrder hc
  | binding _ hname _ h =>
    refine hc.inOrder_skip .script (hc₁.inOrder_cons (by simp [hname]) .script ?_)
    exact hc₂.inOrder_skip .script (hexpr h (hc₂.bump .script))
  | exportDefault _ _ h => exact hc.inOrder_skip .script (hc₁.inOrder_skip .script (hexpr h hc₂))
  | expr _ h => exact hexpr h hc

theorem ReadsBody.edged {c h s c'} (hs : ReadsBody c h s c') (hc : c.InText source)
    (hclean : c'.Clean) : ∀ e, s.expr? = some e → (TreeNode.expr e).Throughout (Edged source) := by
  have hc₁ := hc.bump .script
  have hc₂ := hc₁.bump .script
  rintro e he
  cases hs with
  | imports => cases he
  | binding _ _ _ h =>
    cases he
    exact h.edged (hc₂.bump .script) hclean
  | exportDefault _ _ h =>
    cases he
    exact h.edged hc₂ hclean
  | expr _ h =>
    cases he
    exact h.edged hc hclean

theorem ReadsStatement.edged {c h s c'} (hs : ReadsStatement c h s c') (hc : c.InText source)
    (hclean : c'.Clean) :
    InOrder s.span.lower s.span.upper s.val.places ∧
      ∀ e, s.val.expr? = some e → (TreeNode.expr e).Throughout (Edged source) := by
  obtain ⟨hlower, hupper, -⟩ := hs.extent hc.short hc.stands
  rw [hlower, hupper]
  cases hs with
  | closed h hsemicolon =>
    have hopen := ne_endOfFile_of_kind hsemicolon (by decide)
    have hc' := (h.leads.inText hc).stands
    refine ⟨(h.inOrder hc).mono (Nat.le_refl _) ?_, h.edged hc hclean.of_bump⟩
    rw [Cursor.last_bump hopen]
    exact Nat.le_trans hc'.last_le hc'.lower_le
  | bare h _ => exact ⟨h.inOrder hc, h.edged hc hclean⟩

theorem ReadsStatements.edged {c h ss c'} (hss : ReadsStatements c h ss c') :
    c.InText source → c'.Clean → ∀ s ∈ ss, InOrder s.span.lower s.span.upper s.val.places ∧
      ∀ e, s.val.expr? = some e → (TreeNode.expr e).Throughout (Edged source) := by
  induction hss with
  | none => exact fun _ _ => List.forall_mem_nil _
  | @more c _ _ _ _ c₁ _ _ hs hrest ih =>
    intro hc hclean
    have hpast := Cursor.leads_past c.token.span c₁
    exact List.forall_mem_cons.2 ⟨hs.edged hc (hpast.clean (hrest.leads.clean hclean)),
      ih (hpast.inText (hs.leads.inText hc)) hclean⟩

end Parse
end BranchMarkup
