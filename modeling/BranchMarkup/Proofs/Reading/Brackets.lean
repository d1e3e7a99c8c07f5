import BranchMarkup.Proofs.Reading.Layout
import BranchMarkup.Proofs.Reading.Legible
import BranchMarkup.Proofs.Reading.Spans
import BranchMarkup.Proofs.Reading.Spelled
/-! The tags of markup that was read. In a tag nothing but blanks and comments stands between one token
and the next, and between an opening and a closing tag stand the children and nothing else. -/
namespace BranchMarkup

open Text (byteLength byteLength_append)

/-- From one byte to another there is nothing but blanks and comments. -/
def Text.IsGap (source : List Char) (a b : Nat) : Prop :=
  ∃ before ks gap after, source = before ++ (gap ++ after) ∧ Scanner.Trivia ks gap ∧
    byteLength before = a ∧ byteLength (before ++ gap) = b

namespace Span

/-- From one place to another by way of the spans, with such a step to each of them and to the end. -/
def Linked (R : Nat → Nat → Prop) (a b : Nat) : List Span → Prop
  | [] => R a b
  | s :: ss => R a s.lower ∧ Linked R s.upper b ss

/-- Markup between two tags: the tokens of the tags one after another, with names and attributes for
`head` and `tail`, and right between the tags the children. -/
def Paired (source : List Char) (head children tail : List Span) (s : Span) : Prop :=
  ∃ lt gt lt' slash gt' : Span, s = lt.merge gt' ∧
    (lt.Spells source ['<'] ∧ Linked (Text.IsGap source) lt.upper gt.lower head ∧
      gt.Spells source ['>']) ∧
    Linked (· = ·) gt.upper lt'.lower children ∧
    lt'.Spells source ['<'] ∧ Text.IsGap source lt'.upper slash.lower ∧ slash.Spells source ['/'] ∧
      Linked (Text.IsGap source) slash.upper gt'.lower tail ∧ gt'.Spells source ['>']

/-- Markup in one tag. -/
def Lone (source : List Char) (head : List Span) (s : Span) : Prop :=
  ∃ lt slash gt : Span, s = lt.merge gt ∧ lt.Spells source ['<'] ∧
    Linked (Text.IsGap source) lt.upper slash.lower head ∧ slash.Spells source ['/'] ∧
      Text.IsGap source slash.upper gt.lower ∧ gt.Spells source ['>']

end Span

open BranchMarkup.Span (Linked)

def Element.head (e : Element) : List Span := e.name.span :: e.attrs.map (·.span)

/-- The element stands in the text from its first bracket to its last. -/
def Element.Bracketed (source : List Char) (e : Element) : Prop :=
  if e.selfClosing then e.children = [] ∧ e.span.Lone source e.head
  else ∃ rest name, TagSpelled source rest name ∧ name.val = e.name.val ∧
    e.span.Paired source e.head (e.children.map Child.span) [name.span]

def Fragment.Bracketed (source : List Char) (f : Fragment) : Prop :=
  f.span.Paired source [] (f.children.map Child.span) []

/-- Of a node alone: if it is markup it stands in its tags. -/
def TreeNode.Bracketed (source : List Char) : TreeNode → Prop
  | element e => e.Bracketed source
  | fragment f => f.Bracketed source
  | _ => True

/-- A cursor that a reader of the text can be at. -/
structure Cursor.InText (source : List Char) (c : Cursor) : Prop where
  short : byteLength source < UInt32.size
  stands : c.Stands (byteLength source)
  scanner : c.scanner.Sound source
  spells : ∀ sym, c.token.val = .symbol sym → c.token.span.Spells source sym.text.toList

namespace Cursor

variable {source : List Char} {c d : Cursor}

theorem InText.bump (h : c.InText source) (mode : Mode) : (c.bump mode).InText source := by
  have hstands := h.stands.bump h.short mode
  by_cases hend : c.token.val = .endOfFile
  · rwa [Cursor.bump, if_pos hend]
  · rw [Cursor.bump, if_neg hend] at hstands ⊢
    have hnext := Scanner.yields_next h.short mode h.scanner
    exact ⟨h.short, hstands, hnext.scanner, hnext.spells⟩

theorem Leads.inText (h : c.Leads d) (hc : c.InText source) : d.InText source := by
  induction h with
  | refl => exact hc
  | bump mode _ ih => exact ih.bump mode

theorem inText_ofText (h : byteLength source < UInt32.size) :
    (Parser.ofText source).cursor.InText source := by
  have hfirst := Scanner.yields_next h .script (Scanner.sound_ofText source)
  exact ⟨h, stands_ofText h, hfirst.scanner, hfirst.spells⟩

theorem InText.spells_of_kind (h : c.InText source) {sym : Symbol} (hk : c.kind = .symbol sym) :
    c.token.span.Spells source sym.text.toList :=
  h.spells sym (kind_symbol.1 hk)

theorem InText.scanner_in (h : c.InText source) : c.scanner.In source :=
  h.scanner.place.imp fun _ h => ⟨h.1, h.2.symm⟩

theorem InText.lower_bump_le (h : c.InText source) (mode : Mode) :
    c.token.span.lower ≤ (c.bump mode).token.span.lower := by
  by_cases hend : c.token.val = .endOfFile
  · rw [Cursor.bump, if_pos hend]
  · exact Nat.le_trans h.stands.lower_le (h.stands.bump_lower h.short hend mode)

theorem Leads.lower_le (h : c.Leads d) (hc : c.InText source) :
    c.token.span.lower ≤ d.token.span.lower := by
  induction h with
  | refl => exact Nat.le_refl _
  | bump mode h ih => exact Nat.le_trans ih ((h.inText hc).lower_bump_le mode)

/-! From a token to the next -/

theorem InText.gap_bump (h : c.InText source) (hopen : c.token.val ≠ .endOfFile) {mode : Mode}
    (hmode : mode ≠ .child) (hclean : (c.bump mode).Clean)
    (hend : (c.bump mode).token.val ≠ .endOfFile) :
    Text.IsGap source c.token.span.upper (c.bump mode).token.span.lower := by
  have hbefore := hclean.of_bump
  obtain ⟨before, hsource, hoffset⟩ := h.scanner.place
  have hextent := h.stands.extent_eq
  have hshort := h.short
  rw [h.stands.upper_eq]
  rw [Cursor.bump, if_neg hopen] at hclean hend ⊢
  obtain ⟨hskip, hanswers⟩ := Scanner.answers_next (hclean.trans hbefore.symm)
  rw [Scanner.skipTo_of_ne_child hmode] at hskip hanswers
  have hpassed := Scanner.extent_skipTrivia c.scanner
  dsimp only at hend ⊢
  generalize c.scanner.next mode = r at hanswers hend
  cases hanswers with
  | ended => exact absurd rfl hend
  | token _ hne hrest =>
    obtain ⟨ks, gap, hgap, hsplit⟩ := Scanner.trivia_skipTrivia hskip (by simp [hrest, hne])
    rw [Scanner.extent, Scanner.extent, hsplit, byteLength_append] at hpassed
    rw [Scanner.extent, hsplit, byteLength_append] at hextent
    refine ⟨before, ks, gap, _, by rw [hsource, hsplit], hgap, hoffset, ?_⟩
    rw [byteLength_append, hoffset, Scanner.emit, Span.lower_ofOffsets (by omega)]
    omega

/-- Between tags no blank is passed over. -/
theorem InText.lower_bump_child (h : c.InText source) (hopen : c.token.val ≠ .endOfFile) :
    (c.bump .child).token.span.lower = c.token.span.upper := by
  have hshort : c.scanner.offset < UInt32.size := by
    have hextent := h.stands.extent_eq
    have hshort := h.short
    rw [Scanner.extent] at hextent
    omega
  have hspan : (c.scanner.next .child).1.span =
      .ofOffsets c.scanner.offset (c.scanner.next .child).2.offset := by
    rw [Scanner.next, Scanner.nextChild]
    split <;> rfl
  rw [h.stands.upper_eq, Cursor.bump, if_neg hopen, hspan, Span.lower_ofOffsets hshort]

/-- The token here comes next to the one that was taken before it. -/
def Follows (source : List Char) (c : Cursor) : Prop :=
  c.Clean → c.token.val ≠ .endOfFile → Text.IsGap source c.last.upper c.token.span.lower

theorem InText.follows_bump (h : c.InText source) (hopen : c.token.val ≠ .endOfFile) {mode : Mode}
    (hmode : mode ≠ .child) : (c.bump mode).Follows source := by
  intro hclean hend
  rw [last_bump hopen]
  exact h.gap_bump hopen hmode hclean hend

end Cursor

namespace Parse

open Cursor (Follows)

variable {source : List Char}

theorem ReadsTagRest.follows {c name name' c'} (h : ReadsTagRest c name name' c') :
    c.InText source → c.Follows source → c'.Follows source := by
  induction h with
  | done => exact fun _ => id
  | part hj _ hpart _ ih =>
    intro hc _
    have hc₁ := hc.bump .tag
    exact ih (hc₁.bump .tag) (hc₁.follows_bump (by simp [hpart]) (by decide))

theorem ReadsTag.follows {c name c'} (h : ReadsTag c name c') (hc : c.InText source)
    (hgt : c.kind ≠ .symbol .gt) : c'.Follows source := by
  cases h with
  | empty h => exact absurd h hgt
  | name hfirst h => exact h.follows (hc.bump .tag) (hc.follows_bump (by simp [hfirst]) (by decide))

/-- Markup ends with a `>`, and the token after it was asked for in the mode. -/
theorem ReadsMarkup.ends {start after c h m c'} (hm : ReadsMarkup start after c h m c') :
    ∃ d, c.Leads d ∧ d.kind = .symbol .gt ∧ c' = d.bump after ∧ m.node.span = start.merge c'.last := by
  cases hm with
  | fragment _ h hclose => exact ⟨_, h.leads.after, hclose, rfl, rfl⟩
  | selfClosing _ h h' _ hclose =>
    exact ⟨_, (h.leads.trans h'.leads).trans (Cursor.leads_bump ..), hclose, rfl, rfl⟩
  | element _ h h' _ h'' h₃ _ hclose =>
    exact ⟨_, h.leads.trans (h'.leads.trans (h''.leads.after.trans h₃.leads)), hclose, rfl, rfl⟩

theorem ReadsMarkup.follows {start after c h m c'} (hm : ReadsMarkup start after c h m c')
    (hc : c.InText source) (hafter : after ≠ .child) : c'.Follows source := by
  obtain ⟨d, hleads, hgt, rfl, -⟩ := hm.ends
  exact (hleads.inText hc).follows_bump (ne_endOfFile_of_kind hgt (by decide)) hafter

theorem ReadsAttrValue.follows {c h v c'} (hv : ReadsAttrValue c h v c') (hc : c.InText source)
    (hfollows : c.Follows source) : c'.Follows source := by
  have hc₁ := hc.bump .tag
  cases hv with
  | bare => exact hfollows
  | text _ hs => exact hc₁.follows_bump (by simp [hs]) (by decide)
  | container _ _ h hclose =>
    have hend := h.leads.inText (hc₁.bump .script)
    exact hend.follows_bump (ne_endOfFile_of_kind hclose (by decide)) (by decide)
  | element _ _ h => exact h.follows (hc₁.bump .tag) (by decide)

theorem ReadsTagRest.span_eq {c name name' c'} (h : ReadsTagRest c name name' c') :
    c.InText source → name.span.lower ≤ name.span.upper → name.span.upper = c.last.upper →
      name'.span.lower = name.span.lower ∧ name'.span.upper = c'.last.upper := by
  induction h with
  | done => exact fun _ _ hupper => ⟨rfl, hupper⟩
  | @part c joint text part c' name name' hj _ hpart _ ih =>
    intro hc hle hupper
    have hc₁ := hc.bump .tag
    have h1 := hc.stands.last_le
    have h2 := hc.lower_bump_le .tag
    have h3 := hc₁.stands.lower_le
    have hlast : ((c.bump .tag).bump .tag).last = (c.bump .tag).token.span :=
      Cursor.last_bump (by simp [hpart]) .tag
    have hmerge := ih (hc₁.bump .tag)
    dsimp only at hmerge
    rw [Span.lower_merge, Span.upper_merge, hlast, Nat.min_eq_left (by omega),
      Nat.max_eq_right (by omega)] at hmerge
    exact hmerge (by omega) rfl

theorem ReadsTag.span_eq {c name c'} (h : ReadsTag c name c') (hc : c.InText source)
    (hgt : c.kind ≠ .symbol .gt) :
    name.span.lower = c.token.span.lower ∧ name.span.upper = c'.last.upper := by
  cases h with
  | empty h => exact absurd h hgt
  | name hfirst h =>
    exact h.span_eq (hc.bump .tag) hc.stands.lower_le (by rw [Cursor.last_bump (by simp [hfirst])])

theorem attribute_span_eq {c c₁ c₂ h name value} (hname : ReadsTag c name c₁)
    (hvalue : ReadsAttrValue c₁ h value c₂) (hc : c.InText source) (hgt : c.kind ≠ .symbol .gt) :
    (name.span.merge c₂.last).lower = c.token.span.lower ∧
      (name.span.merge c₂.last).upper = c₂.last.upper := by
  have hc₁ := (hname.leads.inText hc).stands
  have h1 := (hname.placed hc.short hc.stands hgt).last_le
  have h2 := (hname.placed hc.short hc.stands hgt).lower_lt
  have h3 := hc₁.last_le
  have h4 := hc₁.lower_le
  obtain ⟨hlower, hupper⟩ := hname.span_eq hc hgt
  rw [Span.lower_merge, Span.upper_merge]
  rcases hvalue.leads.last hc.short hc₁ with rfl | ⟨h5, h6⟩
  · exact ⟨by omega, by omega⟩
  · exact ⟨by omega, by omega⟩

theorem ReadsAttributes.linked {c h as c'} : ReadsAttributes c h as c' → c.InText source →
    c.Follows source → c'.Clean → c'.token.val ≠ .endOfFile →
      Linked (Text.IsGap source) c.last.upper c'.token.span.lower (as.map (·.span))
  | .done _ _, _, hfollows, hclean, hend => hfollows hclean hend
  | .more hident hname hvalue hrest, hc, hfollows, hclean, hend => by
    have hgt : c.kind ≠ .symbol .gt := by simp [hident]
    have hc₁ := hname.leads.inText hc
    have hfirst := hfollows ((hname.leads.trans (hvalue.leads.trans hrest.leads)).clean hclean)
      (ne_endOfFile_of_kind hident (by decide))
    obtain ⟨hlower, hupper⟩ := attribute_span_eq hname hvalue hc hgt
    have hafter := hvalue.follows hc₁ (hname.follows hc hgt)
    rw [List.map_cons, Linked, hlower, hupper]
    exact ⟨hfirst, hrest.linked (hvalue.leads.inText hc₁) hafter hclean hend⟩

/-! Children -/

/-- A part from the token here to the last one taken, where the next stands right after it. -/
theorem linked_cons {c c₁ : Cursor} {b : Nat} {ss : List Span} (hc : c.InText source)
    (hleads : c.Leads c₁) (hleft : c₁.left < c.left)
    (hnext : c₁.token.span.lower = c₁.last.upper)
    (h : Linked (· = ·) c₁.token.span.lower b ss) :
    Linked (· = ·) c.token.span.lower b (c.token.span.merge c₁.last :: ss) := by
  rcases hleads.last hc.short hc.stands with rfl | ⟨hlower, hupper⟩
  · exact absurd hleft (Nat.lt_irrefl _)
  · rw [Linked, Span.lower_merge, Span.upper_merge, Nat.min_eq_left hlower, Nat.max_eq_right hupper,
      ← hnext]
    exact ⟨rfl, h⟩

theorem span_toChild (m : Markup) : m.toChild.span = m.node.span := by
  cases m <;> rfl

/-- Children stand one right after another, up to the `<` that ends them. -/
theorem ReadsChildren.linked {c h cs c'} : ReadsChildren c h cs c' → c.InText source →
    ∃ d, c.Leads d ∧ d.kind = .symbol .lt ∧ (d.bump .tag).kind = .symbol .slash ∧
      c' = (d.bump .tag).bump .tag ∧
        Linked (· = ·) c.token.span.lower d.token.span.lower (cs.map Child.span)
  | .close hlt hslash, _ => ⟨_, .refl, hlt, hslash, rfl, rfl⟩
  | .text hraw h, hc => by
    obtain ⟨d, hleads, hlt, hslash, hd, hlinked⟩ := h.linked (hc.bump .child)
    rw [hc.lower_bump_child (by simp [hraw])] at hlinked
    exact ⟨d, hleads.after, hlt, hslash, hd, rfl, hlinked⟩
  | .container hbrace h hclose h', hc => by
    have hleads := h.leads.after
    have hc₁ := hleads.inText hc
    have hopen := ne_endOfFile_of_kind hclose (by decide)
    obtain ⟨d, hleads', hlt, hslash, hd, hlinked⟩ := h'.linked (hc₁.bump .child)
    refine ⟨d, hleads.trans hleads'.after, hlt, hslash, hd, ?_⟩
    refine linked_cons hc (.bump .child hleads) ?_ ?_ hlinked
    · exact Nat.lt_of_lt_of_le (Cursor.left_bump_lt hopen .child)
        (h.left_le.trans (Cursor.left_bump_le ..))
    · rw [hc₁.lower_bump_child hopen, Cursor.last_bump hopen]
  | .markup hlt' _ h h', hc => by
    obtain ⟨e, hleads, hgt, rfl, hspan⟩ := h.ends
    have hopen := ne_endOfFile_of_kind hgt (by decide)
    have he := hleads.after.inText hc
    obtain ⟨d, hleads', hlt, hslash, hd, hlinked⟩ := h'.linked (he.bump .child)
    refine ⟨d, h.leads.after.trans hleads', hlt, hslash, hd, ?_⟩
    rw [List.map_cons, span_toChild, hspan]
    refine linked_cons hc (.bump .child hleads.after) ?_ ?_ hlinked
    · exact Nat.lt_of_lt_of_le h.left_lt (Cursor.left_bump_le ..)
    · rw [he.lower_bump_child hopen, Cursor.last_bump hopen]

/-! Tags -/

/-- Markup begins there: the `<` that was taken. -/
def Opens (source : List Char) (start : Span) (c : Cursor) : Prop :=
  ∃ d : Cursor, d.InText source ∧ d.kind = .symbol .lt ∧ start = d.token.span ∧ c = d.bump .tag

theorem Opens.inText {start : Span} {c : Cursor} (h : Opens source start c) : c.InText source := by
  obtain ⟨d, hd, -, -, rfl⟩ := h
  exact hd.bump .tag

theorem Opens.cut {start : Span} {c : Cursor} (h : Opens source start c) : c.Cut .tag := by
  obtain ⟨d, -, -, -, rfl⟩ := h
  exact d.cut_bump .tag

theorem Opens.spells {start : Span} {c : Cursor} (h : Opens source start c) :
    start.Spells source ['<'] := by
  obtain ⟨d, hd, hlt, rfl, -⟩ := h
  exact hd.spells_of_kind hlt

theorem Opens.upper_le {start : Span} {c : Cursor} (h : Opens source start c) :
    start.upper ≤ c.token.span.lower := by
  obtain ⟨d, hd, hlt, rfl, rfl⟩ := h
  exact hd.stands.bump_lower hd.short (ne_endOfFile_of_kind hlt (by decide)) .tag

theorem Opens.gap {start : Span} {c : Cursor} (h : Opens source start c) (hclean : c.Clean)
    (hend : c.token.val ≠ .endOfFile) : Text.IsGap source start.upper c.token.span.lower := by
  obtain ⟨d, hd, hlt, rfl, rfl⟩ := h
  exact hd.gap_bump (ne_endOfFile_of_kind hlt (by decide)) (by decide) hclean hend

theorem ReadsTag.ne_endOfFile {c c' : Cursor} {name : Spanned String} (h : ReadsTag c name c')
    (hgt : c.kind ≠ .symbol .gt) : c.token.val ≠ .endOfFile := by
  cases h with
  | empty h => exact absurd h hgt
  | name hfirst => simp [hfirst]

/-- A tag has a name, so one of that name is none of a fragment's. -/
theorem ReadsTag.ne_gt {c c' c₁ c₁' : Cursor} {name name' : Spanned String} (h : ReadsTag c name c')
    (hc : c.Cut .tag) (hgt : c.kind ≠ .symbol .gt) (h' : ReadsTag c₁ name' c₁')
    (hname : name'.val = name.val) : c₁.kind ≠ .symbol .gt := by
  intro hgt₁
  cases h' with
  | empty => exact (h.isTagName hc hgt).ne_nil (by rw [← hname]; rfl)
  | name hfirst => simp [Cursor.kind, hfirst, Token.kind] at hgt₁

/-- Children up to the `</` after them, and what stands between it and what is read next. -/
theorem ReadsChildren.closes {c c' : Cursor} {h : Nat} {cs : List Child} (hcs : ReadsChildren c h cs c')
    (hc : c.InText source) (hclean : c'.Clean) (hend : c'.token.val ≠ .endOfFile) :
    ∃ lt slash : Span, Linked (· = ·) c.token.span.lower lt.lower (cs.map Child.span) ∧
      lt.Spells source ['<'] ∧ Text.IsGap source lt.upper slash.lower ∧ slash.Spells source ['/'] ∧
        Text.IsGap source slash.upper c'.token.span.lower ∧ c'.Shows source .tag := by
  obtain ⟨d, hleads, hlt, hslash, rfl, hlinked⟩ := hcs.linked hc
  have hopen := ne_endOfFile_of_kind hlt (by decide)
  have hopen₁ := ne_endOfFile_of_kind hslash (by decide)
  have hd := hleads.inText hc
  have hd₁ := hd.bump .tag
  exact ⟨d.token.span, (d.bump .tag).token.span, hlinked, hd.spells_of_kind hlt,
    hd.gap_bump hopen (by decide) hclean.of_bump hopen₁, hd₁.spells_of_kind hslash,
    hd₁.gap_bump hopen₁ (by decide) hclean hend, Cursor.shows_bump hd₁.scanner_in .tag⟩

theorem fragment_bracketed {start : Span} {c c' : Cursor} {h : Nat} {cs : List Child}
    (hopens : Opens source start c) (hgt : c.kind = .symbol .gt)
    (hcs : ReadsChildren (c.bump .child) h cs c') (hclose : c'.kind = .symbol .gt) (hclean : c'.Clean) :
    Fragment.Bracketed source ⟨cs, none, start.merge c'.token.span⟩ := by
  have hc := hopens.inText
  have hopen := ne_endOfFile_of_kind hgt (by decide)
  have hend := ne_endOfFile_of_kind hclose (by decide)
  have hgap := hopens.gap (hcs.leads.after.clean hclean) hopen
  obtain ⟨lt, slash, hchildren, hlt, hinner, hslash, hafter, -⟩ :=
    hcs.closes (hc.bump .child) hclean hend
  rw [hc.lower_bump_child hopen] at hchildren
  have hc' := hcs.leads.inText (hc.bump .child)
  exact ⟨start, c.token.span, lt, slash, c'.token.span, rfl,
    ⟨hopens.spells, hgap, hc.spells_of_kind hgt⟩, hchildren, hlt, hinner, hslash, hafter,
    hc'.spells_of_kind hclose⟩

theorem linked_head {start : Span} {c c₁ c₂ : Cursor} {h : Nat} {name : Spanned String}
    {attrs : List Attribute} (hopens : Opens source start c) (hgt : c.kind ≠ .symbol .gt)
    (hname : ReadsTag c name c₁) (hattrs : ReadsAttributes c₁ h attrs c₂) (hclean : c₂.Clean)
    (hend : c₂.token.val ≠ .endOfFile) :
    Linked (Text.IsGap source) start.upper c₂.token.span.lower (name.span :: attrs.map (·.span)) := by
  have hc := hopens.inText
  obtain ⟨hlower, hupper⟩ := hname.span_eq hc hgt
  rw [Linked, hlower, hupper]
  exact ⟨hopens.gap ((hname.leads.trans hattrs.leads).clean hclean) (hname.ne_endOfFile hgt),
    hattrs.linked (hname.leads.inText hc) (hname.follows hc hgt) hclean hend⟩

/-- Markup that was read stands in its tags. -/
theorem ReadsMarkup.bracketed {start after c h m c'} (hm : ReadsMarkup start after c h m c')
    (hopens : Opens source start c) (hclean : c'.Clean) :
    m.node.Bracketed source := by
  have hc := hopens.inText
  cases hm with
  | fragment hgt h hclose =>
    rw [Cursor.last_bump (ne_endOfFile_of_kind hclose (by decide)), Markup.node, TreeNode.Bracketed]
    exact fragment_bracketed hopens hgt h hclose hclean.of_bump
  | @selfClosing _ _ _ _ name attrs c₁ c₂ hgt h h' hslash hclose =>
    have hopen := ne_endOfFile_of_kind hslash (by decide)
    have hend := ne_endOfFile_of_kind hclose (by decide)
    have hc₂ := (h.leads.trans h'.leads).inText hc
    have hclean₁ := hclean.of_bump
    refine ⟨rfl, start, c₂.token.span, _, rfl, hopens.spells,
      linked_head hopens hgt h h' hclean₁.of_bump hopen, hc₂.spells_of_kind hslash, ?_⟩
    rw [Cursor.last_bump hend]
    exact ⟨hc₂.gap_bump hopen (by decide) hclean₁ hend, (hc₂.bump .tag).spells_of_kind hclose⟩
  | @element _ _ _ _ _ name name' attrs cs c₁ c₂ c₃ c' hgt h h' hgt' h'' hclose hname hend =>
    have hopen := ne_endOfFile_of_kind hgt' (by decide)
    have hc₂ := (h.leads.trans h'.leads).inText hc
    have hc₃ := h''.leads.inText (hc₂.bump .child)
    have hclean₁ := hclean.of_bump
    have hclean₃ := hclose.leads.clean hclean₁
    -- The closing tag has the name of the opening one, so it has one.
    have hc₃gt := h.ne_gt hopens.cut hgt hclose hname
    obtain ⟨lt, slash, hchildren, hlt, hinner, hslash, hafter, hshows⟩ :=
      h''.closes (hc₂.bump .child) hclean₃ (hclose.ne_endOfFile hc₃gt)
    rw [hc₂.lower_bump_child hopen] at hchildren
    obtain ⟨⟨rest, hspelled⟩, -⟩ := hclose.spelled hshows hc₃gt hclean₁
    rw [Cursor.last_bump (ne_endOfFile_of_kind hend (by decide))]
    refine ⟨rest, name', hspelled, hname, start, c₂.token.span, lt, slash, c'.token.span, rfl,
      ⟨hopens.spells, linked_head hopens hgt h h' ?_ hopen, hc₂.spells_of_kind hgt'⟩, hchildren, hlt,
      hinner, hslash, ?_, (hclose.leads.inText hc₃).spells_of_kind hend⟩
    · exact h''.leads.after.clean hclean₃
    · obtain ⟨hlower, hupper⟩ := hclose.span_eq hc₃ hc₃gt
      rw [Linked, Linked, hlower, hupper]
      exact ⟨hafter, hclose.follows hc₃ hc₃gt hclean₁ (ne_endOfFile_of_kind hend (by decide))⟩

end Parse
end BranchMarkup
