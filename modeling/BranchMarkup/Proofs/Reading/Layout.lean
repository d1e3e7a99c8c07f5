import Mathlib.Data.List.Flatten
import BranchMarkup.Proofs.Ledger
import BranchMarkup.Proofs.Reading.Nested
import BranchMarkup.Proofs.Reading.Sound
/-! Where the statements and comments of a text stand: one after another, with a comment before a
statement, inside it or after it, but never across its ends. -/
namespace BranchMarkup

open BranchMarkup.Span (InOrder)

/-- What a statement evaluates stands inside its span. -/
def Holds (s : Spanned Statement) : Prop :=
  ∀ e, s.val.expr? = some e →
    (TreeNode.expr e).Throughout TreeNode.Nested ∧ InOrder s.span.lower s.span.upper [e.span]

/-- Statements and comments between two offsets, each comment before, in or after a statement. -/
def Laid (b : Nat) : Nat → List (Spanned Statement) → List (Spanned String) → Prop
  | a, [], cs => InOrder a b (cs.map (·.span))
  | a, s :: ss, cs => Holds s ∧ s.span.lower < s.span.upper ∧
      ∃ before inside after, cs = before ++ (inside ++ after) ∧
        InOrder a s.span.lower (before.map (·.span)) ∧
        InOrder s.span.lower s.span.upper (inside.map (·.span)) ∧ Laid b s.span.upper ss after

theorem Laid.holds {a b : Nat} {ss : List (Spanned Statement)} {cs : List (Spanned String)}
    (h : Laid b a ss cs) :
    ∀ s ∈ ss, Holds s ∧ a ≤ s.span.lower ∧ s.span.lower < s.span.upper := by
  induction ss generalizing a cs with
  | nil => nofun
  | cons s ss ih =>
    obtain ⟨hs, hlt, before, -, after, -, hbefore, -, hss⟩ := h
    have hle := hbefore.le
    refine List.forall_mem_cons.2 ⟨⟨hs, hle, hlt⟩, fun t ht => ?_⟩
    obtain ⟨ht, hlower, hlt'⟩ := ih hss t ht
    exact ⟨ht, by omega, hlt'⟩

theorem Cursor.Leads.gathers_last {n : Nat} {c d : Cursor} (h : c.Leads d) (hn : n < UInt32.size)
    (hc : c.Stands n) : d = c ∨
      ∃ s, Scanner.Gathers c.scanner.comments c.token.span.lower d.last.upper s ∧
        Scanner.Gathers s.comments d.last.upper d.token.span.lower d.scanner := by
  induction h with
  | refl => exact .inl rfl
  | @bump d mode h ih =>
    by_cases hend : d.token.val = .endOfFile
    · rwa [Cursor.bump, if_pos hend]
    · right
      have hd := h.stands hn hc
      have hlower := hc.lower_le
      refine ⟨d.scanner, ?_, ?_⟩
      · rw [last_bump hend]
        rcases h.gathers hn hc with rfl | ⟨new, hcomments, hnew⟩
        · exact Scanner.gathers_none rfl hlower
        · exact ⟨new, hcomments, hnew.mono hlower hd.lower_le⟩
      · rw [last_bump hend]
        exact hd.gathers_bump hn hend mode

namespace Parse

theorem ReadsBody.placed {n c h s c'} (hn : n < UInt32.size) (hs : ReadsBody c h s c')
    (hc : c.Stands n) : ∀ e, s.expr? = some e → Placed n c.token.span.lower c' (.expr e) := by
  have hbump {d : Cursor} (hd : d.Stands n) {mode : Mode} :
      d.token.span.lower ≤ (d.bump mode).token.span.lower := by
    by_cases hend : d.token.val = .endOfFile
    · rw [Cursor.bump, if_pos hend]
    · exact Nat.le_trans hd.lower_le (hd.bump_lower hn hend mode)
  have h1 := hc.bump hn .script
  have h2 := h1.bump hn .script
  have h3 := h2.bump hn .script
  cases hs with
  | imports =>
    intro e he
    cases he
  | binding _ _ _ h =>
    rintro e ⟨⟩
    exact (h.placed hn h3).mono ((hbump hc).trans ((hbump h1).trans (hbump h2)))
  | exportDefault _ _ h =>
    rintro e ⟨⟩
    exact (h.placed hn h2).mono ((hbump hc).trans (hbump h1))
  | expr _ h =>
    rintro e ⟨⟩
    exact h.placed hn hc

theorem ReadsStatement.extent {n c h s c'} (hn : n < UInt32.size) (hs : ReadsStatement c h s c')
    (hc : c.Stands n) : s.span.lower = c.token.span.lower ∧ s.span.upper = c'.last.upper ∧
      c.token.span.upper ≤ s.span.upper := by
  have hmoved : c' ≠ c := by
    rintro rfl
    exact Nat.lt_irrefl _ hs.left_lt
  have hspan : s.span = c.token.span.merge c'.last := by cases hs <;> rfl
  obtain ⟨h1, h2⟩ := (hs.leads.last hn hc).resolve_left hmoved
  rw [hspan, Span.lower_merge, Span.upper_merge]
  omega

theorem ReadsStatement.holds {n c h s c'} (hn : n < UInt32.size) (hs : ReadsStatement c h s c')
    (hc : c.Stands n) : Holds s := by
  intro e he
  obtain ⟨hlower, hupper, -⟩ := hs.extent hn hc
  have hplaced : Placed n c.token.span.lower c' (.expr e) := by
    cases hs with
    | closed h hsemicolon =>
      exact (h.placed hn hc e he).bump hn (ne_endOfFile_of_kind hsemicolon (by decide)) .script
    | bare h _ => exact h.placed hn hc e he
  refine ⟨hplaced.nested, ?_⟩
  rw [hlower, hupper]
  exact ⟨hplaced.lower_le, hplaced.lower_lt, hplaced.upper_le⟩

theorem ReadsStatements.laid {n a c h ss c'} {before : List (Spanned String)} (hn : n < UInt32.size)
    (hss : ReadsStatements c h ss c') (hc : c.Stands n)
    (hbefore : InOrder a c.token.span.lower (before.map (·.span))) :
    ∃ new, c'.scanner.comments = c.scanner.comments ++ new ∧ Laid n a ss (before ++ new) := by
  induction hss generalizing a before with
  | @none c hend =>
    have hupper := hc.upper_eq
    have hlower := hc.lower_le
    have hoffset : c.scanner.offset ≤ n := hc.extent_eq ▸ Nat.le_add_right ..
    refine ⟨[], (List.append_nil _).symm, ?_⟩
    rw [List.append_nil]
    exact hbefore.mono (Nat.le_refl _) (by omega)
  | @more c _ _ s ss c₁ c' hopen hs _ ih =>
    have hc₁ := hs.leads.stands hn hc
    obtain ⟨hlower, hupper, hle⟩ := hs.extent hn hc
    have hlt := hc.lower_lt fun h => hopen (Cursor.kind_endOfFile.2 h)
    -- The next token stands behind the statement, so none is passed over.
    have hpast : c₁.past c.token.span = c₁ := by
      apply if_neg
      intro heq
      have := hc₁.last_le
      rw [heq] at this
      omega
    have hmoved : c₁ ≠ c := by
      rintro rfl
      exact Nat.lt_irrefl _ hs.left_lt
    obtain ⟨t, ⟨inside, ht, hinside⟩, ⟨next, hnext, hinOrder⟩⟩ :=
      (hs.leads.gathers_last hn hc).resolve_left hmoved
    rw [hpast] at ih
    rw [← hupper] at hinside hinOrder
    rw [← hlower] at hinside hbefore hlt
    obtain ⟨new, hnew, hlaid⟩ := ih hc₁ hinOrder
    refine ⟨inside ++ (next ++ new), ?_, hs.holds hn hc, by omega, before, inside, next ++ new, rfl,
      hbefore, hinside, hlaid⟩
    rw [hnew, hnext, ht, List.append_assoc, List.append_assoc]

end Parse

/-- The statements and comments of a program that was read lie in the order in which they are
listed. -/
theorem Program.laid_of_parse {name source : String} {p : Program} (h : parse name source = .ok p)
    (hlength : source.utf8ByteSize < UInt32.size) :
    Laid source.utf8ByteSize 0 p.statements p.comments := by
  obtain ⟨k, c, hreads, -, hp, -⟩ := Parse.readsStatements_of_parse h
  rw [← Text.byteLength_toList] at hlength ⊢
  have hextent : (Scanner.ofText source.toList).extent < UInt32.size := by
    rwa [Scanner.extent, Scanner.ofText, Nat.zero_add]
  obtain ⟨before, hbefore, hinOrder⟩ :=
    Scanner.gathers_next .script (Scanner.ofText source.toList) hextent
  obtain ⟨new, hnew, hlaid⟩ := hreads.laid hlength (Cursor.stands_ofText hlength) hinOrder
  have hfirst : (Parser.ofText source.toList).cursor.scanner.comments = before := hbefore
  rw [hp, hnew, hfirst]
  exact hlaid

section
variable {own : TreeNode → List Span} (hown : ∀ n : TreeNode, n.Nested →
  ∃ mid, InOrder n.span.lower mid (own n) ∧
    InOrder mid n.span.upper ((n.parts Element.attrs).map TreeNode.span))
include hown

/-- What is collected from the nodes of a statement stands in order, if at each node it comes before
the parts of that node. -/
theorem Holds.inOrder_collected {s : Spanned Statement} (hs : Holds s)
    (hlt : s.span.lower < s.span.upper) : InOrder s.span.lower s.span.upper
      ((s.val.expr?.toList.map TreeNode.expr).flatMap fun r => r.all.flatMap own) := by
  cases he : s.val.expr? with
  | none => exact Nat.le_of_lt hlt
  | some e =>
    obtain ⟨hnested, hlower, -, hupper⟩ := hs e he
    have hcollected := TreeNode.inOrder_collected (hnested.mono hown)
    rw [Option.toList_some, List.map_singleton, List.flatMap_singleton]
    exact hcollected.mono hlower hupper

theorem Laid.inOrder_collected {a b : Nat} {ss : List (Spanned Statement)}
    {cs : List (Spanned String)} (h : Laid b a ss cs) :
    InOrder a b ((ss.flatMap fun s => s.val.expr?.toList.map TreeNode.expr).flatMap fun r =>
      r.all.flatMap own) := by
  induction ss generalizing a cs with
  | nil => exact h.le
  | cons s ss ih =>
    obtain ⟨hs, hlt, before, inside, after, -, hbefore, -, hss⟩ := h
    rw [List.flatMap_cons, List.flatMap_append]
    exact ((hs.inOrder_collected hown hlt).mono hbefore.le (Nat.le_refl _)).append (ih hss)

end

/-! Branch elements -/

/-- The byte at which a span starts. -/
def Span.first (s : Span) : Span := ⟨s.fileId, s.start, s.start + 1⟩

theorem Span.upper_first {s : Span} (h : s.lower < s.upper) : s.first.upper = s.lower + 1 := by
  have hupper : s.upper < UInt32.size := s.stop.toNat_lt
  rw [lower] at h
  rw [upper, first, UInt32.toNat_add, lower]
  exact Nat.mod_eq_of_lt (by simpa using Nat.lt_of_le_of_lt (Nat.succ_le_of_lt h) hupper)

/-- Where the node starts, if it is a branch element. -/
def TreeNode.linkStart (n : TreeNode) : List Span := n.link?.toList.map (·.origin.first)

/-- A branch element starts before anything in it does. -/
theorem TreeNode.Nested.linkStart {n : TreeNode} (h : n.Nested) :
    ∃ mid, InOrder n.span.lower mid n.linkStart ∧
      InOrder mid n.span.upper ((n.parts Element.attrs).map TreeNode.span) := by
  have hle := InOrder.le h
  cases hlink : n.link? with
  | none =>
    refine ⟨n.span.lower, ?_, h.mono (Nat.le_add_right ..) (Nat.sub_le ..)⟩
    rw [TreeNode.linkStart, hlink]
    exact Nat.le_refl _
  | some o =>
    obtain ⟨e, rfl, -⟩ := entries_of_link? hlink
    have horigin : o.origin = e.span := by
      obtain ⟨b, -, rfl⟩ := Option.map_eq_some_iff.1 hlink
      rfl
    change e.span.lower + 1 ≤ e.span.upper - 1 at hle
    have hupper := Span.upper_first (s := e.span) (by omega)
    refine ⟨e.span.lower + 1, ?_, h.mono (Nat.le_refl _) (Nat.sub_le ..)⟩
    rw [TreeNode.linkStart, hlink, Option.toList_some, List.map_singleton, horigin,
      Span.inOrder_singleton, hupper]
    exact ⟨Nat.le_refl _, Nat.lt_succ_self _, Nat.le_refl _⟩

namespace Program

/-- A rewrite comes to no node twice, and to nothing else than nodes. -/
theorem links_sublist (p : Program) :
    p.links.Sublist ((p.roots.flatMap TreeNode.all).filterMap TreeNode.link?) := by
  have hlive (n : TreeNode) : n.live.Sublist n.all := by
    induction hn : sizeOf n using Nat.strongRecOn generalizing n with
    | ind k ih =>
      have hparts : (n.parts Element.liveAttrs).Sublist (n.parts Element.attrs) := by
        cases n with
        | element e => exact .append (e.liveAttrs_sublist.map _) (List.Sublist.refl _)
        | expr e => cases e <;> exact List.Sublist.refl _
        | value v => cases v <;> exact List.Sublist.refl _
        | child c => cases c <;> exact List.Sublist.refl _
        | fragment | attr => exact List.Sublist.refl _
      rw [TreeNode.live_eq, TreeNode.all_eq]
      refine .cons_cons _ ((hparts.flatMap _).trans (List.Sublist.flatMap_right _ ?_))
      intro l hl
      exact ih _ (hn ▸ TreeNode.sizeOf_part (fun _ => List.Subset.refl _) hl) l rfl
  exact (List.Sublist.flatMap_right _ fun r _ => hlive r).filterMap _

/-- Branch elements of a text stand at places of their own. -/
theorem nodup_links {name source : String} {p : Program} (h : parse name source = .ok p)
    (hlength : source.utf8ByteSize < UInt32.size) : (p.links.map (·.origin)).Nodup := by
  have hinOrder := Laid.inOrder_collected (fun _ hn => hn.linkStart) (laid_of_parse h hlength)
  have hstarts : (p.roots.flatMap fun r => r.all.flatMap TreeNode.linkStart) =
      ((p.roots.flatMap TreeNode.all).filterMap TreeNode.link?).map (·.origin.first) := by
    rw [List.filterMap_eq_flatMap_toList, List.map_flatMap, List.flatMap_assoc]
    rfl
  have hsublist := p.links_sublist.map (·.origin.first)
  rw [← hstarts] at hsublist
  have hlinks : InOrder 0 source.utf8ByteSize (p.links.map (·.origin.first)) :=
    hinOrder.sublist hsublist
  have hbounds := hlinks.bounds
  have hpairwise := hlinks.pairwise
  rw [List.forall_mem_map] at hbounds
  rw [List.pairwise_map] at hpairwise
  rw [List.Nodup, List.pairwise_map]
  apply hpairwise.imp_of_mem
  intro o o' ho _ hle heq
  have hlt := (hbounds o ho).2.1
  rw [heq] at hle hlt
  omega

end Program

end BranchMarkup
