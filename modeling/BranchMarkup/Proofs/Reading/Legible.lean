import BranchMarkup.Proofs.Legible
import BranchMarkup.Proofs.Reading.Sound
/-! What is read can be read back: every token was cut in the mode its place asks for, and that
tells what its text looks like. -/
namespace BranchMarkup

theorem Keyword.text_of_ofText? {s : String} {k : Keyword} (h : Keyword.ofText? s = some k) :
    k.text = s := by
  simpa using List.find?_some h

theorem Token.ofWord_cases (s : String) :
    (∃ k : Keyword, k.text = s ∧ ofWord s = .keyword k) ∨
      (Keyword.ofText? s = none ∧ ofWord s = .ident s) := by
  unfold ofWord
  cases h : Keyword.ofText? s with
  | some k => exact .inl ⟨k, Keyword.text_of_ofText? h, rfl⟩
  | none => exact .inr ⟨rfl, rfl⟩

namespace Scanner.Cuts

variable {mode : Mode} {cs rest : List Char}

/-- The only words of a script that a cut gives. -/
theorem word_cases {t : Token} (h : Cuts .script cs t rest) :
    (∃ w, IsWord .script w ∧ t = .ofWord (String.ofList w)) ∨
      t.kind = .number ∨ t.kind = .string ∨ ∃ s, t = .symbol s := by
  cases h with
  | scriptWord hs => exact .inl ⟨_, isWord_taken hs, rfl⟩
  | number => exact .inr (.inl rfl)
  | scriptString => exact .inr (.inr (.inl rfl))
  | symbol => exact .inr (.inr (.inr ⟨_, rfl⟩))

theorem isIdent {name : String} (h : Cuts .script cs (.ident name) rest) : IsIdent name := by
  rcases h.word_cases with ⟨w, hw, ht⟩ | ht | ht | ⟨s, ht⟩
  · rcases Token.ofWord_cases (String.ofList w) with ⟨k, _, hk⟩ | ⟨hnone, hk⟩
    · cases ht.trans hk
    · cases ht.trans hk
      exact ⟨by simpa using hw, hnone⟩
  all_goals simp [Token.kind] at ht

theorem isWord_of_keyword {k : Keyword} (h : Cuts .script cs (.keyword k) rest) :
    IsWord .script k.text.toList := by
  rcases h.word_cases with ⟨w, hw, ht⟩ | ht | ht | ⟨s, ht⟩
  · rcases Token.ofWord_cases (String.ofList w) with ⟨k', htext, hk⟩ | ⟨_, hk⟩
    · cases ht.trans hk
      rw [htext, String.toList_ofList]
      exact hw
    · cases ht.trans hk
  all_goals simp [Token.kind] at ht

theorem isTagWord {name : String} (h : Cuts .tag cs (.ident name) rest) :
    IsWord .tag name.toList := by
  generalize ht : Token.ident name = t at h
  cases h with
  | tagWord hs =>
    cases ht
    simpa using isWord_taken hs
  | _ => cases ht

theorem isNumber {digits : String} (h : Cuts .script cs (.number digits) rest) :
    IsNumber digits.toList := by
  generalize ht : Token.number digits = t at h
  cases h with
  | number hs =>
    cases ht
    simpa using isNumber_taken hs
  | scriptWord => rcases Token.ofWord_cases _ with ⟨_, _, hk⟩ | ⟨_, hk⟩ <;> cases ht.trans hk
  | _ => cases ht

theorem value_tagString (quote : Char) (start : Nat) (r : List Char) (offset : Nat) :
    (Scanner.tagString quote start r offset).value = r.takeWhile (· != quote) := by
  simp only [Scanner.tagString]
  split <;> rfl

/-- The text of an attribute does not hold the quote that stood around it. -/
theorem quote_free {s : String} (h : Cuts .tag cs (.string s) rest) :
    '"' ∉ s.toList ∨ '\'' ∉ s.toList := by
  generalize ht : Token.string s = t at h
  cases h with
  | @tagString quote r start offset hq =>
    cases ht
    have hfree : quote ∉ (Scanner.tagString quote start r offset).value := by
      rw [value_tagString]
      intro hmem
      simpa using List.mem_takeWhile_imp hmem
    rw [String.toList_ofList]
    rcases hq with rfl | rfl
    · exact .inl hfree
    · exact .inr hfree
  | _ => cases ht

/-- Raw text ends where a tag, a brace or the end of the text follows. -/
theorem text_inv {raw : String} (h : Cuts mode cs (.text raw) rest) :
    (raw ≠ "" ∧ ∀ c ∈ raw.toList, c ≠ '<' ∧ c ≠ '\x7b') ∧
      ∀ c ∈ rest.head?, c = '<' ∨ c = '\x7b' := by
  generalize ht : Token.text raw = t at h
  cases h with
  | @text c r h1 h2 =>
    cases ht
    refine ⟨⟨?_, ?_⟩, ?_⟩
    · rw [List.takeWhile_cons_of_pos (by simp [h1, h2])]
      intro hnil
      simpa using congrArg String.toList hnil
    · intro d hd
      rw [String.toList_ofList] at hd
      simpa using List.mem_takeWhile_imp hd
    · intro d hd
      have := List.head?_dropWhile_not (fun d => d != '<' && d != '\x7b') (c :: r)
      rw [Option.mem_def.1 hd] at this
      simpa [Decidable.or_iff_not_imp_left] using this
  | scriptWord => rcases Token.ofWord_cases _ with ⟨_, _, hk⟩ | ⟨_, hk⟩ <;> cases ht.trans hk
  | _ => cases ht

end Scanner.Cuts

namespace Cursor

open Scanner (Cuts IsWord)

theorem Cut.cuts {mode : Mode} {c : Cursor} {t : Token} (h : c.Cut mode) (hc : c.token.val = t)
    (ht : t ≠ .endOfFile) : ∃ cs, Cuts mode cs t c.scanner.rest := by
  subst hc
  exact h.resolve_left ht

theorem Cut.isWord_of_word? {c : Cursor} {name : String} (h : c.Cut .script)
    (hc : c.word? = some name) : IsWord .script name.toList := by
  unfold word? at hc
  split at hc
  · next k hk =>
    cases hc
    obtain ⟨cs, hcut⟩ := h.cuts hk (by simp)
    exact hcut.isWord_of_keyword
  · next w hw =>
    cases hc
    obtain ⟨cs, hcut⟩ := h.cuts hw (by simp)
    exact hcut.isIdent.1
  · cases hc

/-- No text follows a text. -/
theorem Cut.bump_child_ne_text {mode : Mode} {c : Cursor} {raw : String} (h : c.Cut mode)
    (hc : c.token.val = .text raw) (raw' : String) : (c.bump .child).token.val ≠ .text raw' := by
  obtain ⟨cs, hcut⟩ := h.cuts hc (by simp)
  have hhead := hcut.text_inv.2
  rw [bump, if_neg (by simp [hc]), Scanner.next, Scanner.nextChild]
  split
  · simp [Scanner.emit]
  · simp [Scanner.emit]
  · simp [Scanner.emit]
  · next hnil hopen hbrace =>
    cases hr : c.scanner.rest with
    | nil => exact absurd hr hnil
    | cons d r =>
      rw [hr] at hhead
      rcases hhead d rfl with rfl | rfl
      · exact absurd hr (hopen r)
      · exact absurd hr (hbrace r)

end Cursor
def Markup.Legible : Markup → Prop
  | element e => e.Legible
  | fragment f => f.Legible

theorem Markup.legible_toExpr {m : Markup} (h : m.Legible) : m.toExpr.Legible := by
  cases m with
  | element e => exact Expr.legible_element.2 h
  | fragment f => exact Expr.legible_fragment.2 h

theorem Markup.legible_toChild {m : Markup} (h : m.Legible) : m.toChild.Legible := by
  cases m with
  | element e => exact Child.legible_element.2 h
  | fragment f => exact Child.legible_fragment.2 h

namespace Parse

open Cursor
open Scanner (IsTagName)

theorem ReadsTagRest.isTagName {c name name' c'} (h : ReadsTagRest c name name' c') :
    c.Cut .tag → IsTagName name.val.toList → IsTagName name'.val.toList ∧ c'.Cut .tag := by
  induction h with
  | done => exact fun hc hname => ⟨hname, hc⟩
  | @part c joint text part c' name name' hj htext hpart _ ih =>
    intro hc hname
    obtain ⟨cs, hcut⟩ := (c.cut_bump .tag).cuts hpart (by simp)
    refine ih (cut_bump ..) ?_
    rcases htext with ⟨-, rfl⟩ | ⟨-, rfl⟩
    · simpa using hname.append (.inl rfl) hcut.isTagWord
    · simpa using hname.append (.inr rfl) hcut.isTagWord

theorem ReadsTag.cut {c name c'} (h : ReadsTag c name c') (hc : c.Cut .tag) : c'.Cut .tag := by
  cases h with
  | empty => exact hc
  | name hfirst h =>
    obtain ⟨cs, hcut⟩ := hc.cuts hfirst (by simp)
    exact (h.isTagName (cut_bump ..) (.of_word hcut.isTagWord)).2

theorem ReadsTag.isTagName {c name c'} (h : ReadsTag c name c') (hc : c.Cut .tag)
    (hgt : c.kind ≠ .symbol .gt) : IsTagName name.val.toList := by
  cases h with
  | empty h => exact absurd h hgt
  | name hfirst h =>
    obtain ⟨cs, hcut⟩ := hc.cuts hfirst (by simp)
    exact (h.isTagName (cut_bump ..) (.of_word hcut.isTagWord)).1

theorem legible_of_atom {c : Cursor} {e : Expr} (hc : c.Cut .script) (h : atom? c.token = some e) :
    e.Legible := by
  unfold atom? at h
  split at h <;> cases h
  case h_1 hk =>
    obtain ⟨cs, hcut⟩ := hc.cuts hk (by simp)
    simpa using hcut.isNumber
  case h_6 hk =>
    obtain ⟨cs, hcut⟩ := hc.cuts hk (by simp)
    simpa using hcut.isIdent
  all_goals simp

mutual

theorem ReadsExpr.legible {c h e c'} :
    ReadsExpr c h e c' → c.Cut .script → e.Legible ∧ c'.Cut .script
  | .plain h _, hc => h.legible hc
  | .conditional h _ h' _ h'', hc =>
    have ht := h.legible hc
    have hx := h'.legible (cut_bump ..)
    have hy := h''.legible (cut_bump ..)
    ⟨Expr.legible_conditional.2 ⟨ht.1, hx.1, hy.1⟩, hy.2⟩

theorem ReadsBinary.legible {power c h e c'} :
    ReadsBinary power c h e c' → c.Cut .script → e.Legible ∧ c'.Cut .script
  | .mk h h', hc =>
    have hl := h.legible hc
    h'.legible hl.2 hl.1

theorem ReadsBinaryRest.legible {power c h lhs e c'} :
    ReadsBinaryRest power c h lhs e c' → c.Cut .script → lhs.Legible → e.Legible ∧ c'.Cut .script
  | .done _, hc, hl => ⟨hl, hc⟩
  | .more _ _ h h', _, hl =>
    have hr := h.legible (cut_bump ..)
    h'.legible hr.2 (Expr.legible_binary.2 ⟨hl, hr.1⟩)

theorem ReadsUnary.legible {c h e c'} :
    ReadsUnary c h e c' → c.Cut .script → e.Legible ∧ c'.Cut .script
  | .operator _ h, _ =>
    have ho := h.legible (cut_bump ..)
    ⟨Expr.legible_unary.2 ho.1, ho.2⟩
  | .trailing _ h h', hc =>
    have hp := h.legible hc
    h'.legible hp.2 hp.1

theorem ReadsTrailing.legible {c h e e' c'} :
    ReadsTrailing c h e e' c' → c.Cut .script → e.Legible → e'.Legible ∧ c'.Cut .script
  | .done _ _, hc, he => ⟨he, hc⟩
  | .member _ hw h, _, he =>
    h.legible (cut_bump ..)
      (Expr.legible_member.2 ⟨(cut_bump _ .script).isWord_of_word? hw, he⟩)
  | .call _ h _ h', _, he =>
    h'.legible (cut_bump ..) (Expr.legible_call.2 ⟨he, h.legible (cut_bump ..)⟩)

theorem ReadsArguments.legible {c h es c'} :
    ReadsArguments c h es c' → c.Cut .script → ∀ e ∈ es, e.Legible
  | .none _, _ => nofun
  | .last _ h _, hc => List.forall_mem_singleton.2 (h.legible hc).1
  | .more _ h _ h', hc =>
    List.forall_mem_cons.2 ⟨(h.legible hc).1, h'.legible (cut_bump ..)⟩

theorem ReadsPrimary.legible {c h e c'} :
    ReadsPrimary c h e c' → c.Cut .script → e.Legible ∧ c'.Cut .script
  | .atom h, hc => ⟨legible_of_atom hc h, cut_bump ..⟩
  | .parenthesized _ h _, _ => ⟨(h.legible (cut_bump ..)).1, cut_bump ..⟩
  | .markup _ h, _ =>
    have hm := h.legible (cut_bump ..)
    ⟨Markup.legible_toExpr hm.1, hm.2⟩

theorem ReadsMarkup.legible {start after c h m c'} :
    ReadsMarkup start after c h m c' → c.Cut .tag → m.Legible ∧ c'.Cut after
  | .fragment _ h _, _ =>
    have hcs := h.legible (cut_bump ..)
    ⟨Fragment.legible_iff.2 ⟨hcs.2.1, hcs.1⟩, cut_bump ..⟩
  | .selfClosing hgt h h' _ _, hc =>
    ⟨Element.legible_iff.2
      ⟨⟨h.isTagName hc hgt, fun _ => rfl, rfl⟩, (h'.legible (h.cut hc)).1, nofun⟩, cut_bump ..⟩
  | .element hgt h h' _ h'' _ _ _, hc =>
    have hcs := h''.legible (cut_bump ..)
    ⟨Element.legible_iff.2
      ⟨⟨h.isTagName hc hgt, nofun, hcs.2.1⟩, (h'.legible (h.cut hc)).1, hcs.1⟩, cut_bump ..⟩

theorem ReadsChildren.legible {c h cs c'} : ReadsChildren c h cs c' → c.Cut .child →
    (∀ x ∈ cs, x.Legible) ∧ Chain.adjacentText? cs = none ∧
      ∀ d ∈ cs.head?, d.isText = true → ∃ s, c.token.val = .text s
  | .close _ _, _ => ⟨nofun, rfl, nofun⟩
  | .text hraw h, hc => by
    have hcs := h.legible (cut_bump ..)
    obtain ⟨_, hcut⟩ := hc.cuts hraw (by simp)
    refine ⟨List.forall_mem_cons.2 ⟨Child.legible_text.2 hcut.text_inv.1, hcs.1⟩, ?_, ?_⟩
    · rw [Chain.adjacentText?_cons_eq_none]
      refine ⟨fun _ d hd => Bool.eq_false_iff.2 fun htext => ?_, hcs.2.1⟩
      obtain ⟨s, hs⟩ := hcs.2.2 d hd htext
      exact hc.bump_child_ne_text hraw s hs
    · exact fun _ _ _ => ⟨_, hraw⟩
  | .container _ h _ h', _ => by
    have hcs := h'.legible (cut_bump ..)
    refine ⟨List.forall_mem_cons.2
      ⟨Child.legible_container.2 (h.legible (cut_bump ..)), hcs.1⟩, ?_, ?_⟩
    · exact Chain.adjacentText?_cons_eq_none.2 ⟨nofun, hcs.2.1⟩
    · rintro d ⟨⟩ hd
      cases hd
  | .markup (m := m) _ _ h h', _ => by
    have hm := h.legible (cut_bump ..)
    have hcs := h'.legible hm.2
    have htext : m.toChild.isText = false := by cases m <;> rfl
    refine ⟨List.forall_mem_cons.2 ⟨Markup.legible_toChild hm.1, hcs.1⟩, ?_, ?_⟩
    · exact Chain.adjacentText?_cons_eq_none.2 ⟨by simp [htext], hcs.2.1⟩
    · rintro d ⟨⟩ hd
      simp [htext] at hd

theorem ReadsContainer.legible {c h inner c'} :
    ReadsContainer c h inner c' → c.Cut .script → ∀ e ∈ inner, e.Legible
  | .empty _, _ => nofun
  | .expr _ h, hc => by
    rintro e ⟨⟩
    exact (h.legible hc).1

theorem ReadsAttributes.legible {c h as c'} :
    ReadsAttributes c h as c' → c.Cut .tag → (∀ a ∈ as, a.Legible) ∧ c'.Cut .tag
  | .done _ _, hc => ⟨nofun, hc⟩
  | .more hident h h' h'', hc =>
    have hv := h'.legible (h.cut hc)
    have has := h''.legible hv.2
    ⟨List.forall_mem_cons.2
      ⟨Attribute.legible_iff.2 ⟨h.isTagName hc (by simp [hident]), hv.1⟩, has.1⟩, has.2⟩

theorem ReadsAttrValue.legible {c h v c'} :
    ReadsAttrValue c h v c' → c.Cut .tag → (∀ x ∈ v, x.Legible) ∧ c'.Cut .tag
  | .bare _, hc => ⟨nofun, hc⟩
  | .text _ hs, _ => by
    obtain ⟨_, hcut⟩ := (cut_bump _ .tag).cuts hs (by simp)
    refine ⟨?_, cut_bump ..⟩
    rintro x ⟨⟩
    exact AttrValue.legible_text.2 hcut.quote_free
  | .container _ _ h _, _ => by
    refine ⟨?_, cut_bump ..⟩
    rintro x ⟨⟩
    exact AttrValue.legible_container.2 (h.legible (cut_bump ..))
  | .element _ _ h, _ => by
    have hm := h.legible (cut_bump ..)
    refine ⟨?_, hm.2⟩
    rintro x ⟨⟩
    exact AttrValue.legible_element.2 hm.1

end

/-! Statements -/

theorem isIdent_bump {c : Cursor} {name : String} (h : (c.bump .script).token.val = .ident name) :
    IsIdent name := by
  obtain ⟨_, hcut⟩ := (c.cut_bump .script).cuts h (by simp)
  exact hcut.isIdent

theorem ReadsSpecifier.legible {c s c'} (h : ReadsSpecifier c s c') (hc : c.Cut .script) :
    s.Legible ∧ c'.Cut .script := by
  cases h with
  | plain hw _ => exact ⟨⟨hc.isWord_of_word? hw, nofun⟩, cut_bump ..⟩
  | renamed hw _ hl =>
    refine ⟨⟨hc.isWord_of_word? hw, ?_⟩, cut_bump ..⟩
    rintro l ⟨⟩
    exact isIdent_bump hl

theorem ReadsSpecifiers.legible {c ss c'} (h : ReadsSpecifiers c ss c') :
    c.Cut .script → ∀ s ∈ ss, s.Legible := by
  induction h with
  | none => exact fun _ => nofun
  | last _ h => exact fun hc => List.forall_mem_singleton.2 (h.legible hc).1
  | more _ h _ _ ih => exact fun hc => List.forall_mem_cons.2 ⟨(h.legible hc).1, ih (cut_bump ..)⟩

theorem ReadsSource.cut {c s c'} (h : ReadsSource c s c') : c'.Cut .script := by
  cases h
  exact cut_bump ..

theorem ReadsClause.legible {default c d c'} (h : ReadsClause default c d c')
    (hn : ∀ n ∈ default, IsIdent n.val) : d.Legible ∧ c'.Cut .script := by
  cases h with
  | all _ _ hname h =>
    refine ⟨⟨hn, ?_, nofun, .inr rfl⟩, h.cut⟩
    rintro n ⟨⟩
    exact isIdent_bump hname
  | named _ hss _ h => exact ⟨⟨hn, nofun, hss.legible (cut_bump ..), .inl rfl⟩, h.cut⟩

theorem ReadsImport.legible {c d c'} (h : ReadsImport c d c') : d.Legible ∧ c'.Cut .script := by
  cases h with
  | sideEffect => exact ⟨⟨nofun, nofun, nofun, .inl rfl⟩, cut_bump ..⟩
  | clause _ _ _ h => exact h.legible nofun
  | default _ hname _ h =>
    refine ⟨⟨?_, nofun, nofun, .inl rfl⟩, h.cut⟩
    rintro n ⟨⟩
    exact isIdent_bump hname
  | both _ hname _ h =>
    refine h.legible ?_
    rintro n ⟨⟩
    exact isIdent_bump hname

theorem ReadsBody.legible {c h s c'} (hs : ReadsBody c h s c') (hc : c.Cut .script) :
    s.Legible ∧ c'.Cut .script := by
  cases hs with
  | imports h => exact h.legible
  | binding _ hname _ h =>
    have he := h.legible (cut_bump ..)
    exact ⟨⟨isIdent_bump hname, he.1⟩, he.2⟩
  | exportDefault _ _ h => exact h.legible (cut_bump ..)
  | expr _ h => exact h.legible hc

theorem ReadsStatement.legible {c h s c'} (hs : ReadsStatement c h s c') (hc : c.Cut .script) :
    s.val.Legible ∧ c'.Cut .script := by
  cases hs with
  | closed h _ => exact ⟨(h.legible hc).1, cut_bump ..⟩
  | bare h _ => exact h.legible hc

theorem ReadsStatements.legible {c h ss c'} (hss : ReadsStatements c h ss c') :
    c.Cut .script → ∀ s ∈ ss, s.val.Legible := by
  induction hss with
  | none => exact fun _ => nofun
  | more _ h _ ih =>
    intro hc
    have hs := h.legible hc
    exact List.forall_mem_cons.2 ⟨hs.1, ih (hs.2.past _)⟩

theorem legible_of_parse {name source : String} {p : Program}
    (h : Program.parse name source = .ok p) : ∀ s ∈ p.statements, s.val.Legible := by
  obtain ⟨k, c, hreads, -⟩ := readsStatements_of_parse h
  exact hreads.legible (cut_ofText _)

end Parse
end BranchMarkup
