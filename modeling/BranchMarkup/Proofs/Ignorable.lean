import Mathlib
import BranchMarkup.Proofs.Alike
import BranchMarkup.Proofs.Building
import BranchMarkup.Proofs.Walk
/-! Ignorable children do not matter to a rewrite: of two programs that differ in nothing else it
takes both or neither, counts the same, and leaves programs that differ in nothing else either, but
that a text may come to begin with other blanks. What is ignored when the chains are checked, when
links are looked for and when a body is collapsed is the same each time. -/
namespace BranchMarkup

variable {L : Likeness}

/-! The parts of a chain -/

theorem Element.Alike.branch?_eq {e f : Element} (h : Element.Alike L e f) :
    e.branch? = f.branch? := by
  cases h
  rfl

theorem Element.Alike.span_eq {e f : Element} (h : Element.Alike L e f) : e.span = f.span := by
  cases h
  rfl

theorem Child.Alike.branch?_eq {c d : Child} (h : Child.Alike L c d) : c.branch? = d.branch? := by
  cases h with
  | text | container | fragment => rfl
  | element h => exact h.branch?_eq

theorem Child.Alike.isText_eq {c d : Child} (h : Child.Alike L c d) : c.isText = d.isText := by
  cases h <;> rfl

theorem Child.AlikeAll.adjacentText? {cs ds : List Child} (h : Child.AlikeAll L cs ds) :
    Chain.adjacentText? cs = none ↔ Chain.adjacentText? ds = none := by
  induction cs generalizing ds with
  | nil =>
    cases h
    rfl
  | cons c cs ih =>
    cases h with
    | cons hc hcs =>
      rw [Chain.adjacentText?_cons_eq_none, Chain.adjacentText?_cons_eq_none, ih hcs, hc.isText_eq]
      cases hcs with
      | nil => rfl
      | cons hd _ => simp only [List.head?_cons, Option.mem_some_iff, forall_eq', hd.isText_eq]

theorem Element.Alike.checkElement {e f : Element} (h : Element.Alike .shaped e f)
    (he : Chain.checkElement e = .ok ()) : Chain.checkElement f = .ok () := by
  rw [Chain.checkElement_eq_ok, Chain.shapeDefect?_eq_none] at he ⊢
  obtain ⟨hname, hclosing, htexts⟩ := he
  cases h with
  | mk _ _ hl => exact ⟨hname, fun hc => (hl.2 hc).1 (hclosing hc), hl.1.1 htexts⟩

theorem Fragment.Alike.checkFragment {f g : Fragment} (h : Fragment.Alike .shaped f g)
    (hf : Chain.checkFragment f = .ok ()) : Chain.checkFragment g = .ok () := by
  rw [Chain.checkFragment_eq_ok] at hf ⊢
  cases h with
  | mk _ hl => exact hl.1.1 hf

theorem Attribute.AlikeAll.find? {as bs : List Attribute} (h : Attribute.AlikeAll L as bs)
    (name : String) :
    Attribute.AlikeAll L (as.find? (·.name.val == name)).toList
      (bs.find? (·.name.val == name)).toList := by
  induction as generalizing bs with
  | nil =>
    cases h
    exact .nil
  | cons a as ih =>
    cases h with
    | bare hs =>
      simp only [List.find?_cons]
      split
      · exact .bare .nil
      · exact ih hs
    | valued hv hs =>
      simp only [List.find?_cons]
      split
      · exact .valued hv .nil
      · exact ih hs

theorem Element.Alike.find? {e f : Element} (h : Element.Alike L e f) (name : String) :
    Attribute.AlikeAll L (e.find? name).toList (f.find? name).toList := by
  cases h with
  | mk ha _ _ => exact ha.find? name

namespace Chain

theorem check_filter (last : Option Branch) (cs : List Child) :
    check last (cs.filter Child.isSignificant) = check last cs := by
  induction cs generalizing last with
  | nil => rfl
  | cons c cs ih =>
    cases hc : c.isSignificant with
    | true =>
      rw [List.filter_cons_of_pos hc]
      simp only [check, ih]
    | false =>
      have hb : c.branch? = none := by
        by_contra hsome
        obtain ⟨b, hb⟩ := Option.ne_none_iff_exists'.1 hsome
        rw [Child.isSignificant_of_branch? hb] at hc
        cases hc
      rw [List.filter_cons_of_neg (by simp [hc]), ih]
      simp only [check, hb, hc, Bool.false_eq_true, ↓reduceIte]

theorem check_of_alike {cs ds : List Child} (h : Child.AlikeAll L cs ds) {last : Option Branch}
    (hall : ∀ c ∈ cs ++ ds, c.isSignificant = true) (hcs : check last cs = .ok ()) :
    check last ds = .ok () := by
  induction cs generalizing last ds with
  | nil =>
    cases h
    rfl
  | cons c cs ih =>
    cases h with
    | @cons _ _ d ds hc hs =>
      have hsig : c.isSignificant = true ∧ d.isSignificant = true :=
        ⟨hall c (by simp), hall d (by simp)⟩
      have hrest : ∀ x ∈ cs ++ ds, x.isSignificant = true := by
        intro x hx
        apply hall
        simp only [List.cons_append, List.mem_cons, List.mem_append] at hx ⊢
        exact .inr (hx.imp_right .inr)
      simp only [check, ← hc.branch?_eq, hsig.1, hsig.2] at hcs ⊢
      cases hb : c.branch? with
      | none =>
        simp only [hb] at hcs ⊢
        exact ih hs hrest hcs
      | some b =>
        simp only [hb] at hcs ⊢
        split at hcs
        · cases hcs
        · next hlast =>
          rw [if_neg hlast]
          exact ih hs hrest hcs

theorem check_of_alike_filter {cs ds : List Child} {last : Option Branch}
    (h : Child.AlikeAll L (cs.filter Child.isSignificant) (ds.filter Child.isSignificant))
    (hcs : check last cs = .ok ()) : check last ds = .ok () := by
  rw [← check_filter] at hcs ⊢
  refine check_of_alike h ?_ hcs
  intro c hc
  rw [← List.filter_append] at hc
  exact (List.mem_filter.1 hc).2

theorem condition_of_alike {e f : Element} (h : Element.Alike L e f) {test : Expr}
    (ht : condition e = .ok test) :
    ∃ test', condition f = .ok test' ∧ Expr.Alike L test test' := by
  have hfind := h.find? conditionName
  unfold condition at ht
  split at ht <;> cases ht
  · next name span heq =>
    rw [heq] at hfind
    cases hf : f.find? conditionName with
    | none =>
      rw [hf] at hfind
      cases hfind
    | some b =>
      rw [hf] at hfind
      cases hfind
      exact ⟨_, by simp only [condition, hf], .literal⟩
  · next name span span' heq =>
    rw [heq] at hfind
    cases hf : f.find? conditionName with
    | none =>
      rw [hf] at hfind
      cases hfind
    | some b =>
      rw [hf] at hfind
      cases hfind with
      | valued hv _ =>
        cases hv with
        | container he => exact ⟨_, by simp only [condition, hf], he⟩

theorem alone_of_alike {c d : Child} (h : Child.Alike .shaped c d) :
    Expr.Alike .shaped c.alone d.alone := by
  cases h with
  | text h =>
    cases h
    exact .literal
  | container h => exact h
  | element h => exact .element h
  | fragment h => exact .fragment h

theorem collapse_of_alike {cs ds : List Child} {o : Provenance}
    (h : Child.AlikeAll .shaped (cs.filter Child.isSignificant)
      (ds.filter Child.isSignificant)) :
    Expr.Alike .shaped (collapse cs o) (collapse ds o) := by
  have hkept : Child.AlikeAll .shaped ((cs.filter Child.isSignificant).filter Child.isSignificant)
      ((ds.filter Child.isSignificant).filter Child.isSignificant) := by
    simpa only [List.filter_filter, Bool.and_self] using h
  unfold collapse
  generalize cs.filter Child.isSignificant = kept, ds.filter Child.isSignificant = kept' at *
  cases h with
  | nil => exact .literal
  | cons hc hs =>
    cases hs with
    | nil => exact alone_of_alike hc
    | cons hd hs =>
      apply Expr.Alike.fragment
      apply Fragment.Alike.mk hkept
      refine ⟨(Child.AlikeAll.cons hc (.cons hd hs)).adjacentText?, fun h => ?_⟩
      cases h

theorem arm_of_alike {d : Nat} {e f : Element} (h : Element.Alike .shaped e f)
    {test consequent : Expr} (he : arm d e = .ok (test, consequent)) :
    ∃ test' consequent', arm d f = .ok (test', consequent') ∧ Expr.Alike .shaped test test' ∧
      Expr.Alike .shaped consequent consequent' := by
  rw [arm_eq_ok] at he
  have horigin : origin f = origin e := by simp only [origin, h.span_eq, h.branch?_eq]
  cases condition_of_alike h he.2.2.1 with
  | intro test' htest =>
    refine ⟨test', collapse f.children (origin f), ?_, htest.2, ?_⟩
    · rw [arm_eq_ok]
      exact ⟨he.1, h.checkElement he.2.1, htest.1, rfl⟩
    · rw [← he.2.2.2, horigin]
      cases h with
      | mk _ hc _ => exact collapse_of_alike hc

theorem lastArm_of_alike {e f : Element} (h : Element.Alike .shaped e f) {alternate : Expr}
    (he : lastArm e = .ok alternate) :
    ∃ alternate', lastArm f = .ok alternate' ∧ Expr.Alike .shaped alternate alternate' := by
  rw [lastArm_eq_ok] at he
  refine ⟨collapse f.children ⟨f.span, .otherwise⟩, ?_, ?_⟩
  · rw [lastArm_eq_ok]
    exact ⟨h.checkElement he.1, rfl⟩
  · rw [← he.2, h.span_eq]
    cases h with
    | mk _ hc _ => exact collapse_of_alike hc

theorem conditional_of_alike {e f : Element} (h : Element.Alike .shaped e f)
    {t c a t' c' a' : Expr} (ht : Expr.Alike .shaped t t') (hc : Expr.Alike .shaped c c')
    (ha : Expr.Alike .shaped a a') :
    Expr.Alike .shaped (conditional e t c a) (conditional f t' c' a') := by
  have horigin : origin f = origin e := by simp only [origin, h.span_eq, h.branch?_eq]
  unfold conditional
  rw [horigin, h.span_eq]
  exact .conditional ht hc ha

theorem Builds.of_alike {d e links built} (h : Builds d e links built) {f : Element}
    {links' : List Element} (hef : Element.Alike .shaped e f)
    (hlinks : List.Forall₂ (Element.Alike .shaped) links links') :
    ∃ built', Builds d f links' built' ∧ Expr.Alike .shaped built built' := by
  induction h generalizing f links' with
  | last ha =>
    cases hlinks
    obtain ⟨test, consequent, hf, ht, hc⟩ := arm_of_alike hef ha
    refine ⟨_, .last hf, conditional_of_alike hef ht hc ?_⟩
    rw [hef.span_eq]
    exact .literal
  | next ha hbranch _ ih =>
    cases hlinks with
    | cons hlink hlinks =>
      obtain ⟨test, consequent, hf, ht, hc⟩ := arm_of_alike hef ha
      obtain ⟨alternate, hbuilds, halternate⟩ := ih hlink hlinks
      rw [hlink.branch?_eq] at hbranch
      exact ⟨_, .next hf hbranch hbuilds, conditional_of_alike hef ht hc halternate⟩
  | otherwise ha hbranch hlast =>
    cases hlinks with
    | cons hlink hlinks =>
      obtain ⟨test, consequent, hf, ht, hc⟩ := arm_of_alike hef ha
      obtain ⟨alternate, hf', halternate⟩ := lastArm_of_alike hlink hlast
      rw [hlink.branch?_eq] at hbranch
      exact ⟨_, .otherwise hf hbranch hf', conditional_of_alike hef ht hc halternate⟩

theorem build_of_alike {d : Nat} {e f : Element} {links links' : List Element} {built : Expr}
    (h : (build d e links).result = .ok built) (hef : Element.Alike .shaped e f)
    (hlinks : List.Forall₂ (Element.Alike .shaped) links links') :
    ∃ built', (build d f links').result = .ok built' ∧ Expr.Alike .shaped built built' := by
  obtain ⟨built', hbuilds, hbuilt⟩ := (builds_of_build h).of_alike hef hlinks
  exact ⟨built', hbuilds.build_eq, hbuilt⟩

/-- The links are found among what counts, and what counts of the rest is what they leave of it. -/
theorem takeLinks_filter (cs : List Child) :
    takeLinks (cs.filter Child.isSignificant) =
      ((takeLinks cs).1, (takeLinks cs).2.filter Child.isSignificant) := by
  fun_induction takeLinks cs with
  | case1 => rfl
  | case2 e cs hb links left heq ih =>
    rw [heq] at ih
    rw [List.filter_cons_of_pos rfl, takeLinks, hb]
    simp only [ih]
  | case3 e cs hb =>
    rw [List.filter_cons_of_pos rfl, takeLinks, hb]
  | case4 e cs h1 h2 =>
    rw [List.filter_cons_of_pos rfl, takeLinks]
    split
    · exact absurd ‹_› h1
    · exact absurd ‹_› h2
    · rfl
  | case5 c cs hne hc =>
    rw [List.filter_cons_of_pos hc, takeLinks.eq_3 c _ hne, if_pos hc]
  | case6 c cs hne hc links left heq ih =>
    rw [heq] at ih
    rw [List.filter_cons_of_neg hc, ih, List.filter_cons_of_neg hc]

theorem takeLinks_of_significant {c : Child} (hc : c.isSignificant = true)
    (hne : ∀ e, c = .element e → False) (cs : List Child) : takeLinks (c :: cs) = ([], c :: cs) := by
  rw [takeLinks.eq_3 c cs hne, if_pos hc]

theorem takeLinks_of_alikeAll {cs ds : List Child} (h : Child.AlikeAll L cs ds)
    (hcs : ∀ c ∈ cs, c.isSignificant = true) (hds : ∀ d ∈ ds, d.isSignificant = true) :
    List.Forall₂ (Element.Alike L) (takeLinks cs).1 (takeLinks ds).1 ∧
      Child.AlikeAll L (takeLinks cs).2 (takeLinks ds).2 := by
  induction cs generalizing ds with
  | nil =>
    cases h
    exact ⟨.nil, .nil⟩
  | cons c cs ih =>
    cases h with
    | @cons _ _ d ds hc hs =>
      rw [List.forall_mem_cons] at hcs hds
      have hall := Child.AlikeAll.cons hc hs
      cases hc with
      | text | container | fragment =>
        rw [takeLinks_of_significant hcs.1 nofun, takeLinks_of_significant hds.1 nofun]
        exact ⟨.nil, hall⟩
      | @element e f he =>
        have hbranch := he.branch?_eq
        have hrest := ih hs hcs.2 hds.2
        simp only [takeLinks, ← hbranch]
        cases e.branch? with
        | none => exact ⟨.nil, hall⟩
        | some b =>
          cases b with
          | when => exact ⟨.nil, hall⟩
          | elseWhen => exact ⟨.cons he hrest.1, hrest.2⟩
          | otherwise => exact ⟨.cons he .nil, hs⟩

theorem takeLinks_of_alike {cs ds : List Child}
    (h : Child.AlikeAll L (cs.filter Child.isSignificant) (ds.filter Child.isSignificant)) :
    List.Forall₂ (Element.Alike L) (takeLinks cs).1 (takeLinks ds).1 ∧
      Child.AlikeAll L ((takeLinks cs).2.filter Child.isSignificant)
        ((takeLinks ds).2.filter Child.isSignificant) := by
  have hkept := takeLinks_of_alikeAll h (fun c hc => (List.mem_filter.1 hc).2)
    (fun d hd => (List.mem_filter.1 hd).2)
  rwa [takeLinks_filter, takeLinks_filter] at hkept

/-! Where no texts touch, none touches one that counts either once links are taken from between
them. -/

/-- No text that counts has a text right behind it. -/
def Parted : List Child → Prop
  | [] => True
  | c :: cs => (c.isText = true → c.isSignificant = true → ∀ d ∈ cs.head?, d.isText = false) ∧
    Parted cs

theorem parted_of_adjacentText? {cs : List Child} (h : adjacentText? cs = none) : Parted cs := by
  induction cs with
  | nil => exact trivial
  | cons c cs ih =>
    rw [adjacentText?_cons_eq_none] at h
    exact ⟨fun htext _ => h.1 htext, ih h.2⟩

theorem Parted.of_append {pre cs : List Child} (h : Parted (pre ++ cs)) : Parted cs := by
  induction pre with
  | nil => exact h
  | cons c pre ih => exact ih h.2

theorem Parted.takeLinks {cs : List Child} (h : Parted cs) : Parted (takeLinks cs).2 := by
  fun_induction Chain.takeLinks cs with
  | case1 => exact trivial
  | case2 e cs _ links left heq ih =>
    rw [heq] at ih
    exact ih h.2
  | case3 => exact h.2
  | case4 => exact h
  | case5 => exact h
  | case6 c cs _ hc links left heq ih =>
    rw [heq] at ih
    exact ⟨fun _ hsig => absurd hsig hc, ih h.2⟩

end Chain

/-! Children that are ignored, among those that count -/

namespace Child

theorem exists_of_alikeAll_cons {c : Child} {cs ds : List Child}
    (h : AlikeAll L (c :: cs) (ds.filter isSignificant)) :
    ∃ pre d rest, ds = pre ++ d :: rest ∧ (∀ x ∈ pre, x.isSignificant = false) ∧ Alike L c d ∧
      d.isSignificant = true ∧ AlikeAll L cs (rest.filter isSignificant) := by
  generalize hkept : ds.filter isSignificant = kept at h
  cases h with
  | cons hc hs =>
    rw [List.filter_eq_cons_iff] at hkept
    obtain ⟨pre, rest, rfl, hpre, hd, rfl⟩ := hkept
    refine ⟨pre, _, rest, rfl, ?_, hc, hd, hs⟩
    intro x hx
    exact Bool.eq_false_iff.2 (hpre x hx)

/-- A text that does not count is lost in what it is joined to, but for the blanks that one comes to
begin with. -/
theorem filter_joinText {t : String} {s : Span} (ht : (Child.text t s).isSignificant = false)
    (cs : List Child) :
    (joinText (.text t s) cs).filter isSignificant = cs.filter isSignificant ∨
      ∃ u s' s'' rest, cs.filter isSignificant = .text u s' :: rest ∧
        (joinText (.text t s) cs).filter isSignificant = .text (t ++ u) s'' :: rest ∧
        Text.trimStart (t ++ u).toList = Text.trimStart u.toList := by
  have hblank : t.toList.all Text.isBlank = true := by simpa [isSignificant] using ht
  unfold joinText
  split
  · next u s' cs heq =>
    cases heq
    have hsig : (Child.text (t ++ u) (s.merge s')).isSignificant =
        (Child.text u s').isSignificant := by
      simp only [isSignificant, String.toList_append, List.all_append, hblank, Bool.true_and]
    by_cases hu : (Child.text u s').isSignificant = true
    · right
      refine ⟨u, s', s.merge s', cs.filter isSignificant, List.filter_cons_of_pos hu, ?_, ?_⟩
      · exact List.filter_cons_of_pos (hsig.trans hu)
      · rw [String.toList_append]
        exact List.dropWhile_append_of_pos (List.all_eq_true.1 hblank)
    · left
      rw [List.filter_cons_of_neg hu, List.filter_cons_of_neg (by rwa [hsig])]
  · left
    exact List.filter_cons_of_neg (by simp [ht])

theorem alikeAll_joinText_left {t : String} {s : Span} {cs xs : List Child}
    (ht : (Child.text t s).isSignificant = false)
    (h : AlikeAll .indented (cs.filter isSignificant) xs) :
    AlikeAll .indented ((joinText (.text t s) cs).filter isSignificant) xs := by
  rcases filter_joinText (s := s) ht cs with heq | ⟨u, s', s'', rest, hcs, hjoined, hblank⟩
  · rwa [heq]
  · rw [hcs] at h
    rw [hjoined]
    cases h with
    | cons hc hs =>
      cases hc with
      | text hu => exact .cons (.text (hblank.trans hu)) hs

theorem alikeAll_joinText_right {t : String} {s : Span} {cs xs : List Child}
    (ht : (Child.text t s).isSignificant = false)
    (h : AlikeAll .indented xs (cs.filter isSignificant)) :
    AlikeAll .indented xs ((joinText (.text t s) cs).filter isSignificant) := by
  rcases filter_joinText (s := s) ht cs with heq | ⟨u, s', s'', rest, hcs, hjoined, hblank⟩
  · rwa [heq]
  · rw [hcs] at h
    rw [hjoined]
    cases h with
    | cons hc hs =>
      cases hc with
      | text hu => exact .cons (.text (Eq.trans hu hblank.symm)) hs

end Child

namespace Rewrite

/-- Children that do not count, put before a list that is walked, change little of what comes of
it. -/
theorem WalksChildren.ignorable {d : Nat} {pre cs cs' xs : List Child} {k : Stats}
    (hpre : ∀ c ∈ pre, c.isSignificant = false) (h : WalksChildren d cs k cs')
    (hxs : Child.AlikeAll .indented xs (cs'.filter Child.isSignificant)) :
    ∃ ds', WalksChildren d (pre ++ cs) k ds' ∧
      Child.AlikeAll .indented xs (ds'.filter Child.isSignificant) := by
  induction pre with
  | nil => exact ⟨cs', h, hxs⟩
  | cons c pre ih =>
    rw [List.forall_mem_cons] at hpre
    obtain ⟨ds', hwalks, hds⟩ := ih hpre.2
    cases c with
    | text t s => exact ⟨_, .text hwalks, Child.alikeAll_joinText_right hpre.1 hds⟩
    | container e =>
      cases e with
      | none => exact ⟨_, .empty hwalks, hds⟩
      | some e => cases hpre.1
    | element | fragment => cases hpre.1

/-- Nothing is joined to a text that counts where none touches it. -/
theorem WalksChildren.joinText_eq {d : Nat} {cs cs' : List Child} {k : Stats}
    (h : WalksChildren d cs k cs') (hcs : ∀ c ∈ cs.head?, c.isText = false) (t : String)
    (s : Span) : Child.joinText (.text t s) cs' = .text t s :: cs' := by
  cases h with
  | text => simp [Child.isText] at hcs
  | nil | empty | container | fragment | element | chain => rfl

theorem isParenthesizedArm_of_alike {e f : Expr} (h : Expr.Alike L e f) :
    isParenthesizedArm e = isParenthesizedArm f := by
  cases h with
  | element h => simp only [isParenthesizedArm, h.branch?_eq]
  | _ => rfl

theorem ArmLevel.of_alike {d da : Nat} {a b : Expr} (h : ArmLevel d a da)
    (hab : Expr.Alike L a b) : ArmLevel d b da := by
  have hparens := isParenthesizedArm_of_alike hab
  cases h with
  | bare ha => exact .bare (hparens ▸ ha)
  | parenthesized ha hd => exact .parenthesized (hparens ▸ ha) hd

/-! What is alike is walked alike. The trees that go in have lists in good shape on both sides or on
neither; of those that come out nothing is asked. -/

mutual

theorem Walks.of_alike {d e k e' f} : Walks d e k e' → Expr.Alike .shaped e f →
    ∃ f', Walks d f k f' ∧ Expr.Alike .indented e' f'
  | .literal, .literal => ⟨_, .literal, .literal⟩
  | .ident, .ident => ⟨_, .ident, .ident⟩
  | .member h, .member hf => by
    obtain ⟨f', hw, he⟩ := h.of_alike hf
    exact ⟨_, .member hw, .member he⟩
  | .call h hs, .call hf hfs => by
    obtain ⟨f', hw, he⟩ := h.of_alike hf
    obtain ⟨fs', hws, hes⟩ := hs.of_alike hfs
    exact ⟨_, .call hw hws, .call he hes⟩
  | .unary h, .unary hf => by
    obtain ⟨f', hw, he⟩ := h.of_alike hf
    exact ⟨_, .unary hw, .unary he⟩
  | .binary h h', .binary hf hf' => by
    obtain ⟨x, hw, he⟩ := h.of_alike hf
    obtain ⟨y, hw', he'⟩ := h'.of_alike hf'
    exact ⟨_, .binary hw hw', .binary he he'⟩
  | .conditional h hd hl h' hl' h'', .conditional hf hf' hf'' => by
    obtain ⟨x, hw, he⟩ := h.of_alike hf
    obtain ⟨y, hw', he'⟩ := h'.of_alike hf'
    obtain ⟨z, hw'', he''⟩ := h''.of_alike hf''
    exact ⟨_, .conditional hw hd (hl.of_alike hf') hw' (hl'.of_alike hf'') hw'',
      .conditional he he' he''⟩
  | .element hb h, .element hf => by
    rw [hf.branch?_eq] at hb
    obtain ⟨f', hw, he⟩ := h.of_alike hf
    exact ⟨_, .element hb hw, .element he⟩
  | .standalone hb hbuilt h, .element hf => by
    rw [hf.branch?_eq] at hb
    obtain ⟨built', hbuilt', hb'⟩ := Chain.build_of_alike hbuilt hf .nil
    obtain ⟨f', hw, he⟩ := h.of_alike hb'
    exact ⟨f', .standalone hb hbuilt' hw, he⟩
  | .fragment h, .fragment hf => by
    obtain ⟨f', hw, he⟩ := h.of_alike hf
    exact ⟨_, .fragment hw, .fragment he⟩

theorem WalksAll.of_alike {d es k es' fs} : WalksAll d es k es' → Expr.AlikeAll .shaped es fs →
    ∃ fs', WalksAll d fs k fs' ∧ Expr.AlikeAll .indented es' fs'
  | .nil, .nil => ⟨_, .nil, .nil⟩
  | .cons h hs, .cons hf hfs => by
    obtain ⟨f', hw, he⟩ := h.of_alike hf
    obtain ⟨fs', hws, hes⟩ := hs.of_alike hfs
    exact ⟨_, .cons hw hws, .cons he hes⟩

theorem WalksElement.of_alike {d e k e' f} : WalksElement d e k e' → Element.Alike .shaped e f →
    ∃ f', WalksElement d f k f' ∧ Element.Alike .indented e' f'
  | .mk hshape hd ha hc h, hf => by
    have hshape' := hf.checkElement hshape
    cases hf with
    | mk has hcs _ =>
      obtain ⟨as', hwas, has'⟩ := ha.of_alike has
      rw [Chain.checkElement_eq_ok, Chain.shapeDefect?_eq_none] at hshape
      have htexts := hshape'
      rw [Chain.checkElement_eq_ok, Chain.shapeDefect?_eq_none] at htexts
      obtain ⟨cs', hwcs, hcs'⟩ := h.of_alike hcs (Chain.parted_of_adjacentText? hshape.2.2)
        (Chain.parted_of_adjacentText? htexts.2.2)
      exact ⟨_, .mk hshape' hd hwas (Chain.check_of_alike_filter hcs hc) hwcs,
        .mk has' hcs' trivial⟩

theorem WalksFragment.of_alike {d f k f' g} : WalksFragment d f k f' →
    Fragment.Alike .shaped f g →
    ∃ g', WalksFragment d g k g' ∧ Fragment.Alike .indented f' g'
  | .mk hshape hd hc h, hg => by
    have hshape' := hg.checkFragment hshape
    cases hg with
    | mk hcs _ =>
      obtain ⟨cs', hwcs, hcs'⟩ := h.of_alike hcs
        (Chain.parted_of_adjacentText? (Chain.checkFragment_eq_ok.1 hshape))
        (Chain.parted_of_adjacentText? (Chain.checkFragment_eq_ok.1 hshape'))
      exact ⟨_, .mk hshape' hd (Chain.check_of_alike_filter hcs hc) hwcs, .mk hcs' trivial⟩

theorem WalksAttributes.of_alike {d as k as' bs} : WalksAttributes d as k as' →
    Attribute.AlikeAll .shaped as bs →
    ∃ bs', WalksAttributes d bs k bs' ∧ Attribute.AlikeAll .indented as' bs'
  | .nil, .nil => ⟨_, .nil, .nil⟩
  | .bare hs, .bare hbs => by
    obtain ⟨bs', hws, has⟩ := hs.of_alike hbs
    exact ⟨_, .bare hws, .bare has⟩
  | .valued h hs, .valued hb hbs => by
    obtain ⟨v', hw, hv⟩ := h.of_alike hb
    obtain ⟨bs', hws, has⟩ := hs.of_alike hbs
    exact ⟨_, .valued hw hws, .valued hv has⟩

theorem WalksValue.of_alike {d v k v' w} : WalksValue d v k v' → AttrValue.Alike .shaped v w →
    ∃ w', WalksValue d w k w' ∧ AttrValue.Alike .indented v' w'
  | .text, .text => ⟨_, .text, .text⟩
  | .empty, .empty => ⟨_, .empty, .empty⟩
  | .container h, .container hf => by
    obtain ⟨f', hw, he⟩ := h.of_alike hf
    exact ⟨_, .container hw, .container he⟩
  | .element hb h, .element hf => by
    rw [hf.branch?_eq] at hb
    obtain ⟨f', hw, he⟩ := h.of_alike hf
    exact ⟨_, .element hb hw, .element he⟩
  | .standalone hb hbuilt h, .element hf => by
    rw [hf.branch?_eq] at hb
    obtain ⟨built', hbuilt', hb'⟩ := Chain.build_of_alike hbuilt hf .nil
    obtain ⟨f', hw, he⟩ := h.of_alike hb'
    rw [hf.span_eq]
    exact ⟨_, .standalone hb hbuilt' hw, .container he⟩

theorem WalksChildren.of_alike {d cs k cs' ds} : WalksChildren d cs k cs' →
    Child.AlikeAll .shaped (cs.filter Child.isSignificant) (ds.filter Child.isSignificant) →
    Chain.Parted cs → Chain.Parted ds →
    ∃ ds', WalksChildren d ds k ds' ∧
      Child.AlikeAll .indented (cs'.filter Child.isSignificant) (ds'.filter Child.isSignificant)
  | .nil, hds, _, _ => by
    have hpre : ∀ c ∈ ds, c.isSignificant = false := by
      generalize hkept : ds.filter Child.isSignificant = kept at hds
      cases hds
      intro c hc
      exact Bool.eq_false_iff.2 (List.filter_eq_nil_iff.1 hkept c hc)
    have hwalks := WalksChildren.ignorable (d := d) hpre .nil Child.AlikeAll.nil
    rwa [List.append_nil] at hwalks
  | .text (t := t) (s := s) h, hds, hcs, hparted => by
    by_cases ht : (Child.text t s).isSignificant = true
    · rw [List.filter_cons_of_pos ht] at hds
      obtain ⟨pre, c, rest, rfl, hpre, hc, hsig, hrest⟩ := Child.exists_of_alikeAll_cons hds
      cases hc with
      | text htext =>
        cases htext
        have hc := hparted.of_append
        obtain ⟨ds', hw, hds'⟩ := h.of_alike hrest hcs.2 hc.2
        have hjoined := h.joinText_eq (hcs.1 rfl ht) t s
        have hjoined' := hw.joinText_eq (hc.1 rfl ht) t s
        apply WalksChildren.ignorable hpre (.text hw)
        rw [hjoined, hjoined', List.filter_cons_of_pos ht, List.filter_cons_of_pos ht]
        exact .cons (.text rfl) hds'
    · rw [List.filter_cons_of_neg ht] at hds
      obtain ⟨ds', hw, hds'⟩ := h.of_alike hds hcs.2 hparted
      exact ⟨ds', hw, Child.alikeAll_joinText_left (Bool.eq_false_iff.2 ht) hds'⟩
  | .empty h, hds, hcs, hparted => h.of_alike hds hcs.2 hparted
  | .container h hs, hds, hcs, hparted => by
    obtain ⟨pre, c, rest, rfl, hpre, hc, -, hrest⟩ := Child.exists_of_alikeAll_cons hds
    cases hc with
    | container hf =>
      obtain ⟨f', hw, he⟩ := h.of_alike hf
      obtain ⟨ds', hws, hds'⟩ := hs.of_alike hrest hcs.2 hparted.of_append.2
      exact WalksChildren.ignorable hpre (.container hw hws) (.cons (.container he) hds')
  | .fragment h hs, hds, hcs, hparted => by
    obtain ⟨pre, c, rest, rfl, hpre, hc, -, hrest⟩ := Child.exists_of_alikeAll_cons hds
    cases hc with
    | fragment hf =>
      obtain ⟨f', hw, he⟩ := h.of_alike hf
      obtain ⟨ds', hws, hds'⟩ := hs.of_alike hrest hcs.2 hparted.of_append.2
      exact WalksChildren.ignorable hpre (.fragment hw hws) (.cons (.fragment he) hds')
  | .element hb h hs, hds, hcs, hparted => by
    obtain ⟨pre, c, rest, rfl, hpre, hc, -, hrest⟩ := Child.exists_of_alikeAll_cons hds
    cases hc with
    | element hf =>
      rw [hf.branch?_eq] at hb
      obtain ⟨f', hw, he⟩ := h.of_alike hf
      obtain ⟨ds', hws, hds'⟩ := hs.of_alike hrest hcs.2 hparted.of_append.2
      exact WalksChildren.ignorable hpre (.element hb hw hws) (.cons (.element he) hds')
  | .chain hb hbuilt h hs, hds, hcs, hparted => by
    obtain ⟨pre, c, rest, rfl, hpre, hc, -, hrest⟩ := Child.exists_of_alikeAll_cons hds
    cases hc with
    | element hf =>
      obtain ⟨hlinks, hleft⟩ := Chain.takeLinks_of_alike hrest
      obtain ⟨built', hbuilt', hb'⟩ := Chain.build_of_alike hbuilt hf hlinks
      obtain ⟨f', hw, he⟩ := h.of_alike hb'
      obtain ⟨ds', hws, hds'⟩ := hs.of_alike hleft hcs.2.takeLinks hparted.of_append.2.takeLinks
      rw [hf.branch?_eq] at hb
      rw [hf.span_eq, hlinks.length_eq]
      exact WalksChildren.ignorable hpre (.chain hb hbuilt' hw hws) (.cons (.container he) hds')

end

theorem WalksStatement.of_alike {x k x' y} (h : WalksStatement x k x')
    (hxy : Statement.Alike .shaped x y) :
    ∃ y', WalksStatement y k y' ∧ Statement.Alike .indented x' y' := by
  cases h with
  | imports =>
    cases hxy
    exact ⟨_, .imports, .imports⟩
  | binding h =>
    cases hxy with
    | binding hf =>
      obtain ⟨f', hw, he⟩ := h.of_alike hf
      exact ⟨_, .binding hw, .binding he⟩
  | exportDefault h =>
    cases hxy with
    | exportDefault hf =>
      obtain ⟨f', hw, he⟩ := h.of_alike hf
      exact ⟨_, .exportDefault hw, .exportDefault he⟩
  | expr h =>
    cases hxy with
    | expr hf =>
      obtain ⟨f', hw, he⟩ := h.of_alike hf
      exact ⟨_, .expr hw, .expr he⟩

theorem isSentinelImport_of_alike {x y : Statement} (h : Statement.Alike L x y) :
    x.isSentinelImport = y.isSentinelImport := by
  cases h <;> rfl

theorem WalksStatements.of_alike {xs k xs'} (h : WalksStatements xs k xs')
    {ys : List (Spanned Statement)}
    (hxs : List.Forall₂ (fun s t => s.val.Alike .shaped t.val ∧ s.span = t.span) xs ys) :
    ∃ ys', WalksStatements ys k ys' ∧
      List.Forall₂ (fun s t => s.val.Alike .indented t.val ∧ s.span = t.span) xs' ys' := by
  induction h generalizing ys with
  | nil =>
    cases hxs
    exact ⟨_, .nil, .nil⟩
  | removed hx _ ih =>
    cases hxs with
    | cons hxy hxs =>
      obtain ⟨ys', hw, hys⟩ := ih hxs
      rw [isSentinelImport_of_alike hxy.1] at hx
      exact ⟨ys', .removed hx hw, hys⟩
  | kept hx h _ ih =>
    cases hxs with
    | cons hxy hxs =>
      obtain ⟨y', hw, hy⟩ := h.of_alike hxy.1
      obtain ⟨ys', hws, hys⟩ := ih hxs
      rw [isSentinelImport_of_alike hxy.1] at hx
      exact ⟨_, .kept hx hw hws, .cons ⟨hy, hxy.2⟩ hys⟩

end Rewrite

namespace Program

/-- What succeeds on one of two programs that are alike does on the other. -/
theorem Alike.rewrite {p q p' : Program} {counted : Stats} (h : p.Alike .shaped q)
    (hp : p.rewrite = .ok (p', counted)) :
    ∃ q', q.rewrite = .ok (q', counted) ∧ p'.Alike .indented q' := by
  rw [rewrite_eq_ok_iff] at hp
  obtain ⟨ys, hw, hys⟩ := hp.2.of_alike h.statements
  refine ⟨{ q with statements := ys }, rewrite_eq_ok_iff.2 ⟨rfl, hw⟩, ?_⟩
  rw [hp.1]
  exact ⟨h.name, h.comments, hys⟩

/-- Ignorable children do not matter. Of two programs that differ in nothing else, both without texts
that touch and without children of what closes itself, a rewrite takes both or neither. It counts
the same, what it leaves differs in nothing but ignorable children and the blanks that texts begin
with, and so do the conditionals it made, one for one. -/
theorem rewrite_of_alike {p q : Program} (h : p.Alike .inserted q) (hp : p.Shapely)
    (hq : q.Shapely) :
    ((∃ r, p.rewrite = .ok r) ↔ ∃ r, q.rewrite = .ok r) ∧
      ∀ p' q' counted counted', p.rewrite = .ok (p', counted) → q.rewrite = .ok (q', counted') →
        counted = counted' ∧ p'.Alike .indented q' ∧
          List.Forall₂ (Expr.Alike .indented) p'.conditionals q'.conditionals := by
  constructor
  · constructor
    · rintro ⟨⟨p', counted⟩, hr⟩
      obtain ⟨q', hq', -⟩ := (h.shaped hp hq).rewrite hr
      exact ⟨_, hq'⟩
    · rintro ⟨⟨q', counted⟩, hr⟩
      obtain ⟨p', hp', -⟩ := (h.symm.shaped hq hp).rewrite hr
      exact ⟨_, hp'⟩
  · intro p' q' counted counted' hp' hq'
    obtain ⟨r, hr, halike⟩ := (h.shaped hp hq).rewrite hp'
    rw [hr] at hq'
    cases hq'
    exact ⟨rfl, halike, halike.conditionals⟩

/-- A chain and a text behind it, with `inside` in the body of the first link and `between` before
the second. -/
def spacedSample (inside between : List Child) : Program :=
  let tested : Attribute :=
    ⟨⟨conditionName, .zero⟩, some (.container (some (.ident "a" .zero)) .zero), .zero⟩
  let first : Element := ⟨⟨"If", .zero⟩, [tested], inside ++ [.text "x" .zero], false, .zero⟩
  let last : Element := ⟨⟨"Else", .zero⟩, [], [.text "y" .zero], false, .zero⟩
  ⟨"a.jsx", [⟨.expr (.fragment ⟨.element first :: between ++ [.element last, .text "z" .zero], none,
    .zero⟩), .zero⟩], []⟩

/-- A comment in the body, and a line break that comes to stand before the text. -/
theorem rewrite_of_alike_spaced :
    ∃ p q, (spacedSample [.container none .zero] [.text "\n" .zero]).rewrite = .ok (p, ⟨1, 1, 0⟩) ∧
      (spacedSample [] []).rewrite = .ok (q, ⟨1, 1, 0⟩) ∧ p.Alike .indented q := by
  have hrun : (spacedSample [.container none .zero] [.text "\n" .zero]).rewrite.toOption.any
      (·.2 = ⟨1, 1, 0⟩) = true := by cbv
  have hrun' : (spacedSample [] []).rewrite.toOption.any (·.2 = ⟨1, 1, 0⟩) = true := by cbv
  have halike : (spacedSample [.container none .zero] [.text "\n" .zero]).Alike .inserted
      (spacedSample [] []) := by
    refine ⟨rfl, rfl, .cons ⟨.expr (.fragment (.mk ?_ trivial)), rfl⟩ .nil⟩
    have hattrs := Attribute.AlikeAll.valued (n := ⟨conditionName, .zero⟩) (s := .zero)
      (AttrValue.Alike.container (s := .zero) (Expr.Alike.ident (L := .inserted) (n := "a")
        (s := .zero))) .nil
    refine .cons (.element (.mk hattrs (.cons (.text rfl) .nil) trivial)) ?_
    refine .cons (.element (.mk .nil (.cons (.text rfl) .nil) trivial)) ?_
    exact .cons (.text rfl) .nil
  have hshapely : (spacedSample [.container none .zero] [.text "\n" .zero]).Shapely ∧
      (spacedSample [] []).Shapely := by
    constructor <;>
    · rw [shapely_iff]
      simp only [spacedSample, List.forall_mem_singleton]
      rintro e ⟨⟩
      rw [TreeNode.AllShapely, TreeNode.throughout_iff_all]
      simp [TreeNode.all_eq, TreeNode.parts, TreeNode.Shapely, Chain.adjacentText?,
        -List.mem_flatMap]
  obtain ⟨⟨p, counted⟩, hp, hcounted⟩ := exists_ok_of_any hrun
  obtain ⟨⟨q, counted'⟩, hq, hcounted'⟩ := exists_ok_of_any hrun'
  obtain rfl := of_decide_eq_true hcounted
  obtain rfl := of_decide_eq_true hcounted'
  refine ⟨p, q, hp, hq, ?_⟩
  exact ((rewrite_of_alike halike hshapely.1 hshapely.2).2 p q _ _ hp hq).2.1

end Program
end BranchMarkup
