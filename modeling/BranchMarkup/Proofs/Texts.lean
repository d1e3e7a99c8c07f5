import BranchMarkup.Proofs.Legible
import BranchMarkup.Proofs.Tidy
import BranchMarkup.Proofs.Walk
/-! The texts that meet because links between them are gone: which they are, and how the text they
become shows. -/
namespace BranchMarkup

/-- The texts that stand side by side, before and after every other child. -/
def Child.textRuns : List Child → List (List String)
  | [] => [[]]
  | .text s _ :: cs => (textRuns cs).modifyHead (s :: ·)
  | _ :: cs => [] :: textRuns cs

/-- A run of texts as one text. -/
def Child.joined : List String → List String
  | [] => []
  | run => [String.join run]

theorem Child.branch?_of_ne_element {c : Child} (h : ∀ e, c ≠ .element e) : c.branch? = none := by
  cases c with
  | element e => exact absurd rfl (h e)
  | _ => rfl

namespace Chain

/-- The siblings without the links that chains take from them. A chain is open from its first link
on, past what is ignorable. -/
def withoutLinks (isOpen : Bool) : List Child → List Child
  | [] => []
  | c :: cs =>
    match c.branch? with
    | none => c :: withoutLinks (isOpen && !c.isSignificant) cs
    | some .when => c :: withoutLinks true cs
    | some .elseWhen => if isOpen then withoutLinks true cs else c :: withoutLinks false cs
    | some .otherwise => if isOpen then withoutLinks false cs else c :: withoutLinks false cs

theorem withoutLinks_of_branch? {c : Child} (h : c.branch? = none) (isOpen : Bool) (cs : List Child) :
    withoutLinks isOpen (c :: cs) = c :: withoutLinks (isOpen && !c.isSignificant) cs := by
  rw [withoutLinks, h]

theorem withoutLinks_takeLinks (cs : List Child) :
    withoutLinks true cs = withoutLinks false (takeLinks cs).2 := by
  fun_induction takeLinks cs with
  | case1 => rfl
  | case2 e cs h links left heq ih =>
    rw [heq] at ih
    rw [withoutLinks, show (Child.element e).branch? = _ from h]
    exact ih
  | case3 e cs h =>
    rw [withoutLinks, show (Child.element e).branch? = _ from h]
    rfl
  | case4 e cs h1 h2 =>
    rw [withoutLinks, withoutLinks]
    cases hb : (Child.element e).branch? with
    | none => rfl
    | some b =>
      cases b with
      | when => rfl
      | elseWhen => exact absurd hb h1
      | otherwise => exact absurd hb h2
  | case5 c cs hne h =>
    have hb := Child.branch?_of_ne_element hne
    rw [withoutLinks_of_branch? hb, withoutLinks_of_branch? hb, h]
    rfl
  | case6 c cs hne h links left heq ih =>
    rw [heq] at ih
    have hb := Child.branch?_of_ne_element hne
    have hblank : c.isSignificant = false := by simpa using h
    rw [withoutLinks_of_branch? hb, withoutLinks_of_branch? hb, hblank]
    exact congrArg _ ih

theorem head?_withoutLinks (cs : List Child) : (withoutLinks false cs).head? = cs.head? := by
  cases cs with
  | nil => rfl
  | cons c cs =>
    rw [withoutLinks]
    split <;> rfl

end Chain

namespace Child

theorem textRuns_cons {c : Child} (h : c.isText = false) (cs : List Child) :
    textRuns (c :: cs) = [] :: textRuns cs := by
  cases c with
  | text => cases h
  | _ => rfl

theorem textRuns_ne_nil (cs : List Child) : textRuns cs ≠ [] := by
  induction cs with
  | nil => exact List.cons_ne_nil _ _
  | cons c cs ih =>
    cases c with
    | text s span =>
      rw [textRuns, ne_eq, List.modifyHead_eq_nil_iff]
      exact ih
    | _ => exact List.cons_ne_nil _ _

theorem head?_textRuns {cs : List Child} (h : ∀ c ∈ cs.head?, c.isText = false) :
    (textRuns cs).head? = some [] := by
  cases cs with
  | nil => rfl
  | cons c cs =>
    rw [textRuns_cons (h c rfl)]
    rfl

theorem textRuns_joinText {s : String} {span : Span} {cs : List Child} {runs : List (List String)}
    (h : textRuns cs = runs.map joined) :
    textRuns (joinText (.text s span) cs) = (runs.modifyHead (s :: ·)).map joined := by
  cases runs with
  | nil => exact absurd h (textRuns_ne_nil cs)
  | cons run runs =>
    by_cases htext : ∀ c ∈ cs.head?, c.isText = false
    · have hfirst := head?_textRuns htext
      have hcons : joinText (.text s span) cs = .text s span :: cs := by
        unfold joinText
        split
        · cases htext _ rfl
        · rfl
      rw [h, List.map_cons, List.head?_cons, Option.some.injEq] at hfirst
      obtain rfl : run = [] := by
        cases run with
        | nil => rfl
        | cons t run => cases hfirst
      rw [hcons, textRuns, h]
      simp [joined, String.join_cons]
    · cases cs with
      | nil => exact absurd nofun htext
      | cons c cs =>
        cases c with
        | text b t =>
          obtain ⟨first, rest, hrest⟩ := List.exists_cons_of_ne_nil (textRuns_ne_nil cs)
          simp only [joinText, textRuns, hrest, List.modifyHead_cons, List.map_cons,
            List.cons.injEq] at h ⊢
          obtain ⟨h, hruns⟩ := h
          refine ⟨?_, hruns⟩
          cases run with
          | nil => cases h
          | cons r run =>
            simp only [joined, List.cons.injEq] at h
            simp only [joined, h, String.join_cons]
        | _ => exact absurd (by rintro c ⟨⟩; rfl) htext

/-- No text but the last of a run has more than blanks, where texts meet for want of links only. -/
theorem blank_of_textRuns {cs : List Child} (h : Chain.adjacentText? cs = none) (isOpen : Bool) :
    ∀ run ∈ textRuns (Chain.withoutLinks isOpen cs), ∀ t ∈ run.dropLast,
      t.toList.all Text.isBlank = true := by
  induction cs generalizing isOpen with
  | nil => simp [Chain.withoutLinks, textRuns]
  | cons c cs ih =>
    rw [Chain.adjacentText?_cons_eq_none] at h
    have ih := ih h.2
    cases c with
    | text s span =>
      rw [Chain.withoutLinks_of_branch? rfl, textRuns]
      have ih := ih (isOpen && !(text s span).isSignificant)
      obtain ⟨run, runs, hruns⟩ := List.exists_cons_of_ne_nil
        (textRuns_ne_nil (Chain.withoutLinks (isOpen && !(text s span).isSignificant) cs))
      rw [hruns, List.forall_mem_cons] at ih
      rw [hruns, List.modifyHead_cons, List.forall_mem_cons]
      refine ⟨?_, ih.2⟩
      cases run with
      | nil => simp
      | cons t run =>
        rw [List.dropLast_cons_cons, List.forall_mem_cons]
        refine ⟨?_, ih.1⟩
        by_contra hink
        -- The text counts, so the chain is closed and the next sibling stays: it is no text.
        have hsignificant : (text s span).isSignificant = true := by simpa [isSignificant] using hink
        have hfirst : (textRuns (Chain.withoutLinks false cs)).head? = some [] := by
          apply head?_textRuns
          rw [Chain.head?_withoutLinks]
          exact h.1 rfl
        rw [hsignificant, Bool.not_true, Bool.and_false] at hruns
        rw [hruns] at hfirst
        cases hfirst
    | container e span =>
      rw [Chain.withoutLinks_of_branch? rfl, textRuns_cons rfl, List.forall_mem_cons]
      exact ⟨by simp, ih _⟩
    | element e =>
      have hcons (isOpen : Bool) : ∀ run ∈ textRuns (.element e :: Chain.withoutLinks isOpen cs),
          ∀ t ∈ run.dropLast, t.toList.all Text.isBlank = true := by
        rw [textRuns_cons rfl, List.forall_mem_cons]
        exact ⟨by simp, ih _⟩
      rw [Chain.withoutLinks]
      split
      · exact hcons _
      · exact hcons _
      · split
        · exact ih _
        · exact hcons _
      · split
        · exact ih _
        · exact hcons _
    | fragment f =>
      rw [Chain.withoutLinks_of_branch? rfl, textRuns_cons rfl, List.forall_mem_cons]
      exact ⟨by simp, ih _⟩

end Child

namespace Rewrite

theorem WalksChildren.textRuns_eq {d cs k cs'} (h : WalksChildren d cs k cs') :
    Child.textRuns cs' = (Child.textRuns (Chain.withoutLinks false cs)).map Child.joined := by
  -- After a chain comes what it leaves of its siblings, so the induction is on their weight.
  induction hweight : Child.weightAll cs using Nat.strong_induction_on generalizing cs k cs' with
  | _ n ih =>
    subst hweight
    have hlt (c : Child) (cs : List Child) : Child.weightAll cs < Child.weightAll (c :: cs) := by
      simp only [Child.weightAll]
      omega
    cases h with
    | nil => rfl
    | text h =>
      rw [Chain.withoutLinks_of_branch? rfl]
      exact Child.textRuns_joinText (ih _ (hlt ..) h rfl)
    | empty h | container _ h | fragment _ h =>
      rw [Chain.withoutLinks_of_branch? rfl, Child.textRuns_cons rfl, Child.textRuns_cons rfl,
        ih _ (hlt ..) h rfl]
      rfl
    | @element _ e _ _ _ _ _ hb _ h =>
      rw [Chain.withoutLinks_of_branch? (show (Child.element e).branch? = none from hb),
        Child.textRuns_cons rfl, Child.textRuns_cons rfl, ih _ (hlt ..) h rfl]
      rfl
    | @chain _ e cs _ _ _ _ _ hb _ _ h =>
      have htaken := Chain.weight_takeLinks cs
      have hleft := ih _ (by have := hlt (.element e) cs; omega) h rfl
      rw [Chain.withoutLinks, show (Child.element e).branch? = some .when from hb]
      simp only [Chain.withoutLinks_takeLinks]
      rw [Child.textRuns_cons rfl, Child.textRuns_cons rfl, hleft]
      rfl

/-- Wherever texts of a child list meet because a walk takes the links between them, the result has
them as one text, and at no other place. That text shows the ink that each of them shows, in order.
If the list had no two texts that touch, all of them but the last are ignorable, and it shows the
words that each of them shows. Where those before the last are indents, it shows as they do side by
side if the last begins flush, and else it does not. -/
theorem texts_of_walkChildren {d : Nat} {cs cs' : List Child} {counted counted' : Stats}
    (h : walkChildren d cs counted = .ok (cs', counted')) :
    Child.textRuns cs' = (Child.textRuns (Chain.withoutLinks false cs)).map Child.joined ∧
      ∀ earlier last, earlier ++ [last] ∈ Child.textRuns (Chain.withoutLinks false cs) →
        Text.ink (Text.tidied (String.join (earlier ++ [last])).toList) =
          (earlier ++ [last]).flatMap (fun t => Text.ink (Text.tidied t.toList)) ∧
        (Chain.adjacentText? cs = none →
          (∀ t ∈ earlier, t.toList.all Text.isBlank = true) ∧
          Text.words (Text.tidied (String.join (earlier ++ [last])).toList) =
            (earlier ++ [last]).flatMap fun t => Text.words (Text.tidied t.toList)) ∧
        (earlier ≠ [] → (∀ t ∈ earlier, Text.IsIndent t.toList) →
          (Text.tidied (String.join (earlier ++ [last])).toList =
              (earlier ++ [last]).flatMap (fun t => Text.tidied t.toList) ↔
            Text.BeginsFlush last.toList)) := by
  obtain ⟨k, hw, -⟩ := walksChildren_of_walkChildren h
  refine ⟨hw.textRuns_eq, fun earlier last hrun =>
    ⟨Text.ink_tidied_join _, fun hshape => ?_, Text.tidied_join_eq_iff⟩⟩
  have hblank := Child.blank_of_textRuns hshape false _ hrun
  rw [List.dropLast_concat] at hblank
  exact ⟨hblank, Text.words_tidied_join hblank⟩

/-- `<If condition={a}>x</If>`, a line break, `<Else>y</Else>`, and a text after that. -/
def tailChildren (tail : String) : List Child :=
  let named (s : String) : Spanned String := ⟨s, .zero⟩
  let first : Element := ⟨named "If",
    [⟨named conditionName, some (.container (some (.ident "a" .zero)) .zero), .zero⟩],
    [.text "x" .zero], false, .zero⟩
  let last : Element := ⟨named "Else", [], [.text "y" .zero], false, .zero⟩
  [.element first, .text "\n" .zero, .element last, .text tail .zero]

theorem texts_of_walkChildren_indented :
    ∃ cs' counted, walkChildren 0 (tailChildren "\n  tail") .zero = .ok (cs', counted) ∧
      Child.textRuns cs' = [[], ["\n\n  tail"]] ∧
      Text.tidied "\n\n  tail".toList =
        Text.tidied "\n".toList ++ Text.tidied "\n  tail".toList := by
  have hsome : (walkChildren 0 (tailChildren "\n  tail") .zero).toOption.isSome = true := by
    decide +kernel
  cases h : walkChildren 0 (tailChildren "\n  tail") .zero with
  | error => simp [h, Except.toOption] at hsome
  | ok r =>
    obtain ⟨cs', counted⟩ := r
    have hruns : Child.textRuns (Chain.withoutLinks false (tailChildren "\n  tail")) =
        [[], ["\n", "\n  tail"]] := by decide +kernel
    obtain ⟨hjoined, htexts⟩ := texts_of_walkChildren h
    rw [hruns] at hjoined htexts
    have hindent : Text.IsIndent "\n".toList := ⟨[], [], rfl, List.forall_mem_nil _, List.forall_mem_nil _⟩
    have hflush : Text.BeginsFlush "\n  tail".toList := .inr ⟨[], _, rfl, rfl⟩
    have hshows := ((htexts ["\n"] "\n  tail" (by simp)).2.2 (List.cons_ne_nil _ _)
      (List.forall_mem_singleton.2 hindent)).2 hflush
    exact ⟨cs', counted, rfl, hjoined.trans (by decide +kernel), hshows⟩

/-- The space before a tail on the line of the last link shows as long as the tail is a text of its
own. -/
theorem tidied_of_walkChildren_ne :
    ¬ ∀ (d : Nat) (cs cs' : List Child) (counted counted' : Stats),
      Chain.adjacentText? cs = none → Chain.check none cs = .ok () →
        walkChildren d cs counted = .ok (cs', counted') →
          ∀ run ∈ Child.textRuns (Chain.withoutLinks false cs),
            Text.tidied (String.join run).toList = run.flatMap fun t => Text.tidied t.toList := by
  intro hall
  have hsome : (walkChildren 0 (tailChildren " tail") .zero).toOption.isSome = true := by
    decide +kernel
  cases h : walkChildren 0 (tailChildren " tail") .zero with
  | error => simp [h, Except.toOption] at hsome
  | ok r =>
    have hrun : ["\n", " tail"] ∈
        Child.textRuns (Chain.withoutLinks false (tailChildren " tail")) := by decide +kernel
    have heq := hall 0 _ r.1 .zero r.2 rfl rfl h _ hrun
    exact absurd heq (by decide +kernel)

end Rewrite
end BranchMarkup
