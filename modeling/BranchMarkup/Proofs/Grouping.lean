import Mathlib.Computability.Language
import BranchMarkup.Proofs.Walk
import BranchMarkup.Proofs.Building
/-! What is checked of a child list and what a walk takes for its chains are the same: one language
of the kinds of its significant children. The check scans the list once; the walk goes from chain to
chain, and takes the links of each out of the children that follow. -/
namespace BranchMarkup

namespace Child

/-- Stands only after an element that opens a chain. -/
def continues (c : Child) : Bool := c.branch?.any Branch.continues

def link? (c : Child) : Option Element := c.element?.filter (·.branch?.isSome)

theorem branch?_eq_none {c : Child} (h : ∀ e, c ≠ .element e) : c.branch? = none := by
  cases c with
  | element e => exact absurd rfl (h e)
  | _ => rfl

end Child

namespace Chain

open Computability

/-- The kinds of the significant children, one after another; `none` is a child of no chain. -/
def word (cs : List Child) : List (Option Branch) :=
  (cs.filter Child.isSignificant).map Child.branch?

/-- The links after one that opens a chain: `ElseIf* Else?`. -/
def continuations : Language (Option Branch) := {[some .elseWhen]}∗ * (1 + {[some .otherwise]})

/-- The child lists that can be rewritten: `(Other | If ElseIf* Else?)*`. -/
def chains : Language (Option Branch) := ({[none]} + {[some .when]} * continuations)∗

def afterTest : Language (Option Branch) := continuations * chains

/-! The languages by their first letter -/

section
variable {k : Option Branch} {w : List (Option Branch)}

theorem cons_mem_singleton_mul {l : Language (Option Branch)} {j : Option Branch} :
    k :: w ∈ ({[j]} : Language (Option Branch)) * l ↔ k = j ∧ w ∈ l := by
  rw [Language.mem_mul]
  constructor
  · rintro ⟨_, rfl, v, hv, h⟩
    cases h
    exact ⟨rfl, hv⟩
  · rintro ⟨rfl, hw⟩
    exact ⟨[k], rfl, w, hw, rfl⟩

theorem chains_eq : chains = 1 + {[none]} * chains + {[some .when]} * afterTest := by
  conv_lhs => rw [chains, ← Language.one_add_self_mul_kstar_eq_kstar, ← chains]
  rw [add_mul, mul_assoc, add_assoc, afterTest]

theorem afterTest_eq :
    afterTest = chains + {[some .otherwise]} * chains + {[some .elseWhen]} * afterTest := by
  calc afterTest = (1 + {[some .elseWhen]} * {[some .elseWhen]}∗) *
        (1 + {[some .otherwise]}) * chains := by
        rw [afterTest, continuations, Language.one_add_self_mul_kstar_eq_kstar]
    _ = (1 + {[some .otherwise]}) * chains + {[some .elseWhen]} * afterTest := by
        rw [add_mul, add_mul, one_mul, afterTest, continuations]
        simp only [mul_assoc]
    _ = _ := by rw [add_mul, one_mul]

theorem nil_mem_chains : [] ∈ chains := Language.nil_mem_kstar _

theorem cons_mem_chains :
    k :: w ∈ chains ↔ k = none ∧ w ∈ chains ∨ k = some .when ∧ w ∈ afterTest := by
  conv_lhs => rw [chains_eq]
  simp only [Language.mem_add, cons_mem_singleton_mul, Language.mem_one, reduceCtorEq, false_or]

theorem cons_mem_afterTest :
    k :: w ∈ afterTest ↔
      k :: w ∈ chains ∨ k = some .otherwise ∧ w ∈ chains ∨ k = some .elseWhen ∧ w ∈ afterTest := by
  conv_lhs => rw [afterTest_eq]
  simp only [Language.mem_add, cons_mem_singleton_mul, or_assoc]

theorem nil_mem_afterTest : [] ∈ afterTest := by
  rw [afterTest_eq]
  exact .inl (.inl nil_mem_chains)

end

/-! The check -/

def following (last : Option Branch) : Language (Option Branch) :=
  if last.any Branch.tests then afterTest else chains

@[simp] theorem word_nil : word [] = [] := rfl

theorem word_cons (c : Child) (cs : List Child) :
    word (c :: cs) = if c.isSignificant then c.branch? :: word cs else word cs := by
  unfold word
  split <;> simp_all

theorem nil_mem_following (last : Option Branch) : [] ∈ following last := by
  unfold following
  split
  · exact nil_mem_afterTest
  · exact nil_mem_chains

theorem none_cons_mem_following {last : Option Branch} {w : List (Option Branch)} :
    none :: w ∈ following last ↔ w ∈ following none := by
  unfold following
  split <;> simp [cons_mem_afterTest, cons_mem_chains]

theorem some_cons_mem_following {last : Option Branch} {b : Branch} {w : List (Option Branch)} :
    some b :: w ∈ following last ↔
      (b.continues = true → last.any Branch.tests = true) ∧ w ∈ following (some b) := by
  unfold following
  cases b <;> split <;>
    simp_all [cons_mem_afterTest, cons_mem_chains, Branch.continues, Branch.tests]

theorem word_cons_mem_of_none {last : Option Branch} {c : Child} {cs : List Child}
    (hc : c.branch? = none) : word (c :: cs) ∈ following last ↔
      word cs ∈ following (if c.isSignificant then none else last) := by
  rw [word_cons]
  split
  · rw [hc, none_cons_mem_following]
  · rfl

theorem word_cons_mem_of_some {last : Option Branch} {c : Child} {b : Branch} {cs : List Child}
    (hc : c.branch? = some b) : word (c :: cs) ∈ following last ↔
      (b.continues = true → last.any Branch.tests = true) ∧ word cs ∈ following (some b) := by
  rw [word_cons, if_pos (Child.isSignificant_of_branch? hc), hc, some_cons_mem_following]

theorem check_eq_ok_iff {last : Option Branch} {cs : List Child} :
    check last cs = .ok () ↔ word cs ∈ following last := by
  induction cs generalizing last with
  | nil => simp [check, nil_mem_following]
  | cons c cs ih =>
    rw [check]
    split
    · next hc => rw [ih, word_cons_mem_of_none hc]
    · next b hc =>
      rw [word_cons_mem_of_some hc]
      split
      · next hstray => simp_all
      · next hanchored =>
        rw [ih]
        exact (and_iff_right (by simpa using hanchored)).symm

theorem word_mem_of_append {last : Option Branch} {cs ds : List Child}
    (h : word (cs ++ ds) ∈ following last) : word cs ∈ following last := by
  induction cs generalizing last with
  | nil => exact nil_mem_following last
  | cons c cs ih =>
    rw [List.cons_append] at h
    cases hc : c.branch? with
    | none =>
      rw [word_cons_mem_of_none hc] at h ⊢
      exact ih h
    | some b =>
      rw [word_cons_mem_of_some hc] at h ⊢
      exact ⟨h.1, ih h.2⟩

/-- `c` is the leftmost child that cannot stand where it does: up to it the list is in order. -/
structure Breaks (last : Option Branch) (cs before : List Child) (c : Child) : Prop where
  prefix_eq : before ++ [c] <+: cs
  before_mem : word before ∈ following last
  not_mem : word (before ++ [c]) ∉ following last

theorem Breaks.cons {last last' : Option Branch} {c' c : Child} {cs before : List Child}
    (h : Breaks last' cs before c)
    (hstep : ∀ ds, word (c' :: ds) ∈ following last ↔ word ds ∈ following last') :
    Breaks last (c' :: cs) (c' :: before) c where
  prefix_eq := List.cons_prefix_cons.2 ⟨rfl, h.prefix_eq⟩
  before_mem := (hstep _).2 h.before_mem
  not_mem := mt (hstep _).1 h.not_mem

theorem Breaks.not_prefix {last : Option Branch} {cs before before' : List Child} {c c' : Child}
    (h : Breaks last cs before c) (h' : Breaks last cs before' c') : ¬ before ++ [c] <+: before' := by
  rintro ⟨between, rfl⟩
  exact h.not_mem (word_mem_of_append h'.before_mem)

theorem Breaks.unique {last : Option Branch} {cs before before' : List Child} {c c' : Child}
    (h : Breaks last cs before c) (h' : Breaks last cs before' c') : c = c' := by
  rcases List.prefix_or_prefix_of_prefix h.prefix_eq h'.prefix_eq with hle | hle
  · rcases List.prefix_concat_iff.1 hle with heq | hle
    · exact (List.append_inj' heq rfl).2 |> List.singleton_inj.1
    · exact absurd hle (h.not_prefix h')
  · rcases List.prefix_concat_iff.1 hle with heq | hle
    · exact (List.append_inj' heq rfl).2 |> List.singleton_inj.1 |>.symm
    · exact absurd hle (h'.not_prefix h)

theorem breaks_of_check {last : Option Branch} {cs : List Child} {x : RewriteError}
    (h : check last cs = .error x) : ∃ before c b, Breaks last cs before c ∧ c.branch? = some b ∧
      x = ⟨.orphaned b, c.span, some c.excerpt, none⟩ := by
  induction cs generalizing last with
  | nil => cases h
  | cons c cs ih =>
    rw [check] at h
    split at h
    · next hc =>
      obtain ⟨before, d, b, hbreaks, hx⟩ := ih h
      exact ⟨c :: before, d, b, hbreaks.cons fun ds => word_cons_mem_of_none hc, hx⟩
    · next b hc =>
      split at h
      · next hstray =>
        cases h
        refine ⟨[], c, b, ⟨⟨cs, rfl⟩, nil_mem_following last, ?_⟩, hc, rfl⟩
        rw [List.nil_append, word_cons_mem_of_some hc]
        simp_all
      · next hanchored =>
        obtain ⟨before, d, b', hbreaks, hx⟩ := ih h
        refine ⟨c :: before, d, b', hbreaks.cons fun ds => ?_, hx⟩
        rw [word_cons_mem_of_some hc]
        exact and_iff_right (by simpa using hanchored)

/-- The check fails for the leftmost child that cannot stand where it does, and for that only. -/
theorem check_eq_error_iff {last : Option Branch} {cs : List Child} {x : RewriteError} :
    check last cs = .error x ↔ ∃ before c b, Breaks last cs before c ∧ c.branch? = some b ∧
      x = ⟨.orphaned b, c.span, some c.excerpt, none⟩ := by
  refine ⟨breaks_of_check, ?_⟩
  rintro ⟨before, c, b, h, hb, rfl⟩
  cases hcheck : check last cs with
  | ok =>
    obtain ⟨after, rfl⟩ := h.prefix_eq
    exact absurd (word_mem_of_append (check_eq_ok_iff.1 hcheck)) h.not_mem
  | error y =>
    obtain ⟨before', c', b', h', hb', rfl⟩ := breaks_of_check hcheck
    cases h.unique h'
    cases hb.symm.trans hb'
    rfl

/-! The walk -/

/-- What a walk comes to in a child list. -/
inductive Group where
  /-- A child that is walked by itself and stays where it is. -/
  | other (c : Child)
  /-- An element that opens a chain, and the links taken with it. -/
  | chain (e : Element) (links : List Element)
  /-- A continuation that no chain has taken. -/
  | stray (b : Branch) (e : Element)

theorem length_takeLinks (cs : List Child) : (takeLinks cs).2.length ≤ cs.length := by
  fun_induction takeLinks cs <;> simp_all
  omega

/-- The groups that a walk comes to, from left to right. It ends where one is a stray. -/
def groups : List Child → List Group
  | [] => []
  | .text s span :: cs => .other (.text s span) :: groups cs
  | .container e span :: cs => .other (.container e span) :: groups cs
  | .fragment f :: cs => .other (.fragment f) :: groups cs
  | .element e :: cs =>
    match e.branch? with
    | none => .other (.element e) :: groups cs
    | some .when => .chain e (takeLinks cs).1 :: groups (takeLinks cs).2
    | some b => [.stray b e]
termination_by cs => cs.length
decreasing_by
  all_goals simp only [List.length_cons]
  all_goals first
    | omega
    | exact Nat.lt_succ_of_le (length_takeLinks cs)

/-- The longest run `ElseIf* Else?` of elements at the head of a list. -/
def run (cs : List Child) : List Element :=
  (cs.takeWhile (·.branch? = some .elseWhen) ++
    (cs.dropWhile (·.branch? = some .elseWhen)).head?.toList.filter
      (·.branch? = some .otherwise)).filterMap Child.element?

section
variable {e : Element} (cs : List Child)

theorem run_elseWhen (he : e.branch? = some .elseWhen) : run (.element e :: cs) = e :: run cs := by
  have hc : (Child.element e).branch? = some .elseWhen := he
  unfold run
  rw [List.takeWhile_cons_of_pos (by simpa using hc), List.dropWhile_cons_of_pos (by simpa using hc)]
  rfl

theorem run_otherwise (he : e.branch? = some .otherwise) : run (.element e :: cs) = [e] := by
  have hc : (Child.element e).branch? = some .otherwise := he
  unfold run
  rw [List.takeWhile_cons_of_neg (by simp [hc]), List.dropWhile_cons_of_neg (by simp [hc])]
  simp [hc, Child.element?]

theorem run_other {c : Child} (h : ∀ b, c.branch? = some b → b = .when) : run (c :: cs) = [] := by
  have hnext : c.branch? ≠ some .elseWhen := fun hb => nomatch h _ hb
  have hlast : c.branch? ≠ some .otherwise := fun hb => nomatch h _ hb
  unfold run
  rw [List.takeWhile_cons_of_neg (by simp [hnext]), List.dropWhile_cons_of_neg (by simp [hnext])]
  simp [hlast]

end

theorem eq_when_of_not_link {e : Element} (hnext : e.branch? ≠ some .elseWhen)
    (hlast : e.branch? ≠ some .otherwise) : ∀ b, e.branch? = some b → b = .when := by
  rintro (_ | _ | _) hb
  · rfl
  · exact absurd hb hnext
  · exact absurd hb hlast

theorem takeLinks_fst (cs : List Child) :
    (takeLinks cs).1 = run (cs.filter Child.isSignificant) := by
  fun_induction takeLinks cs with
  | case1 => rfl
  | case2 e cs he links left heq ih =>
    rw [heq] at ih
    rw [List.filter_cons_of_pos rfl, run_elseWhen _ he, ← ih]
  | case3 e cs he => rw [List.filter_cons_of_pos rfl, run_otherwise _ he]
  | case4 e cs hnext hlast =>
    have hother : ∀ b, (Child.element e).branch? = some b → b = .when :=
      eq_when_of_not_link hnext hlast
    rw [List.filter_cons_of_pos rfl, run_other _ hother]
  | case5 c cs hne hc =>
    rw [List.filter_cons_of_pos hc, run_other _ (by simp [Child.branch?_eq_none hne])]
  | case6 c cs hne hc links left heq ih =>
    rw [heq] at ih
    rw [List.filter_cons_of_neg hc, ← ih]

theorem word_element {e : Element} {cs : List Child} :
    word (.element e :: cs) = e.branch? :: word cs := word_cons _ _

/-- A list can follow a link with a condition exactly if what a walk leaves of it can stand by
itself. -/
theorem word_takeLinks {cs : List Child} :
    word cs ∈ afterTest ↔ word (takeLinks cs).2 ∈ chains := by
  fun_induction takeLinks cs with
  | case1 => exact iff_of_true nil_mem_afterTest nil_mem_chains
  | case2 e cs he links left heq ih =>
    rw [heq] at ih
    rw [word_element, he, cons_mem_afterTest, ← ih]
    simp [cons_mem_chains]
  | case3 e cs he =>
    rw [word_element, he, cons_mem_afterTest]
    simp [cons_mem_chains]
  | case4 e cs hnext hlast =>
    rw [word_element, cons_mem_afterTest, or_iff_left]
    rintro (⟨he, -⟩ | ⟨he, -⟩)
    · exact hlast he
    · exact hnext he
  | case5 c cs hne hc =>
    rw [word_cons, if_pos hc, Child.branch?_eq_none hne, cons_mem_afterTest]
    simp
  | case6 c cs hne hc links left heq ih =>
    rw [heq] at ih
    rw [word_cons, if_neg hc, word_cons, if_neg hc, ih]

theorem groups_eq_other {c : Child} (hc : c.branch? = none) (cs : List Child) :
    groups (c :: cs) = .other c :: groups cs := by
  cases c with
  | element e =>
    have he : e.branch? = none := hc
    simp only [groups, he]
  | _ => simp only [groups]

theorem groups_eq_chain {e : Element} (he : e.branch? = some .when) (cs : List Child) :
    groups (.element e :: cs) = .chain e (takeLinks cs).1 :: groups (takeLinks cs).2 := by
  simp only [groups, he]

theorem groups_eq_stray {e : Element} {b : Branch} (he : e.branch? = some b)
    (hb : b.continues = true) (cs : List Child) : groups (.element e :: cs) = [.stray b e] := by
  cases b with
  | when => cases hb
  | elseWhen | otherwise => simp only [groups, he]

/-- A child list from group to group: what holds of a list after a child of no chain, of what a chain
leaves, and where a stray ends the walk, holds of every list. -/
theorem groups_induction {motive : List Child → Prop} (nil : motive [])
    (other : ∀ c cs, c.branch? = none → motive cs → motive (c :: cs))
    (chain : ∀ e cs, e.branch? = some .when → motive (takeLinks cs).2 → motive (.element e :: cs))
    (stray : ∀ b e cs, e.branch? = some b → b.continues = true → motive (.element e :: cs)) :
    ∀ cs, motive cs := by
  intro cs
  match cs with
  | [] => exact nil
  | c :: cs =>
    cases hc : c.branch? with
    | none => exact other c cs hc (groups_induction nil other chain stray cs)
    | some b =>
      obtain ⟨e, rfl, he⟩ := Child.branch?_eq_some.1 hc
      cases b with
      | when => exact chain e cs he (groups_induction nil other chain stray (takeLinks cs).2)
      | elseWhen | otherwise => exact stray _ e cs he rfl
termination_by cs => cs.length
decreasing_by
  · simp only [List.length_cons]
    omega
  · exact Nat.lt_succ_of_le (length_takeLinks _)

namespace Group

def isStray : Group → Bool
  | stray .. => true
  | _ => false

def head : Group → Child
  | other c => c
  | chain e _ => .element e
  | stray _ e => .element e

def chain? : Group → Option (Element × List Element)
  | chain e links => some (e, links)
  | _ => none

end Group

@[simp] theorem Group.chain?_chain (e : Element) (links : List Element) :
    (chain e links).chain? = some (e, links) := rfl

@[simp] theorem Group.chain?_other (c : Child) : (other c).chain? = none := rfl

/-- A walk meets no stray exactly in the lists that pass the check. -/
theorem groups_stray_iff (cs : List Child) :
    (∀ g ∈ groups cs, g.isStray = false) ↔ word cs ∈ chains := by
  induction cs using groups_induction with
  | nil => simp [groups, nil_mem_chains]
  | other c cs hc ih =>
    rw [groups_eq_other hc, List.forall_mem_cons, ih, word_cons, hc]
    split
    · simp [cons_mem_chains, Group.isStray]
    · simp [Group.isStray]
  | chain e cs he ih =>
    rw [groups_eq_chain he, List.forall_mem_cons, ih, word_element, he, cons_mem_chains,
      word_takeLinks]
    simp [Group.isStray]
  | stray b e cs he hb =>
    rw [groups_eq_stray he hb, word_element, he, cons_mem_chains]
    cases b <;> simp_all [Group.isStray, Branch.continues]

def openings : List Child → List (Element × List Child)
  | [] => []
  | .element e :: cs => if e.branch? = some .when then (e, cs) :: openings cs else openings cs
  | _ :: cs => openings cs

theorem openings_cons {c : Child} (hc : c.branch? ≠ some .when) (cs : List Child) :
    openings (c :: cs) = openings cs := by
  cases c with
  | element e => exact if_neg hc
  | _ => rfl

theorem openings_takeLinks (cs : List Child) : openings (takeLinks cs).2 = openings cs := by
  fun_induction takeLinks cs with
  | case1 => rfl
  | case2 e cs he links left heq ih =>
    rw [heq] at ih
    rw [openings_cons (c := .element e) (by simp [Child.branch?, Child.element?, he]), ← ih]
  | case3 e cs he =>
    exact (openings_cons (c := .element e) (by simp [Child.branch?, Child.element?, he]) cs).symm
  | case4 => rfl
  | case5 => rfl
  | case6 c cs hne hc links left heq ih =>
    rw [heq] at ih
    have hb : c.branch? ≠ some .when := by simp [Child.branch?_eq_none hne]
    rw [openings_cons hb, openings_cons hb, ih]

theorem filter_takeLinks (cs : List Child) :
    (takeLinks cs).2.filter (!·.continues) = cs.filter (!·.continues) := by
  fun_induction takeLinks cs with
  | case1 => rfl
  | case2 e cs he links left heq ih =>
    rw [heq] at ih
    have hc : (Child.element e).continues = true := by
      simp [Child.continues, Child.branch?, Child.element?, he, Branch.continues]
    rw [List.filter_cons_of_neg (by simp [hc]), ih]
  | case3 e cs he =>
    have hc : (Child.element e).continues = true := by
      simp [Child.continues, Child.branch?, Child.element?, he, Branch.continues]
    rw [List.filter_cons_of_neg (by simp [hc])]
  | case4 => rfl
  | case5 => rfl
  | case6 c cs hne hc links left heq ih =>
    rw [heq] at ih
    rw [List.filter_cons, List.filter_cons, ih]

theorem links_append_takeLinks (cs : List Child) :
    (takeLinks cs).1 ++ (takeLinks cs).2.filterMap Child.link? = cs.filterMap Child.link? := by
  fun_induction takeLinks cs with
  | case1 => rfl
  | case2 e cs he links left heq ih =>
    rw [heq] at ih
    have hc : (Child.element e).link? = some e := by
      simp [Child.link?, Child.element?, he, Option.filter]
    rw [List.filterMap_cons_some hc, ← ih, List.cons_append]
  | case3 e cs he =>
    have hc : (Child.element e).link? = some e := by
      simp [Child.link?, Child.element?, he, Option.filter]
    rw [List.filterMap_cons_some hc, List.singleton_append]
  | case4 => rfl
  | case5 => rfl
  | case6 c cs hne hc links left heq ih =>
    rw [heq] at ih
    have hc : c.link? = none := by
      cases c with
      | element e => exact absurd rfl (hne e)
      | _ => rfl
    rw [List.filterMap_cons_none hc, List.filterMap_cons_none hc, ih]

/-! What the groups are made of where none is a stray -/

theorem chains_of_groups {cs : List Child} (h : ∀ g ∈ groups cs, g.isStray = false) :
    (groups cs).filterMap Group.chain? =
      (openings cs).map fun o => (o.1, run (o.2.filter Child.isSignificant)) := by
  induction cs using groups_induction with
  | nil => simp [groups, openings]
  | other c cs hc ih =>
    rw [groups_eq_other hc] at h ⊢
    rw [List.filterMap_cons_none rfl, openings_cons (by simp [hc])]
    exact ih (List.forall_mem_cons.1 h).2
  | chain e cs he ih =>
    rw [groups_eq_chain he] at h ⊢
    rw [List.filterMap_cons_some (Group.chain?_chain ..), ih (List.forall_mem_cons.1 h).2,
      openings_takeLinks, takeLinks_fst]
    simp [openings, he]
  | stray b e cs he hb =>
    rw [groups_eq_stray he hb] at h
    cases h _ List.mem_cons_self

theorem links_of_groups {cs : List Child} (h : ∀ g ∈ groups cs, g.isStray = false) :
    ((groups cs).filterMap Group.chain?).flatMap (fun g => g.1 :: g.2) =
      cs.filterMap Child.link? := by
  induction cs using groups_induction with
  | nil => simp [groups]
  | other c cs hc ih =>
    have hlink : c.link? = none := by
      cases c with
      | element e =>
        have he : e.branch? = none := hc
        simp [Child.link?, Child.element?, he, Option.filter]
      | _ => rfl
    rw [groups_eq_other hc] at h ⊢
    rw [List.filterMap_cons_none rfl, List.filterMap_cons_none hlink]
    exact ih (List.forall_mem_cons.1 h).2
  | chain e cs he ih =>
    have hlink : (Child.element e).link? = some e := by
      simp [Child.link?, Child.element?, he, Option.filter]
    rw [groups_eq_chain he] at h ⊢
    rw [List.filterMap_cons_some (Group.chain?_chain ..), List.flatMap_cons,
      ih (List.forall_mem_cons.1 h).2, List.filterMap_cons_some hlink, List.cons_append,
      links_append_takeLinks]
  | stray b e cs he hb =>
    rw [groups_eq_stray he hb] at h
    cases h _ List.mem_cons_self

theorem heads_of_groups {cs : List Child} (h : ∀ g ∈ groups cs, g.isStray = false) :
    (groups cs).map Group.head = cs.filter (!·.continues) := by
  induction cs using groups_induction with
  | nil => simp [groups]
  | other c cs hc ih =>
    have hc' : c.continues = false := by simp [Child.continues, hc]
    rw [groups_eq_other hc] at h ⊢
    rw [List.map_cons, ih (List.forall_mem_cons.1 h).2, List.filter_cons_of_pos (by simp [hc'])]
    rfl
  | chain e cs he ih =>
    have hc : (Child.element e).continues = false := by
      simp [Child.continues, Child.branch?, Child.element?, he, Branch.continues]
    rw [groups_eq_chain he] at h ⊢
    rw [List.map_cons, ih (List.forall_mem_cons.1 h).2, filter_takeLinks,
      List.filter_cons_of_pos (by simp [hc])]
    rfl
  | stray b e cs he hb =>
    rw [groups_eq_stray he hb] at h
    cases h _ List.mem_cons_self

end Chain

namespace Rewrite

section
variable [NestingLimit]

def walkChild (d : Nat) : Child → Rewrite Child
  | .text s span => return .text s span
  | .container none span => return .container none span
  | .container (some e) span => return .container (some (← walk d e)) span
  | .element e => return .element (← walkElement d e)
  | .fragment f => return .fragment (← walkFragment d f)

def walkGroup (d : Nat) : Chain.Group → Rewrite Child
  | .other c => walkChild d c
  | .chain e links =>
    match (Chain.build (d + 1) e links).result with
    | .error x => throw x
    | .ok built => do
      countChain links.length
      return .container (some (← walk d built)) e.span
  | .stray b e => throw (orphan b e)

theorem walkChildren_eq_groups (d : Nat) (cs : List Child) :
    walkChildren d cs =
      List.foldr Child.joinText [] <$> (Chain.groups cs).mapM (walkGroup d) := by
  induction cs using Chain.groups_induction with
  | nil => simp [walkChildren, Chain.groups]
  | other c cs hc ih =>
    rw [Chain.groups_eq_other hc]
    cases c with
    | text s span => simp [walkChildren, walkGroup, walkChild, ih]
    | container e span =>
      cases e <;> simp [walkChildren, walkGroup, walkChild, ih, Child.joinText]
    | element e =>
      have he : e.branch? = none := hc
      simp [walkChildren, he, walkGroup, walkChild, ih, Child.joinText]
    | fragment f => simp [walkChildren, walkGroup, walkChild, ih, Child.joinText]
  | chain e cs he ih =>
    rw [Chain.groups_eq_chain he, walkChildren_chain d he]
    cases hbuilt : (Chain.build (d + 1) e (Chain.takeLinks cs).1).result with
    | error x =>
      simp only [List.mapM_cons, walkGroup, hbuilt]
      rfl
    | ok built => simp [walkGroup, hbuilt, ih, Child.joinText]
  | stray b e cs he hb =>
    rw [Chain.groups_eq_stray he hb]
    cases b with
    | when => cases hb
    | elseWhen | otherwise =>
      simp only [walkChildren, he, List.mapM_cons, walkGroup]
      rfl

end

end Rewrite
/-- The check passes exactly the lists of the language, and fails for the leftmost child that leaves
it. A walk goes from group to group and meets a stray in no list that passes: each opening element
has the whole run that follows it for its links, every link is taken once, and all that is no
continuation stays in its place. -/
theorem Chain.groups_of_check (cs : List Child) :
    (check none cs = .ok () ↔ word cs ∈ chains) ∧
      (∀ x, check none cs = .error x ↔ ∃ before c after b, cs = before ++ c :: after ∧
        c.branch? = some b ∧ (∀ ds, ds <+: before → word ds ∈ chains) ∧
        word (before ++ [c]) ∉ chains ∧ x = ⟨.orphaned b, c.span, some c.excerpt, none⟩) ∧
      ((∀ g ∈ groups cs, g.isStray = false) ↔ word cs ∈ chains) ∧
      (∀ [NestingLimit] (d : Nat), Rewrite.walkChildren d cs =
        List.foldr Child.joinText [] <$> (groups cs).mapM (Rewrite.walkGroup d)) ∧
      (word cs ∈ chains →
        (groups cs).filterMap Group.chain? =
            (openings cs).map (fun o => (o.1, run (o.2.filter Child.isSignificant))) ∧
          ((groups cs).filterMap Group.chain?).flatMap (fun g => g.1 :: g.2) =
            cs.filterMap Child.link? ∧
          (groups cs).map Group.head = cs.filter (!·.continues)) := by
  refine ⟨check_eq_ok_iff, fun x => ?_, groups_stray_iff cs,
    fun d => Rewrite.walkChildren_eq_groups d cs, fun h => ?_⟩
  · rw [check_eq_error_iff]
    constructor
    · rintro ⟨before, c, b, ⟨⟨after, rfl⟩, hbefore, hnot⟩, hb, hx⟩
      refine ⟨before, c, after, b, by simp, hb, ?_, hnot, hx⟩
      rintro ds ⟨es, rfl⟩
      exact word_mem_of_append hbefore
    · rintro ⟨before, c, after, b, rfl, hb, hbefore, hnot, hx⟩
      exact ⟨before, c, b, ⟨⟨after, by simp⟩, hbefore before (List.prefix_refl _), hnot⟩, hb, hx⟩
  · have hstray := (groups_stray_iff cs).2 h
    exact ⟨chains_of_groups hstray, links_of_groups hstray, heads_of_groups hstray⟩

namespace Chain

def linkSample (b : Branch) : Element := ⟨⟨b.tag, .zero⟩, [], [], true, .zero⟩

/-- A chain with space and a comment between its links, a text, and a chain of one. -/
def siblingsSample : List Child :=
  [.element (linkSample .when), .text "\n" .zero, .element (linkSample .elseWhen),
    .container none .zero, .element (linkSample .otherwise), .text "x" .zero,
    .element (linkSample .when)]

theorem groups_of_check_siblings :
    check none siblingsSample = .ok () ∧ word siblingsSample ∈ chains ∧
      (groups siblingsSample).filterMap Group.chain? =
        [(linkSample .when, [linkSample .elseWhen, linkSample .otherwise]),
          (linkSample .when, [])] ∧
      (groups siblingsSample).map Group.head =
        [.element (linkSample .when), .text "\n" .zero, .container none .zero, .text "x" .zero,
          .element (linkSample .when)] := by
  have hcheck : check none siblingsSample = .ok () := rfl
  obtain ⟨hiff, -, -, -, hgroups⟩ := groups_of_check siblingsSample
  have hword := hiff.1 hcheck
  obtain ⟨hchains, -, hheads⟩ := hgroups hword
  exact ⟨hcheck, hword, hchains, hheads⟩

end Chain
end BranchMarkup
