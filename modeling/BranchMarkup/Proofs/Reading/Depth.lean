import BranchMarkup.Proofs.Reading.Loops
/-! The level of a reader. Every parser leaves it as it was, and on the way it stays between that of the
start and the limit. It is that of the surface wherever a statement begins, so that what is noted about
one statement has no part in reading the next. -/
namespace BranchMarkup

def Round.proceeds {σ α : Type} : Round σ α → Bool
  | leaves _ => false
  | goesOn .. => true

/-- A round of the loop begins there. -/
inductive Loop.Reaches {σ α : Type} (L : Loop σ α) : Nat → σ → Parser → Nat → σ → Parser → Prop where
  | here (fuel s p) : Reaches L fuel s p fuel s p
  | round {fuel s p next complete q fuel' t r} : (L.round fuel s).run p = (.goesOn next complete, q) →
      Reaches L fuel next q fuel' t r → Reaches L (fuel + 1) s p fuel' t r

namespace Parse

/-- Entering a level before looking whether there was one left comes to the same: one too many is left at
once, and only then is there something to note. -/
theorem nested_eq {α : Type} (fallback : α) (inner : Parse α) : nested fallback inner = do
    modify fun p => { p with depth := p.depth + 1 }
    if maxNesting < (← get).depth then
      modify fun p => { p with depth := p.depth - 1 }
      fault .tooDeep
      return fallback
    else
      let a ← inner
      modify fun p => { p with depth := p.depth - 1 }
      return a := by
  funext p
  by_cases h : p.depth < maxNesting
  · have hnot : ¬ maxNesting < p.depth + 1 := by omega
    change (if p.depth < maxNesting then _ else _ : Parse α) p =
      (if maxNesting < p.depth + 1 then _ else _ : Parse α) _
    rw [if_pos h, if_neg hnot]
    rfl
  · have hpast : maxNesting < p.depth + 1 := by omega
    change (if p.depth < maxNesting then _ else _ : Parse α) p =
      (if maxNesting < p.depth + 1 then _ else _ : Parse α) _
    rw [if_neg h, if_pos hpast]
    rfl

/-- Whatever the text, `x` ends at the level it starts at. Where that is within the limit it does so in
steps that stay there: none goes below the level of the start or above the limit, and a level is left
only where one has been entered. -/
structure Leveled {α : Type} (x : Parse α) : Prop where
  returns : ∀ p : Parser, (x.run p).2.depth = p.depth
  within : ∀ p : Parser, p.depth ≤ maxNesting → ∃ ss, Does x p ss ∧
    ∀ before after, ss = before ++ after →
      p.depth ≤ (runAll before p).depth ∧ (runAll before p).depth ≤ maxNesting ∧
        (after.head? = some .leave → p.depth < (runAll before p).depth)

theorem Leveled.of_goes {α : Type} {e : Parser → Prop} {x : Parse α} (h : ∀ p, Goes (e p) x p) :
    Leveled x where
  returns := Keeps.of_goes (R := .depth) h
  within p hp := by
    obtain ⟨ss, hdoes, hbalanced, -⟩ := h p
    exact ⟨ss, hdoes, fun _ _ => hbalanced.between rfl hp⟩

theorem Leveled.of_all {α : Type} {x : Parse α} (h : ∀ {e : Prop} {p : Parser}, Goes e x p) :
    Leveled x :=
  .of_goes (e := fun _ => False) fun _ => h

structure AllLeveled : Prop where
  ident? : Leveled ident?
  ident : Leveled ident
  name : Leveled name
  string? : Leveled string?
  string : Leveled string
  tagIdent : Leveled tagIdent
  tagNamePart : ∀ name joint, Leveled (tagNamePart name joint)
  tagNameRest : ∀ fuel name, Leveled (tagNameRest fuel name)
  tagName : ∀ fuel, Leveled (tagName fuel)
  closeElement : ∀ fuel name after found, Leveled (closeElement fuel name after found)
  closeFragment : ∀ fuel after found, Leveled (closeFragment fuel after found)
  expr : ∀ fuel, Leveled (expr fuel)
  binary : ∀ fuel power, Leveled (binary fuel power)
  binaryRest : ∀ fuel power lhs, Leveled (binaryRest fuel power lhs)
  unary : ∀ fuel, Leveled (unary fuel)
  trailing : ∀ fuel e, Leveled (trailing fuel e)
  arguments : ∀ fuel, Leveled (arguments fuel)
  primary : ∀ fuel, Leveled (primary fuel)
  markup : ∀ fuel after, Leveled (markup fuel after)
  markupRest : ∀ fuel start after, Leveled (markupRest fuel start after)
  children : ∀ fuel unclosed opened, Leveled (children fuel unclosed opened)
  container : ∀ fuel, Leveled (container fuel)
  attributes : ∀ fuel, Leveled (attributes fuel)
  attrValue : ∀ fuel, Leveled (attrValue fuel)
  importSpecifiers : ∀ fuel, Leveled (importSpecifiers fuel)
  importSource : Leveled importSource
  importClause : ∀ fuel default, Leveled (importClause fuel default)
  importDecl : ∀ fuel, Leveled (importDecl fuel)
  binding : ∀ fuel kind, Leveled (binding fuel kind)
  statementBody : ∀ fuel, Leveled (statementBody fuel)
  statement? : ∀ fuel, Leveled (statement? fuel)
  recover : ∀ fuel, Leveled (recover fuel)
  statements : ∀ fuel, Leveled (statements fuel)

theorem allLeveled : AllLeveled where
  ident? := .of_all goes_ident?
  ident := .of_all goes_ident
  name := .of_all goes_name
  string? := .of_all goes_string?
  string := .of_all goes_string
  tagIdent := .of_all goes_tagIdent
  tagNamePart name joint := .of_goes (e := fun _ => False) fun _ => goes_tagNamePart nofun name joint
  tagNameRest fuel name := .of_all (goes_tagNameRest fuel name)
  tagName fuel := .of_all (goes_tagName fuel)
  closeElement fuel name after found :=
    .of_all (goes_closeElement fuel name after found)
  closeFragment fuel after found :=
    .of_all (goes_closeFragment fuel after found)
  expr fuel := .of_goes (goesAt fuel).expr
  binary fuel power := .of_goes ((goesAt fuel).binary power)
  binaryRest fuel power lhs := .of_goes ((goesAt fuel).binaryRest power lhs)
  unary fuel := .of_goes (goesAt fuel).unary
  trailing fuel e := .of_goes ((goesAt fuel).trailing e)
  arguments fuel := .of_goes (goesAt fuel).arguments
  primary fuel := .of_goes (goesAt fuel).primary
  markup fuel after := .of_goes ((goesAt fuel).markup after)
  markupRest fuel start after := .of_goes ((goesAt fuel).markupRest start after)
  children fuel unclosed opened := .of_goes ((goesAt fuel).children unclosed opened)
  container fuel := .of_goes (goesAt fuel).container
  attributes fuel := .of_goes (goesAt fuel).attributes
  attrValue fuel := .of_goes (goesAt fuel).attrValue
  importSpecifiers fuel := .of_all (goes_importSpecifiers fuel)
  importSource := .of_all goes_importSource
  importClause fuel default := .of_all (goes_importClause fuel default)
  importDecl fuel := .of_all (goes_importDecl fuel)
  binding _ kind := .of_goes (e := fun _ => False) fun _ => goes_binding kind nofun nofun
  statementBody fuel := .of_goes (goes_statementBody fuel)
  statement? fuel := .of_goes (goes_statement? fuel)
  recover fuel := .of_goes (goes_recover fuel)
  statements fuel := .of_goes (goes_statements fuel)

/-! Between statements -/

theorem keeps_statementRound (R : Frame) (fuel : Nat) : Keeps R (statementLoop.round fuel ()) := by
  have next (before : Span) (found : Option (Spanned Statement)) : Keeps R (do
      if (← Parse.here) = before then Parse.bump .script
      return Round.goesOn () (found.toList ++ ·)) :=
    .bind .here fun _ => .ite (.bind (.bump _) fun _ => .pure _) (.pure _)
  refine .bind (.sees _) fun _ => .ite (.pure _) (.bind .here fun before => ?_)
  refine .bind (keeps_statement? R fuel) fun found => .ite ?_ (next before found)
  exact .bind (keeps_recover R fuel) fun _ => next before found

theorem depth_eq_of_reaches {fuel fuel' : Nat} {s t : Unit} {p q : Parser}
    (h : statementLoop.Reaches fuel s p fuel' t q) : q.depth = p.depth := by
  induction h with
  | here => rfl
  | @round fuel s p _ _ _ _ _ _ hround _ ih =>
    have hkeeps := keeps_statementRound .depth fuel p
    rw [hround] at hkeeps
    exact ih.trans hkeeps

/-- At a level where it begins, a reader does what a fresh one does at the same place, and adds to the
faults what that one finds. -/
theorem run_eq_fresh {α : Type} {e : Prop} {x : Parse α} {p : Parser}
    (h : Goes e x (p.cursor.parser p.depth)) :
    x.run p = ((x.run (p.cursor.parser p.depth)).1,
      { (x.run (p.cursor.parser p.depth)).2 with
        faults := p.faults ++ (x.run (p.cursor.parser p.depth)).2.faults }) := by
  obtain ⟨ss, hdoes, -⟩ := h
  have hfaults : (x.run (p.cursor.parser p.depth)).2.faults = notes ss := by
    rw [hdoes.run_eq, faults_runAll]
    rfl
  rw [hfaults]
  exact hdoes.blind p.faults

/-- Wherever a statement of a text begins the reader is at no level, and reading the statement comes to
the same as if nothing had been noted before. -/
theorem statement_begins {source : List Char} {fuel : Nat} {p : Parser}
    (h : statementLoop.Reaches (Program.parseFuel source) () (Parser.ofText source) fuel () p) :
    p.depth = 0 ∧ (statement? fuel).run p =
      (((statement? fuel).run (p.cursor.parser 0)).1,
        { ((statement? fuel).run (p.cursor.parser 0)).2 with
          faults := p.faults ++ ((statement? fuel).run (p.cursor.parser 0)).2.faults }) := by
  have hdepth : p.depth = 0 := depth_eq_of_reaches h
  have hrun := run_eq_fresh (p := p) (goes_statement? fuel _)
  rw [hdepth] at hrun
  exact ⟨hdepth, hrun⟩

end Parse
end BranchMarkup
