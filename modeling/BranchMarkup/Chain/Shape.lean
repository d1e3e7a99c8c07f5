import BranchMarkup.Printer.Excerpt
import BranchMarkup.Tree.Branches
import BranchMarkup.Rewrite.Error
/-! Which children count, and what is checked of a child list before anything in it is rewritten. -/
namespace BranchMarkup

/-- Blank text and empty containers are ignorable; everything else counts. -/
def Child.isSignificant : Child → Bool
  | .text s _ => !s.toList.all Text.isBlank
  | .container e _ => e.isSome
  | .element _ => true
  | .fragment _ => true

namespace Chain

/-- The second of the first two text children that touch; reading a text always joins such. -/
def adjacentText? : List Child → Option Span
  | .text _ _ :: .text s span :: _ => some (Child.text s span).span
  | _ :: cs => adjacentText? cs
  | [] => none

def shapeDefect? (e : Element) : Option (ShapeDefect × Span) :=
  if e.name.val = "" then some (.emptyTag, e.span)
  else if e.selfClosing && !e.children.isEmpty then
    some (.selfClosingWithChildren e.name.val e.children.length, e.span)
  else (adjacentText? e.children).map (.adjacentText, ·)

def checkElement (e : Element) : Except RewriteError Unit :=
  match shapeDefect? e with
  | none => .ok ()
  | some (defect, span) => .error ⟨.malformed defect, span, some e.excerpt, none⟩

def checkFragment (f : Fragment) : Except RewriteError Unit :=
  match adjacentText? f.children with
  | none => .ok ()
  | some span => .error ⟨.malformed .adjacentText, span, some f.excerpt, none⟩

/-- Every continuation follows, ignorable children aside, a link that carries a condition. `last` is
the branch of the child before the list, if that is one. -/
def check (last : Option Branch) : List Child → Except RewriteError Unit
  | [] => .ok ()
  | c :: cs =>
    match c.branch? with
    | none => check (if c.isSignificant then none else last) cs
    | some b =>
      if b.continues && !last.any Branch.tests then
        .error ⟨.orphaned b, c.span, some c.excerpt, none⟩
      else check (some b) cs

end Chain
end BranchMarkup
