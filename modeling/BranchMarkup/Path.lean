/-! Paths of files, kept as they are written. Steps are what a path says: repeated slashes, inner
dots and a slash at the end say nothing, but they stay in the text. -/
namespace BranchMarkup

structure Path where
  text : String
deriving DecidableEq, Repr, Inhabited

theorem Text.not_mem_of_mem_splitOn {sep : Char} {cs : List Char} :
    ∀ s ∈ cs.splitOn sep, sep ∉ s := by
  induction cs with
  | nil => simp
  | cons c cs ih =>
    rw [List.splitOn_cons_eq_if_modifyHead]
    split
    · exact List.forall_mem_cons.2 ⟨List.not_mem_nil, ih⟩
    · next hc =>
      cases hsplit : cs.splitOn sep with
      | nil => exact absurd hsplit (List.splitOn_ne_nil _ _)
      | cons head rest =>
        rw [hsplit, List.forall_mem_cons] at ih
        have hne : sep ≠ c := fun h => hc (by simp [h.symm])
        exact List.forall_mem_cons.2 ⟨by simp [hne, ih.1], ih.2⟩

namespace Path

inductive Step where
  | root
  /-- A dot at the start of a path. -/
  | here
  | up
  | name (chars : List Char)
deriving DecidableEq, Repr

abbrev Segment := List Char

def Segment.isBlank (s : Segment) : Bool := s = [] || s = ['.']

def Segment.step? (s : Segment) : Option Step :=
  if Segment.isBlank s then none else if s = ['.', '.'] then some .up else some (.name s)

/-- What a path begins with, before the segments in which blank ones do not count. -/
inductive Start where
  | root
  | here
  | plain
deriving DecidableEq, Repr

def Start.step? : Start → Option Step
  | root => some .root
  | here => some .here
  | plain => none

def split (p : Path) : Start × List Segment :=
  match p.text.toList.splitOn '/' with
  | [] => (.plain, [])
  | first :: rest =>
    if first = [] && !rest.isEmpty then (.root, rest)
    else if first = ['.'] then (.here, rest)
    else (.plain, first :: rest)

def ofSegments (start : Start) (body : List Segment) : Path :=
  let chars := List.intercalate ['/'] body
  ⟨String.ofList <| match start with
    | .root => '/' :: chars
    | .here => if body = [] then ['.'] else '.' :: '/' :: chars
    | .plain => chars⟩

def steps (p : Path) : List Step :=
  let (start, body) := p.split
  start.step?.toList ++ body.filterMap Segment.step?

def isAbsolute (p : Path) : Bool := p.split.1 = .root

/-- An absolute path replaces what it is joined to. -/
def join (p q : Path) : Path :=
  if q.isAbsolute then q
  else if p.text = "" || p.text.toList.getLast? = some '/' then ⟨p.text ++ q.text⟩
  else ⟨p.text ++ "/" ++ q.text⟩

def joinText (p : Path) (s : String) : Path := p.join ⟨s⟩

def append (p : Path) (s : String) : Path := ⟨p.text ++ s⟩

def dropBlankEnd (body : List Segment) : List Segment :=
  (body.reverse.dropWhile Segment.isBlank).reverse

def parent? (p : Path) : Option Path :=
  let (start, body) := p.split
  match dropBlankEnd body with
  | [] => if start = .here then some ⟨""⟩ else none
  | kept => some (ofSegments start (dropBlankEnd kept.dropLast))

/-- The path and all its parents. Each is shorter than the one before, which bounds their number. -/
def ancestors (p : Path) : List Path := go (p.text.length + 1) p
where
  go : Nat → Path → List Path
  | 0, _ => []
  | fuel + 1, p => p :: (p.parent?.map (go fuel)).getD []

def fileName? (p : Path) : Option String :=
  match p.steps.getLast? with
  | some (.name s) => some (String.ofList s)
  | _ => none

/-- What follows the last dot of the file's name; a dot in the first place does not count. -/
def extension? (p : Path) : Option String := do
  let name ← p.fileName?
  let fromDot := name.toList.reverse.span (· ≠ '.')
  match fromDot.2 with
  | [] | ['.'] => none
  | _ => some (String.ofList fromDot.1.reverse)

/-- The segments after `n` steps, without blank ones in front. -/
def dropSteps : Nat → List Segment → List Segment
  | 0, body => body.dropWhile Segment.isBlank
  | _ + 1, [] => []
  | n + 1, s :: body => if Segment.isBlank s then dropSteps (n + 1) body else dropSteps n body

def stripPrefix? (base p : Path) : Option Path :=
  if base.steps.isPrefixOf p.steps then
    let (start, body) := p.split
    match base.steps.length with
    | 0 => some (ofSegments start (dropBlankEnd body))
    | n + 1 =>
      let taken := if start = .plain then n + 1 else n
      some (ofSegments .plain (dropBlankEnd (dropSteps taken body)))
  else none

/-- Orders steps: the root, a dot, two dots, then names by their code points. -/
def Step.key : Step → List Nat
  | root => [0]
  | here => [1]
  | up => [2]
  | name s => 3 :: s.map Char.toNat

/-- Step by step, the shorter path first. -/
def le (p q : Path) : Bool := (compare (p.steps.map Step.key) (q.steps.map Step.key)).isLE

end Path
end BranchMarkup
