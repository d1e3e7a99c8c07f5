import BranchMarkup.Disk
import BranchMarkup.Text.Bytes
/-! A disk in memory: directories and files by where they are, counted from the root. -/
namespace BranchMarkup

abbrev Location := List String

inductive Node where
  | directory
  /-- `none` where the bytes of the file are no text. -/
  | file (content : Option String)
deriving DecidableEq, Repr

structure FileTree where
  /-- Where relative paths start. -/
  start : Location
  /-- One node a location. The root is always there and not listed. -/
  nodes : List (Location × Node)
deriving Repr

namespace FileTree

def node? (t : FileTree) : Location → Option Node
  | [] => some .directory
  | l => t.nodes.lookup l

def isDirectory (t : FileTree) (l : Location) : Bool := t.node? l = some .directory

def put (t : FileTree) (l : Location) (n : Node) : FileTree :=
  { t with nodes := t.nodes.filter (·.1 ≠ l) ++ [(l, n)] }

def maxName : Nat := 255

def maxPath : Nat := 4095

/-- What is wrong with a path whatever the disk holds. -/
def pathFault? (p : Path) : Option DiskFault :=
  if p.text.toList.contains '\x00' then some .zeroInName
  else if p.text = "" then some .notFound
  else if maxPath < p.text.utf8ByteSize then some .nameTooLong
  else none

def isTooLong (s : Path.Segment) : Bool := maxName < Text.byteLength s

/-- Follows segments, each of which has to stand in a directory. -/
def follow (t : FileTree) (l : Location) : List Path.Segment → Except DiskFault Location
  | [] => .ok l
  | s :: rest =>
    if !t.isDirectory l then .error .notDirectory
    else if Path.Segment.isBlank s then t.follow l rest
    else if s = ['.', '.'] then t.follow l.dropLast rest
    else if isTooLong s then .error .nameTooLong
    else if (t.node? (l ++ [String.ofList s])).isSome then t.follow (l ++ [String.ofList s]) rest
    else .error .notFound

def base (t : FileTree) (p : Path) : Location := if p.isAbsolute then [] else t.start

def locate (t : FileTree) (p : Path) : Except DiskFault Location :=
  match pathFault? p with
  | some fault => .error fault
  | none => t.follow (t.base p) (p.text.toList.splitOn '/')

/-- What the end of a path says about something that is to be made there. -/
inductive Place where
  /-- A name in a directory, and whether a slash follows it. -/
  | named (l : Location) (slash : Bool)
  /-- No new name: a dot, two dots, or the root. -/
  | unnamed

def place (t : FileTree) (p : Path) : Except DiskFault Place := do
  if let some fault := pathFault? p then throw fault
  let segments := p.text.toList.splitOn '/'
  let kept := (segments.reverse.dropWhile (· = [])).reverse
  match kept.getLast? with
  | none => return .unnamed
  | some last =>
    let l ← t.follow (t.base p) kept.dropLast
    if !t.isDirectory l then throw .notDirectory
    if last = ['.'] || last = ['.', '.'] then return .unnamed
    if isTooLong last then throw .nameTooLong
    return .named (l ++ [String.ofList last]) (kept.length < segments.length)

def kind? (t : FileTree) (p : Path) : Option EntryKind :=
  match t.locate p with
  | .error _ => none
  | .ok l => (t.node? l).map fun
    | .directory => .directory
    | .file _ => .file

def readText (t : FileTree) (p : Path) : Except DiskFault String := do
  match t.node? (← t.locate p) with
  | none => throw .notFound
  | some .directory => throw .isDirectory
  | some (.file none) => throw .notText
  | some (.file (some s)) => return s

def writeText (t : FileTree) (p : Path) (s : String) : Except DiskFault FileTree := do
  match ← t.place p with
  | .unnamed => throw .isDirectory
  | .named l slash =>
    if slash || t.isDirectory l then throw .isDirectory
    return t.put l (.file (some s))

def makeDirectory (t : FileTree) (p : Path) : Except DiskFault FileTree := do
  match ← t.place p with
  | .unnamed => throw .alreadyThere
  | .named l _ => if (t.node? l).isSome then throw .alreadyThere else return t.put l .directory

def namesIn (t : FileTree) (l : Location) : List String :=
  t.nodes.filterMap fun (k, _) => if k.dropLast = l then k.getLast? else none

def entries (t : FileTree) (p : Path) : List String :=
  match t.locate p with
  | .error _ => []
  | .ok l => if t.isDirectory l then t.namesIn l else []

/-- A step that can fail, and then changes nothing. -/
def attempt (step : FileTree → Except DiskFault FileTree) :
    StateM FileTree (Except DiskFault Unit) := do
  match step (← get) with
  | .ok t => set t; return .ok ()
  | .error fault => return .error fault

instance : Disk (StateM FileTree) where
  here := do return ⟨"/" ++ "/".intercalate (← get).start⟩
  kind? p := do return (← get).kind? p
  readText p := do return (← get).readText p
  writeText p s := attempt (·.writeText p s)
  makeDirectory p := attempt (·.makeDirectory p)
  entries p := do return (← get).entries p

def addDirectories (t : FileTree) (l : Location) : FileTree :=
  (List.range (l.length + 1)).foldl
    (fun t n => if (t.node? (l.take n)).isSome then t else t.put (l.take n) .directory) t

def ofFiles (start : Location) (files : List (Path × Option String)) : FileTree :=
  files.foldl (fun t (p, content) =>
    let l := start ++ p.steps.filterMap fun
      | .name s => some (String.ofList s)
      | _ => none
    (t.addDirectories l.dropLast).put l (.file content)) (addDirectories ⟨start, []⟩ start)

/-- Text files of `t` below the start that `old` does not have, or not with that content, in the
order of their paths. -/
def changedSince (old t : FileTree) : List (Path × String) :=
  let changed := t.nodes.filterMap fun (l, n) =>
    match n with
    | .file (some s) =>
      if t.start.isPrefixOf l && old.node? l ≠ some n then
        some ((⟨"/".intercalate (l.drop t.start.length)⟩ : Path), s)
      else none
    | _ => none
  changed.mergeSort fun a b => a.1.le b.1

end FileTree
end BranchMarkup
