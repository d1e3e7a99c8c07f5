import BranchMarkup.Path
/-! What the commands need of a disk. They are written over any monad that has it, so that the same
definitions run on a real disk and on a tree of files in memory. -/
namespace BranchMarkup

inductive DiskFault where
  | notFound
  | alreadyThere
  | notDirectory
  | isDirectory
  | notText
  /-- A name, or a whole path, takes more bytes than it may. -/
  | nameTooLong
  /-- No path holds the character zero. -/
  | zeroInName
  /-- A fault that only a real disk has, in its own words. -/
  | other (message : String)
deriving DecidableEq, Repr

def DiskFault.message : DiskFault → String
  | notFound => "No such file or directory (os error 2)"
  | alreadyThere => "File exists (os error 17)"
  | notDirectory => "Not a directory (os error 20)"
  | isDirectory => "Is a directory (os error 21)"
  | notText => "stream did not contain valid UTF-8"
  | nameTooLong => "File name too long (os error 36)"
  | zeroInName => "file name contained an unexpected NUL byte"
  | other message => message

inductive EntryKind where
  | file
  | directory
  | other
deriving DecidableEq, Repr

class Disk (m : Type → Type) where
  /-- Where relative paths start. -/
  here : m Path
  kind? : Path → m (Option EntryKind)
  readText : Path → m (Except DiskFault String)
  /-- Replaces the file, or makes it. -/
  writeText : Path → String → m (Except DiskFault Unit)
  /-- Makes a directory in one that is there. -/
  makeDirectory : Path → m (Except DiskFault Unit)
  /-- Names in a directory; none if it cannot be read. -/
  entries : Path → m (List String)

namespace Disk

variable {m : Type → Type} [Monad m] [Disk m]

def isThere (p : Path) : m Bool := do return (← kind? p).isSome

def isDirectory (p : Path) : m Bool := do return (← kind? p) = some .directory

def isFile (p : Path) : m Bool := do return (← kind? p) = some .file

/-- Makes the directories of a list, each inside the next; those that are there already do no harm.
The list is walked until one is there or can be made. -/
def makeNested : List Path → m (Except DiskFault Unit)
  | [] => return .error (.other "failed to create whole tree")
  | p :: outer => do
    if p.text = "" then return .ok ()
    let again (fault : DiskFault) : m (Except DiskFault Unit) := do
      if ← isDirectory p then return .ok () else return .error fault
    match ← makeDirectory p with
    | .ok () => return .ok ()
    | .error .notFound =>
      match ← makeNested outer with
      | .error fault => return .error fault
      | .ok () =>
        match ← makeDirectory p with
        | .ok () => return .ok ()
        | .error fault => again fault
    | .error fault => again fault

/-- Makes a directory and all that it is in. -/
def makeDirectories (p : Path) : m (Except DiskFault Unit) := makeNested p.ancestors

end Disk
end BranchMarkup
