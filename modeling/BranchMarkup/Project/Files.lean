import BranchMarkup.Disk
import BranchMarkup.Project
/-! A project on a disk: its configuration file, and the sources below its directory. -/
namespace BranchMarkup.Project

variable {m : Type → Type} [Monad m] [Disk m]

def cannotRead (p : Path) (fault : DiskFault) : Diagnostic :=
  .error ("cannot read '" ++ p.text ++ "': " ++ fault.message) .zero

def load (config : Path) : m (Except Diagnostic Project) := do
  match ← Disk.readText config with
  | .error fault => return .error (cannotRead config fault)
  | .ok content => return parse content (config.parent?.getD ⟨"."⟩)

def findIn : List Path → m (Option Path)
  | [] => return none
  | p :: ps => do
    let config := p.joinText configName
    if ← Disk.isThere config then return some config else findIn ps

def find (start : Path) : m (Option Path) := findIn start.ancestors

/-- Directories inside each other on a disk are fewer than that. -/
def maxLevels : Nat := 4096

/-- Hidden entries and installed packages are no sources. -/
def isSkipped (name : String) : Bool := name.toList.head? = some '.' || name = "node_modules"

/-- The files below a directory that are accepted, `levels` directories deep. -/
def collect (accepts : Path → Bool) : Nat → Path → m (List Path)
  | 0, _ => return []
  | levels + 1, p => do
    let names := (← Disk.entries p).filter (!isSkipped ·)
    let found ← names.mapM fun name => do
      let q := p.joinText name
      if ← Disk.isDirectory q then collect accepts levels q
      else return if accepts q then [q] else []
    return found.flatten

def sourceFiles (p : Project) : m (List Path) := do
  return (← collect p.accepts maxLevels p.sources).mergeSort Path.le

end BranchMarkup.Project
