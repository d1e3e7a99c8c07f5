import BranchMarkup.Form
import BranchMarkup.Project.Files
/-! Rewriting files: what came of a file, and writing it to its place. -/
namespace BranchMarkup

structure Outcome where
  source : Path
  target : Path
  /-- The text that was read, for the layout of diagnostics. -/
  text : String
  result : Except (List Diagnostic) Output

namespace Outcome

variable {m : Type → Type} [Monad m] [Disk m]

/-- Reads and rewrites a file. Its extension says in which form the program is. -/
def ofFile (source target : Path) (wantsMap : Bool) : m Outcome := do
  match ← Disk.readText source with
  | .error fault => return ⟨source, target, "", .error [Project.cannotRead source fault]⟩
  | .ok text =>
    return ⟨source, target, text, (Form.ofPath source).transform source.text text wantsMap⟩

/-- All sources of a project. Nothing is written until all have been read. -/
def ofProject (p : Project) (wantsMap : Bool) : m (List Outcome) := do
  (← p.sourceFiles).mapM fun source => ofFile source (p.outputFor source) wantsMap

def cannotWrite (p : Path) (fault : DiskFault) : Diagnostic :=
  .error ("cannot write '" ++ p.text ++ "': " ++ fault.message) .zero

/-- Writes what was made, and the map beside it. Of a file that could not be rewritten nothing is
written. -/
def write (o : Outcome) : m (Except Diagnostic Unit) := do
  let .ok output := o.result | return .ok ()
  if let some parent := o.target.parent? then
    if let .error fault ← Disk.makeDirectories parent then
      return .error (cannotWrite parent fault)
  if let .error fault ← Disk.writeText o.target output.code then
    return .error (cannotWrite o.target fault)
  let some map := output.map | return .ok ()
  let path := Project.mapFor o.target
  if let .error fault ← Disk.writeText path map then return .error (cannotWrite path fault)
  return .ok ()

end Outcome
end BranchMarkup
