import BranchMarkup.Command
/-! The program: the commands on the disk of the machine. -/
namespace BranchMarkup

/-- A fault of the machine. Those that have no name here keep their own words. -/
def DiskFault.ofMachine : IO.Error → DiskFault
  | .noFileOrDirectory .. => notFound
  | .alreadyExists .. => alreadyThere
  | .inappropriateType _ code details =>
    if code = 20 then notDirectory else if code = 21 then isDirectory else other details
  | e => other (toString e)

def caught {α : Type} (act : IO α) : IO (Except DiskFault α) := do
  match ← act.toBaseIO with
  | .ok a => return .ok a
  | .error e => return .error (.ofMachine e)

instance : Disk IO where
  here := do return ⟨(← IO.currentDir).toString⟩
  kind? p := do
    if p.text = "" then return none
    match ← ((← IO.currentDir) / p.text).metadata.toBaseIO with
    | .error _ => return none
    | .ok data =>
      match data.type with
      | .dir => return some .directory
      | .file => return some .file
      | _ => return some .other
  readText p := do
    match ← caught (IO.FS.readBinFile p.text) with
    | .error fault => return .error fault
    | .ok bytes => return (String.fromUTF8? bytes).elim (.error .notText) .ok
  writeText p s := caught (IO.FS.writeFile p.text s)
  makeDirectory p := caught (IO.FS.createDir p.text)
  entries p := do
    if p.text = "" then return []
    match ← ((← IO.currentDir) / p.text).readDir.toBaseIO with
    | .error _ => return []
    | .ok found => return found.toList.map (·.fileName)

end BranchMarkup

open BranchMarkup in
def main (args : List String) : IO UInt32 := do
  let report : Report ← Command.runArguments args
  (← IO.getStdout).putStr report.out
  (← IO.getStderr).putStr report.err
  return .ofNat report.exit
