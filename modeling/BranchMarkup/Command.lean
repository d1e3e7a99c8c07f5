import BranchMarkup.Command.Arguments
import BranchMarkup.Command.Report
import BranchMarkup.Diagnostic.Sheet
import BranchMarkup.Outcome
/-! The commands. Each works on a disk and says in a report what it did. -/
namespace BranchMarkup.Command

variable {m : Type → Type} [Monad m] [Disk m]

inductive Target where
  | file (path : Path) (project : Option Project)
  | project (p : Project)

def loadProject (config : Path) : m (Except Report Project) := do
  return (← Project.load config).mapError fun d => .failed d.message

/-- A directory is a project of its own, with defaults if it has no configuration: then its
sources are all over it. A file belongs to the project around it, if there is one. -/
def resolve (input : Path) : m (Except Report Target) := do
  if ← Disk.isDirectory input then
    let config := input.joinText Project.configName
    if ← Disk.isThere config then return (← loadProject config).map .project
    let p := Project.withDefaults (input.fileName?.getD "project") input
    return .ok (.project { p with sources := input })
  if !(← Disk.isFile input) then
    return .error (.failed ("'" ++ input.text ++ "' does not exist"))
  match ← Project.find (input.parent?.getD ⟨"."⟩) with
  | none => return .ok (.file input none)
  | some config => return (← loadProject config).map fun p => .file input (some p)

def readSource (p : Path) : m (Except Report String) := do
  return (← Disk.readText p).mapError fun fault => .failed (Project.cannotRead p fault).message

def reportAll (p : Path) (text : String) (ds : List Diagnostic) : Report :=
  ⟨0, "", String.join (ds.map fun d => Sheet.render d p.text text)⟩

def exitOne (r : Report) : Report := { r with exit := 1 }

def statsLine (s : Stats) : String :=
  "  chains: " ++ toString s.chains ++ ", branches: " ++ toString s.branches ++
    ", imports removed: " ++ toString s.importsRemoved

def statsIf (verbose : Bool) (s : Stats) : Report :=
  if verbose then .told (statsLine s) else .empty

def noSources (p : Path) : Report := .told ("No source files found in '" ++ p.text ++ "'")

def finish (verbose : Bool) (o : Outcome) : m Report := do
  match o.result with
  | .error ds =>
    return exitOne <| (reportAll o.source o.text ds).followedBy
      (.failed ("cannot transform '" ++ o.source.text ++ "'"))
  | .ok output =>
    match ← o.write with
    | .error d => return .failed d.message
    | .ok () =>
      return .join [.told ("Transformed: " ++ o.source.text ++ " -> " ++ o.target.text),
        if output.map.isSome then .told ("  map: " ++ (Project.mapFor o.target).text) else .empty,
        statsIf verbose output.stats]

def transformToOutput (verbose : Bool) (p : Path) : m Report := do
  match ← readSource p with
  | .error r => return r
  | .ok text =>
    match (Form.ofPath p).transform p.text text false with
    | .ok output => return (Report.printed output.code).followedBy (statsIf verbose output.stats)
    | .error ds => return exitOne (reportAll p text ds)

def transformProject (verbose : Bool) (p : Project) (wantsMap : Bool) : m Report := do
  let outcomes ← Outcome.ofProject p wantsMap
  if outcomes.isEmpty then return noSources p.sources
  let reports ← outcomes.mapM (finish verbose)
  let failures := (reports.filter (·.exit ≠ 0)).length
  let all := Report.join reports
  if failures = 0 then return all
  return all.followedBy (.failed
    (toString failures ++ " of " ++ toString outcomes.length ++ " file(s) failed"))

def runTransform (input : Path) (output : Option Path) (wantsMap verbose : Bool) : m Report := do
  match ← resolve input with
  | .error r => return r
  | .ok (.file path project) =>
    match output with
    | none => transformToOutput verbose path
    | some target =>
      finish verbose (← Outcome.ofFile path target (wantsMap || project.any (·.maps)))
  | .ok (.project p) =>
    transformProject verbose { p with outputs := output.getD p.outputs } (wantsMap || p.maps)

/-- A file that cannot be read ends the command before anything is told about the others. -/
def readAll : List Path → m (Except Report (List (Path × String)))
  | [] => return .ok []
  | p :: ps => do
    match ← readSource p with
    | .error r => return .error r
    | .ok text => return (← readAll ps).map ((p, text) :: ·)

def checkOne (verbose : Bool) (p : Path) (text : String) : Report :=
  match (Form.ofPath p).check p.text text with
  | .ok stats => (Report.told ("OK: " ++ p.text)).followedBy (statsIf verbose stats)
  | .error ds => exitOne (reportAll p text ds)

def runCheck (input : Path) (verbose : Bool) : m Report := do
  match ← resolve input with
  | .error r => return r
  | .ok target =>
    let files ← match target with
      | .file path _ => pure [path]
      | .project p => p.sourceFiles
    if files.isEmpty then return noSources input
    match ← readAll files with
    | .error r => return r
    | .ok texts => return .join (texts.map fun (p, text) => checkOne verbose p text)

/-- The input is source text, whatever its extension. -/
def runTree (input : Path) (transformed compact : Bool) : m Report := do
  match ← readSource input with
  | .error r => return r
  | .ok text =>
    let result : Except (List Diagnostic) Program := do
      let p ← Form.source.read input.text text
      if transformed then
        let (q, _) ← (p.rewriteIn input.text).mapError ([·])
        return q
      return p
    match result with
    | .ok p => return .printed ((Form.json !compact).write p ++ "\n")
    | .error ds => return exitOne (reportAll input text ds)

def cannotMake (what : String) (p : Path) (fault : DiskFault) : Report :=
  .failed ("cannot " ++ what ++ " '" ++ p.text ++ "': " ++ fault.message)

/-- Without a name the project is the current directory. A component that is there already is
kept. -/
def runInit (name : Option String) : m Report := do
  let (dir, name) ← match name with
    | some name => pure ((⟨name⟩ : Path), name)
    | none => do
      let here ← Disk.here
      pure (here, here.fileName?.getD "app")
  let config := dir.joinText Project.configName
  if ← Disk.isThere config then return .failed ("'" ++ config.text ++ "' already exists")
  let sources := dir.joinText "src"
  if let .error fault ← Disk.makeDirectories sources then
    return cannotMake "create directory" sources fault
  if let .error fault ← Disk.writeText config (Project.defaultConfig name) then
    return cannotMake "write" config fault
  let app := sources.joinText "App.jsx"
  if !(← Disk.isThere app) then
    if let .error fault ← Disk.writeText app Project.sample then return cannotMake "write" app fault
  return .join [.told ("Created project '" ++ name ++ "' in " ++ dir.text),
    .told ("  " ++ config.text), .told ("  " ++ app.text)]

def programName : String := "jsx-conditionals"

def versionText : String := programName ++ " 0.1.0"

def run : Command → m Report
  | init name => runInit name
  | transform input output wantsMap verbose =>
    runTransform ⟨input⟩ (output.map Path.mk) wantsMap verbose
  | check input verbose => runCheck ⟨input⟩ verbose
  | tree input transformed compact => runTree ⟨input⟩ transformed compact
  | version => return .printed (versionText ++ "\n")

/-- Runs the command that a list of arguments spells; one that spells none exits with two. -/
def runArguments (args : List String) : m Report := do
  match ofArguments args with
  | .ok command => run command
  | .error fault => return ⟨2, "", "error: " ++ fault.message ++ "\n"⟩

end BranchMarkup.Command
