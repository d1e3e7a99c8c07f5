import BranchMarkup.Parser
import BranchMarkup.Path
import BranchMarkup.Printer
import BranchMarkup.Rewrite
import BranchMarkup.Tree.Read
/-! The forms in which a program comes in and goes out, and the rewrite from a text to a text. -/
namespace BranchMarkup

inductive Form where
  | source
  | json (indented : Bool)
deriving DecidableEq, Repr

structure Output where
  code : String
  map : Option String
  stats : Stats

def MappingKind.encode : MappingKind → Json
  | conditional => .string "conditional"
  | fragment => .string "fragment"

def Mapping.encode (m : Mapping) : Json :=
  .object [("generated", .object [("start", .number m.start), ("end", .number m.stop)]),
    ("original", m.original.encode), ("kind", m.kind.encode), ("branch", m.branch.encode)]

def mapText (source : String) (mappings : List Mapping) : String :=
  Json.text true (.object [("version", .number 1), ("source", .string source),
    ("mappings", .array (mappings.map Mapping.encode))])

namespace Program

/-- The rewrite; its fault is told with the name of the file. -/
def rewriteIn (file : String) (p : Program) : Except Diagnostic (Program × Stats) :=
  p.rewrite.mapError fun e => (e.inFile file).diagnostic

end Program

namespace Form

def name : Form → String
  | source => "jsx"
  | json _ => "json"

def mapped : Form → Bool
  | source => true
  | json _ => false

/-- The form that a name, or a file's extension, stands for. -/
def ofName? (name : String) : Option Form :=
  if name ∈ ["jsx", "tsx", "js", "source"] then some source
  else if name = "json" then some (json true)
  else none

/-- The form for a file's extension; without a known one it is source text. -/
def ofPath (p : Path) : Form := (p.extension?.bind ofName?).getD source

def read (file text : String) : Form → Except (List Diagnostic) Program
  | source => (Program.parse file text).mapError (·.map Fault.diagnostic)
  | json _ => (Program.ofJsonText file text).mapError ([·])

def write (p : Program) : Form → String
  | source => p.format
  | json indented => Json.text indented p.encode

def run (form : Form) (file text : String) : Except (List Diagnostic) (String × Stats) := do
  let p ← form.read file text
  let (p, stats) ← (p.rewriteIn file).mapError ([·])
  return (form.write p, stats)

/-- Like `run`, with a map if it is wanted and the form has one. -/
def transform (form : Form) (file text : String) (wantsMap : Bool) :
    Except (List Diagnostic) Output := do
  if form.mapped then
    let p ← form.read file text
    let (p, stats) ← (p.rewriteIn file).mapError ([·])
    let (code, mappings) := p.formatWithMap
    return ⟨code, if wantsMap then some (mapText file mappings) else none, stats⟩
  else
    let (code, stats) ← form.run file text
    return ⟨code, none, stats⟩

def check (form : Form) (file text : String) : Except (List Diagnostic) Stats := do
  let p ← form.read file text
  let (_, stats) ← (p.rewriteIn file).mapError ([·])
  return stats

end Form
end BranchMarkup
