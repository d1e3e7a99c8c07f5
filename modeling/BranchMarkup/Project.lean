import BranchMarkup.Diagnostic
import BranchMarkup.Path
import BranchMarkup.Text.Blank
/-! What a project's configuration says: where its sources are, and where what is made of them goes.
The file is read line by line; what is not understood in it is passed over. -/
namespace BranchMarkup

structure Project where
  name : String
  root : Path
  sources : Path
  outputs : Path
  /-- Without the dot. -/
  extensions : List String
  /-- Whether a map is written beside each output. -/
  maps : Bool
deriving DecidableEq, Repr

namespace Project

def configName : String := "conditionals.toml"

structure Settings where
  name : String
  sources : String
  outputs : String
  extensions : List String
  maps : Bool

def Settings.default : Settings := ⟨"", "src", "dist", ["jsx", "tsx"], true⟩

def Settings.project (s : Settings) (root : Path) : Project :=
  ⟨s.name, root, root.joinText s.sources, root.joinText s.outputs, s.extensions, s.maps⟩

def withDefaults (name : String) (root : Path) : Project :=
  { Settings.default with name }.project root

/-! Reading a line -/

def dropStart (c : Char) (cs : List Char) : List Char := cs.dropWhile (· = c)

def dropAround (c : Char) (cs : List Char) : List Char :=
  (dropStart c (dropStart c cs).reverse).reverse

def unquote (cs : List Char) : List Char := dropAround '"' cs

def bracketed? (cs : List Char) : Option (List Char) :=
  match cs with
  | '[' :: rest => if rest.getLast? = some ']' then some rest.dropLast else none
  | _ => none

/-- The names of a list, without empty ones. Commas separate, inside quotes too. -/
def listOf? (cs : List Char) : Option (List (List Char)) :=
  (bracketed? (Text.trim cs)).map fun inner =>
    ((inner.splitOn ',').map fun part => unquote (Text.trim part)).filter (!·.isEmpty)

inductive Line where
  | blank
  | header (name : List Char)
  | entry (key value : List Char)

def Line.ofChars (cs : List Char) : Line :=
  match cs with
  | [] | '#' :: _ => .blank
  | _ =>
    match bracketed? cs with
    | some inner => .header (Text.trim inner)
    | none =>
      match cs.span (· ≠ '=') with
      | (_, []) => .blank
      | (key, _ :: value) => .entry (unquote (Text.trim key)) (Text.trim value)

/-- A value of the wrong form sets nothing. -/
def Settings.set (s : Settings) (header key : String) (value : List Char) : Settings :=
  let plain := String.ofList (unquote value)
  match header, key with
  | "project", "name" => { s with name := plain }
  | "project", "source_dir" => { s with sources := plain }
  | "project", "out_dir" => { s with outputs := plain }
  | "project", "extensions" =>
    match listOf? value with
    | some names => { s with extensions := names.map fun n => String.ofList (dropStart '.' n) }
    | none => s
  | "transform", "source_maps" =>
    match String.ofList value with
    | "true" => { s with maps := true }
    | "false" => { s with maps := false }
    | _ => s
  | _, _ => s

def Settings.readLine : String × Settings → List Char → String × Settings
  | (header, s), cs =>
    match Line.ofChars (Text.trim cs) with
    | .blank => (header, s)
    | .header name => (String.ofList name, s)
    | .entry key value => (header, s.set header (String.ofList key) value)

def Settings.read (content : String) : Settings :=
  ((content.toList.splitOn '\n').foldl readLine ("", .default)).2

def parse (content : String) (root : Path) : Except Diagnostic Project :=
  let s := Settings.read content
  if s.name = "" then .error (.error ("missing 'name' in " ++ configName) .zero)
  else .ok (s.project root)

/-! Files -/

def accepts (p : Project) (path : Path) : Bool := path.extension?.any (p.extensions.contains ·)

/-- The same path below the outputs; a file that is not below the sources goes right into them. -/
def outputFor (p : Project) (source : Path) : Path :=
  match Path.stripPrefix? p.sources source with
  | some rest => p.outputs.join rest
  | none => p.outputs.joinText (source.fileName?.getD source.text)

def mapFor (output : Path) : Path := output.append ".map"

/-! What a new project starts with -/

def defaultConfig (name : String) : String :=
  "[project]\nname = \"" ++ name ++ "\"\nsource_dir = \"src\"\nout_dir = \"dist\"\n" ++
    "extensions = [\"jsx\", \"tsx\"]\n\n[transform]\nsource_maps = true\n"

def sample : String :=
  "import \x7b If, ElseIf, Else \x7d from \"jsx-conditionals\";\n" ++
  "\n" ++
  "export default <main>\n" ++
  "  <If condition=\x7buser.admin\x7d>\n" ++
  "    <AdminPanel />\n" ++
  "  </If>\n" ++
  "  <ElseIf condition=\x7buser.signedIn\x7d>\n" ++
  "    <Dashboard />\n" ++
  "  </ElseIf>\n" ++
  "  <Else>\n" ++
  "    <SignIn />\n" ++
  "  </Else>\n" ++
  "</main>;\n"

end Project
end BranchMarkup
