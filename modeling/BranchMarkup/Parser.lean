import BranchMarkup.Parser.Expr
/-! Reading a whole program: statements one after another, skipping to the next plausible start
where one is broken. -/
namespace BranchMarkup
namespace Parse

def importSpecifiers : Nat → Parse (List ImportSpecifier)
  | 0 => return []
  | fuel + 1 => do
    if (← sees (.symbol .rbrace)) || (← sees .endOfFile) then return []
    else
      let imported ← name
      let localName ← if ← eat (.keyword .kwAs) .script then some <$> ident else pure none
      if ← eat (.symbol .comma) .script then
        return ⟨imported, localName⟩ :: (← importSpecifiers fuel)
      else return [⟨imported, localName⟩]

def importSource : Parse (Spanned String) := do
  expect (.keyword .kwFrom) .script
  string

def importClause (fuel : Nat) (default : Option (Spanned String)) : Parse ImportDecl := do
  if ← eat (.symbol .star) .script then
    expect (.keyword .kwAs) .script
    let space ← ident
    return ⟨default, some space, [], ← importSource⟩
  else if ← eat (.symbol .lbrace) .script then
    let named ← importSpecifiers fuel
    expect (.symbol .rbrace) .script
    return ⟨default, none, named, ← importSource⟩
  else
    missing .importClause
    return ⟨default, none, [], ← importSource⟩

def importDecl (fuel : Nat) : Parse ImportDecl := do
  expect (.keyword .kwImport) .script
  match ← string? with
  | some source => return ⟨none, none, [], source⟩
  | none =>
    match ← ident? with
    | none => importClause fuel none
    | some default =>
      if ← eat (.symbol .comma) .script then importClause fuel (some default)
      else return ⟨some default, none, [], ← importSource⟩

def binding (fuel : Nat) (kind : BindingKind) : Parse Statement := do
  bump .script
  let name ← ident
  expect (.symbol .eq) .script
  return .binding kind name (← expr fuel)

def statementBody (fuel : Nat) : Parse Statement := do
  match ← token with
  | .keyword .kwImport => return .imports (← importDecl fuel)
  | .keyword .kwConst => binding fuel .const
  | .keyword .kwLet => binding fuel .mutable
  | .keyword .kwExport =>
    bump .script
    expect (.keyword .kwDefault) .script
    return .exportDefault (← expr fuel)
  | _ => return .expr (← expr fuel)

def statement? (fuel : Nat) : Parse (Option (Spanned Statement)) := do
  let start ← here
  let before := (← get).faults.length
  let body ← statementBody fuel
  discard (eat (.symbol .semicolon) .script)
  if before < (← get).faults.length then return none
  else return some ⟨body, start.merge (← last)⟩

/-- Skips to what may begin a statement, or past a semicolon. -/
def recover : Nat → Parse Unit
  | 0 => return
  | fuel + 1 => do
    match ← token with
    | .endOfFile | .keyword .kwImport | .keyword .kwConst | .keyword .kwLet
    | .keyword .kwExport => return
    | .symbol .semicolon => bump .script
    | _ =>
      bump .script
      recover fuel

def statements : Nat → Parse (List (Spanned Statement))
  | 0 => return []
  | fuel + 1 => do
    if ← sees .endOfFile then return []
    else
      let before ← here
      let found ← statement? fuel
      if found.isNone then recover fuel
      -- A statement that took nothing must not be tried again at the same place.
      if (← here) = before then bump .script
      return found.toList ++ (← statements fuel)

end Parse

namespace Program

/-- Enough for every chain of calls over a text of that length. -/
def parseFuel (source : List Char) : Nat := 16 * (source.length + 2)

def parse (name : String) (source : String) : Except (List (Spanned Fault)) Program :=
  let chars := source.toList
  let (statements, p) := (Parse.statements (parseFuel chars)).run (Parser.ofText chars)
  if p.allFaults.isEmpty then .ok ⟨name, statements, p.scanner.comments⟩
  else .error p.allFaults

end Program
end BranchMarkup
