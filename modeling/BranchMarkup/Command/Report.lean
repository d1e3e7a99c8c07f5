/-! What a command leaves behind: an exit code, and what it prints on its two streams. -/
namespace BranchMarkup

structure Report where
  exit : Nat
  out : String
  err : String
deriving DecidableEq, Repr

namespace Report

def empty : Report := ⟨0, "", ""⟩

def printed (out : String) : Report := ⟨0, out, ""⟩

def told (line : String) : Report := ⟨0, "", line ++ "\n"⟩

def failed (line : String) : Report := ⟨1, "", "error: " ++ line ++ "\n"⟩

/-- One after the other; the command fails if either does. -/
def followedBy (a b : Report) : Report := ⟨max a.exit b.exit, a.out ++ b.out, a.err ++ b.err⟩

def join (rs : List Report) : Report := rs.foldl followedBy empty

end Report
end BranchMarkup
