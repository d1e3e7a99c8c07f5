import BranchMarkup.Printer
import BranchMarkup.Text.Blank
/-! Nodes quoted in messages: printed as the printer prints them, on one line, cut at a fixed
width. -/
namespace BranchMarkup

def Expr.format (e : Expr) : String := Piece.plain e.pieces

def Child.format (c : Child) : String := Piece.plain c.pieces

namespace Excerpt

def width : Nat := 80

/-- Blanks become single spaces; of a longer text all but the last place is kept, which shows the
cut. -/
def ofText (s : String) : String :=
  let flat := List.intercalate [' '] (Text.words s.toList)
  String.ofList (if flat.length ≤ width then flat else flat.take (width - 1) ++ ['…'])

end Excerpt

def Expr.excerpt (e : Expr) : String := Excerpt.ofText e.format

def Child.excerpt (c : Child) : String := Excerpt.ofText c.format

def Element.excerpt (e : Element) : String := (Expr.element e).excerpt

def Fragment.excerpt (f : Fragment) : String := (Expr.fragment f).excerpt

end BranchMarkup
