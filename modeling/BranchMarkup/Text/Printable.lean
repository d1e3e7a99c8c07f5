import BranchMarkup.Text.Hidden
/-! Characters that a quoted text shows as they are, and the escapes that stand for the others. -/
namespace BranchMarkup.Text

def shownChar (c : Char) : List Char :=
  match c with
  | '"' => ['\\', '"']
  | '\\' => ['\\', '\\']
  | '\n' => ['\\', 'n']
  | '\r' => ['\\', 'r']
  | '\t' => ['\\', 't']
  | '\x00' => ['\\', '0']
  | c =>
    if isHidden c then '\\' :: 'u' :: '\x7b' :: (Nat.toDigits 16 c.toNat ++ ['\x7d']) else [c]

/-- A text in quotes, as messages show it. -/
def shown (cs : List Char) : List Char := '"' :: (cs.flatMap shownChar ++ ['"'])

end BranchMarkup.Text
