import BranchMarkup.Number.Read
import BranchMarkup.Number.Write
import BranchMarkup.Text.Blank
/-! The values that expressions evaluate to, and their text. -/
namespace BranchMarkup

inductive Value where
  | undefined
  | null
  | bool (b : Bool)
  | number (x : Float)
  | string (s : String)
  | element (name : String) (props : List (String × Value)) (children : List Value)
  | fragment (children : List Value)
deriving Inhabited

namespace Value

def truthy : Value → Bool
  | undefined | null => false
  | bool b => b
  | number x => !(x == 0) && !x.isNaN
  | string s => s ≠ ""
  | element .. | fragment _ => true

def typeName : Value → String
  | undefined => "undefined"
  | null => "object"
  | bool _ => "boolean"
  | number _ => "number"
  | string _ => "string"
  | element .. | fragment _ => "object"

/-- The number of a text, blanks around it aside; no text is zero. -/
def numberOfText (s : String) : Float :=
  match Text.trim s.toList with
  | [] => 0
  | cs => (Number.read? cs).getD Number.nan

def toNumber : Value → Float
  | undefined => Number.nan
  | null => 0
  | bool b => if b then 1 else 0
  | number x => x
  | string s => numberOfText s
  | element .. | fragment _ => Number.nan

/-- The same type and the same value. Markup equals nothing, not even itself. -/
def strictEq : Value → Value → Bool
  | undefined, undefined => true
  | null, null => true
  | bool a, bool b => a == b
  | number x, number y => x == y
  | string s, string t => s == t
  | _, _ => false

/-- Values of different types are compared as numbers, except those that stand for nothing. -/
def looseEq : Value → Value → Bool
  | undefined, undefined | undefined, null | null, undefined | null, null => true
  | undefined, _ | null, _ | _, undefined | _, null => false
  | element .., _ | fragment _, _ | _, element .. | _, fragment _ => false
  | a, b => if a.typeName = b.typeName then a.strictEq b else a.toNumber == b.toNumber

/-- How the first value stands to the second: texts by their characters, other values as numbers. -/
def compare? : Value → Value → Option Ordering
  | string s, string t => some (if s < t then .lt else if s = t then .eq else .gt)
  | a, b =>
    let x := a.toNumber
    let y := b.toNumber
    if x < y then some .lt else if x == y then some .eq else if x > y then some .gt else none

mutual

/-- As markup: what stands for nothing, and what is true or false, leaves no trace. -/
def render : Value → String
  | undefined | null | bool _ => ""
  | number x => Number.text x
  | string s => s
  | element name props [] => "<" ++ name ++ renderProps props ++ " />"
  | element name props (c :: cs) =>
    "<" ++ name ++ renderProps props ++ ">" ++ (render c ++ renderAll cs) ++ "</" ++ name ++ ">"
  | fragment children => renderAll children

def renderAll : List Value → String
  | [] => ""
  | c :: cs => render c ++ renderAll cs

def renderProps : List (String × Value) → String
  | [] => ""
  | (key, value) :: ps => " " ++ key ++ renderProp value ++ renderProps ps

/-- What follows the name of a property: nothing if it is true, a text in quotes, else the value in
braces. -/
def renderProp : Value → String
  | bool true => ""
  | string s => "=\"" ++ s ++ "\""
  | undefined => "=\x7bundefined\x7d"
  | null => "=\x7bnull\x7d"
  | bool false => "=\x7bfalse\x7d"
  | number x => "=\x7b" ++ Number.text x ++ "\x7d"
  | element name props children => "=\x7b" ++ render (element name props children) ++ "\x7d"
  | fragment children => "=\x7b" ++ renderAll children ++ "\x7d"

end

def shown : Value → String
  | undefined => "undefined"
  | null => "null"
  | bool b => if b then "true" else "false"
  | number x => Number.text x
  | string s => s
  | v => v.render

end Value
end BranchMarkup
