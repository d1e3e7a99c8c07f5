import BranchMarkup.Span
/-! Tokens, and how messages call them. -/
namespace BranchMarkup

inductive Keyword where
  | kwImport | kwFrom | kwAs | kwConst | kwLet | kwExport | kwDefault | kwTrue | kwFalse | kwNull
deriving DecidableEq, Repr

namespace Keyword

def all : List Keyword :=
  [kwImport, kwFrom, kwAs, kwConst, kwLet, kwExport, kwDefault, kwTrue, kwFalse, kwNull]

def text : Keyword → String
  | kwImport => "import" | kwFrom => "from" | kwAs => "as" | kwConst => "const" | kwLet => "let"
  | kwExport => "export" | kwDefault => "default" | kwTrue => "true" | kwFalse => "false"
  | kwNull => "null"

def ofText? (s : String) : Option Keyword := all.find? (·.text == s)

@[simp] theorem ofText?_text (k : Keyword) : ofText? k.text = some k := by cases k <;> decide

end Keyword

inductive Symbol where
  | lparen | rparen | lbrace | rbrace
  | comma | colon | semicolon | dot | question
  | eq | eqEq | eqEqEq | bang | bangEq | bangEqEq
  | lt | gt | ltEq | gtEq | ampAmp | pipePipe
  | plus | minus | star | slash | percent
deriving DecidableEq, Repr

def Symbol.text : Symbol → String
  | lparen => "(" | rparen => ")" | lbrace => "\x7b" | rbrace => "\x7d"
  | comma => "," | colon => ":" | semicolon => ";" | dot => "." | question => "?"
  | eq => "=" | eqEq => "==" | eqEqEq => "===" | bang => "!" | bangEq => "!=" | bangEqEq => "!=="
  | lt => "<" | gt => ">" | ltEq => "<=" | gtEq => ">=" | ampAmp => "&&" | pipePipe => "||"
  | plus => "+" | minus => "-" | star => "*" | slash => "/" | percent => "%"

inductive Token where
  | keyword (k : Keyword)
  | symbol (s : Symbol)
  | number (digits : String)
  | string (value : String)
  | ident (name : String)
  /-- Raw text between tags. -/
  | text (raw : String)
  | endOfFile
deriving DecidableEq, Repr

/-- A token without what it holds. -/
inductive Token.Kind where
  | keyword (k : Keyword)
  | symbol (s : Symbol)
  | number | string | ident | text | endOfFile
deriving DecidableEq, Repr

namespace Token

def kind : Token → Kind
  | keyword k => .keyword k
  | symbol s => .symbol s
  | number _ => .number
  | string _ => .string
  | ident _ => .ident
  | text _ => .text
  | endOfFile => .endOfFile

/-- A word is a keyword if it is spelled like one, else an identifier. -/
def ofWord (s : String) : Token := (Keyword.ofText? s).elim (.ident s) .keyword

end Token

def Token.Kind.describe : Token.Kind → String
  | keyword k => "'" ++ k.text ++ "'"
  | symbol s => "'" ++ s.text ++ "'"
  | number => "number literal"
  | string => "string literal"
  | ident => "identifier"
  | text => "JSX text"
  | endOfFile => "end of file"

end BranchMarkup
