import Netlab.Position

namespace Netlab

inductive Kind where
  | name
  | string
  | number
  | openBracket
  | closeBracket
  | openBrace
  | closeBrace
  | comma
  | colon
  | arrow
  | eof
deriving DecidableEq

/-- A token without its place. A string's text is already unquoted and unescaped. -/
structure Lexeme where
  kind : Kind
  text : String
deriving DecidableEq

structure Token extends Lexeme where
  pos : Position
deriving DecidableEq

namespace Kind

def label : Kind → String
  | name => "name"
  | string => "string"
  | number => "number"
  | openBracket => "'['"
  | closeBracket => "']'"
  | openBrace => "'\x7b'"
  | closeBrace => "'\x7d'"
  | comma => "','"
  | colon => "':'"
  | arrow => "'->'"
  | eof => "end of input"

def ofMark? (c : Char) : Option Kind :=
  if c = '[' then some openBracket
  else if c = ']' then some closeBracket
  else if c = '\x7b' then some openBrace
  else if c = '\x7d' then some closeBrace
  else if c = ',' then some comma
  else if c = ':' then some colon
  else none

end Kind

def Lexeme.describe (l : Lexeme) : String :=
  match l.kind with
  | .name => "name '" ++ l.text ++ "'"
  | .string => "string \"" ++ l.text ++ "\""
  | .number => "number " ++ l.text
  | kind => kind.label

namespace Token

def isWord (t : Token) (word : String) : Bool :=
  t.kind = .name && t.text = word

def stop (t : Token) : Position :=
  ⟨t.pos.line, t.pos.column + t.text.length⟩

end Token

end Netlab
