import Netlab.Keyword
import Netlab.Tree

namespace Netlab

inductive ParseFault where
  | noStatement
  | noKeyword (found : Lexeme)
  | expected (kind : Kind) (found : Lexeme)
  | expectedWord (word : String) (found : Lexeme)
  | expectedValue (found : Lexeme)
  | reserved (name : String)
  | duplicateClause (clause statement : String)
  | missingClause (clause statement : String) (found : Lexeme)
  | integerRange (digits : String)
  | tooFew (rule : Rule)
  | tooMany (rule : Rule)
  | expectedToken
  | expectedRule (rule : Rule)
  | noStatementRule (rule : Rule)
  | noValue (kind : Kind)
  | expectedPair
  | expectedIntPair
deriving DecidableEq

namespace ParseFault

def message : ParseFault → String
  | noStatement => "expected at least one statement"
  | noKeyword found => "expected a statement keyword, found " ++ found.describe
  | expected kind found => "expected " ++ kind.label ++ ", found " ++ found.describe
  | expectedWord word found => "expected '" ++ word ++ "', found " ++ found.describe
  | expectedValue found => "expected a name, string or number, found " ++ found.describe
  | reserved name => "'" ++ name ++ "' is a reserved keyword and cannot be used as a name"
  | duplicateClause clause statement =>
    "duplicate '" ++ clause ++ "' clause in " ++ statement ++ " statement"
  | missingClause clause statement found =>
    statement ++ " statement is missing required '" ++ clause ++ "' clause (found " ++
      found.describe ++ ")"
  | integerRange digits => "integer literal '" ++ digits ++ "' is out of range"
  | tooFew rule => malformed (rule.label ++ " has too few children")
  | tooMany rule => malformed (rule.label ++ " has too many children")
  | expectedToken => malformed "expected a token"
  | expectedRule rule => malformed ("expected " ++ rule.label)
  | noStatementRule rule => malformed (rule.label ++ " is not a statement")
  | noValue kind => malformed (kind.label ++ " is not a value")
  | expectedPair => malformed "expected a key/value pair"
  | expectedIntPair => malformed "expected an integer pair"
where
  malformed (text : String) : String := "malformed parse tree: " ++ text

/-- The faults of a tree that no token list gives rise to. -/
def isMalformed : ParseFault → Bool
  | tooFew _ | tooMany _ | expectedToken | expectedRule _ | noStatementRule _ | noValue _
  | expectedPair | expectedIntPair => true
  | _ => false

end ParseFault

abbrev ParseError := Located ParseFault

structure Stream where
  ahead : List Token
  stop : Position
deriving DecidableEq

namespace Stream

/-- The first end mark stops the stream. Where there is none, it ends behind the last token. -/
def ofTokens (ts : List Token) : Stream where
  ahead := ts.takeWhile (fun t => t.kind ≠ .eof)
  stop :=
    match ts.find? (fun t => t.kind = .eof) with
    | some t => t.pos
    | none => (ts.getLast?.map Token.stop).getD .start

def head (s : Stream) : Token :=
  s.ahead.headD ⟨⟨.eof, ""⟩, s.stop⟩

end Stream

/-- A reading step: it takes tokens from a stream and may fail on the way. -/
abbrev Read (α : Type) := EStateM ParseError Stream α

namespace Read

def fail {α : Type} (cause : Lexeme → ParseFault) : Read α :=
  fun s => .error ⟨s.head.pos, cause s.head.toLexeme⟩ s

def head : Read Token :=
  fun s => .ok s.head s

def takeIf (p : Token → Bool) (cause : Lexeme → ParseFault) : Read Token := fun s =>
  match s.ahead with
  | [] => fail cause s
  | t :: ts => if p t then .ok t ⟨ts, s.stop⟩ else fail cause s

def take (kind : Kind) : Read Token :=
  takeIf (fun t => t.kind = kind) (.expected kind)

def takeWord (word : String) : Read Token :=
  takeIf (fun t => t.isWord word) (.expectedWord word)

/-- Take a name. A reserved word in its place is taken too, and refused. -/
def takeName : Read Token := do
  let t ← take .name
  if Keyword.isReserved t.text then throw ⟨t.pos, .reserved t.text⟩
  else return t

def takeValue : Read Token := do
  match (← head).kind with
  | .name => takeName
  | .string => take .string
  | .number => take .number
  | _ => fail .expectedValue

def isFree (t : Token) : Bool :=
  t.kind = .name && !Keyword.isReserved t.text

def takeFree : Read (List Token) := fun s =>
  .ok (s.ahead.takeWhile isFree) ⟨s.ahead.dropWhile isFree, s.stop⟩

end Read

end Netlab
