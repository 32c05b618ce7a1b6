namespace Netlab

/-- A place in a text. Lines and columns count from one and a column is one character wide. -/
structure Position where
  line : Nat
  column : Nat
deriving DecidableEq

structure Located (κ : Type) where
  pos : Position
  cause : κ
deriving DecidableEq

namespace Position

def start : Position := ⟨1, 1⟩

/-- The place after one character. Only a line feed ends a line. -/
def after (p : Position) (c : Char) : Position :=
  if c = '\n' then ⟨p.line + 1, 1⟩ else ⟨p.line, p.column + 1⟩

def afterAll (p : Position) (cs : List Char) : Position :=
  cs.foldl after p

def text (p : Position) : String :=
  toString p.line ++ ":" ++ toString p.column

@[simp] theorem afterAll_nil (p : Position) : p.afterAll [] = p := rfl

@[simp] theorem afterAll_cons (p : Position) (c : Char) (cs : List Char) :
    p.afterAll (c :: cs) = (p.after c).afterAll cs := rfl

theorem afterAll_append (p : Position) (cs ds : List Char) :
    p.afterAll (cs ++ ds) = (p.afterAll cs).afterAll ds :=
  List.foldl_append

end Position

end Netlab
