import Netlab.Tree.OfTokens

namespace Netlab

def Kind.isData : Kind → Bool
  | name | string | number => true
  | _ => false

def Token.isData (t : Token) : Bool := t.kind.isData

def Token.IsValue (t : Token) : Prop :=
  Read.isFree t = true ∨ t.kind = .string ∨ t.kind = .number

mutual

def Child.tokens : Child → List Token
  | .absent => []
  | .token t => [t]
  | .node _ _ children => Child.allTokens children

def Child.allTokens : List Child → List Token
  | [] => []
  | c :: cs => c.tokens ++ Child.allTokens cs

end

def Tree.tokens (t : Tree) : List Token := Child.allTokens t.children

inductive Led {α : Type} (separator : Kind) (phrase : List Token → α → Prop) :
    List Token → List α → Prop
  | nil : Led separator phrase [] []
  | cons {t : Token} {ts us : List Token} {a : α} {as : List α} (ht : t.kind = separator)
      (ha : phrase ts a) (has : Led separator phrase us as) :
      Led separator phrase (t :: (ts ++ us)) (a :: as)

/-- A member of a listing as it is written, and its part of the tree. -/
inductive Member : Listing → List Token → Child → Prop
  | value {t : Token} (h : t.IsValue) : Member .array [t] (.token t)
  | pair {key colon value : Token} (hk : key.kind = .string) (hc : colon.kind = .colon)
      (hv : value.IsValue) :
      Member .object [key, colon, value] (.node .pair key.pos [.token key, .token value])
  | intPair {key colon value : Token} (hk : key.kind = .number) (hc : colon.kind = .colon)
      (hv : value.kind = .number) :
      Member .intMap [key, colon, value] (.node .intPair key.pos [.token key, .token value])

inductive Members (l : Listing) : List Token → List Child → Prop
  | none : Members l [] []
  | some {ts us : List Token} {c : Child} {cs : List Child} (hm : Member l ts c)
      (hs : Led .comma (Member l) us cs) : Members l (ts ++ us) (c :: cs)

inductive Content : Shape → List Token → Child → Prop
  | name {t : Token} (h : Read.isFree t = true) : Content .name [t] (.token t)
  | string {t : Token} (h : t.kind = .string) : Content .string [t] (.token t)
  | number {t : Token} (h : t.kind = .number) : Content .number [t] (.token t)
  | listing {l : Listing} {opening closing : Token} {ts : List Token} {cs : List Child}
      (ho : opening.kind = l.opening) (hm : Members l ts cs) (hc : closing.kind = l.closing) :
      Content (.listing l) (opening :: (ts ++ [closing])) (.node l.rule opening.pos cs)

/-- A clause as it is written: its keyword, its content and the part of the tree for the content. -/
structure Block where
  key : Token
  clause : Clause
  content : List Token
  child : Child

namespace Block

def written (b : Block) : List Token := b.key :: b.content

structure Valid (table : List Clause) (b : Block) : Prop where
  mem : b.clause ∈ table
  key : b.key.isWord b.clause.keyword = true
  content : Content b.clause.shape b.content b.child

def slot (blocks : List Block) (c : Clause) : Child :=
  ((blocks.find? (fun b => b.clause = c)).map Block.child).getD .absent

/-- Clauses in any order, each at most once. -/
structure Distinct (table : List Clause) (blocks : List Block) : Prop where
  valid : ∀ b ∈ blocks, b.Valid table
  nodup : (blocks.map Block.clause).Nodup

structure Complete (table : List Clause) (blocks : List Block) : Prop
    extends Distinct table blocks where
  required : ∀ c ∈ table, c.required = true → c ∈ blocks.map Block.clause

end Block

namespace Keyword

def rule : Keyword → Rule
  | controller => .controller
  | remoteController => .remoteController
  | host => .host
  | switch => .switch
  | link => .link
  | intent => .intent
  | up => .up
  | down => .down
  | ping => .ping

def clauses : Keyword → List Clause
  | host => Clause.ofHost
  | link => Clause.ofLink
  | _ => []

end Keyword

/-- What is written behind the keyword of a statement. -/
inductive Body where
  | nothing
  | value (t : Token)
  | remote (name hostWord host portWord port : Token)
  | names (first : Token) (more : List Token)
  | chain (first : Token) (hops : List (Token × Token))
  | clauses (name : Token) (blocks : List Block)

namespace Body

def written : Body → List Token
  | nothing => []
  | value t => [t]
  | remote name hostWord host portWord port => [name, hostWord, host, portWord, port]
  | names first more => first :: more
  | chain first hops => first :: hops.flatMap (fun h => [h.1, h.2])
  | clauses name blocks => name :: blocks.flatMap Block.written

/-- The children of the tree. Every clause of the table has a slot of its own. -/
def children (table : List Clause) : Body → List Child
  | nothing => []
  | value t => [.token t]
  | remote name _ host _ port => [.token name, .token host, .token port]
  | names first more => (first :: more).map .token
  | chain first hops => (first :: hops.map Prod.snd).map .token
  | clauses name blocks => .token name :: table.map (Block.slot blocks)

/-- The tokens that carry data, in the order in which they are written. -/
def payload : Body → List Token
  | nothing => []
  | value t => [t]
  | remote name _ host _ port => [name, host, port]
  | names first more => first :: more
  | chain first hops => first :: hops.map Prod.snd
  | clauses name blocks => name :: blocks.flatMap (fun b => b.content.filter Token.isData)

def Valid : Keyword → Body → Prop
  | .controller, value t => t.IsValue
  | .remoteController, remote name hostWord host portWord port =>
    Read.isFree name = true ∧ hostWord.isWord "host" = true ∧ host.kind = .string ∧
      portWord.isWord "port" = true ∧ port.kind = .number
  | .host, clauses name blocks => Read.isFree name = true ∧ Block.Complete Clause.ofHost blocks
  | .link, clauses name blocks => Read.isFree name = true ∧ Block.Complete Clause.ofLink blocks
  | .switch, names first more | .ping, names first more =>
    ∀ t ∈ first :: more, Read.isFree t = true
  | .intent, chain first hops =>
    Read.isFree first = true ∧ hops ≠ [] ∧ ∀ h ∈ hops, h.1.kind = .arrow ∧ Read.isFree h.2 = true
  | .up, nothing | .down, nothing => True
  | _, _ => False

end Body

structure Phrase where
  key : Token
  keyword : Keyword
  body : Body

namespace Phrase

def written (p : Phrase) : List Token := p.key :: p.body.written

def tree (p : Phrase) : Tree := ⟨p.keyword.rule, p.key.pos, p.body.children p.keyword.clauses⟩

def Valid (p : Phrase) : Prop := p.key.isWord p.keyword.text = true ∧ p.body.Valid p.keyword

end Phrase

/-- A division of tokens into statements, at least one of them. -/
structure Derivation (ts : List Token) (phrases : List Phrase) : Prop where
  nonempty : phrases ≠ []
  valid : ∀ p ∈ phrases, p.Valid
  written : phrases.flatMap Phrase.written = ts

end Netlab
