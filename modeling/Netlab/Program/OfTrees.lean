import Netlab.Program
import Netlab.Text.Decimal
import Netlab.Tree.OfTokens

namespace Netlab

def Token.int (t : Token) : Except ParseError UInt64 :=
  match Text.readWord t.text with
  | .ok n => .ok n
  | .error _ => .error ⟨t.pos, .integerRange t.text⟩

def Token.value (t : Token) : Except ParseError Value :=
  match t.kind with
  | .name => .ok ⟨.name t.text, t.pos⟩
  | .string => .ok ⟨.str t.text, t.pos⟩
  | .number => t.int.map (fun n => ⟨.int n, t.pos⟩)
  | kind => .error ⟨t.pos, .noValue kind⟩

/-- Reads the children of a tree one after the other. -/
abbrev Slots (α : Type) := StateT (List Child) (Except ParseError) α

namespace Slots

def fault {α : Type} (owner : Tree) (cause : ParseFault) : Slots α :=
  throw ⟨owner.pos, cause⟩

def next (owner : Tree) : Slots Child := do
  match ← get with
  | [] => fault owner (.tooFew owner.rule)
  | c :: cs => set cs; return c

def finish (owner : Tree) : Slots Unit := do
  match ← get with
  | [] => return ()
  | _ => fault owner (.tooMany owner.rule)

def token (owner : Tree) : Slots Token := do
  match ← next owner with
  | .token t => return t
  | _ => fault owner .expectedToken

def token? (owner : Tree) : Slots (Option Token) := do
  match ← next owner with
  | .token t => return some t
  | .absent => return none
  | .node .. => fault owner .expectedToken

/-- The children of a listing, none if it was not written. -/
def listing (owner : Tree) (l : Listing) : Slots Tree := do
  match ← next owner with
  | .node rule pos children =>
    if rule = l.rule then return ⟨rule, pos, children⟩ else fault owner (.expectedRule l.rule)
  | .absent => return ⟨l.rule, owner.pos, []⟩
  | .token _ => fault owner (.expectedRule l.rule)

def value (owner : Tree) : Slots Value := do (← token owner).value

def text (owner : Tree) : Slots String := return (← token owner).text

def text? (owner : Tree) : Slots (Option String) :=
  return (← token? owner).map (fun t => t.text)

def int (owner : Tree) : Slots UInt64 := do (← token owner).int

def int? (owner : Tree) : Slots (Option UInt64) := do
  match ← token? owner with
  | none => return none
  | some t => return some (← t.int)

/-- Read all children of a tree, and fail if any is left over. -/
def whole {α : Type} (r : Slots α) (owner : Tree) : Except ParseError α := do
  let (a, rest) ← r owner.children
  let ((), _) ← finish owner rest
  return a

def childText (owner : Tree) : Child → Except ParseError String
  | .token t => .ok t.text
  | _ => .error ⟨owner.pos, .expectedToken⟩

def childValue (owner : Tree) : Child → Except ParseError Value
  | .token t => t.value
  | _ => .error ⟨owner.pos, .expectedToken⟩

def childPair {α β : Type} (missing : ParseFault) (key : Tree → Slots α) (item : Tree → Slots β)
    (owner : Tree) : Child → Except ParseError (α × β)
  | .node rule pos children =>
    let pair : Tree := ⟨rule, pos, children⟩
    whole (do return (← key pair, ← item pair)) pair
  | _ => .error ⟨owner.pos, missing⟩

def each {α : Type} (f : Child → Except ParseError α) (cs : List Child) : Slots (List α) :=
  StateT.lift (cs.mapM f)

def names (owner : Tree) : Slots (List String) := do
  let children ← get
  set ([] : List Child)
  each (childText owner) children

def array (owner : Tree) : Slots (List Value) := do
  let tree ← listing owner .array
  each (childValue tree) tree.children

def object (owner : Tree) : Slots (List (String × Value)) := do
  let tree ← listing owner .object
  each (childPair .expectedPair text value tree) tree.children

def intMap (owner : Tree) : Slots (List (UInt64 × UInt64)) := do
  let tree ← listing owner .intMap
  each (childPair .expectedIntPair int int tree) tree.children

def host (owner : Tree) : Slots Host := do
  let name ← text owner
  let ip ← text? owner
  let image ← text owner
  let mac ← text? owner
  let ports ← array owner
  let portBindings ← intMap owner
  let env ← object owner
  let cmd ← array owner
  return { name, ip, image, mac, ports, portBindings, env, cmd }

def link (owner : Tree) : Slots Link := do
  let name ← text owner
  let src ← text owner
  let dst ← text owner
  let port1 ← int? owner
  let port2 ← int? owner
  let cls ← text? owner
  let delay ← text? owner
  let bw ← int? owner
  return { name, src, dst, port1, port2, cls, delay, bw }

def action (owner : Tree) : Slots Action :=
  match owner.rule with
  | .controller => return .controller (← value owner)
  | .remoteController => do
    let name ← text owner
    let host ← text owner
    return .remoteController name host (← int owner)
  | .host => return .host (← host owner)
  | .switch => return .switch (← names owner)
  | .link => return .link (← link owner)
  | .intent => return .intent (← names owner)
  | .up => return .up
  | .down => return .down
  | .ping => return .ping (← names owner)
  | rule => fault owner (.noStatementRule rule)

end Slots

/-- The statement that a tree stands for. Faults of a tree are reported at its own place, faults of a
token at the token's. -/
def Statement.ofTree (t : Tree) : Except ParseError Statement := do
  return ⟨t.pos, ← Slots.whole (Slots.action t) t⟩

def Program.ofTrees (ts : List Tree) : Except ParseError Program := do
  return ⟨← ts.mapM Statement.ofTree⟩

end Netlab
