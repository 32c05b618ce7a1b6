import Netlab.Tree.Stream

namespace Netlab

inductive Listing where
  | array
  | object
  | intMap
deriving DecidableEq

namespace Listing

def rule : Listing → Rule
  | array => .array
  | object => .object
  | intMap => .intMap

def opening : Listing → Kind
  | array => .openBracket
  | object | intMap => .openBrace

def closing : Listing → Kind
  | array => .closeBracket
  | object | intMap => .closeBrace

end Listing

/-- What follows the keyword of a clause. -/
inductive Shape where
  | name
  | string
  | number
  | listing (l : Listing)
deriving DecidableEq

/-- A clause of a host or a link: its keyword and the place of its content among the children. -/
structure Clause where
  keyword : String
  slot : Nat
  shape : Shape
  required : Bool
deriving DecidableEq

namespace Clause

def ip : Clause := ⟨"ip", 1, .string, false⟩

def image : Clause := ⟨"image", 2, .string, true⟩

def mac : Clause := ⟨"mac", 3, .string, false⟩

def ports : Clause := ⟨"ports", 4, .listing .array, false⟩

def portBindings : Clause := ⟨"port_bindings", 5, .listing .intMap, false⟩

def env : Clause := ⟨"env", 6, .listing .object, false⟩

def cmd : Clause := ⟨"cmd", 7, .listing .array, false⟩

def ofHost : List Clause := [ip, image, mac, ports, portBindings, env, cmd]

def src : Clause := ⟨"src", 1, .name, true⟩

def dst : Clause := ⟨"dst", 2, .name, true⟩

def port1 : Clause := ⟨"port1", 3, .number, false⟩

def port2 : Clause := ⟨"port2", 4, .number, false⟩

def cls : Clause := ⟨"cls", 5, .name, false⟩

def delay : Clause := ⟨"delay", 6, .string, false⟩

def bw : Clause := ⟨"bw", 7, .number, false⟩

def ofLink : List Clause := [src, dst, port1, port2, cls, delay, bw]

def startedBy? (table : List Clause) (t : Token) : Option Clause :=
  if t.kind = .name then table.find? (fun c => c.keyword = t.text) else none

/-- The first clause that a statement cannot do without and whose slot is empty. -/
def missing? (table : List Clause) (slots : List Child) : Option Clause :=
  table.find? (fun c => c.required && (slots.getD c.slot .absent).isAbsent)

end Clause

namespace Read

/-- A step only takes tokens from the front, also when it fails. -/
def Advances {α : Type} (r : Read α) : Prop :=
  ∀ s, match r s with
    | .ok _ s' | .error _ s' => s'.ahead <:+ s.ahead ∧ s'.stop = s.stop

theorem advances_pure {α : Type} (a : α) : Advances (pure a : Read α) :=
  fun _ => ⟨List.suffix_refl _, rfl⟩

theorem advances_bind {α β : Type} {r : Read α} {f : α → Read β} (hr : Advances r)
    (hf : ∀ a, Advances (f a)) : Advances (r >>= f) := by
  intro s
  have h := hr s
  simp only [bind, EStateM.bind]
  cases hs : r s with
  | error e s' => simpa [hs] using h
  | ok a s' =>
    rw [hs] at h
    have h' := hf a s'
    simp only
    cases ht : f a s' <;> rw [ht] at h' <;> exact ⟨h'.1.trans h.1, h'.2.trans h.2⟩

theorem advances_fail {α : Type} (cause : Lexeme → ParseFault) : Advances (fail cause : Read α) :=
  fun _ => ⟨List.suffix_refl _, rfl⟩

theorem advances_head : Advances head :=
  fun _ => ⟨List.suffix_refl _, rfl⟩

theorem advances_takeIf (p : Token → Bool) (cause : Lexeme → ParseFault) :
    Advances (takeIf p cause) := by
  intro s
  unfold takeIf
  cases h : s.ahead with
  | nil => exact ⟨by simp [h], rfl⟩
  | cons t ts =>
    cases hp : p t
    · simp [fail, h, hp]
    · simp [hp]

theorem advances_takeName : Advances takeName := by
  refine advances_bind (advances_takeIf _ _) fun t => ?_
  split
  · exact fun _ => ⟨List.suffix_refl _, rfl⟩
  · exact advances_pure _

theorem advances_takeValue : Advances takeValue := by
  refine advances_bind advances_head fun t => ?_
  split
  · exact advances_takeName
  · exact advances_takeIf _ _
  · exact advances_takeIf _ _
  · exact advances_fail _

theorem advances_takeFree : Advances takeFree :=
  fun _ => ⟨List.dropWhile_suffix _, rfl⟩

def item : Listing → Read Child
  | .array => return .token (← takeValue)
  | .object => do
    let key ← take .string
    let _ ← take .colon
    let value ← takeValue
    return .node .pair key.pos [.token key, .token value]
  | .intMap => do
    let key ← take .number
    let _ ← take .colon
    let value ← take .number
    return .node .intPair key.pos [.token key, .token value]

theorem advances_item (l : Listing) : Advances (item l) := by
  cases l with
  | array => exact advances_bind advances_takeValue fun _ => advances_pure _
  | object =>
    exact advances_bind (advances_takeIf _ _) fun _ => advances_bind (advances_takeIf _ _)
      fun _ => advances_bind advances_takeValue fun _ => advances_pure _
  | intMap =>
    exact advances_bind (advances_takeIf _ _) fun _ => advances_bind (advances_takeIf _ _)
      fun _ => advances_bind (advances_takeIf _ _) fun _ => advances_pure _

theorem length_item {l : Listing} {s s' : Stream} {c : Child} (h : item l s = .ok c s') :
    s'.ahead.length ≤ s.ahead.length := by
  have := advances_item l s
  rw [h] at this
  exact this.1.length_le

def moreItems (l : Listing) : Read (List Child) := fun s =>
  match hs : s.ahead with
  | [] => .ok [] s
  | t :: ts =>
    if t.kind = .comma then
      match hi : item l ⟨ts, s.stop⟩ with
      | .error e s' => .error e s'
      | .ok c s' =>
        have : s'.ahead.length < s.ahead.length := by
          have : s'.ahead.length ≤ ts.length := length_item hi
          rw [hs, List.length_cons]
          omega
        match moreItems l s' with
        | .error e s'' => .error e s''
        | .ok cs s'' => .ok (c :: cs) s''
    else .ok [] s
termination_by s => s.ahead.length

def items (l : Listing) : Read (List Child) := do
  if (← head).kind = l.closing then return []
  else return (← item l) :: (← moreItems l)

def listing (l : Listing) : Read Child := do
  let bracket ← take l.opening
  let children ← items l
  let _ ← take l.closing
  return .node l.rule bracket.pos children

def content : Shape → Read Child
  | .name => return .token (← takeName)
  | .string => return .token (← take .string)
  | .number => return .token (← take .number)
  | .listing l => listing l

theorem advances_moreItems (l : Listing) : Advances (moreItems l) := by
  intro s
  fun_induction moreItems l s with
  | case1 s => exact ⟨List.suffix_refl _, rfl⟩
  | case2 s t ts hs _ e s' hi =>
    have := advances_item l ⟨ts, s.stop⟩
    rw [hi] at this
    exact ⟨this.1.trans (hs ▸ List.suffix_cons _ _), this.2⟩
  | case3 s t ts hs _ c s' hi _ e s'' hm ih =>
    have := advances_item l ⟨ts, s.stop⟩
    rw [hi] at this
    rw [hm] at ih
    exact ⟨ih.1.trans (this.1.trans (hs ▸ List.suffix_cons _ _)), ih.2.trans this.2⟩
  | case4 s t ts hs _ c s' hi _ cs s'' hm ih =>
    have := advances_item l ⟨ts, s.stop⟩
    rw [hi] at this
    rw [hm] at ih
    exact ⟨ih.1.trans (this.1.trans (hs ▸ List.suffix_cons _ _)), ih.2.trans this.2⟩
  | case5 s => exact ⟨List.suffix_refl _, rfl⟩

theorem advances_items (l : Listing) : Advances (items l) := by
  refine advances_bind advances_head fun t => ?_
  split
  · exact advances_pure _
  · exact advances_bind (advances_item l) fun _ => advances_bind (advances_moreItems l)
      fun _ => advances_pure _

theorem advances_listing (l : Listing) : Advances (listing l) :=
  advances_bind (advances_takeIf _ _) fun _ => advances_bind (advances_items l)
    fun _ => advances_bind (advances_takeIf _ _) fun _ => advances_pure _

theorem advances_content (shape : Shape) : Advances (content shape) := by
  cases shape with
  | name => exact advances_bind advances_takeName fun _ => advances_pure _
  | string => exact advances_bind (advances_takeIf _ _) fun _ => advances_pure _
  | number => exact advances_bind (advances_takeIf _ _) fun _ => advances_pure _
  | listing l => exact advances_listing l

theorem length_content {shape : Shape} {s s' : Stream} {c : Child}
    (h : content shape s = .ok c s') : s'.ahead.length ≤ s.ahead.length := by
  have := advances_content shape s
  rw [h] at this
  exact this.1.length_le

/-- Fill the slots of a statement with its clauses, in whatever order they are written. -/
def clauses (statement : Keyword) (table : List Clause) (slots : List Child) :
    Read (List Child) := fun s =>
  match hs : s.ahead with
  | [] => .ok slots s
  | t :: ts =>
    match Clause.startedBy? table t with
    | none => .ok slots s
    | some clause =>
      if (slots.getD clause.slot .absent).isAbsent then
        match hc : content clause.shape ⟨ts, s.stop⟩ with
        | .error e s' => .error e s'
        | .ok c s' =>
          have : s'.ahead.length < s.ahead.length := by
            have : s'.ahead.length ≤ ts.length := length_content hc
            rw [hs, List.length_cons]
            omega
          clauses statement table (slots.set clause.slot c) s'
      else .error ⟨t.pos, .duplicateClause clause.keyword statement.text⟩ s
termination_by s => s.ahead.length

/-- The children of a host or a link: its name and its clauses. -/
def slots (statement : Keyword) (table : List Clause) : Read (List Child) := do
  let name ← takeName
  let filled ← clauses statement table (.token name :: List.replicate 7 .absent)
  match Clause.missing? table filled with
  | some clause => fail (.missingClause clause.keyword statement.text)
  | none => return filled

def moreHops : Read (List Token) := fun s =>
  match hs : s.ahead with
  | [] => .ok [] s
  | t :: ts =>
    if t.kind = .arrow then
      match hn : takeName ⟨ts, s.stop⟩ with
      | .error e s' => .error e s'
      | .ok name s' =>
        have : s'.ahead.length < s.ahead.length := by
          have := advances_takeName ⟨ts, s.stop⟩
          rw [hn] at this
          have : s'.ahead.length ≤ ts.length := this.1.length_le
          rw [hs, List.length_cons]
          omega
        match moreHops s' with
        | .error e s'' => .error e s''
        | .ok names s'' => .ok (name :: names) s''
    else .ok [] s
termination_by s => s.ahead.length

def body : Keyword → Read (Rule × List Child)
  | .controller => return (.controller, [.token (← takeValue)])
  | .remoteController => do
    let name ← takeName
    let _ ← takeWord "host"
    let host ← take .string
    let _ ← takeWord "port"
    let port ← take .number
    return (.remoteController, [.token name, .token host, .token port])
  | .host => return (.host, ← slots .host Clause.ofHost)
  | .switch => do
    let name ← takeName
    return (.switch, (name :: (← takeFree)).map .token)
  | .link => return (.link, ← slots .link Clause.ofLink)
  | .intent => do
    let src ← takeName
    let _ ← take .arrow
    let dst ← takeName
    return (.intent, (src :: dst :: (← moreHops)).map .token)
  | .up => return (.up, [])
  | .down => return (.down, [])
  | .ping => do
    let name ← takeName
    return (.ping, (name :: (← takeFree)).map .token)

def keyword? (t : Token) : Option Keyword :=
  if t.kind = .name then Keyword.ofText? t.text else none

def statement : Read Tree := fun s =>
  match s.ahead with
  | [] => fail .noKeyword s
  | t :: ts =>
    match keyword? t with
    | none => fail .noKeyword s
    | some k => (do let (rule, children) ← body k; return ⟨rule, t.pos, children⟩ : Read Tree) ⟨ts, s.stop⟩

theorem advances_clauses (k : Keyword) (table : List Clause) (slots : List Child) :
    Advances (clauses k table slots) := by
  intro s
  fun_induction clauses k table slots s with
  | case1 | case2 | case5 => exact ⟨List.suffix_refl _, rfl⟩
  | case3 slots s t ts hs clause _ _ e s' hc =>
    have := advances_content clause.shape ⟨ts, s.stop⟩
    rw [hc] at this
    exact ⟨this.1.trans (hs ▸ List.suffix_cons _ _), this.2⟩
  | case4 slots s t ts hs clause _ _ c s' hc _ ih =>
    have := advances_content clause.shape ⟨ts, s.stop⟩
    rw [hc] at this
    cases hr : clauses k table (slots.set clause.slot c) s' <;> rw [hr] at ih <;>
      exact ⟨ih.1.trans (this.1.trans (hs ▸ List.suffix_cons _ _)), ih.2.trans this.2⟩

theorem advances_slots (k : Keyword) (table : List Clause) : Advances (slots k table) := by
  refine advances_bind advances_takeName fun _ => advances_bind (advances_clauses _ _ _)
    fun filled => ?_
  split
  · exact advances_fail _
  · exact advances_pure _

theorem advances_moreHops : Advances moreHops := by
  intro s
  fun_induction moreHops s with
  | case1 | case5 => exact ⟨List.suffix_refl _, rfl⟩
  | case2 s t ts hs _ e s' hn =>
    have := advances_takeName ⟨ts, s.stop⟩
    rw [hn] at this
    exact ⟨this.1.trans (hs ▸ List.suffix_cons _ _), this.2⟩
  | case3 s t ts hs _ c s' hn _ e s'' hm ih =>
    have := advances_takeName ⟨ts, s.stop⟩
    rw [hn] at this
    rw [hm] at ih
    exact ⟨ih.1.trans (this.1.trans (hs ▸ List.suffix_cons _ _)), ih.2.trans this.2⟩
  | case4 s t ts hs _ c s' hn _ cs s'' hm ih =>
    have := advances_takeName ⟨ts, s.stop⟩
    rw [hn] at this
    rw [hm] at ih
    exact ⟨ih.1.trans (this.1.trans (hs ▸ List.suffix_cons _ _)), ih.2.trans this.2⟩

theorem advances_body (k : Keyword) : Advances (body k) := by
  cases k with
  | controller => exact advances_bind advances_takeValue fun _ => advances_pure _
  | remoteController =>
    exact advances_bind advances_takeName fun _ => advances_bind (advances_takeIf _ _)
      fun _ => advances_bind (advances_takeIf _ _) fun _ => advances_bind (advances_takeIf _ _)
      fun _ => advances_bind (advances_takeIf _ _) fun _ => advances_pure _
  | host | link => exact advances_bind (advances_slots _ _) fun _ => advances_pure _
  | switch | ping =>
    exact advances_bind advances_takeName fun _ => advances_bind advances_takeFree
      fun _ => advances_pure _
  | intent =>
    exact advances_bind advances_takeName fun _ => advances_bind (advances_takeIf _ _)
      fun _ => advances_bind advances_takeName fun _ => advances_bind advances_moreHops
      fun _ => advances_pure _
  | up | down => exact advances_pure _

theorem length_statement {s s' : Stream} {t : Tree} (h : statement s = .ok t s') :
    s'.ahead.length < s.ahead.length := by
  unfold statement at h
  split at h
  · simp [fail] at h
  · rename_i t ts hs
    split at h
    · simp [fail] at h
    · rename_i k _
      have := advances_bind (advances_body k)
        (fun r => advances_pure (⟨r.1, t.pos, r.2⟩ : Tree)) ⟨ts, s.stop⟩
      simp only [h] at this
      have := this.1.length_le
      simp only [hs, List.length_cons]
      omega

end Read

/-- How far a reading of statements came: the trees read, the fault that stopped it, if any, and the
tokens left. -/
structure Reading where
  trees : List Tree
  fault? : Option ParseError
  rest : Stream

namespace Stream

def statements (s : Stream) : Reading :=
  if s.ahead.isEmpty then ⟨[], none, s⟩
  else
    match h : Read.statement s with
    | .error e s' => ⟨[], some e, s'⟩
    | .ok t s' =>
      have := Read.length_statement h
      let r := s'.statements
      { r with trees := t :: r.trees }
termination_by s.ahead.length

/-- One tree per statement; at least one is required. -/
def parse (s : Stream) : Except ParseError (List Tree) × Stream :=
  let r := s.statements
  match r.fault? with
  | some e => (.error e, r.rest)
  | none =>
    if r.trees.isEmpty then (.error ⟨r.rest.head.pos, .noStatement⟩, r.rest)
    else (.ok r.trees, r.rest)

/-- The answers of `n` parses in a row, each going on where the one before it stopped. -/
def parses : Nat → Stream → List (Except ParseError (List Tree))
  | 0, _ => []
  | n + 1, s => s.parse.1 :: parses n s.parse.2

end Stream

def Tree.ofTokens (ts : List Token) : Except ParseError (List Tree) :=
  (Stream.ofTokens ts).parse.1

end Netlab
