import Netlab.Tree.OfTokens

namespace Netlab

/-- Tokens that are looked up by their index. There may be none under an index, and from `bound` on
there are only end marks. -/
structure Source where
  look : Nat → Option Token
  bound : Nat
  quiet : ∀ {i t}, bound ≤ i → look i = some t → t.kind = .eof

/-- What stops a walk: there is no token where it looks for one, or there is a wrong one. -/
inductive Stop where
  | overrun
  | fault (e : ParseError)
deriving DecidableEq

def Token.found (t : Token) : Lexeme :=
  if t.kind = .eof then ⟨.eof, ""⟩ else t.toLexeme

theorem Token.found_of_eof {t : Token} (h : t.kind = .eof) : t.found = ⟨.eof, ""⟩ :=
  if_pos h

theorem Token.found_of_ne_eof {t : Token} (h : t.kind ≠ .eof) : t.found = t.toLexeme :=
  if_neg h

abbrev Arrival (α : Type) := Except Stop α × Nat

/-- A step along the tokens of a source: from an index it leads to an answer and to an index that is
not in front of the first one. -/
structure Walk (α : Type) where
  run : Source → Nat → Arrival α
  onward : ∀ S i, i ≤ (run S i).2

namespace Walk

variable {α β σ : Type}

instance : Monad Walk where
  pure a := ⟨fun _ i => (.ok a, i), fun _ i => Nat.le_refl i⟩
  bind w f :=
    { run := fun S i =>
        match w.run S i with
        | (.error e, j) => (.error e, j)
        | (.ok a, j) => (f a).run S j
      onward := by
        intro S i
        have hw := w.onward S i
        generalize w.run S i = r at hw
        match r with
        | (.error e, j) => exact hw
        | (.ok a, j) => exact Nat.le_trans hw ((f a).onward S j) }

def here : Walk Token where
  run S i :=
    match S.look i with
    | none => (.error .overrun, i)
    | some t => (.ok t, i)
  onward S i := by cases S.look i <;> exact Nat.le_refl i

/-- Take the token under the index. An end mark stays where it is. -/
def advance : Walk Token where
  run S i :=
    match S.look i with
    | none => (.error .overrun, i)
    | some t => (.ok t, if t.kind = .eof then i else i + 1)
  onward S i := by
    cases S.look i with
    | none => exact Nat.le_refl i
    | some t =>
      simp only
      split <;> omega

def raise (e : ParseError) : Walk α :=
  ⟨fun _ i => (.error (.fault e), i), fun _ i => Nat.le_refl i⟩

def fail (cause : Lexeme → ParseFault) : Walk α := do
  let t ← here
  raise ⟨t.pos, cause t.found⟩

def takeIf (p : Token → Bool) (cause : Lexeme → ParseFault) : Walk Token := do
  if p (← here) then advance else fail cause

def take (kind : Kind) : Walk Token :=
  takeIf (fun t => t.kind = kind) (.expected kind)

def takeWord (word : String) : Walk Token :=
  takeIf (fun t => t.isWord word) (.expectedWord word)

def takeName : Walk Token := do
  let t ← take .name
  if Keyword.isReserved t.text then raise ⟨t.pos, .reserved t.text⟩
  else return t

def takeValue : Walk Token := do
  match (← here).kind with
  | .name => takeName
  | .string => take .string
  | .number => take .number
  | _ => fail .expectedValue

/-- What a loop does at a token: it ends, it fails there, or it takes the token and goes on with what
comes next. -/
inductive Turn (σ : Type) where
  | leave
  | fail (cause : Lexeme → ParseFault)
  | step (next : Walk σ)

/-- A loop over the tokens from an index on. It ends at an end mark, if not before. -/
structure Loop (σ : Type) where
  turn : σ → Token → Turn σ
  quiet : ∀ x {t}, t.kind = .eof → turn x t = .leave

namespace Loop

/-- Each round of a loop takes a token in front of the bound. -/
theorem bound_sub_lt (l : Loop σ) {S : Source} {x : σ} {i j : Nat} {t : Token} {next : Walk σ}
    {answer : Except Stop σ} (hl : S.look i = some t) (ht : l.turn x t = .step next)
    (hn : next.run S (i + 1) = (answer, j)) : S.bound - j < S.bound - i := by
  have hj := next.onward S (i + 1)
  rw [hn] at hj
  have hi : i < S.bound := by
    refine Nat.lt_of_not_le fun hb => ?_
    rw [l.quiet x (S.quiet hb hl)] at ht
    cases ht
  omega

def run (l : Loop σ) (S : Source) (x : σ) (i : Nat) : Arrival σ :=
  match hl : S.look i with
  | none => (.error .overrun, i)
  | some t =>
    match ht : l.turn x t with
    | .leave => (.ok x, i)
    | .fail cause => (.error (.fault ⟨t.pos, cause t.found⟩), i)
    | .step next =>
      match hn : next.run S (i + 1) with
      | (.error e, j) => (.error e, j)
      | (.ok y, j) =>
        have := l.bound_sub_lt hl ht hn
        l.run S y j
termination_by S.bound - i

theorem onward (l : Loop σ) (S : Source) (x : σ) (i : Nat) : i ≤ (l.run S x i).2 := by
  fun_induction Loop.run l S x i with
  | case1 | case2 | case3 => exact Nat.le_refl _
  | case4 x i t _ next _ e j hn =>
    have := next.onward S (i + 1)
    rw [hn] at this
    exact Nat.le_of_succ_le this
  | case5 x i t _ next _ y j hn _ ih =>
    have := next.onward S (i + 1)
    rw [hn] at this
    exact Nat.le_trans (Nat.le_of_succ_le this) ih

end Loop

def loop (l : Loop σ) (x : σ) : Walk σ :=
  ⟨fun S i => l.run S x i, fun S i => l.onward S x i⟩

def item : Listing → Walk Child
  | .array => return .token (← takeValue)
  | .object => do
    let key ← take .string
    let _ ← take .colon
    let value ← takeValue
    return .node .pair key.pos [.token key, .token value]
  | .intMap => do
    let key ← take .number
    let _ ← take .colon
    let value ← take .number
    return .node .intPair key.pos [.token key, .token value]

def behind (separator : Kind) (hs : separator ≠ .eof) (w : Walk α) : Loop (List α) where
  turn as t := if t.kind = separator then .step (do return as ++ [← w]) else .leave
  quiet _ _ ht := if_neg fun he => hs (he.symm.trans ht)

def items (l : Listing) : Walk (List Child) := do
  if (← here).kind = l.closing then return []
  else loop (behind .comma (by decide) (item l)) [← item l]

def listing (l : Listing) : Walk Child := do
  let bracket ← take l.opening
  let children ← items l
  let _ ← take l.closing
  return .node l.rule bracket.pos children

def content : Shape → Walk Child
  | .name => return .token (← takeName)
  | .string => return .token (← take .string)
  | .number => return .token (← take .number)
  | .listing l => listing l

def clauses (statement : Keyword) (table : List Clause) : Loop (List Child) where
  turn slots t :=
    match Clause.startedBy? table t with
    | none => .leave
    | some clause =>
      if (slots.getD clause.slot .absent).isAbsent then
        .step (do return slots.set clause.slot (← content clause.shape))
      else .fail fun _ => .duplicateClause clause.keyword statement.text
  quiet _ t ht := by simp [Clause.startedBy?, ht]

def slots (statement : Keyword) (table : List Clause) : Walk (List Child) := do
  let name ← takeName
  let filled ← loop (clauses statement table) (.token name :: List.replicate 7 .absent)
  match Clause.missing? table filled with
  | some clause => fail (.missingClause clause.keyword statement.text)
  | none => return filled

def freeNames : Loop (List Token) where
  turn names t := if Read.isFree t then .step (pure (names ++ [t])) else .leave
  quiet _ t ht := by simp [Read.isFree, ht]

def body : Keyword → Walk (Rule × List Child)
  | .controller => return (.controller, [.token (← takeValue)])
  | .remoteController => do
    let name ← takeName
    let _ ← takeWord "host"
    let host ← take .string
    let _ ← takeWord "port"
    let port ← take .number
    return (.remoteController, [.token name, .token host, .token port])
  | .host => return (.host, ← slots .host Clause.ofHost)
  | .switch => return (.switch, (← loop freeNames [← takeName]).map .token)
  | .link => return (.link, ← slots .link Clause.ofLink)
  | .intent => do
    let src ← takeName
    let _ ← take .arrow
    let dst ← takeName
    return (.intent, (← loop (behind .arrow (by decide) takeName) [src, dst]).map .token)
  | .up => return (.up, [])
  | .down => return (.down, [])
  | .ping => return (.ping, (← loop freeNames [← takeName]).map .token)

def statements : Loop (List Tree) where
  turn trees t :=
    if t.kind = .eof then .leave
    else
      match Read.keyword? t with
      | none => .fail .noKeyword
      | some k => .step (do let (rule, children) ← body k; return trees ++ [⟨rule, t.pos, children⟩])
  quiet _ _ ht := if_pos ht

def parse : Walk (List Tree) := do
  let trees ← loop statements []
  if trees.isEmpty then fail fun _ => .noStatement
  else return trees

end Walk

end Netlab
