import Netlab.Proofs.Derivation

namespace Netlab

section

variable (f : Position → Position)

/-- What was noticed at one place, noticed at another. -/
def Located.move {κ : Type} (e : Located κ) : Located κ := { e with pos := f e.pos }

def Token.move (t : Token) : Token := { t with pos := f t.pos }

mutual

/-- A part of a tree whose tokens stand elsewhere. -/
def Child.move : Child → Child
  | .absent => .absent
  | .token t => .token (t.move f)
  | .node rule pos children => .node rule (f pos) (Child.moveAll children)

def Child.moveAll : List Child → List Child
  | [] => []
  | c :: cs => c.move :: Child.moveAll cs

end

def Tree.move (t : Tree) : Tree := ⟨t.rule, f t.pos, t.children.map (Child.move f)⟩

def Stream.move (s : Stream) : Stream := ⟨s.ahead.map (Token.move f), f s.stop⟩

end

theorem Child.moveAll_eq (f : Position → Position) (cs : List Child) :
    moveAll f cs = cs.map (move f) := by
  induction cs with
  | nil => rfl
  | cons c cs ih => rw [moveAll, ih, List.map_cons]

theorem Child.move_node (f : Position → Position) (rule : Rule) (pos : Position)
    (children : List Child) :
    (Child.node rule pos children).move f = .node rule (f pos) (children.map (move f)) := by
  rw [move, moveAll_eq]

theorem Child.isAbsent_move (f : Position → Position) (c : Child) :
    (c.move f).isAbsent = c.isAbsent := by
  cases c <;> rfl

theorem Stream.head_move (f : Position → Position) (s : Stream) : (s.move f).head = s.head.move f := by
  obtain ⟨ahead, stop⟩ := s
  cases ahead <;> rfl

namespace Read

section

variable {α β γ δ : Type} (f : Position → Position)

/-- Where the tokens of a stream stand makes no difference to its reading: of the moved tokens, `r'`
makes what `r` makes of the tokens, moved. -/
def MovesAt (m : α → β) (r : Read α) (r' : Read β) (s : Stream) : Prop :=
  r' (s.move f) =
    match r s with
    | .ok a s' => .ok (m a) (s'.move f)
    | .error e s' => .error (e.move f) (s'.move f)

def Moves (m : α → β) (r : Read α) (r' : Read β) : Prop := ∀ s, MovesAt f m r r' s

variable {f}

theorem movesAt_bind {m : α → β} {n : γ → δ} {r : Read α} {r' : Read β} {k : α → Read γ}
    {k' : β → Read δ} {s : Stream} (hr : MovesAt f m r r' s)
    (hk : ∀ a s', r s = .ok a s' → MovesAt f n (k a) (k' (m a)) s') :
    MovesAt f n (r >>= k) (r' >>= k') s := by
  unfold MovesAt at hr ⊢
  simp only [bind, EStateM.bind, hr]
  cases hs : r s with
  | error e s' => rfl
  | ok a s' => exact hk a s' hs

theorem moves_pure {m : α → β} {a : α} {b : β} (h : m a = b) : Moves f m (pure a) (pure b) :=
  fun s => congrArg (EStateM.Result.ok · (s.move f)) h.symm

theorem moves_bind {m : α → β} {n : γ → δ} {r : Read α} {r' : Read β} {k : α → Read γ}
    {k' : β → Read δ} (hr : Moves f m r r') (hk : ∀ a, Moves f n (k a) (k' (m a))) :
    Moves f n (r >>= k) (r' >>= k') :=
  fun s => movesAt_bind (hr s) fun a s' _ => hk a s'

theorem moves_ite {m : α → β} {c : Prop} [Decidable c] {r₁ r₂ : Read α} {r₁' r₂' : Read β}
    (h₁ : Moves f m r₁ r₁') (h₂ : Moves f m r₂ r₂') :
    Moves f m (if c then r₁ else r₂) (if c then r₁' else r₂') := by
  split
  · exact h₁
  · exact h₂

theorem moves_fail (m : α → β) (cause : Lexeme → ParseFault) : Moves f m (fail cause) (fail cause) := by
  intro s
  simp only [MovesAt, fail, Stream.head_move]
  rfl

theorem moves_throw (m : α → β) (e : ParseError) : Moves f m (throw e) (throw (e.move f)) :=
  fun _ => rfl

theorem moves_head : Moves f (Token.move f) head head := by
  intro s
  simp only [MovesAt, head, Stream.head_move]

theorem moves_takeIf {p : Token → Bool} (hp : ∀ t : Token, p (t.move f) = p t)
    (cause : Lexeme → ParseFault) : Moves f (Token.move f) (takeIf p cause) (takeIf p cause) := by
  rintro ⟨ahead, stop⟩
  have hfail := moves_fail (f := f) (Token.move f) cause ⟨ahead, stop⟩
  cases ahead with
  | nil => exact hfail
  | cons t ts =>
    simp only [MovesAt, Stream.move, List.map_cons] at hfail ⊢
    simp only [takeIf, hp]
    split
    · rfl
    · exact hfail

theorem moves_take (kind : Kind) : Moves f (Token.move f) (take kind) (take kind) :=
  moves_takeIf (fun _ => rfl) _

theorem moves_takeWord (word : String) : Moves f (Token.move f) (takeWord word) (takeWord word) :=
  moves_takeIf (fun _ => rfl) _

theorem moves_takeName : Moves f (Token.move f) takeName takeName :=
  moves_bind (moves_take .name) fun _ => moves_ite (moves_throw _ _) (moves_pure rfl)

theorem moves_takeValue : Moves f (Token.move f) takeValue takeValue := by
  refine moves_bind moves_head fun t => ?_
  have hkind : (t.move f).kind = t.kind := rfl
  rw [hkind]
  split
  · exact moves_takeName
  · exact moves_take _
  · exact moves_take _
  · exact moves_fail _ _

theorem moves_takeFree : Moves f (List.map (Token.move f)) takeFree takeFree := by
  intro s
  simp only [MovesAt, takeFree, Stream.move, List.takeWhile_map, List.dropWhile_map]
  rfl

theorem moves_item (l : Listing) : Moves f (Child.move f) (item l) (item l) := by
  cases l with
  | array => exact moves_bind moves_takeValue fun _ => moves_pure rfl
  | object =>
    exact moves_bind (moves_take _) fun _ => moves_bind (moves_take _) fun _ =>
      moves_bind moves_takeValue fun _ => moves_pure rfl
  | intMap =>
    exact moves_bind (moves_take _) fun _ => moves_bind (moves_take _) fun _ =>
      moves_bind (moves_take _) fun _ => moves_pure rfl

/-- Each round of a list moves, so the whole list does. -/
theorem Leads.moves {m : α → α} {separator : Kind} {r : Read α} {more : Read (List α)}
    (h : Leads separator r more) (ha : Advances r) (hr : Moves f m r r) :
    Moves f (List.map m) more more := by
  rintro ⟨ahead, stop⟩
  induction hn : ahead.length using Nat.strongRecOn generalizing ahead stop with
  | ind n ih =>
    cases ahead with
    | nil =>
      rw [MovesAt, h.nil]
      exact h.nil (f stop)
    | cons t ts =>
      by_cases ht : t.kind = separator
      · have hround : MovesAt f (List.map m) (do let a ← r; let as ← more; return a :: as)
            (do let a ← r; let as ← more; return a :: as) ⟨ts, stop⟩ := by
          refine movesAt_bind (hr _) fun a s' hs => ?_
          have hshorter := ha ⟨ts, stop⟩
          rw [hs] at hshorter
          have hlt : s'.ahead.length < n := by
            rw [← hn, List.length_cons]
            exact Nat.lt_succ_of_le hshorter.1.length_le
          exact movesAt_bind (ih _ hlt s'.ahead s'.stop rfl) fun _ _ _ => moves_pure rfl _
        rw [MovesAt, h.step _ _ _ ht]
        exact (h.step (t.move f) _ _ ht).trans hround
      · rw [MovesAt, h.other _ _ _ ht]
        exact h.other (t.move f) _ _ ht

theorem moves_items (l : Listing) : Moves f (List.map (Child.move f)) (items l) (items l) :=
  moves_bind moves_head fun _ => moves_ite (moves_pure rfl)
    (moves_bind (moves_item l) fun _ =>
      moves_bind ((leads_moreItems l).moves (advances_item l) (moves_item l)) fun _ => moves_pure rfl)

theorem moves_listing (l : Listing) : Moves f (Child.move f) (listing l) (listing l) :=
  moves_bind (moves_take _) fun bracket => moves_bind (moves_items l) fun children =>
    moves_bind (moves_take _) fun _ => moves_pure (Child.move_node f l.rule bracket.pos children)

theorem moves_content (shape : Shape) : Moves f (Child.move f) (content shape) (content shape) := by
  cases shape with
  | name => exact moves_bind moves_takeName fun _ => moves_pure rfl
  | string => exact moves_bind (moves_take _) fun _ => moves_pure rfl
  | number => exact moves_bind (moves_take _) fun _ => moves_pure rfl
  | listing l => exact moves_listing l

theorem isAbsent_getD_move (slots : List Child) (n : Nat) :
    ((slots.map (Child.move f)).getD n .absent).isAbsent = (slots.getD n .absent).isAbsent := by
  rw [List.getD_eq_getElem?_getD, List.getD_eq_getElem?_getD, List.getElem?_map]
  cases slots[n]? with
  | none => rfl
  | some c => exact Child.isAbsent_move f c

theorem moves_clauses (k : Keyword) (table : List Clause) (slots : List Child) :
    Moves f (List.map (Child.move f)) (clauses k table slots)
      (clauses k table (slots.map (Child.move f))) := by
  rintro ⟨ahead, stop⟩
  -- A clause takes any number of tokens, so the induction is on how many are left.
  induction hn : ahead.length using Nat.strongRecOn generalizing ahead stop slots with
  | ind n ih =>
    cases ahead with
    | nil =>
      rw [MovesAt, clauses_nil]
      exact clauses_nil (f stop)
    | cons t ts =>
      cases hc : Clause.startedBy? table t with
      | none =>
        rw [MovesAt, clauses_other hc]
        exact clauses_other (t := t.move f) hc _ _
      | some c =>
        have hslot := isAbsent_getD_move (f := f) slots c.slot
        cases ha : (slots.getD c.slot .absent).isAbsent with
        | false =>
          rw [ha] at hslot
          rw [MovesAt, clauses_duplicate hc ha]
          exact clauses_duplicate (t := t.move f) hc hslot _ _
        | true =>
          rw [ha] at hslot
          have hround : MovesAt f (List.map (Child.move f))
              (do let child ← content c.shape; clauses k table (slots.set c.slot child))
              (do let child ← content c.shape
                  clauses k table ((slots.map (Child.move f)).set c.slot child)) ⟨ts, stop⟩ := by
            refine movesAt_bind (moves_content c.shape _) fun child s' hs => ?_
            have hlt : s'.ahead.length < n := by
              rw [← hn, List.length_cons]
              exact Nat.lt_succ_of_le (length_content hs)
            have hrest := ih _ hlt (slots.set c.slot child) s'.ahead s'.stop rfl
            rwa [List.map_set] at hrest
          rw [MovesAt, clauses_clause hc ha]
          exact (clauses_clause (t := t.move f) hc hslot _ _).trans hround

theorem missing?_move (table : List Clause) (slots : List Child) :
    Clause.missing? table (slots.map (Child.move f)) = Clause.missing? table slots := by
  simp only [Clause.missing?, isAbsent_getD_move]

theorem moves_slots (k : Keyword) (table : List Clause) :
    Moves f (List.map (Child.move f)) (slots k table) (slots k table) := by
  refine moves_bind moves_takeName fun name => moves_bind (moves_clauses k table _) fun filled => ?_
  rw [missing?_move]
  split
  · exact moves_fail _ _
  · exact moves_pure rfl

theorem move_map_token (ts : List Token) :
    (ts.map Child.token).map (Child.move f) = (ts.map (Token.move f)).map Child.token := by
  rw [List.map_map, List.map_map]
  rfl

theorem moves_names (rule : Rule) :
    Moves f (Prod.map id (List.map (Child.move f)))
      (do let name ← takeName; return (rule, (name :: (← takeFree)).map Child.token))
      (do let name ← takeName; return (rule, (name :: (← takeFree)).map Child.token)) :=
  moves_bind moves_takeName fun name => moves_bind moves_takeFree fun names =>
    moves_pure (congrArg (Prod.mk rule) (move_map_token (name :: names)))

theorem moves_body (k : Keyword) :
    Moves f (Prod.map id (List.map (Child.move f))) (body k) (body k) := by
  cases k with
  | controller => exact moves_bind moves_takeValue fun _ => moves_pure rfl
  | remoteController =>
    exact moves_bind moves_takeName fun _ => moves_bind (moves_takeWord _) fun _ =>
      moves_bind (moves_take _) fun _ => moves_bind (moves_takeWord _) fun _ =>
        moves_bind (moves_take _) fun _ => moves_pure rfl
  | host | link => exact moves_bind (moves_slots _ _) fun _ => moves_pure rfl
  | switch | ping => exact moves_names _
  | intent =>
    exact moves_bind moves_takeName fun src => moves_bind (moves_take _) fun _ =>
      moves_bind moves_takeName fun dst =>
        moves_bind (leads_moreHops.moves advances_takeName moves_takeName) fun hops =>
          moves_pure (congrArg (Prod.mk _) (move_map_token (src :: dst :: hops)))
  | up | down => exact moves_pure rfl

theorem moves_statement : Moves f (Tree.move f) statement statement := by
  rintro ⟨ahead, stop⟩
  have hfail := moves_fail (f := f) (Tree.move f) .noKeyword ⟨ahead, stop⟩
  cases ahead with
  | nil => exact hfail
  | cons t ts =>
    simp only [MovesAt, Stream.move, List.map_cons] at hfail ⊢
    have hkeyword : keyword? (t.move f) = keyword? t := rfl
    simp only [statement, hkeyword]
    split
    · exact hfail
    · rename_i k _
      exact movesAt_bind (moves_body k ⟨ts, stop⟩) fun _ s' _ => moves_pure rfl s'

end

end Read

section

variable {α β : Type} (f : Position → Position)

/-- An answer whose places are moved. -/
def moved (m : α → β) (x : Except ParseError α) : Except ParseError β :=
  (x.map m).mapError (Located.move f)

def Reading.move (r : Reading) : Reading :=
  ⟨r.trees.map (Tree.move f), r.fault?.map (Located.move f), r.rest.move f⟩

namespace Stream

theorem statements_move (s : Stream) : (s.move f).statements = s.statements.move f := by
  fun_induction Stream.statements s with
  | case1 s he =>
    obtain ⟨ahead, stop⟩ := s
    obtain rfl : ahead = [] := by simpa using he
    exact statements_nil (f stop)
  | case2 s he e s' hs =>
    obtain ⟨ahead, stop⟩ := s
    cases ahead with
    | nil => exact absurd rfl he
    | cons t ts =>
      have hmoved := Read.moves_statement (f := f) ⟨t :: ts, stop⟩
      rw [Read.MovesAt, hs] at hmoved
      exact statements_of_error hmoved
  | case3 s he tree s' hs _ r ih =>
    have hmoved := Read.moves_statement (f := f) s
    rw [Read.MovesAt, hs] at hmoved
    rw [statements_of_ok hmoved, ih]
    rfl

theorem parse_move (s : Stream) :
    (s.move f).parse.1 = moved f (List.map (Tree.move f)) s.parse.1 := by
  have hreading := statements_move f s
  simp only [parse, hreading, Reading.move, head_move, List.isEmpty_map]
  cases s.statements.fault? with
  | some e => rfl
  | none =>
    simp only [Option.map_none]
    split <;> rfl

/-- A stream ends at its end mark, if there is one. -/
theorem ofTokens_move {ts : List Token} (h : ∃ t ∈ ts, t.kind = .eof) :
    ofTokens (ts.map (Token.move f)) = (ofTokens ts).move f := by
  have hkind : ∀ t : Token, (t.move f).kind = t.kind := fun _ => rfl
  have hstop : (ts.find? fun t => t.kind = .eof).isSome = true := by simpa using h
  obtain ⟨stop, hfound⟩ := Option.isSome_iff_exists.mp hstop
  simp only [ofTokens, move, List.takeWhile_map, List.find?_map, Function.comp_def, hkind, hfound]
  rfl

end Stream

theorem Tree.ofTokens_move {ts : List Token} (h : ∃ t ∈ ts, t.kind = .eof) :
    ofTokens (ts.map (Token.move f)) = moved f (List.map (Tree.move f)) (ofTokens ts) := by
  rw [ofTokens, Stream.ofTokens_move f h, Stream.parse_move, ofTokens]

end

end Netlab
