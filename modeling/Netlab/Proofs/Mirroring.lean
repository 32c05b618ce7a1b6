import Netlab.Proofs.Derivation
import Netlab.Proofs.Walk

namespace Netlab

/-- From an index on a source has the tokens of a list, and behind them, under `m`, an end mark at
`stop`. -/
inductive Source.Shows (S : Source) (m : Nat) (stop : Position) : Nat → List Token → Prop
  | done {t : Token} (hl : S.look m = some t) (ht : t.kind = .eof) (hp : t.pos = stop) :
      Shows S m stop m []
  | more {i : Nat} {t : Token} {ts : List Token} (hl : S.look i = some t) (ht : t.kind ≠ .eof)
      (h : Shows S m stop (i + 1) ts) : Shows S m stop i (t :: ts)

theorem Source.Shows.index {S : Source} {m i : Nat} {stop : Position} {ts : List Token}
    (h : Shows S m stop i ts) : i + ts.length = m := by
  induction h with
  | done => rfl
  | more _ _ _ ih =>
    rw [List.length_cons]
    omega

theorem Read.bind_congr_at {α β : Type} {r r' : Read α} {s s' : Stream} (h : r s = r' s')
    (f : α → Read β) : (r >>= f) s = (r' >>= f) s' := by
  simp only [bind, EStateM.bind, h]

namespace Walk

variable {α β σ : Type} {S : Source} {m i : Nat} {stop : Position} {ts : List Token}

/-- A walk and a reading step give the same answer, and the tokens left to them are the same. -/
inductive Agree (S : Source) (m : Nat) (stop : Position) :
    Arrival α → EStateM.Result ParseError Stream α → Prop
  | ok {a : α} {j : Nat} {us : List Token} (h : S.Shows m stop j us) :
      Agree S m stop (.ok a, j) (.ok a ⟨us, stop⟩)
  | error {e : ParseError} {j : Nat} {us : List Token} (h : S.Shows m stop j us) :
      Agree S m stop (.error (.fault e), j) (.error e ⟨us, stop⟩)

/-- Along a source a walk does what a reading step does with the stream of its tokens. -/
def Mirrors (w : Walk α) (r : Read α) : Prop :=
  ∀ ⦃S : Source⦄ ⦃m i : Nat⦄ ⦃stop : Position⦄ ⦃ts : List Token⦄, S.Shows m stop i ts →
    Agree S m stop (w.run S i) (r ⟨ts, stop⟩)

theorem run_bind (w : Walk α) (f : α → Walk β) (S : Source) (i : Nat) :
    (w >>= f).run S i =
      match w.run S i with
      | (.error e, j) => (.error e, j)
      | (.ok a, j) => (f a).run S j := rfl

theorem run_here_bind {t : Token} (hl : S.look i = some t) (f : Token → Walk α) :
    (here >>= f).run S i = (f t).run S i := by
  simp only [run_bind, here, hl]

theorem run_advance {t : Token} (hl : S.look i = some t) (ht : t.kind ≠ .eof) :
    advance.run S i = (.ok t, i + 1) := by
  simp only [advance, hl, if_neg ht]

theorem mirrors_pure (a : α) : Mirrors (pure a) (pure a) := fun _ _ _ _ _ hs => .ok hs

theorem Agree.bind {w : Walk α} {r : Read α} {f : α → Walk β} {g : α → Read β} {s : Stream}
    (h : Agree S m stop (w.run S i) (r s))
    (hf : ∀ a j us, i ≤ j → S.Shows m stop j us → Agree S m stop ((f a).run S j) (g a ⟨us, stop⟩)) :
    Agree S m stop ((w >>= f).run S i) ((r >>= g) s) := by
  have honward := w.onward S i
  rw [run_bind]
  simp only [Bind.bind, EStateM.bind]
  generalize w.run S i = x at h honward ⊢
  generalize r s = y at h ⊢
  cases h with
  | ok hs => exact hf _ _ _ honward hs
  | error hs => exact .error hs

theorem mirrors_bind {w : Walk α} {r : Read α} {f : α → Walk β} {g : α → Read β} (hw : Mirrors w r)
    (hf : ∀ a, Mirrors (f a) (g a)) : Mirrors (w >>= f) (r >>= g) :=
  fun _ _ _ _ _ hs => (hw hs).bind fun a _ _ _ hs' => hf a hs'

theorem mirrors_ite {c : Prop} [Decidable c] {w w' : Walk α} {r r' : Read α} (h : Mirrors w r)
    (h' : Mirrors w' r') : Mirrors (if c then w else w') (if c then r else r') := by
  split
  · exact h
  · exact h'

theorem mirrors_raise (e : ParseError) : Mirrors (raise e : Walk α) (throw e) :=
  fun _ _ _ _ _ hs => .error hs

theorem mirrors_fail (cause : Lexeme → ParseFault) :
    Mirrors (fail cause : Walk α) (Read.fail cause) := by
  intro S m i stop ts hs
  cases hs with
  | done hl ht hp =>
    rw [fail, run_here_bind hl, Token.found_of_eof ht, hp]
    exact .error (.done hl ht hp)
  | more hl ht hs' =>
    rw [fail, run_here_bind hl, Token.found_of_ne_eof ht]
    exact .error (.more hl ht hs')

/-- The token under the index may differ from the head of the stream, but at the end only: there an end
mark can have a text. -/
theorem mirrors_here_bind {f : Token → Walk α} {g : Token → Read α}
    (h : ∀ t u, t.kind = u.kind → Mirrors (f t) (g u)) : Mirrors (here >>= f) (Read.head >>= g) := by
  intro S m i stop ts hs
  cases hs with
  | done hl ht hp =>
    rw [run_here_bind hl]
    exact h _ ⟨⟨.eof, ""⟩, stop⟩ ht (.done hl ht hp)
  | more hl ht hs' =>
    rw [run_here_bind hl]
    exact h _ _ rfl (.more hl ht hs')

theorem mirrors_takeIf {p : Token → Bool} (hp : ∀ t, t.kind = .eof → p t = false)
    (cause : Lexeme → ParseFault) : Mirrors (takeIf p cause) (Read.takeIf p cause) := by
  intro S m i stop ts hs
  have hfail := mirrors_fail (α := Token) cause hs
  cases hs with
  | done hl ht _ =>
    rw [takeIf, run_here_bind hl, hp _ ht]
    exact hfail
  | more hl ht hs' =>
    rw [takeIf, run_here_bind hl, Read.takeIf]
    simp only
    split
    · rw [run_advance hl ht]
      exact .ok hs'
    · exact hfail

theorem mirrors_take {kind : Kind} (h : kind ≠ .eof) : Mirrors (take kind) (Read.take kind) :=
  mirrors_takeIf (fun _ ht => decide_eq_false fun he => h (he.symm.trans ht)) _

theorem mirrors_takeWord (word : String) : Mirrors (takeWord word) (Read.takeWord word) :=
  mirrors_takeIf (fun t ht => by simp [Token.isWord, ht]) _

theorem mirrors_takeName : Mirrors takeName Read.takeName :=
  mirrors_bind (mirrors_take (by decide)) fun _ => mirrors_ite (mirrors_raise _) (mirrors_pure _)

theorem mirrors_takeValue : Mirrors takeValue Read.takeValue := by
  refine mirrors_here_bind fun t u h => ?_
  rw [h]
  cases u.kind with
  | name => exact mirrors_takeName
  | string | number => exact mirrors_take (by decide)
  | _ => exact mirrors_fail _

theorem run_loop {l : Loop σ} {t : Token} (hl : S.look i = some t) (x : σ) :
    (loop l x).run S i =
      match l.turn x t with
      | .leave => (.ok x, i)
      | .fail cause => (.error (.fault ⟨t.pos, cause t.found⟩), i)
      | .step next => (next >>= loop l).run S (i + 1) := by
  change l.run S x i = _
  rw [Loop.run]
  split
  · rename_i hu
    cases hl.symm.trans hu
  · rename_i u hu
    obtain rfl : t = u := Option.some.inj (hl.symm.trans hu)
    split
    · rename_i ht
      simp only [ht]
    · rename_i ht
      simp only [ht]
    · rename_i next ht
      simp only [ht, run_bind]
      split
      · rename_i hn
        simp only [hn]
      · rename_i hn
        simp only [hn, loop]

/-- At a token, `r` does what a turn of a loop does. -/
def Turn.Matches (turn : Turn σ) (r : σ → Read σ) (x : σ) (t : Token) : Prop :=
  match turn with
  | .leave => ∀ ts stop, r x ⟨t :: ts, stop⟩ = .ok x ⟨t :: ts, stop⟩
  | .fail cause =>
    ∀ ts stop, r x ⟨t :: ts, stop⟩ = .error ⟨t.pos, cause t.toLexeme⟩ ⟨t :: ts, stop⟩
  | .step next =>
    ∃ r', Mirrors next r' ∧ ∀ ts stop, r x ⟨t :: ts, stop⟩ = (r' >>= r) ⟨ts, stop⟩

theorem mirrors_loop {l : Loop σ} {r : σ → Read σ}
    (hnil : ∀ x stop, r x ⟨[], stop⟩ = .ok x ⟨[], stop⟩)
    (hcons : ∀ x t, t.kind ≠ .eof → (l.turn x t).Matches r x t) (x : σ) :
    Mirrors (loop l x) (r x) := by
  intro S m i stop ts hs
  -- A turn takes at least the token it is made at, so the induction is on how many are left.
  induction hn : ts.length using Nat.strongRecOn generalizing x i ts with
  | ind n ih =>
    cases hs with
    | done hl ht hp =>
      rw [run_loop hl, l.quiet x ht, hnil]
      exact .ok (.done hl ht hp)
    | more hl ht hs' =>
      rename_i t us
      have hturn := hcons x t ht
      rw [run_loop hl]
      generalize l.turn x t = turn at hturn ⊢
      cases turn with
      | leave =>
        rw [hturn]
        exact .ok (.more hl ht hs')
      | fail cause =>
        rw [hturn, Token.found_of_ne_eof ht]
        exact .error (.more hl ht hs')
      | step next =>
        obtain ⟨r', hnext, hr⟩ := hturn
        rw [hr]
        refine (hnext hs').bind fun y j vs hj hs'' => ih vs.length ?_ y hs'' rfl
        have hm := hs''.index.trans hs'.index.symm
        rw [List.length_cons] at hn
        omega

theorem mirrors_item (l : Listing) : Mirrors (item l) (Read.item l) := by
  cases l with
  | array => exact mirrors_bind mirrors_takeValue fun _ => mirrors_pure _
  | object =>
    exact mirrors_bind (mirrors_take (by decide)) fun _ => mirrors_bind (mirrors_take (by decide))
      fun _ => mirrors_bind mirrors_takeValue fun _ => mirrors_pure _
  | intMap =>
    exact mirrors_bind (mirrors_take (by decide)) fun _ => mirrors_bind (mirrors_take (by decide))
      fun _ => mirrors_bind (mirrors_take (by decide)) fun _ => mirrors_pure _

theorem mirrors_behind {separator : Kind} (hs : separator ≠ .eof) {w : Walk α} {r : Read α}
    {more : Read (List α)} (h : Read.Leads separator r more) (hw : Mirrors w r) (as : List α) :
    Mirrors (loop (behind separator hs w) as) (do return as ++ (← more)) := by
  refine mirrors_loop (r := fun as => do return as ++ (← more)) ?_ ?_ as
  · intro as stop
    simp only [bind, EStateM.bind, h.nil, List.append_nil]
    rfl
  · intro as t ht
    simp only [behind]
    by_cases hk : t.kind = separator
    · rw [if_pos hk]
      refine ⟨_, mirrors_bind hw fun a => mirrors_pure (as ++ [a]), fun ts stop => ?_⟩
      change (more >>= fun more => pure (as ++ more)) _ = _
      rw [Read.bind_congr_at (h.step t ts stop hk)]
      simp only [bind_assoc, pure_bind, List.append_assoc, List.singleton_append]
    · rw [if_neg hk]
      intro ts stop
      simp only [bind, EStateM.bind, h.other t ts stop hk, List.append_nil]
      rfl

theorem mirrors_items (l : Listing) : Mirrors (items l) (Read.items l) := by
  refine mirrors_here_bind fun t u h => ?_
  rw [h]
  refine mirrors_ite (mirrors_pure _) (mirrors_bind (mirrors_item l) fun c => ?_)
  exact mirrors_behind (by decide) (Read.leads_moreItems l) (mirrors_item l) [c]

theorem mirrors_listing (l : Listing) : Mirrors (listing l) (Read.listing l) :=
  mirrors_bind (mirrors_take (by cases l <;> decide)) fun _ => mirrors_bind (mirrors_items l) fun _ =>
    mirrors_bind (mirrors_take (by cases l <;> decide)) fun _ => mirrors_pure _

theorem mirrors_content (shape : Shape) : Mirrors (content shape) (Read.content shape) := by
  cases shape with
  | name => exact mirrors_bind mirrors_takeName fun _ => mirrors_pure _
  | string | number => exact mirrors_bind (mirrors_take (by decide)) fun _ => mirrors_pure _
  | listing l => exact mirrors_listing l

theorem mirrors_clauses (k : Keyword) (table : List Clause) (filled : List Child) :
    Mirrors (loop (clauses k table) filled) (Read.clauses k table filled) := by
  refine mirrors_loop (r := Read.clauses k table) (fun _ => Read.clauses_nil) ?_ filled
  intro filled t ht
  simp only [clauses]
  cases hc : Clause.startedBy? table t with
  | none => exact Read.clauses_other hc
  | some c =>
    dsimp only
    by_cases ha : (filled.getD c.slot .absent).isAbsent = true
    · rw [if_pos ha]
      refine ⟨_, mirrors_bind (mirrors_content c.shape) fun child => mirrors_pure _, fun ts stop => ?_⟩
      rw [Read.clauses_clause hc ha]
      simp only [bind_assoc, pure_bind]
    · rw [if_neg ha]
      exact Read.clauses_duplicate hc (Bool.eq_false_iff.mpr ha)

theorem mirrors_slots (k : Keyword) (table : List Clause) :
    Mirrors (slots k table) (Read.slots k table) := by
  refine mirrors_bind mirrors_takeName fun name => mirrors_bind (mirrors_clauses k table _)
    fun filled => ?_
  cases Clause.missing? table filled with
  | some c => exact mirrors_fail _
  | none => exact mirrors_pure _

theorem mirrors_freeNames (names : List Token) :
    Mirrors (loop freeNames names) (do return names ++ (← Read.takeFree)) := by
  refine mirrors_loop (r := fun names => do return names ++ (← Read.takeFree)) ?_ ?_ names
  · intro names stop
    exact congrArg (EStateM.Result.ok · _) (List.append_nil names)
  · intro names t ht
    simp only [freeNames]
    by_cases hf : Read.isFree t = true
    · rw [if_pos hf]
      refine ⟨_, mirrors_pure (names ++ [t]), fun ts stop => ?_⟩
      change EStateM.Result.ok (names ++ (t :: ts).takeWhile Read.isFree) _ =
        EStateM.Result.ok (names ++ [t] ++ ts.takeWhile Read.isFree) _
      rw [List.takeWhile_cons_of_pos hf, List.dropWhile_cons_of_pos hf, List.append_cons]
    · rw [if_neg hf]
      intro ts stop
      change EStateM.Result.ok (names ++ (t :: ts).takeWhile Read.isFree) _ = _
      rw [List.takeWhile_cons_of_neg hf, List.dropWhile_cons_of_neg hf, List.append_nil]

/-- What a walk goes on with has been put behind what it had collected, which in a stream is done at the
end. -/
theorem mirrors_collected {w : Walk (List α)} {r : Read (List α)} (collected : List α)
    (h : Mirrors w (do return collected ++ (← r))) (f : List α → β) :
    Mirrors (do return f (← w)) (do return f (collected ++ (← r))) := by
  have h' := mirrors_bind h fun as => mirrors_pure (f as)
  simp only [bind_assoc, pure_bind] at h'
  exact h'

theorem mirrors_body (k : Keyword) : Mirrors (body k) (Read.body k) := by
  cases k with
  | controller => exact mirrors_bind mirrors_takeValue fun _ => mirrors_pure _
  | remoteController =>
    exact mirrors_bind mirrors_takeName fun _ => mirrors_bind (mirrors_takeWord _) fun _ =>
      mirrors_bind (mirrors_take (by decide)) fun _ => mirrors_bind (mirrors_takeWord _) fun _ =>
        mirrors_bind (mirrors_take (by decide)) fun _ => mirrors_pure _
  | host | link => exact mirrors_bind (mirrors_slots _ _) fun _ => mirrors_pure _
  | switch | ping =>
    exact mirrors_bind mirrors_takeName fun name => mirrors_collected [name] (mirrors_freeNames _) _
  | intent =>
    refine mirrors_bind mirrors_takeName fun src => mirrors_bind (mirrors_take (by decide)) fun _ =>
      mirrors_bind mirrors_takeName fun dst => mirrors_collected [src, dst] ?_ _
    exact mirrors_behind (by decide) Read.leads_moreHops mirrors_takeName _
  | up | down => exact mirrors_pure _

end Walk

namespace Read

/-- The statements of a stream, behind those that have been read already. -/
def statements (trees : List Tree) : Read (List Tree) := fun s =>
  match s.statements.fault? with
  | some e => .error e s.statements.rest
  | none => .ok (trees ++ s.statements.trees) s.statements.rest

def parse : Read (List Tree) := do
  let trees ← statements []
  if trees.isEmpty then fail fun _ => .noStatement
  else return trees

end Read

theorem Stream.parse_eq (s : Stream) :
    s.parse =
      match Read.parse s with
      | .ok trees s' => (.ok trees, s')
      | .error e s' => (.error e, s') := by
  simp only [Stream.parse, Read.parse, bind, EStateM.bind, Read.statements, List.nil_append]
  cases s.statements.fault? with
  | some e => rfl
  | none =>
    dsimp only
    split <;> rfl

namespace Walk

theorem mirrors_statements (trees : List Tree) :
    Mirrors (loop statements trees) (Read.statements trees) := by
  refine mirrors_loop (r := Read.statements) ?_ ?_ trees
  · intro trees stop
    simp only [Read.statements, Stream.statements_nil, List.append_nil]
  · intro trees t ht
    simp only [statements, if_neg ht]
    cases hk : Read.keyword? t with
    | none =>
      intro ts stop
      simp only [Read.statements, Stream.statements_of_error (Read.statement_other hk ts stop)]
    | some k =>
      refine ⟨_, mirrors_bind (mirrors_body k) fun _ => mirrors_pure _, fun ts stop => ?_⟩
      have hstatement := Read.statement_keyword hk ts stop
      simp only [bind_assoc, pure_bind]
      simp only [bind, EStateM.bind] at hstatement ⊢
      cases hb : Read.body k ⟨ts, stop⟩ with
      | error e s' =>
        rw [hb] at hstatement
        simp only [Read.statements, Stream.statements_of_error hstatement]
      | ok r s' =>
        rw [hb] at hstatement
        simp only [Read.statements, Stream.statements_of_ok hstatement, List.append_assoc,
          List.singleton_append]

theorem mirrors_parse : Mirrors parse Read.parse :=
  mirrors_bind (mirrors_statements []) fun _ => mirrors_ite (mirrors_fail _) (mirrors_pure _)

end Walk

end Netlab
