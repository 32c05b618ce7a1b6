import Netlab.Proofs.Reading.Statements

namespace Netlab

theorem Keyword.isReserved_text (k : Keyword) : isReserved k.text = true := by
  cases k <;> decide

theorem Keyword.follow_none (k : Keyword) : k.Follow none := by
  cases k <;> simp [Follow, Read.noClause]

/-- A keyword ends every statement: it is neither a name nor the keyword of a clause. -/
theorem Keyword.follow_keyword {t : Token} {j : Keyword} (ht : t.isWord j.text = true)
    (k : Keyword) : k.Follow (some t) := by
  simp only [Token.isWord, Bool.and_eq_true, decide_eq_true_eq] at ht
  obtain ⟨hkind, htext⟩ := ht
  have hclause : ∀ table, Clause.Regular table → Read.noClause table [] (some t) := by
    intro table h u hu
    cases hu
    by_contra hc
    obtain ⟨c, hc⟩ := Option.ne_none_iff_exists'.mp hc
    obtain ⟨hm, hw⟩ := h.startedBy?_eq_some.mp hc
    simp only [Token.isWord, Bool.and_eq_true, decide_eq_true_eq] at hw
    have hr := h.free c hm
    rw [← hw.2, htext, j.isReserved_text] at hr
    cases hr
  have hfree : Read.isFree t = false := by simp [Read.isFree, htext, j.isReserved_text]
  cases k with
  | host => exact hclause _ Clause.regular_ofHost
  | link => exact hclause _ Clause.regular_ofLink
  | switch | ping => simpa [Follow] using hfree
  | intent => simp [Follow, hkind]
  | controller | remoteController | up | down => trivial

namespace Block

variable {table : List Clause}

theorem eq_of_written (h : Clause.Regular table) {xs ys : List Block}
    (hx : ∀ b ∈ xs, b.Valid table) (hy : ∀ b ∈ ys, b.Valid table)
    (he : xs.flatMap written = ys.flatMap written) : xs = ys := by
  induction xs generalizing ys with
  | nil =>
    cases ys with
    | nil => rfl
    | cons y ys => cases he
  | cons x xs ih =>
    cases ys with
    | nil => cases he
    | cons y ys =>
      obtain ⟨hvx, hxs⟩ := List.forall_mem_cons.mp hx
      obtain ⟨hvy, hys⟩ := List.forall_mem_cons.mp hy
      obtain ⟨xkey, xclause, xcontent, xchild⟩ := x
      obtain ⟨ykey, yclause, ycontent, ychild⟩ := y
      simp only [List.flatMap_cons, written, List.cons_append, List.cons.injEq] at he
      obtain ⟨rfl, he⟩ := he
      have hc : some xclause = some yclause := by
        rw [← h.startedBy?_eq_some.mpr ⟨hvx.mem, hvx.key⟩, ← h.startedBy?_eq_some.mpr ⟨hvy.mem, hvy.key⟩]
      cases hc
      obtain ⟨rfl, rfl, hrest⟩ :=
        (Read.recognizes_content _).unique hvx.content hvy.content he trivial trivial
      rw [ih hxs hys hrest]

end Block

theorem hops_eq_of_written {xs ys : List (Token × Token)}
    (he : xs.flatMap (fun h => [h.1, h.2]) = ys.flatMap (fun h => [h.1, h.2])) : xs = ys := by
  induction xs generalizing ys with
  | nil =>
    cases ys with
    | nil => rfl
    | cons y ys => cases he
  | cons x xs ih =>
    cases ys with
    | nil => cases he
    | cons y ys =>
      simp only [List.flatMap_cons, List.cons_append, List.nil_append, List.cons.injEq] at he
      obtain ⟨h₁, h₂, hrest⟩ := he
      rw [Prod.ext h₁ h₂, ih hrest]

theorem Body.eq_of_written {k : Keyword} {b c : Body} (hb : b.Valid k) (hc : c.Valid k)
    (he : b.written = c.written) : b = c := by
  -- No keyword has bodies of two forms.
  cases b with
  | nothing =>
    cases c with
    | nothing => rfl
    | _ => cases he
  | value t =>
    cases c with
    | value u => simpa [written] using he
    | _ => cases k <;> first | exact hb.elim | exact hc.elim
  | remote name hostWord host portWord port =>
    cases c with
    | remote => simpa [written] using he
    | _ => cases k <;> first | exact hb.elim | exact hc.elim
  | names first more =>
    cases c with
    | names => simpa [written] using he
    | _ => cases k <;> first | exact hb.elim | exact hc.elim
  | chain first hops =>
    cases c with
    | chain first' hops' =>
      obtain ⟨rfl, hrest⟩ := List.cons.inj he
      rw [hops_eq_of_written hrest]
    | _ => cases k <;> first | exact hb.elim | exact hc.elim
  | clauses name blocks =>
    cases c with
    | clauses name' blocks' =>
      obtain ⟨rfl, hrest⟩ := List.cons.inj he
      obtain ⟨ht, hb⟩ := valid_clauses hb
      rw [Block.eq_of_written ht hb.valid (valid_clauses hc).2.valid hrest]
    | _ => cases k <;> first | exact hb.elim | exact hc.elim

namespace Phrase

theorem eq_of_written {p q : Phrase} (hp : p.Valid) (hq : q.Valid) (he : p.written = q.written) :
    p = q := by
  obtain ⟨pkey, pword, pbody⟩ := p
  obtain ⟨qkey, qword, qbody⟩ := q
  simp only [written, List.cons.injEq] at he
  obtain ⟨rfl, he⟩ := he
  have hk : some pword = some qword := by
    rw [← Read.keyword?_eq_some.mpr hp.1, ← Read.keyword?_eq_some.mpr hq.1]
  cases hk
  have hb : pbody = qbody := Body.eq_of_written hp.2 hq.2 he
  rw [hb]

theorem follow_flatMap {phrases : List Phrase} (h : ∀ p ∈ phrases, p.Valid) (k : Keyword) :
    k.Follow (phrases.flatMap Phrase.written).head? := by
  cases phrases with
  | nil => exact k.follow_none
  | cons p ps => exact Keyword.follow_keyword (h p List.mem_cons_self).1 k

end Phrase

namespace Stream

theorem statements_nil (stop : Position) :
    statements ⟨[], stop⟩ = ⟨[], none, ⟨[], stop⟩⟩ := by
  rw [statements]
  rfl

theorem statements_of_ok {s s' : Stream} {tree : Tree} (h : Read.statement s = .ok tree s') :
    s.statements = { s'.statements with trees := tree :: s'.statements.trees } := by
  have he : s.ahead.isEmpty = false := by
    obtain ⟨ahead, stop⟩ := s
    cases ahead with
    | nil => cases h
    | cons t ts => rfl
  rw [statements, he, if_neg Bool.false_ne_true]
  split
  · rename_i he'
    rw [h] at he'
    cases he'
  · rename_i hs
    rw [h] at hs
    cases hs
    rfl

theorem statements_of_error {t : Token} {ts : List Token} {stop : Position} {s' : Stream}
    {e : ParseError} (h : Read.statement ⟨t :: ts, stop⟩ = .error e s') :
    statements ⟨t :: ts, stop⟩ = ⟨[], some e, s'⟩ := by
  rw [statements, if_neg (by simp)]
  split
  · rename_i he
    rw [h] at he
    cases he
    rfl
  · rename_i hs
    rw [h] at hs
    cases hs

/-- Statements one after the other are read one after the other. -/
theorem statements_accepts {phrases : List Phrase} (h : ∀ p ∈ phrases, p.Valid) (stop : Position) :
    statements ⟨phrases.flatMap Phrase.written, stop⟩ =
      ⟨phrases.map Phrase.tree, none, ⟨[], stop⟩⟩ := by
  induction phrases with
  | nil => exact statements_nil stop
  | cons p ps ih =>
    obtain ⟨hp, hps⟩ := List.forall_mem_cons.mp h
    have hs := Read.recognizes_statement.accepts ⟨p, hp, rfl, rfl⟩ (ps.flatMap Phrase.written) stop
      fun k _ => Phrase.follow_flatMap hps k
    rw [List.flatMap_cons, statements_of_ok hs, ih hps]
    rfl

theorem statements_inverts (s : Stream) (h : s.statements.fault? = none) :
    ∃ phrases : List Phrase, (∀ p ∈ phrases, p.Valid) ∧
      s.ahead = phrases.flatMap Phrase.written ∧ s.statements.trees = phrases.map Phrase.tree := by
  fun_induction Stream.statements s with
  | case1 s he => exact ⟨[], by simp, by simpa using he, rfl⟩
  | case2 s he e s' hs => cases h
  | case3 s he tree s' hs _ r ih =>
    obtain ⟨ps, hv, hw, ht⟩ := ih h
    obtain ⟨_, rfl, ⟨p, hp, rfl, rfl⟩, -⟩ := Read.recognizes_statement.inverts hs
    exact ⟨p :: ps, List.forall_mem_cons.mpr ⟨hp, hv⟩, by simp [hw], by simp [r, ht]⟩

/-- Reading stops at the first token that no list of statements has in its place. -/
theorem statements_refuses (s : Stream) {e : ParseError} (h : s.statements.fault? = some e) :
    ∃ read rest, s.ahead = read ++ rest ∧ e.pos = (Stream.mk rest s.stop).head.pos ∧
      (∃ more phrases, phrases ≠ [] ∧ (∀ p ∈ phrases, p.Valid) ∧
        phrases.flatMap Phrase.written = read ++ more) ∧
      ∀ t ts, rest = t :: ts → ∀ us stop,
        (statements ⟨read ++ t :: us, stop⟩).fault? = some e := by
  fun_induction Stream.statements s with
  | case1 s he => cases h
  | case2 s he e' s' hs =>
    cases h
    obtain ⟨read, rest, hr, hpos, ⟨more, _, p, hp, hw, rfl⟩, hfatal⟩ :=
      Read.recognizes_statement.refuses hs
    refine ⟨read, rest, hr, hpos, ⟨more, [p], by simp, by simpa using hp, by simp [hw]⟩, ?_⟩
    intro t ts hrest us stop
    obtain ⟨s₁, hs₁⟩ := hfatal t ts hrest us stop
    cases read with
    | nil => exact congrArg Reading.fault? (statements_of_error hs₁)
    | cons u read => exact congrArg Reading.fault? (statements_of_error hs₁)
  | case3 s he tree s' hs _ r ih =>
    obtain ⟨read, rest, hr, hpos, ⟨more, ps, hne, hps, hw⟩, hfatal⟩ := ih h
    obtain ⟨_, rfl, ⟨p, hp, rfl, rfl⟩, hfollow⟩ := Read.recognizes_statement.inverts hs
    refine ⟨p.written ++ read, rest, by simp [hr], hpos,
      ⟨more, p :: ps, by simp, List.forall_mem_cons.mpr ⟨hp, hps⟩, by simp [hw]⟩, ?_⟩
    intro t ts hrest us stop
    have hs := Read.recognizes_statement.accepts ⟨p, hp, rfl, rfl⟩ (read ++ t :: us) stop (by
      rwa [Read.head?_append_cons read us ts t, ← hrest, ← hr])
    rw [List.append_assoc, statements_of_ok hs]
    exact hfatal t ts hrest us stop

end Stream

/-- Tokens are divided into statements in one way at most. -/
theorem Derivation.unique {ts : List Token} {ps qs : List Phrase} (hp : Derivation ts ps)
    (hq : Derivation ts qs) : ps = qs := by
  obtain ⟨-, hvp, rfl⟩ := hp
  obtain ⟨-, hvq, hw⟩ := hq
  induction ps generalizing qs with
  | nil =>
    cases qs with
    | nil => rfl
    | cons q qs => cases hw
  | cons p ps ih =>
    cases qs with
    | nil => cases hw
    | cons q qs =>
      obtain ⟨hp, hps⟩ := List.forall_mem_cons.mp hvp
      obtain ⟨hq, hqs⟩ := List.forall_mem_cons.mp hvq
      rw [List.flatMap_cons, List.flatMap_cons] at hw
      obtain ⟨hw, -, hrest⟩ := Read.recognizes_statement.unique ⟨q, hq, rfl, rfl⟩ ⟨p, hp, rfl, rfl⟩ hw
        (fun k _ => Phrase.follow_flatMap hqs k) (fun k _ => Phrase.follow_flatMap hps k)
      rw [Phrase.eq_of_written hq hp hw, ih hps hqs hrest]

theorem Stream.ofTokens_of_no_eof {ts : List Token} (h : ∀ t ∈ ts, t.kind ≠ .eof) :
    Stream.ofTokens ts = ⟨ts, (ts.getLast?.map Token.stop).getD .start⟩ := by
  have hf : ts.find? (fun t => t.kind = .eof) = none := by simpa using h
  have hw : ts.takeWhile (fun t => t.kind ≠ .eof) = ts := by simpa using h
  simp only [Stream.ofTokens, hf, hw]

theorem Stream.parse_eq_ok {s : Stream} {trees : List Tree} :
    s.parse.1 = .ok trees ↔ ∃ ps, Derivation s.ahead ps ∧ trees = ps.map Phrase.tree := by
  constructor
  · intro hp
    simp only [Stream.parse] at hp
    split at hp
    · cases hp
    · rename_i hf
      split at hp
      · cases hp
      · rename_i hne
        cases hp
        obtain ⟨ps, hv, hw, ht⟩ := Stream.statements_inverts _ hf
        refine ⟨ps, ⟨?_, hv, hw.symm⟩, ht⟩
        rintro rfl
        exact hne (by simp [ht])
  · obtain ⟨ahead, stop⟩ := s
    rintro ⟨ps, ⟨hne, hv, rfl⟩, rfl⟩
    simp [Stream.parse, Stream.statements_accepts hv, hne]

theorem Tree.ofTokens_eq_ok_iff {ts : List Token} (h : ∀ t ∈ ts, t.kind ≠ .eof) {trees : List Tree} :
    Tree.ofTokens ts = .ok trees ↔ ∃ ps, Derivation ts ps ∧ trees = ps.map Phrase.tree := by
  rw [Tree.ofTokens, Stream.ofTokens_of_no_eof h, Stream.parse_eq_ok]

theorem Tree.ofTokens_snoc_eq_ok {ts : List Token} (h : ∀ t ∈ ts, t.kind ≠ .eof) {stop : Token}
    (hstop : stop.kind = .eof) {trees : List Tree} :
    Tree.ofTokens (ts ++ [stop]) = .ok trees ↔ ∃ ps, Derivation ts ps ∧ trees = ps.map Phrase.tree := by
  have ha : (Stream.ofTokens (ts ++ [stop])).ahead = ts :=
    Lists.takeWhile_append (by simpa using h) (by simpa using hstop)
  rw [Tree.ofTokens, Stream.parse_eq_ok, ha]

end Netlab
