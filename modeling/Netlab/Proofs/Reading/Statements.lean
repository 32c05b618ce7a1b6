import Netlab.Proofs.Reading.Clauses

namespace Netlab

/-- What can stand behind a statement that is read as far as it goes. -/
def Keyword.Follow (k : Keyword) (t? : Option Token) : Prop :=
  match k with
  | .host => Read.noClause Clause.ofHost [] t?
  | .link => Read.noClause Clause.ofLink [] t?
  | .switch | .ping => ∀ t ∈ t?, Read.isFree t = false
  | .intent => ∀ t ∈ t?, t.kind ≠ .arrow
  | _ => True

namespace Read

theorem recognizes_takeFree :
    Recognizes (fun ts names => ts = names ∧ ∀ t ∈ names, isFree t = true)
      (fun _ t? => ∀ t ∈ t?, isFree t = false) takeFree where
  possible := ⟨[], [], rfl, by simp⟩
  accepts := by
    rintro _ names ⟨rfl, hn⟩ rest stop hrest
    simp only [takeFree]
    rw [Lists.takeWhile_append hn hrest, Lists.dropWhile_append hn hrest]
  inverts := by
    intro s names s' h
    cases h
    refine ⟨s.ahead.takeWhile isFree, ?_, ⟨rfl, ?_⟩, fun t ht => Lists.head?_dropWhile ht⟩
    · simp only [List.takeWhile_append_dropWhile]
    · exact fun t ht => List.mem_takeWhile_imp ht
  refuses := by
    intro s e s' h
    cases h

theorem recognizes_names (rule : Rule) :
    Recognizes (fun ts r => ∃ first more, (∀ t ∈ first :: more, isFree t = true) ∧
        ts = first :: more ∧ r = (rule, (first :: more).map Child.token))
      (fun _ t? => ∀ t ∈ t?, isFree t = false)
      (do let name ← takeName; return (rule, (name :: (← takeFree)).map .token)) := by
  refine (recognizes_takeName.andThen fun name =>
    recognizes_takeFree.map _ (fun names => (rule, (name :: names).map Child.token))
      fun _ _ => Iff.rfl).congr ?_
  intro ts r
  constructor
  · rintro ⟨name, _, names, rfl, ⟨rfl, hn⟩, _, ⟨rfl, hs⟩, rfl⟩
    exact ⟨name, names, by simpa using ⟨hn, hs⟩, rfl, rfl⟩
  · rintro ⟨name, names, h, rfl, rfl⟩
    have hs := List.forall_mem_cons.mp h
    exact ⟨name, [name], names, rfl, ⟨rfl, hs.1⟩, names, ⟨rfl, hs.2⟩, rfl⟩

theorem led_iff_hops {ts names : List Token} :
    Led .arrow (fun ts t => ts = [t] ∧ isFree t = true) ts names ↔
      ∃ hops : List (Token × Token), (∀ h ∈ hops, h.1.kind = .arrow ∧ isFree h.2 = true) ∧
        ts = hops.flatMap (fun h => [h.1, h.2]) ∧ names = hops.map Prod.snd := by
  constructor
  · intro h
    induction h with
    | nil => exact ⟨[], by simp, rfl, rfl⟩
    | @cons t _ _ a _ ht ha _ ih =>
      obtain ⟨rfl, hf⟩ := ha
      obtain ⟨hops, hh, rfl, rfl⟩ := ih
      exact ⟨(t, a) :: hops, by simpa using ⟨⟨ht, hf⟩, by simpa using hh⟩, rfl, rfl⟩
  · rintro ⟨hops, hh, rfl, rfl⟩
    induction hops with
    | nil => exact .nil
    | cons h hops ih =>
      obtain ⟨⟨ha, hf⟩, hs⟩ := List.forall_mem_cons.mp hh
      exact .cons ha (show [h.2] = [h.2] ∧ _ from ⟨rfl, hf⟩) (ih hs)

/-- The body of a statement is read as it is written. -/
def Written (k : Keyword) (ts : List Token) (r : Rule × List Child) : Prop :=
  ∃ b : Body, b.Valid k ∧ ts = b.written ∧ r = (k.rule, b.children k.clauses)

theorem recognizes_intent :
    Recognizes (Written .intent) (fun _ => Keyword.intent.Follow) (body .intent) := by
  have h := recognizes_takeName.andThen fun src => (recognizes_take .arrow).andThen fun _ =>
    recognizes_takeName.andThen fun dst =>
      recognizes_moreHops.map (fun _ => Keyword.intent.Follow)
        (fun names => (Rule.intent, (src :: dst :: names).map Child.token)) fun _ _ => Iff.rfl
  refine h.congr ?_
  intro ts r
  constructor
  · rintro ⟨src, _, _, rfl, ⟨rfl, hs⟩, arrow, _, _, rfl, ⟨rfl, ha⟩, dst, _, us, rfl, ⟨rfl, hd⟩, names,
      hl, rfl⟩
    obtain ⟨hops, hh, rfl, rfl⟩ := led_iff_hops.mp hl
    refine ⟨.chain src ((arrow, dst) :: hops), ⟨hs, by simp, ?_⟩, rfl, rfl⟩
    exact List.forall_mem_cons.mpr ⟨⟨ha, hd⟩, hh⟩
  · rintro ⟨b, hb, rfl, rfl⟩
    cases b with
    | chain first hops =>
      obtain ⟨hf, hne, hh⟩ := hb
      cases hops with
      | nil => exact absurd rfl hne
      | cons h hops =>
        obtain ⟨⟨ha, hd⟩, hs⟩ := List.forall_mem_cons.mp hh
        exact ⟨first, [first], _, rfl, ⟨rfl, hf⟩, h.1, [h.1], _, rfl, ⟨rfl, ha⟩, h.2, [h.2], _, rfl,
          ⟨rfl, hd⟩, hops.map Prod.snd, led_iff_hops.mpr ⟨hops, hs, rfl, rfl⟩, rfl⟩
    | _ => exact hb.elim

theorem recognizes_controller :
    Recognizes (Written .controller) (fun _ => Keyword.controller.Follow) (body .controller) := by
  refine (recognizes_takeValue.map _ (fun t => (Rule.controller, [Child.token t]))
    fun _ _ => Iff.rfl).congr ?_
  intro ts r
  constructor
  · rintro ⟨t, ⟨rfl, ht⟩, rfl⟩
    exact ⟨.value t, ht, rfl, rfl⟩
  · rintro ⟨b, hb, rfl, rfl⟩
    cases b with
    | value t => exact ⟨t, ⟨rfl, hb⟩, rfl⟩
    | _ => exact hb.elim

theorem recognizes_remoteController :
    Recognizes (Written .remoteController) (fun _ => Keyword.remoteController.Follow)
      (body .remoteController) := by
  have h := recognizes_takeName.andThen fun name => (recognizes_takeWord "host").andThen fun _ =>
    (recognizes_take .string).andThen fun host => (recognizes_takeWord "port").andThen fun _ =>
      (recognizes_take .number).map (fun _ => Keyword.remoteController.Follow)
        (fun port => (Rule.remoteController, [Child.token name, .token host, .token port]))
        fun _ _ => Iff.rfl
  refine h.congr ?_
  intro ts r
  constructor
  · rintro ⟨name, _, _, rfl, ⟨rfl, hn⟩, hostWord, _, _, rfl, ⟨rfl, hhw⟩, host, _, _, rfl, ⟨rfl, hh⟩,
      portWord, _, _, rfl, ⟨rfl, hpw⟩, port, ⟨rfl, hp⟩, rfl⟩
    exact ⟨.remote name hostWord host portWord port, ⟨hn, hhw, hh, hpw, hp⟩, rfl, rfl⟩
  · rintro ⟨b, hb, rfl, rfl⟩
    cases b with
    | remote name hostWord host portWord port =>
      obtain ⟨hn, hhw, hh, hpw, hp⟩ := hb
      exact ⟨name, [name], _, rfl, ⟨rfl, hn⟩, hostWord, [hostWord], _, rfl, ⟨rfl, hhw⟩, host, [host], _,
        rfl, ⟨rfl, hh⟩, portWord, [portWord], [port], rfl, ⟨rfl, hpw⟩, port, ⟨rfl, hp⟩, rfl⟩
    | _ => exact hb.elim

theorem written_clauses {k : Keyword} (hk : k = .host ∨ k = .link) {ts : List Token}
    {r : Rule × List Child} :
    Written k ts r ↔ ∃ cs, (∃ name blocks, isFree name = true ∧ Block.Complete k.clauses blocks ∧
      ts = name :: blocks.flatMap Block.written ∧ cs = Block.fill k.clauses name blocks) ∧
      r = (k.rule, cs) := by
  constructor
  · rintro ⟨b, hb, rfl, rfl⟩
    cases b with
    | clauses name blocks =>
      rcases hk with rfl | rfl <;> exact ⟨_, ⟨name, blocks, hb.1, hb.2, rfl, rfl⟩, rfl⟩
    | _ => rcases hk with rfl | rfl <;> exact hb.elim
  · rintro ⟨_, ⟨name, blocks, hn, hb, rfl, rfl⟩, rfl⟩
    refine ⟨.clauses name blocks, ?_, rfl, rfl⟩
    rcases hk with rfl | rfl <;> exact ⟨hn, hb⟩

theorem written_names {k : Keyword} (hk : k = .switch ∨ k = .ping) {ts : List Token}
    {r : Rule × List Child} :
    Written k ts r ↔ ∃ first more, (∀ t ∈ first :: more, isFree t = true) ∧
      ts = first :: more ∧ r = (k.rule, (first :: more).map Child.token) := by
  constructor
  · rintro ⟨b, hb, rfl, rfl⟩
    cases b with
    | names first more => rcases hk with rfl | rfl <;> exact ⟨first, more, hb, rfl, rfl⟩
    | _ => rcases hk with rfl | rfl <;> exact hb.elim
  · rintro ⟨first, more, h, rfl, rfl⟩
    refine ⟨.names first more, ?_, rfl, rfl⟩
    rcases hk with rfl | rfl <;> exact h

theorem written_nothing {k : Keyword} (hk : k = .up ∨ k = .down) {ts : List Token}
    {r : Rule × List Child} : Written k ts r ↔ ts = [] ∧ r = (k.rule, []) := by
  constructor
  · rintro ⟨b, hb, rfl, rfl⟩
    cases b with
    | nothing => exact ⟨rfl, rfl⟩
    | _ => rcases hk with rfl | rfl <;> exact hb.elim
  · rintro ⟨rfl, rfl⟩
    refine ⟨.nothing, ?_, rfl, rfl⟩
    rcases hk with rfl | rfl <;> trivial

theorem recognizes_body (k : Keyword) :
    Recognizes (Written k) (fun _ => k.Follow) (body k) := by
  cases k with
  | controller => exact recognizes_controller
  | remoteController => exact recognizes_remoteController
  | intent => exact recognizes_intent
  | host =>
    exact ((recognizes_slots .host Clause.regular_ofHost).map _ (fun cs => (Rule.host, cs))
      fun _ _ => Iff.rfl).congr fun _ _ => (written_clauses (.inl rfl)).symm
  | link =>
    exact ((recognizes_slots .link Clause.regular_ofLink).map _ (fun cs => (Rule.link, cs))
      fun _ _ => Iff.rfl).congr fun _ _ => (written_clauses (.inr rfl)).symm
  | switch => exact (recognizes_names .switch).congr fun _ _ => (written_names (.inl rfl)).symm
  | ping => exact (recognizes_names .ping).congr fun _ _ => (written_names (.inr rfl)).symm
  | up => exact (Recognizes.pure _).congr fun _ _ => (written_nothing (.inl rfl)).symm
  | down => exact (Recognizes.pure _).congr fun _ _ => (written_nothing (.inr rfl)).symm

theorem keyword?_eq_some {t : Token} {k : Keyword} :
    keyword? t = some k ↔ t.isWord k.text = true := by
  simp only [keyword?, Token.isWord, Bool.and_eq_true, decide_eq_true_eq]
  by_cases hk : t.kind = .name
  · simp [hk, Keyword.ofText?_eq_some_iff]
  · simp [hk]

section

variable {t : Token} {k : Keyword}

theorem statement_other (ht : keyword? t = none) (ts : List Token) (stop : Position) :
    statement ⟨t :: ts, stop⟩ = .error ⟨t.pos, .noKeyword t.toLexeme⟩ ⟨t :: ts, stop⟩ := by
  simp [statement, ht, fail, Stream.head]

theorem statement_keyword (ht : keyword? t = some k) (ts : List Token) (stop : Position) :
    statement ⟨t :: ts, stop⟩ =
      (body k >>= fun r => pure ⟨r.1, t.pos, r.2⟩ : Read Tree) ⟨ts, stop⟩ := by
  simp only [statement, ht]

end

theorem recognizes_tree (key : Token) (k : Keyword) :
    Recognizes (fun ts tree => ∃ r, Written k ts r ∧ tree = Tree.mk r.1 key.pos r.2)
      (fun _ => k.Follow) (body k >>= fun r => pure ⟨r.1, key.pos, r.2⟩ : Read Tree) :=
  (recognizes_body k).map _ _ fun _ _ => Iff.rfl

/-- Behind a statement stands a token that the rule of its tree does not go on with. -/
def endsStatement (tree : Tree) (t? : Option Token) : Prop :=
  ∀ k : Keyword, tree.rule = k.rule → k.Follow t?

theorem rule_injective {j k : Keyword} (h : j.rule = k.rule) : j = k := by
  cases j <;> cases k <;> first | rfl | cases h

theorem endsStatement_iff {k : Keyword} {pos : Position} {cs : List Child} {t? : Option Token} :
    endsStatement ⟨k.rule, pos, cs⟩ t? ↔ k.Follow t? := by
  constructor
  · intro h
    exact h k rfl
  · intro h j hj
    rwa [← rule_injective hj]

theorem recognizes_statement :
    Recognizes (fun ts tree => ∃ p : Phrase, p.Valid ∧ ts = p.written ∧ tree = p.tree)
      endsStatement statement := by
  have hup : Phrase.Valid ⟨⟨⟨.name, "up"⟩, .start⟩, .up, .nothing⟩ := ⟨by decide, trivial⟩
  refine ⟨⟨_, _, _, hup, rfl, rfl⟩, ?_, ?_, ?_⟩
  · rintro _ _ ⟨p, ⟨hk, hb⟩, rfl, rfl⟩ rest stop hrest
    rw [Phrase.written, List.cons_append, statement_keyword (keyword?_eq_some.mpr hk)]
    exact (recognizes_tree p.key p.keyword).accepts ⟨_, ⟨p.body, hb, rfl, rfl⟩, rfl⟩ rest stop
      (endsStatement_iff.mp hrest)
  · rintro ⟨ahead, stop⟩ tree s' h
    cases ahead with
    | nil => cases h
    | cons t ts =>
      cases hk : keyword? t with
      | none =>
        rw [statement_other hk] at h
        cases h
      | some k =>
        rw [statement_keyword hk] at h
        obtain ⟨us, hs, ⟨_, ⟨b, hb, rfl, rfl⟩, rfl⟩, hfollow⟩ := (recognizes_tree t k).inverts h
        cases hs
        exact ⟨t :: b.written, rfl, ⟨⟨t, k, b⟩, ⟨keyword?_eq_some.mp hk, hb⟩, rfl, rfl⟩,
          endsStatement_iff.mpr hfollow⟩
  · rintro ⟨ahead, stop⟩ e s' h
    cases ahead with
    | nil =>
      cases h
      exact ⟨[], [], rfl, rfl, ⟨_, _, _, hup, rfl, rfl⟩, by simp⟩
    | cons t ts =>
      cases hk : keyword? t with
      | none =>
        rw [statement_other hk] at h
        cases h
        refine ⟨[], t :: ts, rfl, rfl, ⟨_, _, _, hup, rfl, rfl⟩, ?_⟩
        intro u us hu vs stop'
        obtain ⟨rfl, rfl⟩ := List.cons.inj hu
        exact ⟨_, statement_other hk vs stop'⟩
      | some k =>
        rw [statement_keyword hk] at h
        obtain ⟨read, rest, hs, hpos, ⟨more, _, _, ⟨b, hb, hw, rfl⟩, rfl⟩, hfatal⟩ :=
          (recognizes_tree t k).refuses h
        simp only at hs
        refine ⟨t :: read, rest, by simp [hs], hpos,
          ⟨more, _, ⟨t, k, b⟩, ⟨keyword?_eq_some.mp hk, hb⟩, by simp [Phrase.written, hw], rfl⟩, ?_⟩
        intro u us hu vs stop'
        rw [List.cons_append, statement_keyword hk]
        exact hfatal u us hu vs stop'

end Read

end Netlab
