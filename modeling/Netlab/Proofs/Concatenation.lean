import Netlab.Proofs.Canonical
import Netlab.Proofs.Places
import Netlab.Proofs.Relocation.Programs
import Netlab.Proofs.Supply

namespace Netlab

namespace Position

def lower (n : Nat) (p : Position) : Position := ⟨p.line + n, p.column⟩

theorem lower_after (n : Nat) (p : Position) (c : Char) : (p.after c).lower n = (p.lower n).after c := by
  by_cases hc : c = '\n'
  · simp only [after, if_pos hc, lower]
    rw [Nat.add_right_comm]
  · simp only [after, if_neg hc, lower]

theorem lower_afterAll (n : Nat) (p : Position) (cs : List Char) :
    (p.afterAll cs).lower n = (p.lower n).afterAll cs := by
  induction cs generalizing p with
  | nil => rfl
  | cons c cs ih => rw [afterAll_cons, ih, lower_after, afterAll_cons]

theorem lower_start (cs : List Char) :
    (start.afterAll cs).after '\n' = start.lower (1 + cs.count '\n') := by
  rw [start_afterAll]
  simp [after, lower, start, Nat.add_comm]

end Position

section

variable {p : Position} {gap rest ds cs : List Char} {ts vs : List Token}

theorem Lexed.lower (n : Nat) (h : Lexed p cs ts) :
    Lexed (p.lower n) cs (ts.map (Token.move (Position.lower n))) := by
  induction h with
  | @done p gap hg =>
    have hplace := Position.lower_afterAll n p gap
    simp only [List.map_cons, List.map_nil, Token.move, hplace]
    exact .done hg
  | @token p gap spelling rest l ts hg hs ha _ ih =>
    have hplace := Position.lower_afterAll n p gap
    rw [Position.lower_afterAll, hplace] at ih
    simp only [List.map_cons, Token.move, hplace]
    exact .token hg hs ha ih

theorem Trivia.before_feed (h : Trivia rest gap) (ds : List Char) : Trivia (rest ++ '\n' :: ds) gap := by
  induction h with
  | nil => exact .nil
  | blank hc _ ih => exact .blank hc ih
  | @comment body cs hb hend _ ih =>
    refine .comment hb ?_ ih
    intro c hc
    rw [← List.append_assoc] at hc
    cases hcs : cs ++ rest with
    | nil =>
      rw [hcs] at hc
      cases hc
      rfl
    | cons d es =>
      rw [hcs] at hc hend
      exact hend c hc

theorem Apart.before_feed {l : Lexeme} (h : Apart l rest) (ds : List Char) :
    Apart l (rest ++ '\n' :: ds) := by
  intro hl c hc
  cases rest with
  | nil =>
    cases hc
    decide
  | cons d es => exact h hl c hc

theorem Lexed.comment {body : List Char} (hb : '\n' ∉ body)
    (hend : ∀ c, cs.head? = some c → c = '\n') (h : Lexed ((p.after '#').afterAll body) cs ts) :
    Lexed p ('#' :: (body ++ cs)) ts := by
  have hplace : ∀ gap, ((p.after '#').afterAll body).afterAll gap = p.afterAll ('#' :: (body ++ gap)) := by
    intro gap
    rw [Position.afterAll_cons, Position.afterAll_append]
  cases h with
  | done hg =>
    rw [hplace]
    exact .done (.comment hb (by simpa using hend) hg)
  | @token _ gap spelling rest l ts hg hs ha h =>
    rw [hplace] at h ⊢
    have hpassed : Trivia (spelling ++ rest) ('#' :: (body ++ gap)) := .comment hb hend hg
    have hlexed := Lexed.token hpassed hs ha h
    rwa [List.cons_append, List.append_assoc] at hlexed

theorem Lexed.trivia (hg : Trivia cs gap) (h : Lexed (p.afterAll gap) cs ts) : Lexed p (gap ++ cs) ts := by
  induction hg generalizing p with
  | nil => exact h
  | blank hc _ ih => exact .blank hc (ih h)
  | @comment body es hb hend _ ih =>
    rw [List.cons_append, List.append_assoc]
    rw [Position.afterAll_cons, Position.afterAll_append] at h
    exact .comment hb hend (ih h)

/-- A text goes on behind a line feed as if it were read alone, further down. -/
theorem Lexed.join (h : Lexed p cs ts) (h' : Lexed ((p.afterAll cs).after '\n') ds vs) :
    Lexed p (cs ++ '\n' :: ds) (ts.dropLast ++ vs) := by
  induction h with
  | done hg => exact .trivia (hg.before_feed ds) (.blank (by decide) h')
  | @token p gap spelling rest l ts hg hs ha hrest ih =>
    have hne : ts ≠ [] := by cases hrest <;> exact List.cons_ne_nil _ _
    have hgap := hg.before_feed ds
    rw [List.append_assoc] at hgap
    rw [Position.afterAll_append, Position.afterAll_append] at h'
    have hlexed := Lexed.token hgap hs (ha.before_feed ds) (ih h')
    rw [List.dropLast_cons_of_ne_nil hne, List.append_assoc, List.append_assoc]
    exact hlexed

end

theorem Derivation.append {ts us : List Token} {ps qs : List Phrase} (hp : Derivation ts ps)
    (hq : Derivation us qs) : Derivation (ts ++ us) (ps ++ qs) where
  nonempty := List.append_ne_nil_of_left_ne_nil hp.nonempty qs
  valid := List.forall_mem_append.mpr ⟨hp.valid, hq.valid⟩
  written := by rw [List.flatMap_append, hp.written, hq.written]

namespace Program

theorem ofTrees_append {ts us : List Tree} {p q : Program} (hp : ofTrees ts = .ok p)
    (hq : ofTrees us = .ok q) : ofTrees (ts ++ us) = .ok ⟨p.statements ++ q.statements⟩ := by
  obtain ⟨ss, hss, hp⟩ := bind_eq_ok.mp hp
  obtain ⟨rs, hrs, hq⟩ := bind_eq_ok.mp hq
  cases hp
  cases hq
  rw [ofTrees, List.mapM_append, hss, hrs]
  rfl

/-- The statements of two texts are the statements of both, whatever the first one ends with. -/
theorem ofTokens_append {ts us : List Token} (hts : ∀ t ∈ ts, t.kind ≠ .eof)
    (hus : ∀ t ∈ us, t.kind ≠ .eof) {stop stop' : Token} (hstop : stop.kind = .eof)
    (hstop' : stop'.kind = .eof) {p q : Program} (hp : ofTokens (ts ++ [stop]) = .ok p)
    (hq : ofTokens (us ++ [stop']) = .ok q) :
    ofTokens (ts ++ (us ++ [stop'])) = .ok ⟨p.statements ++ q.statements⟩ := by
  obtain ⟨trees, htrees, hp⟩ := bind_eq_ok.mp hp
  obtain ⟨trees', htrees', hq⟩ := bind_eq_ok.mp hq
  obtain ⟨ps, hps, rfl⟩ := (Tree.ofTokens_snoc_eq_ok hts hstop).mp htrees
  obtain ⟨qs, hqs, rfl⟩ := (Tree.ofTokens_snoc_eq_ok hus hstop').mp htrees'
  have hboth : ∀ t ∈ ts ++ us, t.kind ≠ .eof := List.forall_mem_append.mpr ⟨hts, hus⟩
  have htree := (Tree.ofTokens_snoc_eq_ok hboth hstop').mpr ⟨ps ++ qs, hps.append hqs, rfl⟩
  rw [List.append_assoc] at htree
  rw [ofTokens, htree, List.map_append]
  exact ofTrees_append hp hq

end Program

namespace Generators

/-- The addresses of the first statements do not depend on the statements behind them. -/
theorem fillAll_append_eq_ok {g : Generators} {ss ts rs : List Statement}
    (h : g.fillAll (ss ++ ts) = .ok rs) : ∃ qs, g.fillAll ss = .ok qs ∧ qs <+: rs := by
  induction ss generalizing g rs with
  | nil => exact ⟨[], rfl, List.nil_prefix⟩
  | cons s ss ih =>
    rw [List.cons_append] at h
    cases hs : s.action.host? with
    | none =>
      rw [fillAll_other hs] at h ⊢
      obtain ⟨rest, hrest, rfl⟩ := map_eq_ok.mp h
      obtain ⟨qs, hqs, hprefix⟩ := ih hrest
      exact ⟨s :: qs, map_eq_ok.mpr ⟨qs, hqs, rfl⟩, List.cons_prefix_cons.mpr ⟨rfl, hprefix⟩⟩
    | some host =>
      have ha := Action.host?_eq_some hs
      rw [fillAll_host ha] at h ⊢
      obtain ⟨⟨host', g'⟩, hfill, h⟩ := bind_eq_ok.mp h
      obtain ⟨rest, hrest, h⟩ := bind_eq_ok.mp h
      cases h
      obtain ⟨qs, hqs, hprefix⟩ := ih hrest
      refine ⟨_, bind_eq_ok.mpr ⟨_, hfill, bind_eq_ok.mpr ⟨qs, hqs, rfl⟩⟩, ?_⟩
      exact List.cons_prefix_cons.mpr ⟨rfl, hprefix⟩

end Generators

theorem Plan.ofProgram_append_eq_ok {ss ts : List Statement} {plan : Plan}
    (h : ofProgram ⟨ss ++ ts⟩ = .ok plan) :
    ∃ plan', ofProgram ⟨ss⟩ = .ok plan' ∧ plan'.calls <+: plan.calls := by
  obtain ⟨calls, hcalls, h⟩ := bind_eq_ok.mp h
  cases h
  rw [List.mapM_append] at hcalls
  obtain ⟨first, hfirst, hcalls⟩ := bind_eq_ok.mp hcalls
  obtain ⟨second, -, hcalls⟩ := bind_eq_ok.mp hcalls
  cases hcalls
  refine ⟨⟨first.flatten⟩, bind_eq_ok.mpr ⟨first, hfirst, rfl⟩, ?_⟩
  rw [List.flatten_append]
  exact List.prefix_append _ _

theorem Config.plan_eq_ok {c : Config} {s : String} {plan : Plan} :
    c.plan s = .ok plan ↔ ∃ p q, Program.ofText s = .ok p ∧ p.assign c.pool = .ok q ∧
      Plan.ofProgram q = .ok plan := by
  simp only [Config.plan, program, bind_eq_ok, mapError_eq_ok]
  constructor
  · rintro ⟨q, ⟨p, hp, hq⟩, hplan⟩
    exact ⟨p, q, hp, hq, hplan⟩
  · rintro ⟨p, q, hp, hq, hplan⟩
    exact ⟨q, ⟨p, hp, hq⟩, hplan⟩

namespace Program

variable {s₁ s₂ : String} {p₁ p₂ : Program}

theorem exists_ofTokens {s : String} {p : Program} (h : ofText s = .ok p) :
    ∃ ts, Token.ofText s = .ok ts ∧ ofTokens ts = .ok p := by
  obtain ⟨ts, hts, -⟩ := bind_eq_ok.mp h
  have hlex := mapError_eq_ok.mp hts
  rw [ofText_eq hlex] at h
  exact ⟨ts, hlex, mapError_eq_ok.mp h⟩

theorem ofText_join (h₁ : ofText s₁ = .ok p₁) (h₂ : ofText s₂ = .ok p₂) :
    ofText (s₁ ++ "\n" ++ s₂) = .ok ⟨p₁.statements ++
      (p₂.move (Position.lower (1 + s₁.toList.count '\n'))).statements⟩ := by
  obtain ⟨ts₁, hts₁, hp₁⟩ := exists_ofTokens h₁
  obtain ⟨ts₂, hts₂, hp₂⟩ := exists_ofTokens h₂
  have hmoved := ofTokens_move (Position.lower (1 + s₁.toList.count '\n')) (Token.exists_eof hts₂)
  have hlex₁ := Token.ofText_eq_ok.mp hts₁
  have hlex₂ := (Token.ofText_eq_ok.mp hts₂).lower (1 + s₁.toList.count '\n')
  rw [← Position.lower_start] at hlex₂
  have hjoined := hlex₁.join hlex₂
  obtain ⟨us₁, stop₁, rfl, hus₁⟩ := hlex₁.exists_snoc
  obtain ⟨us₂, stop₂, he, hus₂⟩ := hlex₂.exists_snoc
  rw [List.dropLast_concat, he] at hjoined
  rw [he, hp₂] at hmoved
  have htext : (s₁ ++ "\n" ++ s₂).toList = s₁.toList ++ '\n' :: s₂.toList := by simp
  rw [← htext] at hjoined
  rw [ofText_eq (Token.ofText_eq_ok.mpr hjoined)]
  have hne₁ : ∀ t ∈ us₁, t.kind ≠ .eof := fun t ht => (hus₁ t ht).ne_eof
  have hne₂ : ∀ t ∈ us₂, t.kind ≠ .eof := fun t ht => (hus₂ t ht).ne_eof
  rw [ofTokens_append hne₁ hne₂ rfl rfl hp₁ hmoved]
  rfl

/-- Two texts on lines of their own mean what they mean one after the other, and what the first one is
planned to do stays as it is. -/
theorem sources_compose (h₁ : ofText s₁ = .ok p₁) (h₂ : ofText s₂ = .ok p₂) :
    ofText (s₁ ++ "\n" ++ s₂) = .ok ⟨p₁.statements ++
      (p₂.move (Position.lower (1 + s₁.toList.count '\n'))).statements⟩ ∧
    ∀ (c : Config) (plan : Plan), c.plan (s₁ ++ "\n" ++ s₂) = .ok plan →
      ∃ plan₁, c.plan s₁ = .ok plan₁ ∧ plan₁.calls <+: plan.calls := by
  have hjoin := ofText_join h₁ h₂
  refine ⟨hjoin, fun c plan hplan => ?_⟩
  obtain ⟨p, q, hp, hq, hplan⟩ := Config.plan_eq_ok.mp hplan
  cases hjoin.symm.trans hp
  obtain ⟨rs, hrs, hq⟩ := bind_eq_ok.mp hq
  cases hq
  obtain ⟨qs, hqs, rest, rfl⟩ := Generators.fillAll_append_eq_ok hrs
  obtain ⟨plan₁, hplan₁, hprefix⟩ := Plan.ofProgram_append_eq_ok hplan
  have hassign : p₁.assign c.pool = .ok ⟨qs⟩ := bind_eq_ok.mpr ⟨qs, hqs, rfl⟩
  exact ⟨plan₁, Config.plan_eq_ok.mpr ⟨p₁, ⟨qs⟩, h₁, hassign, hplan₁⟩, hprefix⟩

def openEnded : String := "switch s t\nhost a image 'i' # ip"

theorem sources_compose_openEnded :
    ofText (openEnded ++ "\n" ++ "controller c") = .ok
      ⟨[⟨⟨1, 1⟩, .switch ["s", "t"]⟩, ⟨⟨2, 1⟩, .host ⟨"a", none, "i", none, [], [], [], []⟩⟩,
        ⟨⟨3, 1⟩, .controller ⟨.name "c", ⟨3, 12⟩⟩⟩]⟩ ∧
    ∃ plan plan₁, ({} : Config).plan (openEnded ++ "\n" ++ "controller c") = .ok plan ∧
      ({} : Config).plan openEnded = .ok plan₁ ∧ plan₁.calls <+: plan.calls := by
  have h₁ : ofText openEnded = .ok ⟨[⟨⟨1, 1⟩, .switch ["s", "t"]⟩,
      ⟨⟨2, 1⟩, .host ⟨"a", none, "i", none, [], [], [], []⟩⟩]⟩ := by decide +kernel
  have h₂ : ofText "controller c" = .ok ⟨[⟨⟨1, 1⟩, .controller ⟨.name "c", ⟨1, 12⟩⟩⟩]⟩ := by
    decide +kernel
  obtain ⟨hjoin, hplan⟩ := sources_compose h₁ h₂
  refine ⟨hjoin, ?_⟩
  have hok : (({} : Config).plan (openEnded ++ "\n" ++ "controller c")).isOk = true := by decide +kernel
  cases hp : ({} : Config).plan (openEnded ++ "\n" ++ "controller c") with
  | error e =>
    rw [hp] at hok
    cases hok
  | ok plan =>
    obtain ⟨plan₁, hplan₁, hprefix⟩ := hplan {} plan hp
    exact ⟨plan, plan₁, rfl, hplan₁, hprefix⟩

end Program

end Netlab
