import Netlab.Proofs.Outcome
import Netlab.Proofs.Relocation.Programs

namespace Netlab

section

variable {f : Position → Position}

theorem Generators.fill_move (g : Generators) (h : Host) :
    g.fill (h.move f) = (g.fill h).map (Prod.map (Host.move f) id) := by
  have hip : (h.move f).ip = h.ip := rfl
  have hmac : (h.move f).mac = h.mac := rfl
  simp only [fill, hip, hmac]
  cases supply IpGenerator.next Ipv4.text g.ip h.ip with
  | error e => rfl
  | ok x => cases supply MacGenerator.next Mac.text g.mac h.mac <;> rfl

theorem Generators.fillAll_move (g : Generators) (ss : List Statement) :
    g.fillAll (ss.map (Statement.move f)) = (g.fillAll ss).map (List.map (Statement.move f)) := by
  induction ss generalizing g with
  | nil => rfl
  | cons s ss ih =>
    obtain ⟨pos, action⟩ := s
    rw [List.map_cons]
    cases action with
    | host h =>
      have hmoved : (Statement.move f ⟨pos, .host h⟩).action = .host (h.move f) := rfl
      rw [fillAll_host hmoved, fillAll_host rfl, fill_move]
      cases g.fill h with
      | error e => rfl
      | ok x =>
        simp only [bind, Except.bind, Except.map, Prod.map_fst, Prod.map_snd, id_eq, ih]
        cases fillAll x.2 ss <;> rfl
    | controller | remoteController | switch | link | intent | up | down | ping =>
      rw [fillAll_other rfl, fillAll_other rfl, ih]
      cases fillAll g ss <;> rfl

theorem Program.assign_move (p : Program) (pool : Pool) :
    (p.move f).assign pool = (p.assign pool).map (Program.move f) := by
  simp only [assign, move, Generators.fillAll_move]
  cases (Generators.ofPool pool).fillAll p.statements <;> rfl

theorem Host.container_move {h : Host} {line line' : Nat} {c : Container}
    (hc : h.container line = .ok c) : (h.move f).container line' = .ok c := by
  unfold container at hc
  split at hc
  · rename_i ip mac hip hmac
    cases hc
    simp only [container, move, hip, hmac, List.map_map]
    rfl
  · cases hc
  · cases hc

theorem Statement.calls_move {s : Statement} {calls : List Call} (h : s.calls = .ok calls) :
    (s.move f).calls = .ok calls := by
  obtain ⟨pos, action⟩ := s
  cases action with
  | host host =>
    cases hc : host.container pos.line with
    | error e =>
      simp only [Statement.calls, hc] at h
      cases h
    | ok c =>
      simp only [Statement.calls, hc] at h
      simp only [Statement.calls, move, Action.move, Host.container_move hc]
      exact h
  | controller | remoteController | switch | link | intent | up | down | ping => exact h

theorem Plan.ofProgram_move {p : Program} {plan : Plan} (h : ofProgram p = .ok plan) :
    ofProgram (p.move f) = .ok plan := by
  obtain ⟨calls, hcalls, hplan⟩ := bind_eq_ok.mp h
  refine bind_eq_ok.mpr ⟨calls, ?_, hplan⟩
  rw [mapM_eq_ok] at hcalls ⊢
  exact List.forall₂_map_left_iff.mpr (hcalls.imp fun _ _ => Statement.calls_move)

end

def Program.planned (p : Program) (pool : Pool) : Except Error Plan := do
  (Plan.ofProgram (← (p.assign pool).mapError .exhausted)).mapError .projection

theorem Config.compile_of_ofText (c : Config) (s : String) :
    c.compile s = Program.ofText s >>= fun p => p.planned c.pool >>= fun plan =>
      (c.format.render plan).mapError .projection := by
  rw [compile_eq, plan, program]
  cases Program.ofText s <;> rfl

theorem Program.exists_plan {p q : Program} {pool : Pool} (h : p.assign pool = .ok q) :
    ∃ plan, Plan.ofProgram q = .ok plan := by
  by_cases ha : p.Affordable pool
  · obtain ⟨_, hq, hr⟩ := assign_ok ha
    cases h.symm.trans hq
    obtain ⟨plan, hplan, -⟩ := Plan.exists_ofProgram hr
    exact ⟨plan, hplan⟩
  · obtain ⟨e, he⟩ := assign_error ha
    cases h.symm.trans he

/-- A plan shows nothing of where its statements stand. -/
theorem Program.planned_move (f : Position → Position) (p : Program) (pool : Pool) :
    (p.move f).planned pool = p.planned pool := by
  rw [planned, planned, assign_move]
  cases hq : p.assign pool with
  | error e => rfl
  | ok q =>
    obtain ⟨plan, hplan⟩ := exists_plan hq
    change (Plan.ofProgram (q.move f)).mapError _ = (Plan.ofProgram q).mapError _
    rw [hplan, Plan.ofProgram_move hplan]

/-- Errors that differ in their places alone. -/
inductive Error.Alike : Error → Error → Prop
  | refl (e : Error) : Alike e e
  | parse (p q : Position) (cause : ParseFault) : Alike (.parse ⟨p, cause⟩) (.parse ⟨q, cause⟩)

section

variable {α β : Type} {f : Position → Position} {m : α → β}

theorem moved_eq_moved {x y : Except ParseError α} (h : moved f m x = moved f m y) :
    (∃ p q cause, x = .error ⟨p, cause⟩ ∧ y = .error ⟨q, cause⟩) ∨
      ∃ a b, x = .ok a ∧ y = .ok b ∧ m a = m b := by
  cases x with
  | error e =>
    cases y with
    | error e' =>
      have hmove : (Except.error (e.move f) : Except ParseError β) = .error (e'.move f) := h
      have hcause := congrArg Located.cause (Except.error.inj hmove)
      change e.cause = e'.cause at hcause
      exact .inl ⟨e.pos, e'.pos, e'.cause, by rw [← hcause], rfl⟩
    | ok b => cases h
  | ok a =>
    cases y with
    | error e => cases h
    | ok b => exact .inr ⟨a, b, rfl, rfl, Except.ok.inj h⟩

end

theorem Program.ofText_alike {s₁ s₂ : String} {ts₁ ts₂ : List Token} (h₁ : Token.ofText s₁ = .ok ts₁)
    (h₂ : Token.ofText s₂ = .ok ts₂) (h : ts₁.map Token.toLexeme = ts₂.map Token.toLexeme) :
    (∃ p q cause, ofText s₁ = .error (.parse ⟨p, cause⟩) ∧ ofText s₂ = .error (.parse ⟨q, cause⟩)) ∨
      ∃ p₁ p₂, ofText s₁ = .ok p₁ ∧ ofText s₂ = .ok p₂ ∧
        p₁.move (fun _ => .start) = p₂.move fun _ => .start := by
  have hplace : ∀ ts : List Token, ts.map (Token.move fun _ => .start) =
      (ts.map Token.toLexeme).map fun l => ⟨l, .start⟩ := by
    intro ts
    rw [List.map_map]
    rfl
  have hmoved := ofTokens_move (fun _ => .start) (Token.exists_eof h₁)
  rw [hplace, h, ← hplace, ofTokens_move _ (Token.exists_eof h₂)] at hmoved
  rw [ofText_eq h₁, ofText_eq h₂]
  obtain ⟨p, q, cause, hp, hq⟩ | ⟨p₁, p₂, hp₁, hp₂, he⟩ := moved_eq_moved hmoved.symm
  · rw [hp, hq]
    exact .inl ⟨p, q, cause, rfl, rfl⟩
  · rw [hp₁, hp₂]
    exact .inr ⟨p₁, p₂, rfl, rfl, he⟩

namespace Config

/-- Texts of the same lexemes compile to the same text, or fail in the same way at places of their own. -/
theorem compile_layout_insignificant (c : Config) {s₁ s₂ : String} {ts₁ ts₂ : List Token}
    (h₁ : Token.ofText s₁ = .ok ts₁) (h₂ : Token.ofText s₂ = .ok ts₂)
    (h : ts₁.map Token.toLexeme = ts₂.map Token.toLexeme) :
    (∃ text, c.compile s₁ = .ok text ∧ c.compile s₂ = .ok text) ∨
      ∃ e₁ e₂, c.compile s₁ = .error e₁ ∧ c.compile s₂ = .error e₂ ∧ Error.Alike e₁ e₂ := by
  rw [compile_of_ofText, compile_of_ofText]
  obtain ⟨p, q, cause, hp, hq⟩ | ⟨p₁, p₂, hp₁, hp₂, he⟩ := Program.ofText_alike h₁ h₂ h
  · rw [hp, hq]
    exact .inr ⟨_, _, rfl, rfl, .parse p q cause⟩
  · have hplan : p₁.planned c.pool = p₂.planned c.pool := by
      rw [← p₁.planned_move fun _ => .start, he, Program.planned_move]
    simp only [hp₁, hp₂, bind, Except.bind, hplan]
    split
    · exact .inr ⟨_, _, rfl, rfl, .refl _⟩
    · rename_i plan _
      cases (c.format.render plan).mapError Error.projection with
      | ok text => exact .inl ⟨text, rfl, rfl⟩
      | error e => exact .inr ⟨e, e, rfl, rfl, .refl e⟩

def oneLine : String := "host a image 'i\\n'"

def manyLines : String := "# hosts\nhost a\n\timage \"i\\n\" # of a\n"

theorem compile_layout_insignificant_manyLines :
    (∃ ts₁ ts₂, Token.ofText oneLine = .ok ts₁ ∧ Token.ofText manyLines = .ok ts₂ ∧ ts₁ ≠ ts₂ ∧
      ts₁.map Token.toLexeme = ts₂.map Token.toLexeme ∧
      ∃ text, ({} : Config).compile oneLine = .ok text ∧ ({} : Config).compile manyLines = .ok text) ∧
    ∃ e₁ e₂, ({} : Config).compile (oneLine ++ " ping up") = .error e₁ ∧
      ({} : Config).compile (manyLines ++ "ping\nup") = .error e₂ ∧ Error.Alike e₁ e₂ ∧ e₁ ≠ e₂ := by
  have hlex : ∀ s : String, (Token.ofText s).isOk = true →
      Token.ofText s = .ok ((Token.ofText s).toOption.getD []) := by
    intro s h
    cases hs : Token.ofText s with
    | error e =>
      rw [hs] at h
      cases h
    | ok ts => rfl
  constructor
  · have h₁ := hlex oneLine (by decide +kernel)
    have h₂ := hlex manyLines (by decide +kernel)
    have h : ((Token.ofText oneLine).toOption.getD []).map Token.toLexeme =
        ((Token.ofText manyLines).toOption.getD []).map Token.toLexeme := by decide +kernel
    refine ⟨_, _, h₁, h₂, by decide +kernel, h, ?_⟩
    obtain htext | ⟨e, _, he, -⟩ := compile_layout_insignificant {} h₁ h₂ h
    · exact htext
    · have hok : (({} : Config).compile oneLine).isOk = true := by decide +kernel
      rw [he] at hok
      cases hok
  · have h := compile_layout_insignificant {} (hlex (oneLine ++ " ping up") (by decide +kernel))
      (hlex (manyLines ++ "ping\nup") (by decide +kernel)) (by decide +kernel)
    have hfail : (({} : Config).compile (oneLine ++ " ping up")) =
        .error (.parse ⟨⟨1, 25⟩, .reserved "up"⟩) := by decide +kernel
    have hfail' : (({} : Config).compile (manyLines ++ "ping\nup")) =
        .error (.parse ⟨⟨5, 1⟩, .reserved "up"⟩) := by decide +kernel
    obtain ⟨_, htext, -⟩ | ⟨e₁, e₂, he₁, he₂, halike⟩ := h
    · cases hfail.symm.trans htext
    · cases hfail.symm.trans he₁
      cases hfail'.symm.trans he₂
      exact ⟨_, _, hfail, hfail', halike, by decide⟩

end Config

end Netlab
