import Mathlib.Data.List.Chain
import Netlab.Proofs.Outcome

namespace Netlab

/-- The actions with one switch or one hop each that stand for an action with several names. -/
def Action.expand : Action → List Action
  | switch names => names.map fun name => .switch [name]
  | intent names => (names.zip names.tail).map fun hop => .intent [hop.1, hop.2]
  | a => [a]

def Statement.expand (s : Statement) : List Statement :=
  s.action.expand.map fun a => { s with action := a }

def Program.expand (p : Program) : Program := ⟨p.statements.flatMap Statement.expand⟩

theorem Action.host?_of_mem_expand {a b : Action} (ha : a.host? = none) (hb : b ∈ a.expand) :
    b.host? = none := by
  cases a with
  | host h => cases ha
  | switch names =>
    obtain ⟨name, -, rfl⟩ := List.mem_map.mp hb
    rfl
  | intent names =>
    obtain ⟨hop, -, rfl⟩ := List.mem_map.mp hb
    rfl
  | _ =>
    rw [List.mem_singleton.mp hb]
    exact ha

namespace Generators

theorem fillAll_append_others {ts : List Statement} (h : ∀ t ∈ ts, t.action.host? = none)
    (g : Generators) (ss : List Statement) :
    g.fillAll (ts ++ ss) = (g.fillAll ss).map (ts ++ ·) := by
  induction ts with
  | nil => cases hs : g.fillAll ss <;> simp [hs, Except.map]
  | cons t ts ih =>
    obtain ⟨ht, hts⟩ := List.forall_mem_cons.mp h
    rw [List.cons_append, fillAll_other ht, ih hts]
    cases g.fillAll ss <;> rfl

theorem fillAll_expand (g : Generators) (ss : List Statement) :
    g.fillAll (ss.flatMap Statement.expand) =
      (g.fillAll ss).map (List.flatMap Statement.expand) := by
  induction ss generalizing g with
  | nil => rfl
  | cons s ss ih =>
    rw [List.flatMap_cons]
    cases hs : s.action.host? with
    | none =>
      have hothers : ∀ t ∈ s.expand, t.action.host? = none := by
        intro t ht
        obtain ⟨a, ha, rfl⟩ := List.mem_map.mp ht
        exact Action.host?_of_mem_expand hs ha
      rw [fillAll_append_others hothers, fillAll_other hs, ih]
      cases g.fillAll ss <;> rfl
    | some h =>
      have ha := Action.host?_eq_some hs
      have hself : s.expand = [s] := by
        obtain ⟨pos, a⟩ := s
        cases ha
        rfl
      rw [hself, List.singleton_append, fillAll_host ha, fillAll_host ha]
      cases hfill : g.fill h with
      | error e => rfl
      | ok filled =>
        have hrest := ih filled.2
        simp only [bind, Except.bind, hrest]
        cases filled.2.fillAll ss <;> rfl

end Generators

theorem Program.assign_expand (p : Program) (pool : Pool) :
    p.expand.assign pool = (p.assign pool).map Program.expand := by
  rw [assign, assign, expand, Generators.fillAll_expand]
  cases (Generators.ofPool pool).fillAll p.statements <;> rfl

theorem hops_eq_zip (names : List String) : hops names = names.zip names.tail := by
  induction names with
  | nil => rfl
  | cons a names ih =>
    cases names with
    | nil => rfl
    | cons b names => rw [hops, ih, List.tail_cons, List.tail_cons, List.zip_cons_cons]

namespace Plan

theorem ofProgram_append (ss ts : List Statement) :
    ofProgram ⟨ss ++ ts⟩ = do
      let p ← ofProgram ⟨ss⟩
      let q ← ofProgram ⟨ts⟩
      return ⟨p.calls ++ q.calls⟩ := by
  simp only [ofProgram, List.mapM_append]
  cases ss.mapM Statement.calls with
  | error e => rfl
  | ok first =>
    cases ts.mapM Statement.calls with
    | error e => rfl
    | ok second =>
      change Except.ok (Plan.mk (first ++ second).flatten) = .ok ⟨first.flatten ++ second.flatten⟩
      rw [List.flatten_append]

theorem ofProgram_singleton (s : Statement) : ofProgram ⟨[s]⟩ = s.calls.map Plan.mk := by
  rw [ofProgram, List.mapM_cons, List.mapM_nil]
  cases s.calls with
  | error e => rfl
  | ok calls =>
    change Except.ok (Plan.mk [calls].flatten) = .ok ⟨calls⟩
    rw [List.flatten_singleton]

theorem ofProgram_each {α : Type} (statement : α → Statement) (call : α → Call)
    (h : ∀ x, (statement x).calls = .ok [call x]) (xs : List α) :
    ofProgram ⟨xs.map statement⟩ = .ok ⟨xs.map call⟩ := by
  induction xs with
  | nil => rfl
  | cons x xs ih =>
    rw [List.map_cons, ← List.singleton_append, ofProgram_append, ofProgram_singleton, h, ih]
    rfl

theorem ofProgram_statement (s : Statement) : ofProgram ⟨s.expand⟩ = ofProgram ⟨[s]⟩ := by
  obtain ⟨pos, a⟩ := s
  cases a with
  | switch names =>
    rw [ofProgram_singleton, Statement.expand, Action.expand, List.map_map]
    exact ofProgram_each _ .addSwitch (fun name => rfl) names
  | intent names =>
    have hcalls : Statement.calls ⟨pos, .intent names⟩ =
        .ok ((names.zip names.tail).map fun hop => .addIntent hop.1 hop.2) := by
      rw [← hops_eq_zip]
      rfl
    rw [ofProgram_singleton, hcalls, Statement.expand, Action.expand, List.map_map]
    exact ofProgram_each _ (fun hop : String × String => .addIntent hop.1 hop.2) (fun hop => rfl) _
  | controller | remoteController | host | link | up | down | ping => rfl

/-- A program and its expansion stand for the same operations. -/
theorem ofProgram_expand (p : Program) : ofProgram p.expand = ofProgram p := by
  obtain ⟨ss⟩ := p
  induction ss with
  | nil => rfl
  | cons s ss ih =>
    have hsplit := ofProgram_append [s] ss
    rw [← ih, ← ofProgram_statement] at hsplit
    rw [← List.singleton_append, hsplit]
    exact ofProgram_append s.expand (ss.flatMap Statement.expand)

end Plan

/-- Hops that lead along a list of names from its first one to its last one, each from where the one
before it ends. -/
structure Along (names : List String) (hops : List (String × String)) : Prop where
  length : hops.length = names.length - 1
  sources : hops.map Prod.fst = names.dropLast
  targets : hops.map Prod.snd = names.tail
  linked : hops.IsChain fun hop hop' => hop.2 = hop'.1

theorem along_hops (names : List String) : Along names (hops names) := by
  induction names with
  | nil => exact ⟨rfl, rfl, rfl, .nil⟩
  | cons a names ih =>
    cases names with
    | nil => exact ⟨rfl, rfl, rfl, .nil⟩
    | cons b names =>
      have hlinked : ∀ hop ∈ (hops (b :: names)).head?, b = hop.1 := by
        intro hop hh
        cases names with
        | nil => cases hh
        | cons c names =>
          cases hh
          rfl
      refine ⟨?_, ?_, ?_, ih.linked.cons hlinked⟩
      · rw [hops, List.length_cons, ih.length]
        simp
      · rw [hops, List.map_cons, ih.sources]
        rfl
      · rw [hops, List.map_cons, ih.targets]
        rfl

/-- The calls that carry out an action: one for each switch, one for each hop of an intent, and one for
any other action. -/
def Action.CarriedOutBy : Action → List Call → Prop
  | switch names, calls => calls = names.map .addSwitch
  | intent names, calls => ∃ hops, Along names hops ∧ calls = hops.map fun hop => .addIntent hop.1 hop.2
  | _, calls => calls.length = 1

theorem Statement.carriedOutBy {s : Statement} {calls : List Call} (h : s.calls = .ok calls) :
    s.action.CarriedOutBy calls := by
  obtain ⟨pos, a⟩ := s
  cases a with
  | host host =>
    obtain ⟨c, -, rfl⟩ := map_eq_ok.mp h
    exact rfl
  | intent names =>
    cases h
    exact ⟨hops names, along_hops names, rfl⟩
  | controller | remoteController | switch | link | up | down | ping =>
    cases h
    exact rfl

theorem Plan.carriedOutBy {p : Program} {plan : Plan} (h : ofProgram p = .ok plan) :
    ∃ css : List (List Call), plan.calls = css.flatten ∧
      List.Forall₂ (fun s calls => s.action.CarriedOutBy calls) p.statements css := by
  obtain ⟨css, hcss, h⟩ := bind_eq_ok.mp h
  cases h
  exact ⟨css, rfl, (mapM_eq_ok.mp hcss).imp fun _ _ => Statement.carriedOutBy⟩

namespace Program

theorem exists_plan_of_assign {p q : Program} {pool : Pool} (h : p.assign pool = .ok q) :
    ∃ plan, Plan.ofProgram q = .ok plan := by
  by_cases ha : p.Affordable pool
  · obtain ⟨q', hq', hr⟩ := assign_ok ha
    cases h.symm.trans hq'
    obtain ⟨plan, hplan, -⟩ := Plan.exists_ofProgram hr
    exact ⟨plan, hplan⟩
  · obtain ⟨e, he⟩ := assign_error ha
    cases h.symm.trans he

/-- A statement with several names means what the statements with one switch or one hop each mean: the
program and its expansion give the same text or fail in the same way. A plan has the calls of each
statement in the order of the statements. -/
theorem expand_means_same :
    (∀ (p : Program) (pool : Pool) (format : Format),
      ((p.expand.assign pool).mapError Error.exhausted >>= fun q => q.emit format) =
        ((p.assign pool).mapError Error.exhausted >>= fun q => q.emit format)) ∧
      (∀ (p q : Program) (pool : Pool), p.assign pool = .ok q → ∃ plan, Plan.ofProgram q = .ok plan) ∧
      ∀ (p : Program) (plan : Plan), Plan.ofProgram p = .ok plan →
        ∃ css : List (List Call), plan.calls = css.flatten ∧
          List.Forall₂ (fun s calls => s.action.CarriedOutBy calls) p.statements css := by
  refine ⟨fun p pool format => ?_, fun p q pool => exists_plan_of_assign, fun p plan => Plan.carriedOutBy⟩
  rw [assign_expand]
  cases p.assign pool with
  | error e => rfl
  | ok q =>
    change q.expand.emit format = q.emit format
    rw [emit, emit, Plan.ofProgram_expand]

def relayed (ip mac : Option String) : Program :=
  ⟨[⟨⟨1, 1⟩, .switch ["s", "t"]⟩, ⟨⟨2, 1⟩, .host ⟨"h", ip, "i", mac, [], [], [], []⟩⟩,
    ⟨⟨3, 1⟩, .intent ["s", "h", "t"]⟩]⟩

theorem expand_means_same_relayed :
    (relayed none none).expand.statements.map Statement.action =
        [.switch ["s"], .switch ["t"], .host ⟨"h", none, "i", none, [], [], [], []⟩,
          .intent ["s", "h"], .intent ["h", "t"]] ∧
      (((relayed none none).expand.assign .standard).mapError Error.exhausted >>= fun q => q.emit .python) =
        (((relayed none none).assign .standard).mapError Error.exhausted >>= fun q => q.emit .python) ∧
      (relayed none none).assign .standard =
        .ok (relayed (some "10.0.0.1") (some "00:00:00:00:00:01")) ∧
      ∃ plan, Plan.ofProgram (relayed (some "10.0.0.1") (some "00:00:00:00:00:01")) = .ok plan ∧
        ∃ css : List (List Call), plan.calls = css.flatten ∧
          List.Forall₂ (fun s calls => s.action.CarriedOutBy calls)
            (relayed (some "10.0.0.1") (some "00:00:00:00:00:01")).statements css := by
  have hassign : (relayed none none).assign .standard =
      .ok (relayed (some "10.0.0.1") (some "00:00:00:00:00:01")) := by decide +kernel
  obtain ⟨htext, hplan, hcalls⟩ := expand_means_same
  refine ⟨by decide, htext _ _ _, hassign, ?_⟩
  obtain ⟨plan, hp⟩ := hplan _ _ _ hassign
  exact ⟨plan, hp, hcalls _ plan hp⟩

end Program

end Netlab
