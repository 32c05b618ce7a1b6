import Netlab.Proofs.Decimal
import Netlab.Proofs.Numbers
import Netlab.Proofs.Supply

namespace Netlab

namespace Token

def magnitude (t : Token) : Nat := Nat.ofDigitChars 10 t.text.toList 0

theorem int_eq_ok {t : Token} {n : UInt64} : t.int = .ok n ↔ Text.Denotes t.text n.toNat := by
  rw [← Text.readWord_eq_ok, Token.int]
  cases Text.readWord t.text <;> simp

theorem Spelled.int_eq_ok {t : Token} (h : t.Spelled) (ht : t.kind = .number) {n : UInt64} :
    t.int = .ok n ↔ t.magnitude = n.toNat := by
  obtain ⟨⟨kind, text⟩, pos⟩ := t
  cases ht
  obtain ⟨cs, hs⟩ := h
  obtain ⟨rfl, hne, hd⟩ := hs.spelledAs
  rw [Token.int_eq_ok, magnitude]
  exact Text.denotes_iff hne hd

theorem Spelled.fits_iff {t : Token} (h : t.Spelled) :
    t.Fits ↔ (t.kind = .number → t.magnitude < 2 ^ 64) := by
  apply imp_congr_right
  intro ht
  simp only [h.int_eq_ok ht]
  constructor
  · rintro ⟨n, hn⟩
    rw [hn]
    exact n.toNat_lt
  · intro hlt
    exact ⟨UInt64.ofNat t.magnitude, (UInt64.toNat_ofNat_of_lt hlt).symm⟩

end Token

namespace Python

/-- The names that no link class can be imported under. -/
def Reserved (cls : String) : Prop := cls ∈ keywords ∨ cls ∈ ownNames

instance : DecidablePred Reserved := fun _ => inferInstanceAs (Decidable (_ ∨ _))

def classFault (cls : String) : PlanFault :=
  if cls ∈ keywords then .keywordClass cls else .clashingClass cls

theorem checkClass_eq (cls : String) :
    checkClass cls = if Reserved cls then .error (classFault cls) else .ok () := by
  by_cases hk : cls ∈ keywords
  · simp [checkClass, Reserved, classFault, hk]
  · simp [checkClass, Reserved, classFault, hk]

theorem forM_checkClass (classes : List String) :
    classes.forM checkClass =
      match classes.find? (fun c => Reserved c) with
      | none => .ok ()
      | some cls => .error (classFault cls) := by
  induction classes with
  | nil => rfl
  | cons cls classes ih =>
    change (checkClass cls >>= fun _ => classes.forM checkClass) = _
    rw [checkClass_eq]
    by_cases hr : Reserved cls
    · rw [if_pos hr, List.find?_cons_of_pos (by simpa using hr)]
      rfl
    · rw [if_neg hr, List.find?_cons_of_neg (by simpa using hr)]
      exact ih

theorem render_eq (p : Plan) :
    (∃ cls, (p.calls.filterMap Call.cls?).find? (fun c => Reserved c) = some cls ∧
        render p = .error (classFault cls)) ∨
      (p.calls.filterMap Call.cls?).find? (fun c => Reserved c) = none ∧
        ∃ text, render p = .ok text := by
  have hcheck := forM_checkClass p.linkClasses
  rw [Plan.linkClasses, Lists.find?_eraseDups] at hcheck
  cases hf : (p.calls.filterMap Call.cls?).find? (fun c => Reserved c) with
  | some cls =>
    rw [hf] at hcheck
    refine .inl ⟨cls, rfl, ?_⟩
    simp only [render, Plan.linkClasses, hcheck]
    rfl
  | none =>
    rw [hf] at hcheck
    refine .inr ⟨rfl, ?_⟩
    simp only [render, Plan.linkClasses, hcheck]
    exact ⟨_, rfl⟩

end Python

def Action.cls? : Action → Option String
  | link l => l.cls
  | _ => none

def Program.classes (p : Program) : List String := p.statements.filterMap fun s => s.action.cls?

/-- A statement with all addresses has its operations, and they name the class that it names. -/
theorem Statement.Resolves.exists_calls {s t : Statement} (h : s.Resolves t) :
    ∃ calls, t.calls = .ok calls ∧ calls.filterMap Call.cls? = s.action.cls?.toList := by
  cases hs : s.action with
  | host host =>
    obtain ⟨ip, mac, ht⟩ := h.host host hs
    simp only [Statement.calls, ht]
    exact ⟨_, rfl, rfl⟩
  | controller | remoteController | up | down | ping =>
    have ht := h.other (by rw [hs]; rfl)
    simp only [Statement.calls, ht, hs]
    exact ⟨_, rfl, rfl⟩
  | link l =>
    have ht := h.other (by rw [hs]; rfl)
    simp only [Statement.calls, ht, hs]
    refine ⟨_, rfl, ?_⟩
    cases hc : l.cls <;> simp [Call.cls?, Action.cls?, hc]
  | switch names =>
    have ht := h.other (by rw [hs]; rfl)
    simp only [Statement.calls, ht, hs]
    exact ⟨_, rfl, by simp [Action.cls?, Call.cls?]⟩
  | intent names =>
    have ht := h.other (by rw [hs]; rfl)
    simp only [Statement.calls, ht, hs]
    exact ⟨_, rfl, by simp [Action.cls?, Call.cls?]⟩

theorem Plan.exists_ofProgram {ss ts : List Statement} (h : List.Forall₂ Statement.Resolves ss ts) :
    ∃ plan, Plan.ofProgram ⟨ts⟩ = .ok plan ∧
      plan.calls.filterMap Call.cls? = Program.classes ⟨ss⟩ := by
  suffices hs : ∃ css, ts.mapM Statement.calls = .ok css ∧
      css.flatten.filterMap Call.cls? = Program.classes ⟨ss⟩ by
    obtain ⟨css, hcss, hcls⟩ := hs
    refine ⟨⟨css.flatten⟩, ?_, hcls⟩
    rw [ofProgram, hcss]
    rfl
  induction h with
  | nil => exact ⟨[], rfl, rfl⟩
  | @cons s t ss ts hst _ ih =>
    obtain ⟨calls, hc, hcls⟩ := hst.exists_calls
    obtain ⟨css, hcss, hrest⟩ := ih
    refine ⟨calls :: css, ?_, ?_⟩
    · rw [List.mapM_cons, hc, hcss]
      rfl
    · rw [List.flatten_cons, List.filterMap_append, hcls, hrest, Program.classes, Program.classes,
        List.filterMap_cons]
      cases s.action.cls? <;> rfl

namespace Program

variable (s : String)

theorem ofText_lexical_iff (e : LexError) :
    Program.ofText s = .error (.lexical e) ↔ Token.ofText s = .error e := by
  obtain ⟨d, hd, hp⟩ | ⟨ts, stop, hl, -, ⟨d, -, hp⟩ | ⟨trees, -, ⟨d, -, hp⟩ | ⟨p, -, hp⟩⟩⟩ :=
    Program.ofText_cases s
  · simp [hd, hp]
  · simp [hl, hp]
  · simp [hl, hp]
  · simp [hl, hp]

/-- A text that is made of tokens is refused if these are no statements or if a number in it is too
large. -/
theorem ofText_parse_iff :
    (∃ e, Program.ofText s = .error (.parse e)) ↔
      ∃ ts, Token.ofText s = .ok ts ∧ ((∃ e, Tree.ofTokens ts = .error e) ∨
        ∃ t ∈ ts, t.kind = .number ∧ 2 ^ 64 ≤ t.magnitude) := by
  obtain ⟨d, hd, hp⟩ | ⟨ts, stop, hl, hts, hcase⟩ := Program.ofText_cases s
  · simp [hd, hp]
  · rw [hl]
    obtain ⟨d, ht, hp⟩ | ⟨trees, ht, ⟨d, ⟨t, hm, hk, hd⟩, hp⟩ | ⟨p, hfit, hp⟩⟩ := hcase
    · exact iff_of_true ⟨d, hp⟩ ⟨_, rfl, .inl ⟨d, ht⟩⟩
    · refine iff_of_true ⟨d, hp⟩ ⟨_, rfl, .inr ⟨t, List.mem_append_left _ hm, hk, ?_⟩⟩
      apply Nat.le_of_not_lt
      intro hlt
      obtain ⟨n, hn⟩ := (hts t hm).fits_iff.mpr (fun _ => hlt) hk
      rw [hd] at hn
      cases hn
    · refine iff_of_false ?_ ?_
      · rintro ⟨e, he⟩
        cases hp.symm.trans he
      · rintro ⟨us, hu, ⟨e, he⟩ | ⟨t, hm, hk, hlarge⟩⟩
        · cases hu
          cases ht.symm.trans he
        · cases hu
          obtain hm | hm := List.mem_append.mp hm
          · have hlt := (hts t hm).fits_iff.mp (hfit t hm) hk
            omega
          · rw [List.mem_singleton.mp hm] at hk
            cases hk

end Program

namespace Config

variable (c : Config) (s : String)

theorem plan_cases :
    (∃ e, Program.ofText s = .error e ∧ c.plan s = .error e) ∨
      ∃ p, Program.ofText s = .ok p ∧
        (¬p.Affordable c.pool ∧ (∃ e, c.plan s = .error (.exhausted e)) ∨
          p.Affordable c.pool ∧ ∃ plan, c.plan s = .ok plan ∧
            plan.calls.filterMap Call.cls? = p.classes) := by
  cases hp : Program.ofText s with
  | error e => exact .inl ⟨e, rfl, by rw [plan, program, hp]; rfl⟩
  | ok p =>
    have hplan : c.plan s = (p.assign c.pool).mapError .exhausted >>= fun q =>
        (Plan.ofProgram q).mapError .projection := by
      rw [plan, program, hp]
      rfl
    refine .inr ⟨p, rfl, ?_⟩
    by_cases ha : p.Affordable c.pool
    · obtain ⟨⟨ts⟩, hq, hr⟩ := Program.assign_ok ha
      obtain ⟨plan, hok, hcls⟩ := Plan.exists_ofProgram hr
      exact .inr ⟨ha, plan, by rw [hplan, hq]; simp [Except.mapError, hok, bind, Except.bind], hcls⟩
    · obtain ⟨e, he⟩ := Program.assign_error ha
      exact .inl ⟨ha, e, by rw [hplan, he]; rfl⟩

theorem compile_eq :
    c.compile s = c.plan s >>= fun plan => (c.format.render plan).mapError .projection := by
  rw [compile, plan]
  cases c.program s with
  | error e => rfl
  | ok p =>
    change p.emit c.format = _
    rw [Program.emit]
    rfl

/-- The four ways in which a compilation can end. -/
theorem compile_cases :
    (∃ e, Program.ofText s = .error e ∧ c.compile s = .error e) ∨
      ∃ p, Program.ofText s = .ok p ∧
        (¬p.Affordable c.pool ∧ (∃ e, c.compile s = .error (.exhausted e)) ∨
          p.Affordable c.pool ∧
            (c.format = .python ∧ (∃ cls, p.classes.find? (fun c => Python.Reserved c) = some cls ∧
                c.compile s = .error (.projection (Python.classFault cls))) ∨
              (c.format = .python → p.classes.find? (fun c => Python.Reserved c) = none) ∧
                ∃ text, c.compile s = .ok text)) := by
  rw [compile_eq]
  obtain ⟨e, hp, he⟩ | ⟨p, hp, ⟨ha, e, he⟩ | ⟨ha, plan, hplan, hcls⟩⟩ := c.plan_cases s
  · exact .inl ⟨e, hp, by rw [he]; rfl⟩
  · exact .inr ⟨p, hp, .inl ⟨ha, e, by rw [he]; rfl⟩⟩
  · refine .inr ⟨p, hp, .inr ⟨ha, ?_⟩⟩
    rw [hplan, ← hcls]
    cases c.format with
    | json => exact .inr ⟨by simp, plan.jsonText, rfl⟩
    | python =>
      obtain ⟨cls, hf, he⟩ | ⟨hf, text, hok⟩ := Python.render_eq plan
      · refine .inl ⟨rfl, cls, hf, ?_⟩
        change (Python.render plan).mapError Error.projection = _
        rw [he]
        rfl
      · refine .inr ⟨fun _ => hf, text, ?_⟩
        change (Python.render plan).mapError Error.projection = _
        rw [hok]
        rfl

theorem compile_lexical_iff (e : LexError) :
    c.compile s = .error (.lexical e) ↔ Token.ofText s = .error e := by
  rw [← Program.ofText_lexical_iff]
  obtain ⟨d, hp, hc⟩ | ⟨p, hp, ⟨-, d, hc⟩ | ⟨-, ⟨-, cls, -, hc⟩ | ⟨-, text, hc⟩⟩⟩ :=
    c.compile_cases s <;> simp [hp, hc]

theorem compile_parse_iff (e : ParseError) :
    c.compile s = .error (.parse e) ↔ Program.ofText s = .error (.parse e) := by
  obtain ⟨d, hp, hc⟩ | ⟨p, hp, ⟨-, d, hc⟩ | ⟨-, ⟨-, cls, -, hc⟩ | ⟨-, text, hc⟩⟩⟩ :=
    c.compile_cases s <;> simp [hp, hc]

theorem compile_exhausted_iff :
    (∃ e, c.compile s = .error (.exhausted e)) ↔
      ∃ p, Program.ofText s = .ok p ∧ ¬p.Affordable c.pool := by
  obtain ⟨d, hp, hc⟩ | ⟨p, hp, ⟨ha, d, hc⟩ | ⟨ha, ⟨-, cls, -, hc⟩ | ⟨-, text, hc⟩⟩⟩ :=
    c.compile_cases s
  · have hne : ∀ e, d ≠ .exhausted e := by
      rintro e rfl
      cases Program.ofText_isSyntax hp
    simp [hp, hc, hne]
  · simp [hp, hc, ha]
  · simp [hp, hc, ha]
  · simp [hp, hc, ha]

theorem compile_projection_iff (f : PlanFault) :
    c.compile s = .error (.projection f) ↔
      ∃ p, Program.ofText s = .ok p ∧ p.Affordable c.pool ∧ c.format = .python ∧
        ∃ cls, p.classes.find? (fun c => Python.Reserved c) = some cls ∧ f = Python.classFault cls := by
  obtain ⟨d, hp, hc⟩ | ⟨p, hp, ⟨ha, d, hc⟩ | ⟨ha, ⟨hf, cls, hcls, hc⟩ | ⟨hcls, text, hc⟩⟩⟩ :=
    c.compile_cases s
  · have hne : d ≠ .projection f := by
      rintro rfl
      cases Program.ofText_isSyntax hp
    simp [hp, hc, hne]
  · simp [hp, hc, ha]
  · constructor
    · intro h
      cases hc.symm.trans h
      exact ⟨p, hp, ha, hf, cls, hcls, rfl⟩
    · rintro ⟨q, hq, -, -, cls', hcls', rfl⟩
      cases hp.symm.trans hq
      cases hcls.symm.trans hcls'
      exact hc
  · refine iff_of_false (by simp [hc]) ?_
    rintro ⟨q, hq, -, hf, cls, hcls', -⟩
    cases hp.symm.trans hq
    cases (hcls hf).symm.trans hcls'

theorem compile_ok_iff :
    (∃ text, c.compile s = .ok text) ↔
      ∃ p, Program.ofText s = .ok p ∧ p.Affordable c.pool ∧
        (c.format = .python → ∀ cls ∈ p.classes, ¬Python.Reserved cls) := by
  obtain ⟨d, hp, hc⟩ | ⟨p, hp, ⟨ha, d, hc⟩ | ⟨ha, ⟨hf, cls, hcls, hc⟩ | ⟨hcls, text, hc⟩⟩⟩ :=
    c.compile_cases s
  · simp [hp, hc]
  · simp [hp, hc, ha]
  · refine iff_of_false (by simp [hc]) ?_
    rintro ⟨q, hq, -, h⟩
    cases hp.symm.trans hq
    exact h hf cls (List.mem_of_find?_eq_some hcls) (by simpa using List.find?_some hcls)
  · refine iff_of_true ⟨text, hc⟩ ⟨p, hp, ha, fun hf cls hm => ?_⟩
    simpa using List.find?_eq_none.mp (hcls hf) cls hm

/-- The plan of a text does not depend on the format, so one that can be written in Python can be
written in the other format too. -/
theorem compile_both {text : String} (h : { c with format := .python }.compile s = .ok text) :
    ∃ plan json, c.plan s = .ok plan ∧ Python.render plan = .ok text ∧
      { c with format := .json }.compile s = .ok json ∧ Format.json.render plan = .ok json := by
  rw [compile_eq, bind_eq_ok] at h
  obtain ⟨plan, hplan, hr⟩ := h
  refine ⟨plan, plan.jsonText, hplan, mapError_eq_ok.mp hr, ?_, rfl⟩
  rw [compile_eq, bind_eq_ok]
  exact ⟨plan, hplan, rfl⟩

/-- When a compilation fails, and with which error. A plan is never refused, only its text is; and
what can be written in Python is the plan that is written in the other format. -/
theorem compile_classified :
    (∀ e, c.compile s = .error (.lexical e) ↔ Token.ofText s = .error e) ∧
      ((∃ e, c.compile s = .error (.parse e)) ↔
        ∃ ts, Token.ofText s = .ok ts ∧ ((∃ e, Tree.ofTokens ts = .error e) ∨
          ∃ t ∈ ts, t.kind = .number ∧ 2 ^ 64 ≤ t.magnitude)) ∧
      ((∃ e, c.compile s = .error (.exhausted e)) ↔
        ∃ p, Program.ofText s = .ok p ∧
          (c.pool.size - 1 < p.lacking Host.ip ∨ 2 ^ 48 - 1 < p.lacking Host.mac)) ∧
      (∀ f, c.compile s = .error (.projection f) ↔
        ∃ p, Program.ofText s = .ok p ∧ p.Affordable c.pool ∧ c.format = .python ∧
          ∃ cls, p.classes.find? (fun c => Python.Reserved c) = some cls ∧
            f = Python.classFault cls) ∧
      ((∃ text, c.compile s = .ok text) ↔
        ∃ p, Program.ofText s = .ok p ∧ p.Affordable c.pool ∧
          (c.format = .python → ∀ cls ∈ p.classes, ¬Python.Reserved cls)) ∧
      (∀ f, c.plan s ≠ .error (.projection f)) ∧
      ∀ text, { c with format := .python }.compile s = .ok text →
        ∃ plan json, c.plan s = .ok plan ∧ Python.render plan = .ok text ∧
          { c with format := .json }.compile s = .ok json ∧ Format.json.render plan = .ok json := by
  refine ⟨c.compile_lexical_iff s, ?_, ?_, c.compile_projection_iff s, c.compile_ok_iff s, ?_,
    fun text => c.compile_both s⟩
  · simp only [compile_parse_iff]
    exact Program.ofText_parse_iff s
  · rw [compile_exhausted_iff]
    simp only [Program.Affordable, not_and_or, Nat.not_le]
  · intro f hf
    obtain ⟨e, hp, he⟩ | ⟨p, -, ⟨-, e, he⟩ | ⟨-, plan, hplan, -⟩⟩ := c.plan_cases s
    · cases hf.symm.trans he
      cases Program.ofText_isSyntax hp
    · cases hf.symm.trans he
    · cases hf.symm.trans hplan

def classedLink : String := "host a image 'i' link l src a dst a cls TCLink"

theorem compile_classified_classedLink :
    ∃ text plan json, ({ format := .python } : Config).compile classedLink = .ok text ∧
      ({} : Config).plan classedLink = .ok plan ∧ Python.render plan = .ok text ∧
      ({ format := .json } : Config).compile classedLink = .ok json ∧
      Format.json.render plan = .ok json := by
  have hok : (({ format := .python } : Config).compile classedLink).isOk = true := by decide +kernel
  cases htext : ({ format := .python } : Config).compile classedLink with
  | error e =>
    rw [htext] at hok
    cases hok
  | ok text =>
    obtain ⟨-, -, -, -, -, -, hboth⟩ := compile_classified {} classedLink
    obtain ⟨plan, json, h⟩ := hboth text htext
    exact ⟨text, plan, json, rfl, h⟩

end Config

end Netlab
