import Netlab.Command
import Netlab.Proofs.DerivedPath

namespace Netlab

namespace FileSystem

/-- The file that a path names holds a new text, and all else is as it was. -/
structure Replaced (fs : FileSystem) (p : Path) (text : String) (fs' : FileSystem) : Prop where
  place : ∃ l, fs.Target p l ∧ fs'.lookup? l = some (.file text.toUTF8) ∧
    ∀ l', l' ≠ l → fs'.lookup? l' = fs.lookup? l'
  current : fs'.current = fs.current
  load : fs'.load p = .ok text

variable {fs : FileSystem} {p q : Path} {l r : Location}

theorem Target.replaced (h : fs.Target p l) (text : String) :
    fs.Replaced p text (fs.insert l (.file text.toUTF8)) where
  place := ⟨l, h, fs.lookup?_insert_self h.ne_nil, fun _ hne => fs.lookup?_insert_of_ne hne⟩
  current := rfl
  load := h.load_insert text

theorem Target.load_insert_of_ne (h : fs.Target p l) {content : ByteArray} (hq : fs.locate q = .ok r)
    (hne : r ≠ l) : (fs.insert l (.file content)).load q = fs.load q := by
  have hq' : (fs.insert l (.file content)).locate q = .ok r := h.locate_insert hq
  have hlook : (fs.insert l (.file content)).lookup? r = fs.lookup? r := fs.lookup?_insert_of_ne hne
  simp only [locate] at hq hq'
  simp only [load, read, hq, hq', bind, Except.bind, hlook]

theorem exists_file_of_load {text : String} (h : fs.load p = .ok text) :
    ∃ r content, fs.locate p = .ok r ∧ fs.lookup? r = some (.file content) := by
  have hread := mapError_eq_ok.mp h
  unfold read at hread
  split at hread
  · cases hread
  · obtain ⟨r, hr, hfile⟩ := bind_eq_ok.mp hread
    refine ⟨r, ?_⟩
    split at hfile
    · cases hfile
    · cases hfile
    · rename_i content hlook
      exact ⟨content, hr, hlook⟩

end FileSystem

theorem elim_eq_ok {α β ε ε' : Type} {s? : Option String} {read : String → Except ε α} {wrap : ε → ε'}
    {put : α → β} {b b' : β} (h : s?.elim (.ok b) (fun s => ((read s).mapError wrap).map put) = .ok b') :
    ∃ a?, s?.mapM read = .ok a? ∧ b' = a?.elim b put := by
  cases s? with
  | none =>
    cases h
    exact ⟨none, rfl, rfl⟩
  | some s =>
    cases hr : read s with
    | error e =>
      simp only [Option.elim_some, hr] at h
      cases h
    | ok a =>
      simp only [Option.elim_some, hr] at h
      cases h
      refine ⟨some a, ?_, rfl⟩
      rw [Option.mapM_some, hr]
      rfl

namespace Config

variable {c c' : Config} {lookup : Field → Option String}

theorem set_ipPool (c : Config) :
    c.set .ipPool = fun s => ((Pool.ofText s).mapError .pool).map fun pool => { c with pool } := by
  funext s
  rw [set]

theorem set_format (c : Config) :
    c.set .format =
      fun s => ((Format.ofText s).mapError .unknownFormat).map fun format => { c with format } := by
  funext s
  rw [set]

theorem overlayAll_cons_eq_ok {f : Field} {fs : List Field} :
    (overlayAll lookup (f :: fs) c).2 = .ok c' ↔
      ∃ d, (lookup f).elim (.ok c) (c.set f) = .ok d ∧ (overlayAll lookup fs d).2 = .ok c' := by
  rw [overlayAll]
  cases (lookup f).elim (.ok c) (c.set f) with
  | error e => simp
  | ok d => simp

theorem overlay_eq_ok (h : (c.overlay lookup).2 = .ok c') :
    ∃ pool? format?, (lookup .ipPool).mapM Pool.ofText = .ok pool? ∧
      (lookup .format).mapM Format.ofText = .ok format? ∧
      c' = ⟨pool?.getD c.pool, format?.getD c.format, (lookup .logLevel).getD c.logLevel⟩ := by
  simp only [overlay, Field.all, overlayAll_cons_eq_ok] at h
  obtain ⟨c₁, hpool, c₂, hformat, c₃, hlevel, h⟩ := h
  rw [set_ipPool] at hpool
  rw [set_format] at hformat
  obtain ⟨pool?, hpool?, rfl⟩ := elim_eq_ok hpool
  obtain ⟨format?, hformat?, rfl⟩ := elim_eq_ok hformat
  refine ⟨pool?, format?, hpool?, hformat?, ?_⟩
  cases h
  cases hl : lookup .logLevel <;> rw [hl] at hlevel <;> cases hlevel <;>
    cases pool? <;> cases format? <;> rfl

end Config

theorem ofExcept_eq_self {α ε : Type} (x : Except ε α) : (MonadExcept.ofExcept x : Except ε α) = x := by
  cases x <;> rfl

namespace Invocation

variable {rd : Readers} {i : Invocation} {env : String → Option String} {fs fs' : FileSystem} {c : Config}

def draft (i : Invocation) (rd : Readers) (fs : FileSystem) : Except Error Draft :=
  match i.config? with
  | none => .ok {}
  | some p => fs.load p >>= fun text => (rd.draft text).mapError .config

/-- Where the settings of a run come from. A flag comes before a variable, a variable before the
configuration file, and this before the usual settings. A variable that is set has to be readable,
also where a flag comes before it. -/
structure Effective (i : Invocation) (env : String → Option String) (file : Draft) (c : Config) :
    Prop where
  pool : ∃ set?, (env "MIDORI_IP_POOL").mapM Pool.ofText = .ok set? ∧
    c.pool = (set?.or file.pool?).getD .standard
  format : ∃ set?, (env "MIDORI_FORMAT").mapM Format.ofText = .ok set? ∧
    c.format = ((i.format?.or set?).or file.format?).getD .python
  logLevel : c.logLevel = ((i.logLevel?.or (env "MIDORI_LOG_LEVEL")).or file.logLevel?).getD "warn"

theorem configure_eq_ok {text? : Option String} (h : i.configure rd env text? = .ok c) :
    ∃ file, text?.elim (.ok {}) rd.draft = .ok file ∧ i.Effective env file c := by
  obtain ⟨file, hfile, h⟩ := bind_eq_ok.mp h
  obtain ⟨d, hover, h⟩ := bind_eq_ok.mp h
  cases h
  obtain ⟨pool?, format?, hpool, hformat, rfl⟩ := Config.overlay_eq_ok (mapError_eq_ok.mp hover)
  refine ⟨file, mapError_eq_ok.mp hfile, ⟨pool?, hpool, ?_⟩, ⟨format?, hformat, ?_⟩, ?_⟩
  · simp [Draft.config, Option.getD_or]
  · simp [Draft.config, Option.getD_or]
  · simp [Draft.config, Option.getD_or]
    rfl

theorem prepare_eq_ok {f : Filter} (h : i.prepare rd env fs.load = .ok (c, f)) :
    ∃ file, i.draft rd fs = .ok file ∧ i.Effective env file c := by
  simp only [prepare, ofExcept_eq_self] at h
  obtain ⟨text?, htext, h⟩ := bind_eq_ok.mp h
  obtain ⟨c', hc, h⟩ := bind_eq_ok.mp h
  obtain ⟨f', -, h⟩ := bind_eq_ok.mp h
  cases h
  obtain ⟨file, hfile, heffective⟩ := configure_eq_ok hc
  refine ⟨file, ?_, heffective⟩
  cases hp : i.config? with
  | none =>
    rw [hp] at htext
    cases htext
    cases hfile
    rw [draft, hp]
  | some p =>
    rw [hp, Option.mapM_some] at htext
    obtain ⟨text, hload, htext⟩ := map_eq_ok.mp htext
    cases htext
    rw [draft, hp]
    exact bind_eq_ok.mpr ⟨text, hload, mapError_eq_ok.mpr hfile⟩

def Saves (i : Invocation) : Prop := i.dryRun = false ∧ i.stdout = false

def destination (i : Invocation) (c : Config) : Path := i.output?.getD (c.derivedPath i.source)

/-- The source would be replaced by what it is compiled to, and that was not asked for. -/
def Overwrites (i : Invocation) (c : Config) : Prop :=
  i.Saves ∧ i.output? = none ∧ (c.derivedPath i.source).same i.source = true

/-- How a run can end. -/
inductive Ends (i : Invocation) (rd : Readers) (env : String → Option String) (fs : FileSystem)
    (disk : FileSystem.Disk) : Report → FileSystem → Prop
  | unprepared {e : Error} (hp : i.prepare rd env fs.load = .error e) : Ends i rd env fs disk ⟨1, "", some e, []⟩ fs
  | overwriting {c : Config} {f : Filter} {log : List String} (hp : i.prepare rd env fs.load = .ok (c, f))
      (ho : i.Overwrites c) :
      Ends i rd env fs disk ⟨1, "", some (.config (.overwritesSource (c.derivedPath i.source).text)), log⟩ fs
  | unmade {c : Config} {f : Filter} {log : List String} {e : Error}
      (hp : i.prepare rd env fs.load = .ok (c, f)) (ho : ¬i.Overwrites c)
      (hx : fs.load i.source >>= c.compile = .error e) : Ends i rd env fs disk ⟨1, "", some e, log⟩ fs
  | shown {c : Config} {f : Filter} {log : List String} {text : String}
      (hp : i.prepare rd env fs.load = .ok (c, f)) (hi : ¬i.Saves)
      (hx : fs.load i.source >>= c.compile = .ok text) :
      Ends i rd env fs disk ⟨0, if i.dryRun then "" else text, none, log⟩ fs
  | unwritten {c : Config} {f : Filter} {log : List String} {text : String} {fault : IoFault}
      (hp : i.prepare rd env fs.load = .ok (c, f)) (hi : i.Saves) (ho : ¬i.Overwrites c)
      (hx : fs.load i.source >>= c.compile = .ok text)
      (hno : disk = {} → ∀ l, ¬fs.Target (i.destination c) l) :
      Ends i rd env fs disk ⟨1, "", some (.unwritable (i.destination c) fault), log⟩ fs
  | written {c : Config} {f : Filter} {log : List String} {text : String} {l : Location}
      (hp : i.prepare rd env fs.load = .ok (c, f)) (hi : i.Saves) (ho : ¬i.Overwrites c)
      (hx : fs.load i.source >>= c.compile = .ok text) (hl : fs.Target (i.destination c) l) :
      Ends i rd env fs disk ⟨0, "", none, log⟩ (fs.insert l (.file text.toUTF8))

theorem output_eq_error {e : Error} (h : i.output c = .error e) :
    i.Overwrites c ∧ e = .config (.overwritesSource (c.derivedPath i.source).text) := by
  unfold output at h
  split at h
  · cases h
  · rename_i hi
    split at h
    · cases h
    · rename_i ho
      dsimp only at h
      split at h
      · rename_i hsame
        cases h
        exact ⟨⟨by simpa [Saves] using hi, ho, hsame⟩, rfl⟩
      · cases h

theorem output_eq_ok {o : Output} (h : i.output c = .ok o) :
    ¬i.Overwrites c ∧ (¬i.Saves ∧ o = .stdout ∨
      i.Saves ∧ c.target? i.source o = some (i.destination c)) := by
  unfold output at h
  split at h
  · rename_i hi
    cases h
    have hnot : ¬i.Saves := by
      rintro ⟨hd, hs⟩
      simp [hd, hs] at hi
    exact ⟨fun ho => hnot ho.1, .inl ⟨hnot, rfl⟩⟩
  · rename_i hi
    have hsaves : i.Saves := by simpa [Saves] using hi
    split at h
    · rename_i p ho
      cases h
      refine ⟨fun hover => ?_, .inr ⟨hsaves, by simp [Config.target?, destination, ho]⟩⟩
      cases ho.symm.trans hover.2.1
    · rename_i ho
      dsimp only at h
      split at h
      · cases h
      · rename_i hsame
        cases h
        exact ⟨fun hover => hsame hover.2.2, .inr ⟨hsaves, by simp [Config.target?, destination, ho]⟩⟩

section

variable (i rd env) (disk : FileSystem.Disk) (s : Scene)

theorem run_prepare : (i.prepare rd env (Scene.world disk).load).run.run s =
    (i.prepare rd env s.files.load, s) := by
  have hread : (i.config?.mapM (Scene.world disk).load).run.run s = (i.config?.mapM s.files.load, s) := by
    cases i.config? with
    | none => rfl
    | some p =>
      rw [Option.mapM_some, Option.mapM_some]
      rw [ExceptT.run_map, StateT.run_map, Scene.run_load]
      cases s.files.load p <;> rfl
  simp only [prepare, Scene.run_bind, hread, Scene.run_ofExcept, Scene.run_pure, ofExcept_eq_self]
  cases i.config?.mapM s.files.load with
  | error e => rfl
  | ok text? =>
    dsimp only
    cases hc : i.configure rd env text? with
    | error e => simp [bind, Except.bind, hc]
    | ok c => cases hf : filter rd env c <;> simp [bind, Except.bind, hc, hf, pure, Except.pure]

theorem run_finish (f : Filter) (text? : Option String) :
    ∃ log, (liftM (i.finish (Scene.world disk) f text?) : ExceptT Error (StateM Scene) Unit).run.run s =
      (.ok (), ⟨s.files, s.stdout ++ if i.dryRun then "" else text?.getD "", log⟩) := by
  unfold finish
  cases i.dryRun with
  | true =>
    refine ⟨s.log ++ f.lines [Journal.dryRun i.source], ?_⟩
    rw [if_pos rfl, if_pos rfl, String.append_empty, Scene.run_note]
  | false => exact ⟨s.log, rfl⟩

end

section

variable {disk : FileSystem.Disk} {f : Filter} {o : Output}

/-- Once the settings and the place of the output are known a run is a compilation of its source. -/
theorem run_perform (hp : i.prepare rd env fs.load = .ok (c, f)) (ho : i.output c = .ok o) :
    ∃ log, (i.perform rd env (Scene.world disk)).run.run { files := fs } =
      match c.compileFile fs i.source o disk with
      | (.error e, fs') => (.error e, ⟨fs', "", log⟩)
      | (.ok text?, fs') => (.ok (), ⟨fs', if i.dryRun then "" else text?.getD "", log⟩) := by
  simp only [perform, Scene.run_bind, run_prepare, hp, Scene.run_note, Scene.run_ofExcept, ho]
  obtain ⟨log, hlog⟩ := Scene.run_compileFile c i.source o disk ⟨fs, "", [] ++ f.lines i.opening⟩ f
  rw [hlog]
  rcases c.compileFile fs i.source o disk with ⟨_ | text?, fs'⟩
  · exact ⟨log, rfl⟩
  · obtain ⟨log', hfinish⟩ := i.run_finish disk ⟨fs', "", log⟩ f text?
    refine ⟨log', hfinish.trans ?_⟩
    rw [String.empty_append]

theorem ends_perform (i : Invocation) (rd : Readers) (env : String → Option String) (fs : FileSystem)
    (disk : FileSystem.Disk) :
    let r := (i.perform rd env (Scene.world disk)).run.run { files := fs }
    i.Ends rd env fs disk (.ofScene r.2 (r.1.map fun _ => 0)) r.2.files := by
  cases hp : i.prepare rd env fs.load with
  | error e =>
    simp only [perform, Scene.run_bind, run_prepare, hp]
    exact .unprepared hp
  | ok r =>
    obtain ⟨c, f⟩ := r
    cases ho : i.output c with
    | error e =>
      obtain ⟨hover, rfl⟩ := output_eq_error ho
      simp only [perform, Scene.run_bind, run_prepare, hp, Scene.run_note, Scene.run_ofExcept, ho]
      exact .overwriting hp hover
    | ok o =>
      obtain ⟨hover, hdest⟩ := output_eq_ok ho
      obtain ⟨log, hrun⟩ := run_perform hp ho
      rw [hrun]
      have hwhole := Step.whole_run fs ⟨.compileFile c i.source o, disk⟩
      change Step.Whole fs _ (c.compileFile fs i.source o disk).1
        (c.compileFile fs i.source o disk).2 at hwhole
      generalize c.compileFile fs i.source o disk = r at hwhole ⊢
      obtain ⟨answer, fs'⟩ := r
      cases hwhole with
      | unmade hx => exact .unmade hp hover hx
      | shown hx ht =>
        obtain ⟨hi, -⟩ | ⟨-, htarget⟩ := hdest
        · exact .shown hp hi hx
        · cases ht.symm.trans htarget
      | unwritten hx ht hno =>
        obtain ⟨-, rfl⟩ | ⟨hi, htarget⟩ := hdest
        · cases ht
        · cases ht.symm.trans htarget
          exact .unwritten hp hi hover hx hno
      | written hx ht hl =>
        obtain ⟨-, rfl⟩ | ⟨hi, htarget⟩ := hdest
        · cases ht
        · cases ht.symm.trans htarget
          simp only [hi.1]
          exact .written hp hi hover hx hl

end

/-- The text that a run makes, wherever it goes. -/
def made (i : Invocation) (rd : Readers) (env : String → Option String) (fs : FileSystem) : Except Error String :=
  i.prepare rd env fs.load >>= fun r => fs.load i.source >>= r.1.compile

section

variable {disk : FileSystem.Disk} {report : Report}

theorem made_eq {f : Filter} (hp : i.prepare rd env fs.load = .ok (c, f)) :
    i.made rd env fs = fs.load i.source >>= c.compile := by
  rw [made, hp]
  rfl

theorem Ends.of_made_error (h : i.Ends rd env fs disk report fs')
    (ho : ∀ c f, i.prepare rd env fs.load = .ok (c, f) → ¬i.Overwrites c) {e : Error}
    (he : i.made rd env fs = .error e) : report.code = 1 ∧ report.error? = some e ∧ fs' = fs := by
  cases h with
  | unprepared hp =>
    rw [made, hp] at he
    cases he
    exact ⟨rfl, rfl, rfl⟩
  | overwriting hp hover => exact absurd hover (ho _ _ hp)
  | unmade hp _ hx =>
    rw [made_eq hp, hx] at he
    cases he
    exact ⟨rfl, rfl, rfl⟩
  | shown hp _ hx | unwritten hp _ _ hx | written hp _ _ hx =>
    rw [made_eq hp, hx] at he
    cases he

theorem Ends.of_made_ok (h : i.Ends rd env fs disk report fs')
    (ho : ∀ c f, i.prepare rd env fs.load = .ok (c, f) → ¬i.Overwrites c) {text : String}
    (hok : i.made rd env fs = .ok text) :
    ∃ c f, i.prepare rd env fs.load = .ok (c, f) ∧
      (¬i.Saves ∧ report.code = 0 ∧ report.error? = none ∧ report.stdout = (if i.dryRun then "" else text) ∨
        i.Saves ∧
          (report.code = 0 ∧ fs.Replaced (i.destination c) text fs' ∨
            (∃ fault, report.error? = some (.unwritable (i.destination c) fault)) ∧
              report.code ≠ 0 ∧ fs' = fs ∧ (disk = {} → ∀ l, ¬fs.Target (i.destination c) l))) := by
  cases h with
  | unprepared hp =>
    rw [made, hp] at hok
    cases hok
  | overwriting hp hover => exact absurd hover (ho _ _ hp)
  | unmade hp _ hx =>
    rw [made_eq hp, hx] at hok
    cases hok
  | shown hp hi hx =>
    rw [made_eq hp, hx] at hok
    cases hok
    exact ⟨_, _, hp, .inl ⟨hi, rfl, rfl, rfl⟩⟩
  | unwritten hp hi _ hx hno =>
    exact ⟨_, _, hp, .inr ⟨hi, .inr ⟨⟨_, rfl⟩, by simp, rfl, hno⟩⟩⟩
  | written hp hi _ hx hl =>
    rw [made_eq hp, hx] at hok
    cases hok
    exact ⟨_, _, hp, .inr ⟨hi, .inl ⟨rfl, hl.replaced text⟩⟩⟩

theorem Ends.of_not_saves (h : i.Ends rd env fs disk report fs') (hi : ¬i.Saves) :
    (∀ e, i.made rd env fs = .error e → report.code = 1 ∧ report.error? = some e) ∧
      ∀ text, i.made rd env fs = .ok text →
        report.code = 0 ∧ report.error? = none ∧ report.stdout = (if i.dryRun then "" else text) := by
  have ho : ∀ c f, i.prepare rd env fs.load = .ok (c, f) → ¬i.Overwrites c := fun _ _ _ ho => hi ho.1
  constructor
  · intro e he
    obtain ⟨hcode, herror, -⟩ := h.of_made_error ho he
    exact ⟨hcode, herror⟩
  · intro text hx
    obtain ⟨c, f, -, ⟨-, hreport⟩ | ⟨hsaves, -⟩⟩ := h.of_made_ok ho hx
    · exact hreport
    · exact absurd hsaves hi

theorem Ends.of_overwrites (h : i.Ends rd env fs disk report fs') {f : Filter}
    (hp : i.prepare rd env fs.load = .ok (c, f)) (ho : i.Overwrites c) :
    report.code ≠ 0 ∧ (∃ fault, report.error? = some (.config fault)) ∧ fs' = fs := by
  cases h with
  | unprepared hp' => cases hp.symm.trans hp'
  | overwriting => exact ⟨by simp, ⟨_, rfl⟩, rfl⟩
  | shown _ hi => exact absurd ho.1 hi
  | unmade hp' ho' | unwritten hp' _ ho' | written hp' _ ho' =>
    cases hp.symm.trans hp'
    exact absurd ho ho'

end

end Invocation

theorem Format.extension_no_slash (f : Format) : '/' ∉ f.extension.toList := by
  cases f <;> decide

namespace Command

variable {rd : Readers} {args : List String} {i : Invocation} (env : String → Option String) (fs : FileSystem)
  (disk : FileSystem.Disk)

theorem ends_run (h : rd.request args = .compile i) :
    i.Ends rd env fs disk (run rd args env fs disk).1 (run rd args env fs disk).2 := by
  have hends := i.ends_perform rd env fs disk
  simp only [run, perform, h, Scene.run_bind]
  generalize (i.perform rd env (Scene.world disk)).run.run { files := fs } = r at hends ⊢
  obtain ⟨answer, s⟩ := r
  cases answer with
  | error e => exact hends
  | ok => exact hends

/-- A run that fails prints nothing and changes no file, and a run that is to write none changes none.
The source stays as it is unless an output path is given. A file that is written is the only change, and
it holds what the source is compiled to with the settings that come first. -/
theorem run_atomic (h : rd.request args = .compile i) :
    ((run rd args env fs disk).1.code ≠ 0 →
        (run rd args env fs disk).1.stdout = "" ∧ (run rd args env fs disk).2 = fs) ∧
      (i.dryRun = true ∨ i.stdout = true → (run rd args env fs disk).2 = fs) ∧
      (i.output? = none → (run rd args env fs disk).2.load i.source = fs.load i.source ∧
        ∀ l, fs.locate i.source = .ok l → (run rd args env fs disk).2.lookup? l = fs.lookup? l) ∧
      ((run rd args env fs disk).1.code = 0 → i.dryRun = false → i.stdout = false →
        ∃ file c source text, i.draft rd fs = .ok file ∧ i.Effective env file c ∧
          fs.load i.source = .ok source ∧ c.compile source = .ok text ∧
          fs.Replaced (i.output?.getD (c.derivedPath i.source)) text (run rd args env fs disk).2) := by
  have hends := ends_run env fs disk h
  generalize run rd args env fs disk = r at hends ⊢
  obtain ⟨report, fs'⟩ := r
  cases hends with
  | unprepared | overwriting | unmade | unwritten =>
    refine ⟨fun _ => ⟨rfl, rfl⟩, fun _ => rfl, fun _ => ⟨rfl, fun _ _ => rfl⟩, fun hcode => ?_⟩
    exact absurd hcode (by simp)
  | shown hp hi =>
    refine ⟨fun hcode => absurd rfl hcode, fun _ => rfl, fun _ => ⟨rfl, fun _ _ => rfl⟩, ?_⟩
    exact fun _ hd hs => absurd ⟨hd, hs⟩ hi
  | @written c f log text l hp hi ho hx hl =>
    obtain ⟨source, hsource, htext⟩ := bind_eq_ok.mp hx
    refine ⟨fun hcode => absurd rfl hcode, ?_, ?_, ?_⟩
    · rintro (hd | hs)
      · cases hi.1.symm.trans hd
      · cases hi.2.symm.trans hs
    · intro hnone
      obtain ⟨r, content, hr, hfile⟩ := FileSystem.exists_file_of_load hsource
      have hsame : (c.derivedPath i.source).same i.source = false := by
        rw [Bool.eq_false_iff]
        exact fun hsame => ho ⟨hi, hnone, hsame⟩
      have hderived : i.destination c = c.derivedPath i.source := by
        rw [Invocation.destination, hnone, Option.getD_none]
      rw [hderived] at hl
      have hne : l ≠ r := hl.ne_source c.format.extension_no_slash hsame hr (by simp [hfile])
      refine ⟨hl.load_insert_of_ne hr (Ne.symm hne), fun r' hr' => ?_⟩
      cases hr.symm.trans hr'
      exact fs.lookup?_insert_of_ne (Ne.symm hne)
    · intro _ _ _
      obtain ⟨file, hfile, heffective⟩ := Invocation.prepare_eq_ok hp
      exact ⟨file, c, source, text, hfile, heffective, hsource, htext, hl.replaced text⟩

def configured : FileSystem :=
  (FileSystem.fresh.put ⟨"net.midori"⟩ (.file "host a image 'i'".toUTF8)).put ⟨"net.yaml"⟩
    (.file "format: json".toUTF8)

def smallPool : Pool := ⟨⟨0xC0A80000⟩, 24, by decide, by decide⟩

def pooled (name : String) : Option String :=
  if name = "MIDORI_IP_POOL" then some smallPool.text else none

theorem ofArguments_configured : Readers.standard.request ["net.midori", "-c", "net.yaml"] =
    .compile { source := ⟨"net.midori"⟩, config? := some ⟨"net.yaml"⟩ } := by
  decide +kernel

theorem code_configured : (run .standard ["net.midori", "-c", "net.yaml"] pooled configured).1.code = 0 := by
  decide +kernel

theorem run_atomic_configured :
    ∃ text, ({ pool := smallPool, format := .json } : Config).compile "host a image 'i'" = .ok text ∧
      configured.Replaced ⟨"net.json"⟩ text (run .standard ["net.midori", "-c", "net.yaml"] pooled configured).2 ∧
      (run .standard ["net.midori", "-c", "net.yaml"] pooled configured).2.load ⟨"net.midori"⟩ =
        .ok "host a image 'i'" := by
  have hload : configured.load ⟨"net.midori"⟩ = .ok "host a image 'i'" := by decide +kernel
  have hdraft :
      Invocation.draft { source := ⟨"net.midori"⟩, config? := some ⟨"net.yaml"⟩ } .standard configured =
        .ok { format? := some .json } := by decide +kernel
  have hpool : (pooled "MIDORI_IP_POOL").mapM Pool.ofText = .ok (some smallPool) := by decide +kernel
  have hformat : (pooled "MIDORI_FORMAT").mapM Format.ofText = .ok none := by decide +kernel
  have hcode := code_configured
  obtain ⟨-, -, hkept, hwritten⟩ := run_atomic pooled configured {} ofArguments_configured
  generalize run .standard ["net.midori", "-c", "net.yaml"] pooled configured = r at hcode hkept hwritten ⊢
  obtain ⟨file, c, source, text, hfile, heffective, hsource, htext, hreplaced⟩ := hwritten hcode rfl rfl
  cases hdraft.symm.trans hfile
  cases hload.symm.trans hsource
  obtain ⟨pool, format, logLevel⟩ := c
  obtain ⟨⟨pool?, hpool?, rfl⟩, ⟨format?, hformat?, rfl⟩, rfl⟩ := heffective
  cases hpool.symm.trans hpool?
  cases hformat.symm.trans hformat?
  exact ⟨text, htext, hreplaced, (hkept rfl).1.trans hload⟩

/-- The same command as a dry run, to standard output and to the derived path. The first two differ in
what they print alone. The third is refused if it would replace the source. Otherwise it fails as the
others do, or it writes what they show, or it cannot write it. -/
theorem modes_agree {source : Path} {format? : Option Format} {config? : Option Path}
    {logLevel? : Option String} {plain dry shown : List String}
    (hplain : rd.request plain = .compile { source, format?, config?, logLevel? })
    (hdry : rd.request dry =
      .compile { source, format?, config?, logLevel?, dryRun := true })
    (hshown : rd.request shown =
      .compile { source, format?, config?, logLevel?, stdout := true }) :
    let i : Invocation := { source, format?, config?, logLevel? }
    let r := run rd plain env fs disk
    let d := run rd dry env fs disk
    let s := run rd shown env fs disk
    (d.1.code = s.1.code ∧ d.1.error? = s.1.error?) ∧
      (∀ c f, i.prepare rd env fs.load = .ok (c, f) → (c.derivedPath source).same source = true →
        r.1.code ≠ 0 ∧ (∃ fault, r.1.error? = some (.config fault)) ∧ r.2 = fs) ∧
      ((∀ c f, i.prepare rd env fs.load = .ok (c, f) → (c.derivedPath source).same source = false) →
        (s.1.code ≠ 0 → ∃ e, s.1.error? = some e ∧ r.1.error? = some e ∧ r.1.code = s.1.code) ∧
        (s.1.code = 0 → ∃ c f, i.prepare rd env fs.load = .ok (c, f) ∧
          (r.1.code = 0 ∧ fs.Replaced (c.derivedPath source) s.1.stdout r.2 ∨
            (∃ fault, r.1.error? = some (.unwritable (c.derivedPath source) fault)) ∧
              r.1.code ≠ 0 ∧ r.2 = fs ∧ (disk = {} → ∀ l, ¬fs.Target (c.derivedPath source) l)))) := by
  intro i r d s
  have hr := ends_run env fs disk hplain
  have hd := (ends_run env fs disk hdry).of_not_saves (fun hi => Bool.noConfusion hi.1)
  have hs := (ends_run env fs disk hshown).of_not_saves (fun hi => Bool.noConfusion hi.2)
  have hrefused : ∀ c f, i.prepare rd env fs.load = .ok (c, f) → (c.derivedPath source).same source = true →
      r.1.code ≠ 0 ∧ (∃ fault, r.1.error? = some (.config fault)) ∧ r.2 = fs :=
    fun c f hp hsame => hr.of_overwrites hp ⟨⟨rfl, rfl⟩, rfl, hsame⟩
  have hapart : (∀ c f, i.prepare rd env fs.load = .ok (c, f) → (c.derivedPath source).same source = false) →
      ∀ c f, i.prepare rd env fs.load = .ok (c, f) → ¬i.Overwrites c := by
    intro hsame c f hp hover
    cases (hsame c f hp).symm.trans hover.2.2
  -- The settings and the text are the same in all three runs.
  cases hx : i.made rd env fs with
  | error e =>
    obtain ⟨hdcode, hderror⟩ := hd.1 e hx
    obtain ⟨hscode, hserror⟩ := hs.1 e hx
    refine ⟨⟨hdcode.trans hscode.symm, hderror.trans hserror.symm⟩, hrefused, fun hsame => ⟨?_, ?_⟩⟩
    · intro _
      obtain ⟨hcode, herror, -⟩ := hr.of_made_error (hapart hsame) hx
      exact ⟨e, hserror, herror, hcode.trans hscode.symm⟩
    · intro hcode
      cases hscode.symm.trans hcode
  | ok text =>
    obtain ⟨hdcode, hderror, -⟩ := hd.2 text hx
    obtain ⟨hscode, hserror, hprinted⟩ := hs.2 text hx
    refine ⟨⟨hdcode.trans hscode.symm, hderror.trans hserror.symm⟩, hrefused, fun hsame => ⟨?_, ?_⟩⟩
    · intro hcode
      exact absurd hscode hcode
    · intro _
      obtain ⟨c, f, hp, ⟨hi, -⟩ | ⟨-, hend⟩⟩ := hr.of_made_ok (hapart hsame) hx
      · exact absurd ⟨rfl, rfl⟩ hi
      · have htext : s.1.stdout = text := hprinted
        exact ⟨c, f, hp, htext ▸ hend⟩

theorem modes_agree_configured :
    (run .standard ["net.midori", "-c", "net.yaml", "--dry-run"] pooled configured).1.code = 0 ∧
      (run .standard ["net.midori", "--stdout", "-c", "net.yaml"] pooled configured).1.stdout ≠ "" ∧
      configured.Replaced ⟨"net.json"⟩
        (run .standard ["net.midori", "--stdout", "-c", "net.yaml"] pooled configured).1.stdout
        (run .standard ["net.midori", "-c", "net.yaml"] pooled configured).2 := by
  have hdry : Readers.standard.request ["net.midori", "-c", "net.yaml", "--dry-run"] =
      .compile { source := ⟨"net.midori"⟩, config? := some ⟨"net.yaml"⟩, dryRun := true } := by
    decide +kernel
  have hshown : Readers.standard.request ["net.midori", "--stdout", "-c", "net.yaml"] =
      .compile { source := ⟨"net.midori"⟩, config? := some ⟨"net.yaml"⟩, stdout := true } := by
    decide +kernel
  have hderived : ∀ c f, Invocation.prepare { source := ⟨"net.midori"⟩, config? := some ⟨"net.yaml"⟩ }
      .standard pooled configured.load = .ok (c, f) → c.derivedPath ⟨"net.midori"⟩ = ⟨"net.json"⟩ := by
    intro c f hp
    have h : (Invocation.prepare { source := ⟨"net.midori"⟩, config? := some ⟨"net.yaml"⟩ }
        .standard pooled configured.load).map (fun r => r.1.derivedPath ⟨"net.midori"⟩) = .ok ⟨"net.json"⟩ := by
      decide +kernel
    rw [hp] at h
    exact Except.ok.inj h
  have hwritten := code_configured
  have hcode : (run .standard ["net.midori", "--stdout", "-c", "net.yaml"] pooled configured).1.code = 0 := by
    decide +kernel
  have hstdout : (run .standard ["net.midori", "--stdout", "-c", "net.yaml"] pooled configured).1.stdout ≠ "" := by
    decide +kernel
  have hmodes := modes_agree pooled configured {} ofArguments_configured hdry hshown
  dsimp only at hmodes
  generalize run .standard ["net.midori", "-c", "net.yaml"] pooled configured = r at hwritten hmodes ⊢
  generalize run .standard ["net.midori", "--stdout", "-c", "net.yaml"] pooled configured = s
    at hcode hstdout hmodes ⊢
  obtain ⟨⟨hsame, -⟩, -, hagree⟩ := hmodes
  obtain ⟨c, f, hp, ⟨-, hreplaced⟩ | ⟨-, hfailed, -⟩⟩ :=
    (hagree (fun c f hp => by rw [hderived c f hp]; decide)).2 hcode
  · rw [hderived c f hp] at hreplaced
    exact ⟨hsame.trans hcode, hstdout, hreplaced⟩
  · exact absurd hwritten hfailed

end Command

end Netlab
