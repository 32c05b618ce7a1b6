import Netlab.World

namespace Netlab

namespace Scene

variable {α β : Type} (disk : FileSystem.Disk) (s : Scene)

theorem run_bind (x : ExceptT Error (StateM Scene) α) (k : α → ExceptT Error (StateM Scene) β) :
    (x >>= k).run.run s =
      match x.run.run s with
      | (.error e, s') => (.error e, s')
      | (.ok a, s') => (k a).run.run s' := by
  rw [ExceptT.run_bind, StateT.run_bind]
  rcases x.run.run s with ⟨_ | a, s'⟩ <;> rfl

theorem run_pure (a : α) : (pure a : ExceptT Error (StateM Scene) α).run.run s = (.ok a, s) :=
  rfl

theorem run_ofExcept (x : Except Error α) :
    (MonadExcept.ofExcept x : ExceptT Error (StateM Scene) α).run.run s = (x, s) := by
  cases x <;> rfl

theorem run_load (p : Path) : ((world disk).load p).run.run s = (s.files.load p, s) :=
  rfl

theorem run_save (p : Path) (text : String) : ((world disk).save p text).run.run s =
    ((s.files.save p text disk).1, { s with files := (s.files.save p text disk).2 }) :=
  rfl

theorem run_note (lines : List String) :
    (liftM ((world disk).note lines) : ExceptT Error (StateM Scene) Unit).run.run s =
      (.ok (), { s with log := s.log ++ lines }) :=
  rfl

theorem exists_run_compileFile (f : Filter) (c : Config) (source : Path) (output : Output) :
    ∃ log, ((world disk).compileFile f c source output).run.run s =
      match c.target? source output with
      | none => ((s.files.load source >>= c.compile).map some, { s with log })
      | some target =>
        let r := s.files.saveResult target (s.files.load source >>= c.compile) disk
        (r.1.map fun _ => none, { s with files := r.2, log }) := by
  simp only [World.compileFile, run_bind, run_load]
  cases s.files.load source with
  | error e => exact ⟨s.log, by cases c.target? source output <;> rfl⟩
  | ok text =>
    simp only [run_note, run_ofExcept]
    rw [show Except.ok text >>= c.compile = c.compile text from rfl]
    cases c.compile text with
    | error e => exact ⟨_, by cases c.target? source output <;> rfl⟩
    | ok result =>
      cases c.target? source output with
      | none => exact ⟨_, rfl⟩
      | some target =>
        simp only [run_bind, run_save, FileSystem.saveResult]
        cases (s.files.save target result disk).1 with
        | error e => exact ⟨_, rfl⟩
        | ok => exact ⟨_, rfl⟩

end Scene

variable (c : Config) (fs : FileSystem) (source : Path) (output : Output) (disk : FileSystem.Disk)

theorem Config.compileFile_eq : c.compileFile fs source output disk =
    match c.target? source output with
    | none => ((fs.load source >>= c.compile).map some, fs)
    | some target =>
      let r := fs.saveResult target (fs.load source >>= c.compile) disk
      (r.1.map fun _ => none, r.2) := by
  obtain ⟨log, h⟩ := Scene.exists_run_compileFile disk { files := fs } ⟨fun _ => false⟩ c source output
  rw [compileFile, h]
  cases c.target? source output <;> rfl

/-- The log and what has been printed make no difference to how a compilation ends. -/
theorem Scene.run_compileFile (s : Scene) (f : Filter) :
    ∃ log, ((world disk).compileFile f c source output).run.run s =
      ((c.compileFile s.files source output disk).1,
        { s with files := (c.compileFile s.files source output disk).2, log }) := by
  obtain ⟨log, h⟩ := exists_run_compileFile disk s f c source output
  refine ⟨log, ?_⟩
  rw [h, c.compileFile_eq]
  cases c.target? source output <;> rfl

end Netlab
