import Netlab.Journal

namespace Netlab

/-- What the program does with the world around it. -/
structure World (m : Type → Type) where
  load : Path → ExceptT Error m String
  save : Path → String → ExceptT Error m Unit
  note : List String → m Unit
  print : String → m Unit

def World.compileFile {m : Type → Type} [Monad m] (w : World m) (f : Filter) (c : Config)
    (source : Path) (output : Output) : ExceptT Error m (Option String) := do
  let text ← w.load source
  w.note (f.lines (Journal.compiling c text))
  let result ← MonadExcept.ofExcept (c.compile text)
  match c.target? source output with
  | none => return some result
  | some target =>
    w.save target result
    w.note (f.lines [Journal.wrote target result])
    return none

structure Scene where
  files : FileSystem
  stdout : String := ""
  log : List String := []

def Scene.world (disk : FileSystem.Disk) : World (StateM Scene) where
  load p := ExceptT.mk fun s => (s.files.load p, s)
  save p text := ExceptT.mk fun s =>
    let r := s.files.save p text disk
    (r.1, { s with files := r.2 })
  note lines := modify fun s => { s with log := s.log ++ lines }
  print text := modify fun s => { s with stdout := s.stdout ++ text }

def Config.compileFile (c : Config) (fs : FileSystem) (source : Path) (output : Output)
    (disk : FileSystem.Disk := {}) : Except Error (Option String) × FileSystem :=
  let r := ((Scene.world disk).compileFile ⟨fun _ => false⟩ c source output).run.run { files := fs }
  (r.1, r.2.files)

end Netlab
