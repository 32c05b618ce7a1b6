import Netlab.World

namespace Netlab

inductive Operation where
  | compileTo (c : Config) (source : String) (path : Path)
  | compileFile (c : Config) (source : Path) (output : Output)
  | emitTo (p : Program) (format : Format) (path : Path)
  | write (path : Path) (text : String)

/-- What an operation answers and leaves behind. A text is given back only if it goes to no file. -/
def Operation.run (fs : FileSystem) (o : Operation) (disk : FileSystem.Disk := {}) :
    Except Error (Option String) × FileSystem :=
  match o with
  | compileTo c source path => silent (c.compileTo fs source path disk)
  | compileFile c source output => c.compileFile fs source output disk
  | emitTo p format path => silent (p.emitTo fs format path disk)
  | write path text => silent (fs.save path text disk)
where
  silent (r : Except Error Unit × FileSystem) : Except Error (Option String) × FileSystem :=
    (r.1.map (fun _ => none), r.2)

structure Step where
  operation : Operation
  disk : FileSystem.Disk := {}

def Step.runAll (fs : FileSystem) : List Step → List (Except Error (Option String)) × FileSystem
  | [] => ([], fs)
  | s :: ss =>
    let r := s.operation.run fs s.disk
    let rs := runAll r.2 ss
    (r.1 :: rs.1, rs.2)

end Netlab
