import Mathlib.Data.List.Basic
import Netlab.Proofs.Except
import Netlab.Proofs.World
import Netlab.Session

namespace Netlab

namespace FileSystem

section

variable (fs : FileSystem) {l l' : Location} {e : Entry}

theorem lookup?_remove_of_ne (h : l' ≠ l) : (fs.remove l).lookup? l' = fs.lookup? l' := by
  have hfind : (fs.entries.filter fun e => e.1 ≠ l).find? (fun e => e.1 = l') =
      fs.entries.find? fun e => e.1 = l' := by
    rw [List.find?_filter]
    congr
    funext x
    by_cases hx : x.1 = l' <;> simp [hx, h]
  simp only [lookup?, remove, hfind]

theorem lookup?_insert_self (h : l ≠ []) : (fs.insert l e).lookup? l = some e := by
  simp [lookup?, insert, h]

theorem lookup?_insert_of_ne (h : l' ≠ l) : (fs.insert l e).lookup? l' = fs.lookup? l' := by
  have hrest := fs.lookup?_remove_of_ne h
  simp only [lookup?, insert] at hrest ⊢
  rw [List.find?_cons_of_neg (by simpa using Ne.symm h)]
  exact hrest

theorem lookup?_eq_none (hne : l ≠ []) (h : ∀ x ∈ fs.entries, x.1 ≠ l) : fs.lookup? l = none := by
  have hfind : fs.entries.find? (fun x => x.1 = l) = none := by simpa using h
  rw [lookup?, if_neg hne, hfind, Option.map_none]

theorem remove_insert (h : ∀ x ∈ fs.entries, x.1 ≠ l) : (fs.insert l e).remove l = fs := by
  have hkeep : (fs.entries.filter fun x => x.1 ≠ l) = fs.entries := by simpa using h
  simp only [remove, insert, hkeep]
  rw [List.filter_cons_of_neg (by simp), hkeep]

end

section

theorem le_foldl_max (names : List String) (n : Nat) :
    n ≤ names.foldl (fun n s => max n s.length) n ∧
      ∀ s ∈ names, s.length ≤ names.foldl (fun n s => max n s.length) n := by
  induction names generalizing n with
  | nil => simp
  | cons s names ih =>
    obtain ⟨hbase, hall⟩ := ih (max n s.length)
    refine ⟨?_, List.forall_mem_cons.mpr ⟨?_, hall⟩⟩
    · exact Nat.le_trans (Nat.le_max_left n s.length) hbase
    · exact Nat.le_trans (Nat.le_max_right n s.length) hbase

theorem length_lt_freshName (fs : FileSystem) {x : Location × Entry} (hx : x ∈ fs.entries) {s : String}
    (hs : s ∈ x.1) : s.length < fs.freshName.length := by
  have hlongest := (le_foldl_max (fs.entries.flatMap Prod.fst) 0).2 s
    (List.mem_flatMap.mpr ⟨x, hx, hs⟩)
  rw [List.foldl_flatMap] at hlongest
  delta freshName
  simp only [String.length_ofList, List.length_append, List.length_replicate]
  exact Nat.lt_of_le_of_lt hlongest (Nat.lt_add_of_pos_left (by decide))

theorem ne_temporary (fs : FileSystem) (l : Location) :
    ∀ x ∈ fs.entries, x.1 ≠ l ++ [fs.freshName] := by
  intro x hx he
  have hs : fs.freshName ∈ x.1 := by
    rw [he]
    exact List.mem_append_right l List.mem_cons_self
  exact Nat.lt_irrefl _ (fs.length_lt_freshName hx hs)

end

section

variable {fs fs' : FileSystem} {l r : Location} {s : String} {ss ts : List String}

theorem needDirectory_eq_ok : fs.needDirectory l = .ok () ↔ fs.lookup? l = some .directory := by
  unfold needDirectory
  split <;> simp_all

def enter (l : Location) (s : String) : Location :=
  if s = "" ∨ s = "." then l else if s = ".." then l.dropLast else l ++ [s]

theorem walk_cons_eq_ok :
    fs.walk l (s :: ss) = .ok r ↔ fs.lookup? l = some .directory ∧ fs.walk (enter l s) ss = .ok r := by
  rw [← needDirectory_eq_ok, walk]
  cases fs.needDirectory l with
  | error e => exact iff_of_false nofun nofun
  | ok u =>
    simp only [enter, bind, Except.bind, true_and]
    split
    · rfl
    · split <;> rfl

theorem walk_append_eq_ok :
    fs.walk l (ss ++ ts) = .ok r ↔ ∃ m, fs.walk l ss = .ok m ∧ fs.walk m ts = .ok r := by
  induction ss generalizing l with
  | nil => simp [walk]
  | cons s ss ih => simp only [List.cons_append, walk_cons_eq_ok, ih, and_assoc, exists_and_left]

/-- A walk goes through directories only, so it is the same wherever these are there. -/
theorem walk_mono (h : ∀ x, fs.lookup? x = some .directory → fs'.lookup? x = some .directory)
    (hw : fs.walk l ss = .ok r) : fs'.walk l ss = .ok r := by
  induction ss generalizing l with
  | nil => exact hw
  | cons s ss ih =>
    obtain ⟨hl, hrest⟩ := walk_cons_eq_ok.mp hw
    exact walk_cons_eq_ok.mpr ⟨h l hl, ih hrest⟩

theorem lastSegment?_eq_some {before : List String} {last : String} :
    lastSegment? ss = some (before, last, false) ↔ ss = before ++ [last] ∧ last ≠ "" := by
  constructor
  · intro h
    induction ss generalizing before with
    | nil => cases h
    | cons s ss ih =>
      simp only [lastSegment?] at h
      split at h
      · rename_i before' last' slash hrest
        cases h
        obtain ⟨rfl, hne⟩ := ih hrest
        exact ⟨rfl, hne⟩
      · split at h
        · cases h
        · rename_i hne
          simp only [Option.some.injEq, Prod.mk.injEq, Bool.not_eq_false', List.isEmpty_iff] at h
          obtain ⟨rfl, rfl, rfl⟩ := h
          exact ⟨rfl, hne⟩
  · rintro ⟨rfl, hne⟩
    induction before with
    | nil => simp [lastSegment?, hne]
    | cons s before ih => rw [List.cons_append, lastSegment?, ih]

end

section

variable {fs fs' : FileSystem} {p : Path} {r : Location}

def locate (fs : FileSystem) (p : Path) : Except IoFault Location :=
  fs.walk (fs.startOf p) p.segments

theorem read_eq_ok {text : String} (hp : p.text ≠ "") (hl : fs.locate p = .ok r)
    (he : fs.lookup? r = some (.file text.toUTF8)) : fs.read p = .ok text := by
  have hdecode : String.fromUTF8? text.toUTF8 = some text := by
    simp only [String.fromUTF8?, String.toUTF8_eq_toByteArray, dif_pos text.isValidUTF8]
    rfl
  simp only [locate] at hl
  simp only [read, if_neg hp, hl, bind, Except.bind, he, hdecode]

/-- A path names a place for a file: it ends in a name, what leads there is a directory, and the place
is not taken by a directory. -/
inductive Target (fs : FileSystem) (p : Path) : Location → Prop
  | intro {lead : List String} {name : String} {l : Location} (hp : p.segments = lead ++ [name])
      (hname : name ≠ "" ∧ name ≠ "." ∧ name ≠ "..") (hlead : fs.walk (fs.startOf p) lead = .ok l)
      (hl : fs.lookup? l = some .directory) (hfree : fs.lookup? (l ++ [name]) ≠ some .directory) :
      Target fs p (l ++ [name])

theorem Target.ne_nil (h : fs.Target p r) : r ≠ [] := by
  cases h with
  | intro => simp

theorem Target.not_directory (h : fs.Target p r) : fs.lookup? r ≠ some .directory := by
  cases h with
  | intro _ _ _ _ hfree => exact hfree

theorem Target.locate_eq (h : fs.Target p r) : fs.locate p = .ok r := by
  cases h with
  | @intro lead name l hp hname hlead hl _ =>
    have henter : enter l name = l ++ [name] := by simp [enter, hname]
    have hlast : fs.walk l [name] = .ok (l ++ [name]) :=
      walk_cons_eq_ok.mpr ⟨hl, by rw [henter]; rfl⟩
    rw [locate, hp]
    exact walk_append_eq_ok.mpr ⟨l, hlead, hlast⟩

theorem Target.locate_insert (h : fs.Target p r) {content : ByteArray} {q : Path} {l : Location}
    (hq : fs.locate q = .ok l) : (fs.insert r (.file content)).locate q = .ok l := by
  apply walk_mono _ hq
  intro x hx
  have hne : x ≠ r := by
    rintro rfl
    exact h.not_directory hx
  rwa [fs.lookup?_insert_of_ne hne]

theorem Target.load_insert (h : fs.Target p r) (text : String) :
    (fs.insert r (.file text.toUTF8)).load p = .ok text := by
  have htext : p.text ≠ "" := by
    intro hempty
    cases h with
    | @intro lead name _ hp hname =>
      have hsegments : p.segments = [] ++ [""] := by
        rw [Path.segments, hempty]
        rfl
      obtain ⟨-, hlast⟩ := List.append_inj' (hp.symm.trans hsegments) rfl
      exact hname.1 (List.cons.inj hlast).1
  have hread : (fs.insert r (.file text.toUTF8)).read p = .ok text :=
    read_eq_ok htext (h.locate_insert h.locate_eq) (fs.lookup?_insert_self h.ne_nil)
  rw [load, hread]
  rfl

theorem Target.of_directories
    (hd : ∀ x, fs'.lookup? x = some .directory ↔ fs.lookup? x = some .directory)
    (hc : fs'.current = fs.current) (h : fs.Target p r) : fs'.Target p r := by
  have hstart : fs'.startOf p = fs.startOf p := by rw [startOf, startOf, hc]
  cases h with
  | intro hp hname hlead hl hfree =>
    have hlead' := walk_mono (fun x => (hd x).mpr) hlead
    exact .intro hp hname (by rw [hstart, hlead']) ((hd _).mpr hl) (mt (hd _).mp hfree)

theorem targetOf_eq_ok : fs.targetOf p = .ok r ↔ fs.Target p r := by
  constructor
  · intro h
    unfold targetOf at h
    split at h
    · cases h
    · rename_i before last slash hlast
      obtain ⟨l, hl, hrest⟩ := bind_eq_ok.mp h
      obtain ⟨_, hd, hlook⟩ := bind_eq_ok.mp hrest
      split at hlook
      · cases hlook
      · rename_i hdots
        split at hlook
        · cases hlook
        · rename_i hslash
          rw [Bool.not_eq_true] at hslash
          subst hslash
          obtain ⟨hsegments, hne⟩ := lastSegment?_eq_some.mp hlast
          split at hlook
          · cases hlook
          · rename_i hfree
            cases hlook
            exact .intro hsegments ⟨hne, not_or.mp hdots⟩ hl (needDirectory_eq_ok.mp hd) hfree
  · rintro ⟨hp, hname, hlead, hl, hfree⟩
    have hlast := lastSegment?_eq_some.mpr ⟨hp, hname.1⟩
    simp only [targetOf, hlast, hlead, needDirectory_eq_ok.mpr hl, bind, Except.bind, hname,
      or_self, if_false, Bool.false_eq_true]
    rfl

theorem walk_filter {l : Location} {ss : List String} (h : fs.walk l ss = .ok r) :
    fs.walk l (ss.filter fun s => ¬(s = "" ∨ s = ".")) = .ok r := by
  induction ss generalizing l with
  | nil => exact h
  | cons s ss ih =>
    obtain ⟨hl, hrest⟩ := walk_cons_eq_ok.mp h
    by_cases hs : s = "" ∨ s = "."
    · rw [enter, if_pos hs] at hrest
      rw [List.filter_cons_of_neg (by simp [hs])]
      exact ih hrest
    · rw [List.filter_cons_of_pos (by simp [hs])]
      exact walk_cons_eq_ok.mpr ⟨hl, ih hrest⟩

theorem map_segment_components (ss : List String) :
    (ss.filterMap fun s => if s = "" ∨ s = "." then none else if s = ".." then some .up
        else some (.name s)).map Component.segment =
      ss.filter fun s => ¬(s = "" ∨ s = ".") := by
  rw [List.map_filterMap, ← List.filterMap_eq_filter]
  congr
  funext s
  by_cases hs : s = "" ∨ s = "."
  · simp [hs, Option.guard]
  · by_cases hup : s = ".." <;> simp [hs, hup, Option.guard, Component.segment]

theorem map_segment_parent {lead : List String} {name : String} (hp : p.segments = lead ++ [name])
    (hname : name ≠ "" ∧ name ≠ "." ∧ name ≠ "..") :
    (p.parent?.getD []).map Component.segment =
      (if p.isAbsolute ∨ lead.head? = some "." then ["."] else []) ++
        lead.filter fun s => ¬(s = "" ∨ s = ".") := by
  have hhead : (lead ++ [name]).head? = some "." ↔ lead.head? = some "." := by
    cases lead with
    | nil => simp [hname]
    | cons s ss => simp
  simp only [Path.parent?, Path.components, hp, hhead, List.filterMap_append, ← List.append_assoc]
  simp only [List.filterMap_cons, hname, or_self, if_false, List.filterMap_nil, List.getLast?_append,
    List.getLast?_singleton, Option.some_or, List.dropLast_concat, Option.getD_some, List.map_append,
    map_segment_components]
  by_cases habsolute : p.isAbsolute <;> by_cases hdot : lead.head? = some "." <;>
    simp [habsolute, hdot, Component.segment]

theorem Target.directoryOf_eq (h : fs.Target p r) : fs.directoryOf p = .ok r.dropLast := by
  cases h with
  | @intro lead name l hp hname hlead hl _ =>
    have hwalk := walk_filter hlead
    have hparent : fs.walk (fs.startOf p) ((p.parent?.getD []).map Component.segment) = .ok l := by
      rw [map_segment_parent hp hname]
      split
      · rename_i hdot
        refine walk_cons_eq_ok.mpr ⟨?_, hwalk⟩
        obtain habsolute | hfirst := hdot
        · simp [startOf, habsolute, lookup?]
        · obtain ⟨rest, rfl⟩ := List.head?_eq_some_iff.mp hfirst
          exact (walk_cons_eq_ok.mp hlead).1
      · exact hwalk
    simp only [directoryOf, hparent, needDirectory_eq_ok.mpr hl, bind, Except.bind,
      List.dropLast_concat]
    rfl

end

section

variable (fs : FileSystem) (p : Path) (text : String) (disk : Disk)

/-- A new file is moved to what the path named before the file was made. -/
theorem persist_cases {temporary : Location} (hnew : ∀ x ∈ fs.entries, x.1 ≠ temporary)
    (hne : temporary ≠ []) (content : ByteArray) (refusal : Option IoFault) :
    (∃ e, (fs.insert temporary (.file content)).persist temporary content p refusal = (.error e, fs) ∧
        (refusal = none → ∀ l, ¬fs.Target p l)) ∨
      ∃ l, fs.Target p l ∧
        (fs.insert temporary (.file content)).persist temporary content p refusal =
          (.ok (), fs.insert l (.file content)) := by
  have hsame : ∀ x, (fs.insert temporary (.file content)).lookup? x = some .directory ↔
      fs.lookup? x = some .directory := by
    intro x
    by_cases hx : x = temporary
    · simp [hx, lookup?_insert_self fs hne, lookup?_eq_none fs hne hnew]
    · rw [lookup?_insert_of_ne fs hx]
  unfold persist
  rw [remove_insert fs hnew]
  split
  · rename_i e he
    refine .inl ⟨e, rfl, ?_⟩
    rintro rfl l hl
    have hok := targetOf_eq_ok.mpr (hl.of_directories hsame rfl)
    exact nomatch he.symm.trans hok
  · rename_i l hl
    cases refusal with
    | some e => cases hl
    | none =>
      have hstaged := targetOf_eq_ok.mp hl
      exact .inr ⟨l, hstaged.of_directories (fun x => (hsame x).symm) rfl, rfl⟩

/-- A file either stays as it was, with everything else, or is replaced as a whole. -/
theorem write_cases :
    (∃ e, fs.write p text disk = (.error e, fs) ∧ (disk = {} → ∀ l, ¬fs.Target p l)) ∨
      ∃ l, fs.Target p l ∧ fs.write p text disk = (.ok (), fs.insert l (.file text.toUTF8)) := by
  unfold write
  split
  · rename_i e he
    refine .inl ⟨e, rfl, ?_⟩
    rintro rfl l hl
    exact nomatch he.symm.trans hl.directoryOf_eq
  · rename_i l _
    have hnew := fs.ne_temporary l
    split
    · rename_i e he
      refine .inl ⟨e, congrArg (Prod.mk _) (remove_insert fs hnew), ?_⟩
      rintro rfl
      cases he
    · obtain ⟨e, he, hfree⟩ | hok := persist_cases fs p hnew (by simp) text.toUTF8 disk.move
      · refine .inl ⟨e, he, ?_⟩
        rintro rfl
        exact hfree rfl
      · exact .inr hok

end

end FileSystem

namespace Operation

def target? : Operation → Option Path
  | compileTo _ _ path | emitTo _ _ path | write path _ => some path
  | compileFile c source output => c.target? source output

def text (fs : FileSystem) : Operation → Except Error String
  | compileTo c source _ => c.compile source
  | compileFile c source _ => fs.load source >>= c.compile
  | emitTo p format _ => p.emit format
  | write _ text => .ok text

end Operation

namespace Step

/-- A step that fails leaves all as it was. One that does not gives its whole text back, or has put it
into the one file that its path names. -/
inductive Whole (fs : FileSystem) (s : Step) : Except Error (Option String) → FileSystem → Prop
  | unmade {e : Error} (hx : s.operation.text fs = .error e) : Whole fs s (.error e) fs
  | unwritten {text : String} {path : Path} {fault : IoFault} (hx : s.operation.text fs = .ok text)
      (ht : s.operation.target? = some path) (hno : s.disk = {} → ∀ l, ¬fs.Target path l) :
      Whole fs s (.error (.unwritable path fault)) fs
  | shown {text : String} (hx : s.operation.text fs = .ok text) (ht : s.operation.target? = none) :
      Whole fs s (.ok (some text)) fs
  | written {text : String} {path : Path} {l : Location} (hx : s.operation.text fs = .ok text)
      (ht : s.operation.target? = some path) (hl : fs.Target path l)
      (hread : (fs.insert l (.file text.toUTF8)).load path = .ok text) :
      Whole fs s (.ok none) (fs.insert l (.file text.toUTF8))

theorem whole_saveResult (fs : FileSystem) (s : Step) {path : Path}
    (ht : s.operation.target? = some path) :
    let r := fs.saveResult path (s.operation.text fs) s.disk
    Whole fs s (r.1.map fun _ => none) r.2 := by
  cases hx : s.operation.text fs with
  | error e => exact .unmade hx
  | ok text =>
    obtain ⟨e, he, hno⟩ | ⟨l, hl, hok⟩ := fs.write_cases path text s.disk
    · simp only [FileSystem.saveResult, FileSystem.save, he]
      exact .unwritten hx ht hno
    · simp only [FileSystem.saveResult, FileSystem.save, hok]
      exact .written hx ht hl (hl.load_insert text)

theorem whole_run (fs : FileSystem) (s : Step) :
    Whole fs s (s.operation.run fs s.disk).1 (s.operation.run fs s.disk).2 := by
  obtain ⟨o, disk⟩ := s
  cases o with
  | compileTo c source path => exact whole_saveResult fs ⟨.compileTo c source path, disk⟩ rfl
  | emitTo p format path => exact whole_saveResult fs ⟨.emitTo p format path, disk⟩ rfl
  | write path text => exact whole_saveResult fs ⟨.write path text, disk⟩ rfl
  | compileFile c source output =>
    cases ht : c.target? source output with
    | some path =>
      have hw := whole_saveResult fs ⟨.compileFile c source output, disk⟩ ht
      simp only [Operation.run, Config.compileFile_eq, ht]
      exact hw
    | none =>
      simp only [Operation.run, Config.compileFile_eq, ht]
      cases hx : fs.load source >>= c.compile with
      | error e => exact .unmade hx
      | ok text => exact .shown hx ht

theorem Whole.eq_of_error {fs fs' : FileSystem} {s : Step} {e : Error} (h : Whole fs s (.error e) fs') :
    fs' = fs := by
  cases h <;> rfl

def write? (fs : FileSystem) (s : Step) : Option (Location × String) :=
  match (s.operation.run fs s.disk).1, s.operation.target?, s.operation.text fs with
  | .ok _, some path, .ok text => (fs.locate path).toOption.map fun l => (l, text)
  | _, _, _ => none

def writes (fs : FileSystem) : List Step → List (Location × String)
  | [] => []
  | s :: ss => (s.write? fs).toList ++ writes (s.operation.run fs s.disk).2 ss

/-- What is at a place once texts have been written in order: the last one that was written there. -/
def lastWritten (initial : Option Entry) (l : Location) (ws : List (Location × String)) :
    Option Entry :=
  (ws.filter fun w => w.1 = l).getLast?.elim initial fun w => some (.file w.2.toUTF8)

theorem lastWritten_append (initial : Option Entry) (l : Location) (ws vs : List (Location × String)) :
    lastWritten initial l (ws ++ vs) = lastWritten (lastWritten initial l ws) l vs := by
  rw [lastWritten, lastWritten, List.filter_append, List.getLast?_append]
  cases (vs.filter fun w => w.1 = l).getLast? <;> rfl

theorem lookup?_run (fs : FileSystem) (s : Step) (l : Location) :
    (s.operation.run fs s.disk).2.lookup? l = lastWritten (fs.lookup? l) l (s.write? fs).toList := by
  have hwhole := whole_run fs s
  unfold write?
  generalize s.operation.run fs s.disk = r at hwhole ⊢
  obtain ⟨answer, fs'⟩ := r
  cases hwhole with
  | unmade => rfl
  | unwritten => rfl
  | shown hx ht =>
    rw [ht]
    rfl
  | @written text path target hx ht hl _ =>
    change (fs.insert target (.file text.toUTF8)).lookup? l = _
    simp only [hx, ht, hl.locate_eq, Except.toOption, Option.map_some, Option.toList_some, lastWritten]
    by_cases h : l = target
    · subst h
      rw [fs.lookup?_insert_self hl.ne_nil]
      simp
    · rw [fs.lookup?_insert_of_ne h]
      simp [Ne.symm h]

theorem lookup?_runAll (fs : FileSystem) (steps : List Step) (l : Location) :
    (runAll fs steps).2.lookup? l = lastWritten (fs.lookup? l) l (writes fs steps) := by
  induction steps generalizing fs with
  | nil => rfl
  | cons s steps ih => rw [runAll, writes, lastWritten_append, ← lookup?_run, ih]

/-- What a session has left after its first steps. -/
def stateAfter (fs : FileSystem) (steps : List Step) (i : Nat) : FileSystem :=
  (runAll fs (steps.take i)).2

theorem whole_runAll (fs : FileSystem) (steps : List Step) {i : Nat} {s : Step}
    (h : steps[i]? = some s) :
    ∃ answer, (runAll fs steps).1[i]? = some answer ∧
      Whole (stateAfter fs steps i) s answer (stateAfter fs steps (i + 1)) := by
  induction steps generalizing fs i with
  | nil => cases h
  | cons t rest ih =>
    cases i with
    | zero =>
      cases h
      exact ⟨_, rfl, whole_run fs s⟩
    | succ i => exact ih (t.operation.run fs t.disk).2 h

/-- Every step of a session is made as a whole or not at all, and in the end a place holds the last text
that was written there, or else what it held at the start. -/
theorem all_or_nothing (fs : FileSystem) (steps : List Step) :
    (∀ i s, steps[i]? = some s → ∃ answer, (runAll fs steps).1[i]? = some answer ∧
      Whole (stateAfter fs steps i) s answer (stateAfter fs steps (i + 1))) ∧
    ∀ l, (runAll fs steps).2.lookup? l = lastWritten (fs.lookup? l) l (writes fs steps) :=
  ⟨fun _ _ h => whole_runAll fs steps h, lookup?_runAll fs steps⟩

/-- A source is written and then replaced by what it compiles to. In between the disk refuses to move a
file, and a directory is not there. -/
def replacedSource : List Step :=
  [{ operation := .write ⟨"net.json"⟩ "host a image 'i'" },
    { operation := .write ⟨"net.json"⟩ "lost", disk := { move := some (.other 5 "Input/output error") } },
    { operation := .write ⟨"none/net.json"⟩ "lost" },
    { operation := .compileFile { format := .json } ⟨"net.json"⟩ .derived }]

theorem all_or_nothing_replacedSource :
    ∃ text, ({ format := .json } : Config).compile "host a image 'i'" = .ok text ∧
      (runAll .fresh replacedSource).1 =
        [.ok none, .error (.unwritable ⟨"net.json"⟩ (.other 5 "Input/output error")),
          .error (.unwritable ⟨"none/net.json"⟩ .notFound), .ok none] ∧
      stateAfter .fresh replacedSource 3 = stateAfter .fresh replacedSource 1 ∧
      (runAll .fresh replacedSource).2.lookup? ["work", "net.json"] = some (.file text.toUTF8) := by
  obtain ⟨hstep, hend⟩ := all_or_nothing .fresh replacedSource
  have hanswers : (runAll .fresh replacedSource).1 =
      [.ok none, .error (.unwritable ⟨"net.json"⟩ (.other 5 "Input/output error")),
        .error (.unwritable ⟨"none/net.json"⟩ .notFound), .ok none] := by decide +kernel
  have hwrites : writes .fresh replacedSource =
      [(["work", "net.json"], "host a image 'i'"), (["work", "net.json"],
        (({ format := .json } : Config).compile "host a image 'i'").toOption.getD "")] := by
    decide +kernel
  have hok : (({ format := .json } : Config).compile "host a image 'i'").isOk = true := by
    decide +kernel
  obtain ⟨_, hsecond, hwhole⟩ := hstep 1 _ rfl
  obtain ⟨_, hthird, hwhole'⟩ := hstep 2 _ rfl
  rw [hanswers] at hsecond hthird
  cases hsecond
  cases hthird
  cases htext : ({ format := .json } : Config).compile "host a image 'i'" with
  | error e =>
    rw [htext] at hok
    cases hok
  | ok text =>
    refine ⟨text, rfl, hanswers, hwhole'.eq_of_error.trans hwhole.eq_of_error, ?_⟩
    rw [hend, hwrites, htext]
    rfl

end Step

end Netlab
