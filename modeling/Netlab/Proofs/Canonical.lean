import Netlab.Proofs.Decimal
import Netlab.Proofs.WellFormed

namespace Netlab

namespace Lexeme

def word (s : String) : Lexeme := ⟨.name, s⟩

def quoted (s : String) : Lexeme := ⟨.string, s⟩

def digits (n : UInt64) : Lexeme := ⟨.number, toString n.toNat⟩

/-- Strings are written in double quotes, everything else as it stands. -/
def written (l : Lexeme) : List Char :=
  if l.kind = .string then '"' :: (l.text.toList.flatMap escape ++ ['"']) else l.text.toList

/-- Lexemes on a line of their own, with a blank between them. -/
def line : List Lexeme → List Char
  | [] => ['\n']
  | [l] => l.written ++ ['\n']
  | l :: ls => l.written ++ ' ' :: line ls

/-- Items with a separator between them. -/
def joined (separator : Lexeme) : List (List Lexeme) → List Lexeme
  | [] => []
  | item :: items => item ++ items.flatMap (separator :: ·)

def array (items : List (List Lexeme)) : List Lexeme :=
  ⟨.openBracket, "["⟩ :: (joined ⟨.comma, ","⟩ items ++ [⟨.closeBracket, "]"⟩])

def object (items : List (List Lexeme)) : List Lexeme :=
  ⟨.openBrace, "\x7b"⟩ :: (joined ⟨.comma, ","⟩ items ++ [⟨.closeBrace, "\x7d"⟩])

def clause (keyword : String) : Option (List Lexeme) → List Lexeme
  | none => []
  | some content => word keyword :: content

end Lexeme

open Lexeme

def Atom.lexeme : Atom → Lexeme
  | name s => word s
  | str s => quoted s
  | int n => digits n

def Value.item (v : Value) : List Lexeme := [v.atom.lexeme]

def pairItem (e : String × Value) : List Lexeme := [quoted e.1, ⟨.colon, ":"⟩, e.2.atom.lexeme]

def intPairItem (e : UInt64 × UInt64) : List Lexeme := [digits e.1, ⟨.colon, ":"⟩, digits e.2]

def listed {α : Type} (brackets : List (List Lexeme) → List Lexeme) (item : α → List Lexeme)
    (xs : List α) : Option (List Lexeme) :=
  if xs.isEmpty then none else some (brackets (xs.map item))

def Host.clauses (h : Host) : List (String × Option (List Lexeme)) :=
  [("ip", h.ip.map fun s => [quoted s]),
   ("image", some [quoted h.image]),
   ("mac", h.mac.map fun s => [quoted s]),
   ("ports", listed array Value.item h.ports),
   ("port_bindings", listed object intPairItem h.portBindings),
   ("env", listed object pairItem h.env),
   ("cmd", listed array Value.item h.cmd)]

def Link.clauses (l : Link) : List (String × Option (List Lexeme)) :=
  [("src", some [word l.src]),
   ("dst", some [word l.dst]),
   ("port1", l.port1.map fun n => [digits n]),
   ("port2", l.port2.map fun n => [digits n]),
   ("cls", l.cls.map fun s => [word s]),
   ("delay", l.delay.map fun s => [quoted s]),
   ("bw", l.bw.map fun n => [digits n])]

def Action.lexemes : Action → List Lexeme
  | controller v => [word "controller", v.atom.lexeme]
  | remoteController name address port =>
    [word "remote_controller", word name, word "host", quoted address, word "port", digits port]
  | host h => word "host" :: word h.name :: h.clauses.flatMap fun c => clause c.1 c.2
  | switch names => word "switch" :: names.map word
  | link l => word "link" :: word l.name :: l.clauses.flatMap fun c => clause c.1 c.2
  | intent names => word "intent" :: joined ⟨.arrow, "->"⟩ (names.map fun s => [word s])
  | up => [word "up"]
  | down => [word "down"]
  | ping names => word "ping" :: names.map word

def Program.lexemes (p : Program) : List Lexeme :=
  p.statements.flatMap fun s => s.action.lexemes

/-- The text of a program, with one statement on each line. -/
def Program.canonical (p : Program) : String :=
  String.ofList (p.statements.flatMap fun s => line s.action.lexemes)

theorem Lexed.blank {c : Char} (hc : Text.isBlank c = true) {p : Position} {cs : List Char}
    {ts : List Token} (h : Lexed (p.after c) cs ts) : Lexed p (c :: cs) ts := by
  cases h with
  | done hg => exact .done (.blank hc hg)
  | @token _ gap spelling rest l ts hg hs ha h =>
    exact @Lexed.token p (c :: gap) spelling rest l ts (.blank hc hg) hs ha h

/-- A spelled lexeme in front of a blank. -/
theorem Lexed.before_blank {l : Lexeme} (hl : Spelling l.written l) {c : Char}
    (hc : Text.isBlank c = true) {p : Position} {cs : List Char} {ts : List Token}
    (h : Lexed ((p.afterAll l.written).after c) cs ts) :
    Lexed p (l.written ++ c :: cs) (⟨l, p⟩ :: ts) := by
  have ha : Apart l (c :: cs) := by
    rintro - _ ⟨⟩
    rw [Bool.eq_false_iff]
    intro hn
    rw [isBlank_of_isNameChar hn] at hc
    cases hc
  exact @Lexed.token p [] l.written (c :: cs) l ts .nil hl ha (Lexed.blank hc h)

theorem exists_lexed_line {ls : List Lexeme} (hls : ∀ l ∈ ls, Spelling l.written l)
    {rest : List Char} {ms : List Lexeme}
    (hrest : ∀ p, ∃ ts, Lexed p rest ts ∧ ts.map Token.toLexeme = ms) (p : Position) :
    ∃ ts, Lexed p (line ls ++ rest) ts ∧ ts.map Token.toLexeme = ls ++ ms := by
  have hfeed : Text.isBlank '\n' = true := by decide
  have hblank : Text.isBlank ' ' = true := by decide
  induction ls generalizing p with
  | nil =>
    obtain ⟨ts, hts, hm⟩ := hrest (p.after '\n')
    exact ⟨ts, .blank hfeed hts, hm⟩
  | cons l ls ih =>
    obtain ⟨hl, hls⟩ := List.forall_mem_cons.mp hls
    cases ls with
    | nil =>
      obtain ⟨ts, hts, hm⟩ := hrest ((p.afterAll l.written).after '\n')
      refine ⟨⟨l, p⟩ :: ts, ?_, congrArg (l :: ·) hm⟩
      rw [line, List.append_assoc]
      exact .before_blank hl hfeed hts
    | cons l' ls =>
      obtain ⟨ts, hts, hm⟩ := ih hls ((p.afterAll l.written).after ' ')
      refine ⟨⟨l, p⟩ :: ts, ?_, congrArg (l :: ·) hm⟩
      change Lexed p ((l.written ++ ' ' :: line (l' :: ls)) ++ rest) _
      rw [List.append_assoc]
      exact .before_blank hl hblank hts

theorem spelling_word {s : String} (h : isName s = true) : Spelling (word s).written (word s) :=
  Spelling.of_isName h

theorem spelling_quoted (s : String) : Spelling (quoted s).written (quoted s) :=
  Spelling.of_quote (.inl rfl) s

theorem spelling_digits (n : UInt64) : Spelling (digits n).written (digits n) := by
  obtain ⟨c, cs, hs, hd, -⟩ := Text.exists_digits n.toNat
  have h := Spelling.number hd
  rw [← hs, String.ofList_toList] at h
  exact h

theorem spelling_mark {c : Char} {kind : Kind} {text : String} (h : (c, kind) ∈ marks)
    (ht : text = String.singleton c) : Spelling (Lexeme.mk kind text).written ⟨kind, text⟩ := by
  have hmarks : ∀ m ∈ marks, m.2 ≠ .string := by decide
  subst ht
  rw [written, if_neg (hmarks _ h), String.toList_singleton]
  exact .mark h

theorem Atom.spelling {a : Atom} (h : a.WellFormed) : Spelling a.lexeme.written a.lexeme := by
  cases a with
  | name s => exact spelling_word h.1
  | str s => exact spelling_quoted s
  | int n => exact spelling_digits n

theorem spelling_joined {separator : Lexeme} (hs : Spelling separator.written separator)
    {items : List (List Lexeme)} (h : ∀ item ∈ items, ∀ l ∈ item, Spelling l.written l) :
    ∀ l ∈ joined separator items, Spelling l.written l := by
  cases items with
  | nil => simp [joined]
  | cons item items =>
    obtain ⟨hi, his⟩ := List.forall_mem_cons.mp h
    refine List.forall_mem_append.mpr ⟨hi, fun l hl => ?_⟩
    obtain ⟨item', hm, hl⟩ := List.mem_flatMap.mp hl
    rcases List.mem_cons.mp hl with rfl | hl
    · exact hs
    · exact his item' hm l hl

theorem spelling_brackets {opening closing : Lexeme} (ho : Spelling opening.written opening)
    (hc : Spelling closing.written closing) {items : List (List Lexeme)}
    (h : ∀ item ∈ items, ∀ l ∈ item, Spelling l.written l) :
    ∀ l ∈ opening :: (joined ⟨.comma, ","⟩ items ++ [closing]), Spelling l.written l := by
  have hcomma : Spelling (Lexeme.mk .comma ",").written ⟨.comma, ","⟩ :=
    spelling_mark (c := ',') (by decide) rfl
  refine List.forall_mem_cons.mpr ⟨ho, List.forall_mem_append.mpr ⟨spelling_joined hcomma h, ?_⟩⟩
  simpa using hc

/-- Every lexeme of a clause can be written. -/
def Spellable (c : String × Option (List Lexeme)) : Prop :=
  isName c.1 = true ∧ ∀ content ∈ c.2, ∀ l ∈ content, Spelling l.written l

theorem Spellable.spelling {c : String × Option (List Lexeme)} (h : Spellable c) :
    ∀ l ∈ clause c.1 c.2, Spelling l.written l := by
  obtain ⟨keyword, content⟩ := c
  cases content with
  | none => simp [clause]
  | some ls => exact List.forall_mem_cons.mpr ⟨spelling_word h.1, h.2 ls rfl⟩

theorem spelling_option {α : Type} {print : α → Lexeme} {o : Option α}
    (h : ∀ x ∈ o, Spelling (print x).written (print x)) :
    ∀ content ∈ o.map fun x => [print x], ∀ l ∈ content, Spelling l.written l := by
  intro content hc
  obtain ⟨x, hx, rfl⟩ := Option.mem_map.mp hc
  simpa using h x hx

theorem spelling_listed {α : Type} {brackets : List (List Lexeme) → List Lexeme}
    (hb : ∀ items, (∀ item ∈ items, ∀ l ∈ item, Spelling l.written l) →
      ∀ l ∈ brackets items, Spelling l.written l)
    {item : α → List Lexeme} {xs : List α} (h : ∀ x ∈ xs, ∀ l ∈ item x, Spelling l.written l) :
    ∀ content ∈ listed brackets item xs, ∀ l ∈ content, Spelling l.written l := by
  intro content hc
  unfold listed at hc
  split at hc
  · cases hc
  · cases hc
    refine hb _ ?_
    simpa using h

theorem Host.spellable {h : Host} (hw : h.WellFormed) : ∀ c ∈ h.clauses, Spellable c := by
  obtain ⟨-, hports, henv, hcmd⟩ := hw
  have harray : ∀ items, (∀ item ∈ items, ∀ l ∈ item, Spelling l.written l) →
      ∀ l ∈ array items, Spelling l.written l := by
    intro items hi
    exact spelling_brackets (spelling_mark (c := '[') (by decide) rfl)
      (spelling_mark (c := ']') (by decide) rfl) hi
  have hobject : ∀ items, (∀ item ∈ items, ∀ l ∈ item, Spelling l.written l) →
      ∀ l ∈ object items, Spelling l.written l := by
    intro items hi
    exact spelling_brackets (spelling_mark (c := '\x7b') (by decide) rfl)
      (spelling_mark (c := '\x7d') (by decide) rfl) hi
  have hcolon : Spelling (Lexeme.mk .colon ":").written ⟨.colon, ":"⟩ :=
    spelling_mark (c := ':') (by decide) rfl
  simp only [Host.clauses, List.forall_mem_cons, Spellable]
  refine ⟨⟨by decide, ?_⟩, ⟨by decide, ?_⟩, ⟨by decide, ?_⟩, ⟨by decide, ?_⟩, ⟨by decide, ?_⟩,
    ⟨by decide, ?_⟩, ⟨by decide, ?_⟩, by simp⟩
  · exact spelling_option fun s _ => spelling_quoted s
  · simpa using spelling_quoted h.image
  · exact spelling_option fun s _ => spelling_quoted s
  · refine spelling_listed harray fun v hv => ?_
    simpa [Value.item] using Atom.spelling (hports v hv)
  · refine spelling_listed hobject fun e _ => ?_
    simpa [intPairItem] using ⟨spelling_digits e.1, hcolon, spelling_digits e.2⟩
  · refine spelling_listed hobject fun e he => ?_
    simpa [pairItem] using ⟨spelling_quoted e.1, hcolon, Atom.spelling (henv e he)⟩
  · refine spelling_listed harray fun v hv => ?_
    simpa [Value.item] using Atom.spelling (hcmd v hv)

theorem Link.spellable {l : Link} (hw : l.WellFormed) : ∀ c ∈ l.clauses, Spellable c := by
  obtain ⟨-, hsrc, hdst, hcls⟩ := hw
  simp only [Link.clauses, List.forall_mem_cons, Spellable]
  refine ⟨⟨by decide, ?_⟩, ⟨by decide, ?_⟩, ⟨by decide, ?_⟩, ⟨by decide, ?_⟩, ⟨by decide, ?_⟩,
    ⟨by decide, ?_⟩, ⟨by decide, ?_⟩, by simp⟩
  · simpa using spelling_word hsrc.1
  · simpa using spelling_word hdst.1
  · exact spelling_option fun n _ => spelling_digits n
  · exact spelling_option fun n _ => spelling_digits n
  · exact spelling_option fun s hs => spelling_word (hcls s hs).1
  · exact spelling_option fun s _ => spelling_quoted s
  · exact spelling_option fun n _ => spelling_digits n

theorem spelling_clauses {clauses : List (String × Option (List Lexeme))}
    (h : ∀ c ∈ clauses, Spellable c) :
    ∀ l ∈ clauses.flatMap fun c => clause c.1 c.2, Spelling l.written l := by
  intro l hl
  obtain ⟨c, hc, hl⟩ := List.mem_flatMap.mp hl
  exact (h c hc).spelling l hl

theorem spelling_words {names : List String} (h : ∀ s ∈ names, FreeName s) :
    ∀ l ∈ names.map word, Spelling l.written l := by
  intro l hl
  obtain ⟨s, hs, rfl⟩ := List.mem_map.mp hl
  exact spelling_word (h s hs).1

theorem Action.spelling {a : Action} (h : a.WellFormed) : ∀ l ∈ a.lexemes, Spelling l.written l := by
  have hword : ∀ k : Keyword, Spelling (word k.text).written (word k.text) := by
    intro k
    refine spelling_word ?_
    cases k <;> rfl
  cases a with
  | controller v =>
    simpa [lexemes] using ⟨hword .controller, Atom.spelling h⟩
  | remoteController name address port =>
    have hport : Spelling (word "port").written (word "port") := spelling_word rfl
    simpa [lexemes] using ⟨hword .remoteController, spelling_word h.1, hword .host,
      spelling_quoted address, hport, spelling_digits port⟩
  | host host =>
    refine List.forall_mem_cons.mpr ⟨hword .host, List.forall_mem_cons.mpr ⟨spelling_word h.1.1, ?_⟩⟩
    exact spelling_clauses (Host.spellable h)
  | link link =>
    refine List.forall_mem_cons.mpr ⟨hword .link, List.forall_mem_cons.mpr ⟨spelling_word h.1.1, ?_⟩⟩
    exact spelling_clauses (Link.spellable h)
  | switch names => exact List.forall_mem_cons.mpr ⟨hword .switch, spelling_words h.2⟩
  | ping names => exact List.forall_mem_cons.mpr ⟨hword .ping, spelling_words h.2⟩
  | intent names =>
    have harrow : Spelling (Lexeme.mk .arrow "->").written ⟨.arrow, "->"⟩ := .arrow
    refine List.forall_mem_cons.mpr ⟨hword .intent, spelling_joined harrow ?_⟩
    simpa using fun s hs => spelling_word (h.2 s hs).1
  | up => exact List.forall_mem_singleton.mpr (hword .up)
  | down => exact List.forall_mem_singleton.mpr (hword .down)

/-- The text of a program is read as the lexemes of its statements. -/
theorem Program.exists_lexed_canonical {p : Program} (h : ∀ s ∈ p.statements, s.action.WellFormed) :
    ∃ ts, Lexed .start p.canonical.toList ts ∧
      ts.map Token.toLexeme = p.lexemes ++ [⟨.eof, ""⟩] := by
  obtain ⟨statements⟩ := p
  rw [canonical, String.toList_ofList]
  generalize Position.start = pos
  induction statements generalizing pos with
  | nil => exact ⟨_, .done .nil, rfl⟩
  | cons s statements ih =>
    obtain ⟨hs, hss⟩ := List.forall_mem_cons.mp h
    obtain ⟨ts, hts, hm⟩ := exists_lexed_line (Action.spelling hs) (ih hss) pos
    exact ⟨ts, hts, by rw [hm]; simp [lexemes]⟩

end Netlab
