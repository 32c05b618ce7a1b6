import Netlab.Except
import Netlab.Text.Hex
import Netlab.Yaml.Input

namespace Netlab.Yaml

open Text (readHex charOfCode?)

inductive Gap where
  | spaces (text : List Char)
  | lines (first more : List Char)

namespace Gap

def none : Gap := spaces []

def isLines : Gap → Bool
  | spaces _ => false
  | lines _ _ => true

def addBreak (c : Char) : Gap → Gap
  | spaces _ => lines [c] []
  | lines first more => lines first (more ++ [c])

/-- A single line break is folded to a blank; further ones are kept. -/
def text : Gap → List Char
  | spaces cs => cs
  | lines ['\n'] [] => [' ']
  | lines ['\n'] more => more
  | lines first more => first ++ more

end Gap

/-- Read blanks and line breaks. A tab before the column `limit` of a later line is a fault, given by
its place. -/
def readGap (limit : Nat) (g : Gap) : List Char → Mark → Except Mark (Gap × Input)
  | [], m => .ok (g, ⟨[], m⟩)
  | '\r' :: '\n' :: cs, m => readGap limit (g.addBreak '\n') cs (m.newline 2)
  | c :: cs, m =>
    if isBreak c then readGap limit (g.addBreak (breakText c)) cs (m.newline 1)
    else if isSpace c then
      match g with
      | .spaces ws => readGap limit (.spaces (ws ++ [c])) cs m.next
      | .lines _ _ =>
        if c = '\t' && m.column < limit then .error m else readGap limit g cs m.next
    else .ok (g, ⟨c :: cs, m⟩)

theorem length_readGap_le {limit : Nat} {g g' : Gap} {cs : List Char} {m : Mark} {i : Input}
    (h : readGap limit g cs m = .ok (g', i)) : i.rest.length ≤ cs.length := by
  fun_induction readGap limit g cs m with
  | case1 =>
    cases h
    exact Nat.le_refl _
  | case2 g cs m ih => exact Nat.le_trans (ih h) (Nat.le_add_right _ 2)
  | case3 | case4 | case6 =>
    rename_i ih
    exact Nat.le_succ_of_le (ih h)
  | case5 => cases h
  | case7 =>
    cases h
    exact Nat.le_refl _

theorem length_readGap_lt {limit : Nat} {g g' : Gap} {c : Char} {cs : List Char} {m : Mark} {i : Input}
    (hc : isGap c = true) (h : readGap limit g (c :: cs) m = .ok (g', i)) : i.rest.length ≤ cs.length := by
  rw [isGap, Bool.or_eq_true] at hc
  unfold readGap at h
  split at h
  · cases ‹_ :: _ = []›
  · cases ‹c :: cs = _›
    exact Nat.le_succ_of_le (length_readGap_le h)
  · cases ‹c :: cs = _›
    split at h
    · exact length_readGap_le h
    · rename_i hbreak
      rw [if_pos (hc.resolve_right hbreak)] at h
      split at h
      · exact length_readGap_le h
      · split at h
        · cases h
        · exact length_readGap_le h

def isFlowMark (c : Char) : Bool :=
  c = ',' || c = '[' || c = ']' || c = '{' || c = '}'

/-- Read a plain scalar up to the next gap or the mark that ends it. A colon that sticks to a mark of
a flow collection is a fault, given by its place. -/
def plainRun (flow : Bool) : List Char → Mark → Except Mark (List Char × Input)
  | [], m => .ok ([], ⟨[], m⟩)
  | c :: cs, m =>
    if isGap c then .ok ([], ⟨c :: cs, m⟩)
    else if flow && c = ':' && cs.head?.any (fun d => isFlowMark d || d = '?') then .error m
    else if (c = ':' && cs.head?.all isGap) || (flow && isFlowMark c) then
      .ok ([], ⟨c :: cs, m⟩)
    else (plainRun flow cs m.next).map (fun r => (c :: r.1, r.2))

theorem length_plainRun {flow : Bool} {cs run : List Char} {m : Mark} {i : Input}
    (h : plainRun flow cs m = .ok (run, i)) : run.length + i.rest.length = cs.length := by
  induction cs generalizing run m with
  | nil =>
    cases h
    rfl
  | cons c cs ih =>
    unfold plainRun at h
    split at h
    · cases h
      exact Nat.zero_add _
    · obtain ⟨-, h⟩ := error_ite_eq_ok.mp h
      split at h
      · cases h
        exact Nat.zero_add _
      · obtain ⟨r, hr, h⟩ := map_eq_ok.mp h
        cases h
        have hlen := ih hr
        rw [List.length_cons, List.length_cons]
        omega

theorem length_plainRun_lt {flow : Bool} {cs run : List Char} {c : Char} {m : Mark} {i : Input}
    (h : plainRun flow cs m = .ok (c :: run, i)) : i.rest.length < cs.length := by
  have hrun := length_plainRun h
  rw [List.length_cons] at hrun
  omega

def plain (flow : Bool) (indent : Nat) (start : Mark) (text : List Char) (g : Gap) (i : Input) :
    Except Fault (List Char × Gap × Input) :=
  if i.atDocumentMark || i.head? = some '#' then .ok (text, g, i)
  else
    match hr : plainRun flow i.rest i.mark with
    | .error m => .error (.within "while scanning a plain scalar" start "found unexpected ':'" m)
    | .ok ([], i) => .ok (text, g, i)
    | .ok (c :: run, j) =>
      let text := text ++ g.text ++ c :: run
      if j.head?.any isGap then
        match hg : readGap indent .none j.rest j.mark with
        | .error m =>
          .error (.within "while scanning a plain scalar" start
            "found a tab character that violates indentation" m)
        | .ok (g', k) =>
          if !flow && k.mark.column < indent then .ok (text, g', k)
          else
            have : k.rest.length < i.rest.length :=
              Nat.lt_of_le_of_lt (length_readGap_le hg) (length_plainRun_lt hr)
            plain flow indent start text g' k
      else .ok (text, .none, j)
termination_by i.rest.length

theorem length_plain {flow : Bool} {indent : Nat} {start : Mark} {text text' : List Char}
    {g g' : Gap} {i j : Input} (h : plain flow indent start text g i = .ok (text', g', j)) :
    j.rest.length ≤ i.rest.length ∧
      (i.atDocumentMark = false → i.head? ≠ some '#' → (∀ k, plainRun flow i.rest i.mark ≠ .ok ([], k)) →
        j.rest.length < i.rest.length) := by
  fun_induction plain flow indent start text g i with
  | case1 text g i hstop =>
    cases h
    refine ⟨Nat.le_refl _, fun hmark hhash => ?_⟩
    simp [hmark, hhash] at hstop
  | case2 | case4 => cases h
  | case3 text g i hstop k hr =>
    cases h
    have hrun := length_plainRun hr
    exact ⟨by simp at hrun; omega, fun _ _ hstart => absurd hr (hstart _)⟩
  | case5 text g i hstop c run k hr read hgap g' l hg =>
    simp only [Except.ok.injEq, Prod.mk.injEq] at h
    obtain ⟨-, -, rfl⟩ := h
    have hlt := Nat.lt_of_le_of_lt (length_readGap_le hg) (length_plainRun_lt hr)
    exact ⟨Nat.le_of_lt hlt, fun _ _ _ => hlt⟩
  | case6 text g i hstop c run k hr read hgap g' l hg hcolumn hlt ih =>
    have hrest := Nat.lt_of_le_of_lt (ih h).1 hlt
    exact ⟨Nat.le_of_lt hrest, fun _ _ _ => hrest⟩
  | case7 text g i hstop c run k hr =>
    simp only [Except.ok.injEq, Prod.mk.injEq] at h
    obtain ⟨-, -, rfl⟩ := h
    have hlt := length_plainRun_lt hr
    exact ⟨Nat.le_of_lt hlt, fun _ _ _ => hlt⟩

def unescape? (c : Char) : Option Char :=
  match c with
  | '0' => some '\x00'
  | 'a' => some '\x07'
  | 'b' => some '\x08'
  | 't' => some '\t'
  | '\t' => some '\t'
  | 'n' => some '\n'
  | 'v' => some '\x0b'
  | 'f' => some '\x0c'
  | 'r' => some '\r'
  | 'e' => some '\x1b'
  | ' ' => some ' '
  | '"' => some '"'
  | '/' => some '/'
  | '\\' => some '\\'
  | 'N' => some '\u0085'
  | '_' => some '\u00a0'
  | 'L' => some '\u2028'
  | 'P' => some '\u2029'
  | _ => none

def codeLength? (c : Char) : Option Nat :=
  match c with
  | 'x' => some 2
  | 'u' => some 4
  | 'U' => some 8
  | _ => none

def Mark.advance (m : Mark) (n : Nat) : Mark := ⟨m.index + n, m.line, m.column + n⟩

/-- The character that the letter behind a backslash stands for, and the number of digits behind this
letter. A fault is given with its distance from the backslash. -/
def readEscape (e : Char) (cs : List Char) : Except (String × Nat) (Char × Nat) :=
  match unescape? e, codeLength? e with
  | some d, _ => .ok (d, 0)
  | none, none => .error ("found unknown escape character", 0)
  | none, some n =>
    match if cs.length < n then none else readHex (cs.take n) 0 with
    | none => .error ("did not find expected hexdecimal number", 2)
    | some code =>
      match charOfCode? code with
      | none => .error ("found invalid Unicode character escape code", 2)
      | some d => .ok (d, n)

def quoted (single : Bool) (start : Mark) (text : List Char) (i : Input) :
    Except Fault (List Char × Input) :=
  let scanning := Fault.within "while scanning a quoted scalar" start
  let parsing := Fault.within "while parsing a quoted scalar" start
  if i.atDocumentMark then .error (scanning "found unexpected document indicator" i.mark)
  else
    match i with
    | ⟨[], m⟩ => .error (scanning "found unexpected end of stream" m)
    | ⟨c :: cs, m⟩ =>
      if hc : isGap c then
        match hg : readGap 0 .none (c :: cs) m with
        | .error place => .error (scanning "found a tab character that violates indentation" place)
        | .ok (g, j) =>
          have := length_readGap_lt hc hg
          quoted single start (text ++ g.text) j
      else if single then
        if c = '\'' then
          if cs.head? = some '\'' then
            quoted single start (text ++ [c]) ⟨cs.drop 1, m.advance 2⟩
          else .ok (text, ⟨cs, m.next⟩)
        else quoted single start (text ++ [c]) ⟨cs, m.next⟩
      else if c = '"' then .ok (text, ⟨cs, m.next⟩)
      else if c = '\\' then
        match cs with
        | [] => .error (parsing "found unknown escape character" m)
        | e :: cs' =>
          if isBreak e then
            let after := (Input.takeBreak ⟨e :: cs', m.next⟩).2
            match hg : readGap 0 (.lines [] []) after.rest after.mark with
            | .error place => .error (scanning "found a tab character that violates indentation" place)
            | .ok (g, j) =>
              have := length_readGap_le hg
              have : after.rest.length ≤ cs'.length + 1 := Input.length_takeBreak_le _
              quoted single start (text ++ g.text) j
          else
            match readEscape e cs' with
            | .error (problem, distance) => .error (parsing problem (m.advance distance))
            | .ok (d, n) => quoted single start (text ++ [d]) ⟨cs'.drop n, m.advance (2 + n)⟩
      else quoted single start (text ++ [c]) ⟨cs, m.next⟩
termination_by i.rest.length
decreasing_by all_goals simp only [List.length_cons, List.length_drop]; omega

theorem length_quoted_le {single : Bool} {start : Mark} {text text' : List Char} {i j : Input}
    (h : quoted single start text i = .ok (text', j)) : j.rest.length ≤ i.rest.length := by
  fun_induction quoted single start text i with
  | case1 | case2 | case3 | case9 | case10 | case12 => cases h
  | case6 | case8 =>
    cases h
    exact Nat.le_succ _
  | case4 | case5 | case7 | case11 | case13 | case14 =>
    rename_i ih
    have hrest := ih h
    simp only [List.length_cons, List.length_drop] at *
    omega

inductive Chomping where
  | clip
  | strip
  | keep

/-- Read the indentation and the empty lines before a line of a block scalar. While the indentation is
not known it is zero, and the widest one met is answered. A tab in it is a fault. -/
def blockBreaks (indent widest : Nat) (breaks : List Char) :
    List Char → Mark → Except Mark (List Char × Nat × Input)
  | [], m => .ok (breaks, max widest m.column, ⟨[], m⟩)
  | '\r' :: '\n' :: cs, m =>
    blockBreaks indent (max widest m.column) (breaks ++ ['\n']) cs (m.newline 2)
  | c :: cs, m =>
    let open_ := indent = 0 ∨ m.column < indent
    if c = ' ' ∧ open_ then blockBreaks indent widest breaks cs m.next
    else if isBreak c then
      blockBreaks indent (max widest m.column) (breaks ++ [breakText c]) cs (m.newline 1)
    else if c = '\t' ∧ open_ then .error m
    else .ok (breaks, max widest m.column, ⟨c :: cs, m⟩)

theorem length_blockBreaks_le {indent widest widest' : Nat} {breaks breaks' cs : List Char} {m : Mark}
    {i : Input} (h : blockBreaks indent widest breaks cs m = .ok (breaks', widest', i)) :
    i.rest.length ≤ cs.length := by
  fun_induction blockBreaks indent widest breaks cs m with
  | case1 =>
    cases h
    exact Nat.le_refl _
  | case2 _ _ cs m ih => exact Nat.le_trans (ih h) (Nat.le_add_right _ 2)
  | case3 _ _ m c cs _ _ _ ih | case4 _ _ m c cs _ _ _ _ ih => exact Nat.le_succ_of_le (ih h)
  | case5 => cases h
  | case6 =>
    cases h
    exact Nat.le_refl _

structure BlockText where
  text : List Char
  lead : List Char
  trail : List Char
  blank : Bool

namespace BlockText

/-- Put the line breaks read before a line, folded if the scalar folds them and neither line starts
with a blank. -/
def join (literal : Bool) (b : BlockText) (blank : Bool) : List Char :=
  if !literal && b.lead = ['\n'] && !b.blank && !blank then
    b.text ++ (if b.trail.isEmpty then [' '] else []) ++ b.trail
  else b.text ++ b.lead ++ b.trail

end BlockText

def blockLines (literal : Bool) (indent : Nat) (start : Mark) (b : BlockText) (i : Input) :
    Except Fault (BlockText × Input) :=
  match hi : i.rest with
  | [] => .ok (b, i)
  | c :: _ =>
    if i.mark.column = indent then
      let line := i.rest.takeWhile (fun c => !isBreak c)
      let after := (i.dropWhile (fun c => !isBreak c)).takeBreak
      match hb : blockBreaks indent 0 [] after.2.rest after.2.mark with
      | .error m =>
        .error (.within "while scanning a block scalar" start
          "found a tab character where an indentation space is expected" m)
      | .ok (trail, _, j) =>
        have : j.rest.length < i.rest.length :=
          Nat.lt_of_le_of_lt (length_blockBreaks_le hb) (Input.length_takeLine_lt (by simp [hi]))
        blockLines literal indent start
          ⟨b.join literal (isSpace c) ++ line, after.1, trail, isSpace c⟩ j
    else .ok (b, i)
termination_by i.rest.length

def chompingOf? (c : Char) : Option Chomping :=
  if c = '+' then some .keep else if c = '-' then some .strip else none

theorem length_blockLines_le {literal : Bool} {indent : Nat} {start : Mark} {b b' : BlockText}
    {i j : Input} (h : blockLines literal indent start b i = .ok (b', j)) :
    j.rest.length ≤ i.rest.length := by
  fun_induction blockLines literal indent start b i with
  | case1 | case4 =>
    cases h
    exact Nat.le_refl _
  | case2 => cases h
  | case3 =>
    rename_i hlt ih
    exact Nat.le_of_lt (Nat.lt_of_le_of_lt (ih h) hlt)

def blockIndent (start : Mark) (i : Input) : Except Fault (Nat × Input) :=
  match i.head? with
  | some c =>
    if c = '0' then
      .error (.within "while scanning a block scalar" start
        "found an indentation indicator equal to 0" i.mark)
    else if c.isDigit then .ok (c.toNat - '0'.toNat, i.skip)
    else .ok (0, i)
  | none => .ok (0, i)

theorem length_blockIndent_le {start : Mark} {i j : Input} {n : Nat}
    (h : blockIndent start i = .ok (n, j)) : j.rest.length ≤ i.rest.length := by
  unfold blockIndent at h
  split at h
  · obtain ⟨-, h⟩ := error_ite_eq_ok.mp h
    split at h
    · cases h
      exact i.length_skip_le
    · cases h
      exact Nat.le_refl _
  · cases h
    exact Nat.le_refl _

def blockHeader (start : Mark) (i : Input) : Except Fault (Chomping × Nat × Input) :=
  match i.head?.bind chompingOf? with
  | some chomping => (blockIndent start i.skip).map (fun r => (chomping, r))
  | none =>
    (blockIndent start i).map (fun (n, i) =>
      match if n = 0 then none else i.head?.bind chompingOf? with
      | some chomping => (chomping, n, i.skip)
      | none => (.clip, n, i))

theorem length_blockHeader_le {start : Mark} {i j : Input} {chomping : Chomping} {n : Nat}
    (h : blockHeader start i = .ok (chomping, n, j)) : j.rest.length ≤ i.rest.length := by
  unfold blockHeader at h
  split at h
  · obtain ⟨r, hi, h⟩ := map_eq_ok.mp h
    cases h
    exact Nat.le_trans (length_blockIndent_le hi) i.length_skip_le
  · obtain ⟨r, hi, h⟩ := map_eq_ok.mp h
    have hlen := length_blockIndent_le hi
    dsimp only at h
    split at h
    · cases h
      exact Nat.le_trans r.2.length_skip_le hlen
    · cases h
      exact hlen

/-- Read a block scalar whose sign has been read. The column of the enclosing block is `indent`, one
less than zero outside of any. -/
def block (literal : Bool) (indent : Int) (start : Mark) (i : Input) :
    Except Fault (List Char × Input) := do
  let fault := Fault.within "while scanning a block scalar" start
  let (chomping, increment, i) ← blockHeader start i
  let i := (i.dropWhile isSpace).skipComment
  if i.atOrEnd 0 isBreak then
    let i := i.takeBreak.2
    let given := if increment = 0 then 0 else (max indent 0).toNat + increment
    let (trail, widest, i) ← (blockBreaks given 0 [] i.rest i.mark).mapError
      (fault "found a tab character where an indentation space is expected")
    let column := if given = 0 then max (max widest (indent + 1).toNat) 1 else given
    let (b, i) ← blockLines literal column start ⟨[], [], trail, false⟩ i
    match chomping with
    | .strip => return (b.text, i)
    | .clip => return (b.text ++ b.lead, i)
    | .keep => return (b.text ++ b.lead ++ b.trail, i)
  else throw (fault "did not find expected comment or line break" i.mark)

theorem length_block_le {literal : Bool} {indent : Int} {start : Mark} {i j : Input} {text : List Char}
    (h : block literal indent start i = .ok (text, j)) : j.rest.length ≤ i.rest.length := by
  obtain ⟨⟨chomping, increment, k⟩, hk, h⟩ := bind_eq_ok.mp h
  have hheader := length_blockHeader_le hk
  have hspaces := k.length_dropWhile_le isSpace
  have hcomment := (k.dropWhile isSpace).length_skipComment_le
  obtain ⟨-, h⟩ := ite_error_eq_ok.mp h
  obtain ⟨⟨trail, widest, l⟩, hl, h⟩ := bind_eq_ok.mp h
  obtain ⟨⟨b, e⟩, he, h⟩ := bind_eq_ok.mp h
  have hbreak := (k.dropWhile isSpace).skipComment.length_takeBreak_le
  have htrail := length_blockBreaks_le (mapError_eq_ok.mp hl)
  have hlines : e.rest.length ≤ l.rest.length := length_blockLines_le he
  have hej : e = j := by cases chomping <;> cases h <;> rfl
  rw [← hej]
  omega

end Netlab.Yaml
