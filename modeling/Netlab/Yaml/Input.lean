namespace Netlab.Yaml

/-- A place in a document, counted from zero. -/
structure Mark where
  index : Nat
  line : Nat
  column : Nat
deriving DecidableEq

namespace Mark

def start : Mark := ⟨0, 0, 0⟩

def next (m : Mark) : Mark := ⟨m.index + 1, m.line, m.column + 1⟩

def newline (m : Mark) (width : Nat) : Mark := ⟨m.index + width, m.line + 1, 0⟩

def samePlace (m n : Mark) : Bool := m.line = n.line && m.column = n.column

def text (m : Mark) : String :=
  "line " ++ toString (m.line + 1) ++ " column " ++ toString (m.column + 1)

/-- The end of a message that concerns a place. The start of the document goes without saying. -/
def mention (m : Mark) : String :=
  if m.samePlace start then "" else " at " ++ m.text

end Mark

inductive Fault where
  | control (offset : Nat)
  | malformed (problem : String) (mark : Mark) (context? : Option (String × Mark))
  | unknownAnchor (mark : Mark)
  | manyDocuments
  | endOfStream
deriving DecidableEq

namespace Fault

def message : Fault → String
  | control offset =>
    "control characters are not allowed" ++
      (if offset = 0 then "" else " at position " ++ toString offset)
  | malformed problem mark none => problem ++ mark.mention
  | malformed problem mark (some (context, place)) =>
    problem ++ mark.mention ++ ", " ++ context ++
      (if place.samePlace mark then "" else place.mention)
  | unknownAnchor mark => "unknown anchor" ++ mark.mention
  | manyDocuments =>
    "deserializing from YAML containing more than one document is not supported"
  | endOfStream => "EOF while parsing a value"

def within (context : String) (place : Mark) (problem : String) (mark : Mark) : Fault :=
  malformed problem mark (some (context, place))

end Fault

def isBreak (c : Char) : Bool :=
  c = '\n' || c = '\r' || c = '\u0085' || c = '\u2028' || c = '\u2029'

def isSpace (c : Char) : Bool := c = ' ' || c = '\t'

def isGap (c : Char) : Bool := isSpace c || isBreak c

def isWordChar (c : Char) : Bool := c.isAlphanum || c = '_' || c = '-'

def isAllowed (c : Char) : Bool :=
  let n := c.toNat
  n == 0x09 || n == 0x0A || n == 0x0D || (0x20 ≤ n && n ≤ 0x7E) || n == 0x85 ||
    (0xA0 ≤ n && n ≤ 0xFFFD) || 0x10000 ≤ n

/-- How a line break is kept in the text of a scalar. -/
def breakText (c : Char) : Char :=
  if c = '\u2028' || c = '\u2029' then c else '\n'

/-- The unread part of a document and the place where it starts. -/
structure Input where
  rest : List Char
  mark : Mark

namespace Input

def ofText (s : String) : Input := ⟨s.toList, .start⟩

def head? (i : Input) : Option Char := i.rest.head?

/-- Whether the character at distance `n` satisfies `p`; the end of the document does. -/
def atOrEnd (i : Input) (n : Nat) (p : Char → Bool) : Bool := (i.rest.drop n).head?.all p

def skip (i : Input) : Input :=
  match i.rest with
  | [] => i
  | _ :: cs => ⟨cs, i.mark.next⟩

def skipWhile (p : Char → Bool) : List Char → Mark → Input
  | [], m => ⟨[], m⟩
  | c :: cs, m => if p c then skipWhile p cs m.next else ⟨c :: cs, m⟩

def dropWhile (i : Input) (p : Char → Bool) : Input := skipWhile p i.rest i.mark

def takeBreak (i : Input) : List Char × Input :=
  match i.rest with
  | '\r' :: '\n' :: cs => (['\n'], ⟨cs, i.mark.newline 2⟩)
  | c :: cs => if isBreak c then ([breakText c], ⟨cs, i.mark.newline 1⟩) else ([], i)
  | [] => ([], i)

theorem length_skip_le (i : Input) : i.skip.rest.length ≤ i.rest.length := by
  unfold skip
  split <;> simp [*]

theorem length_skip_lt {i : Input} (h : i.rest ≠ []) : i.skip.rest.length < i.rest.length := by
  unfold skip
  split
  · contradiction
  · simp [*]

theorem length_skipWhile_le (p : Char → Bool) (cs : List Char) (m : Mark) :
    (skipWhile p cs m).rest.length ≤ cs.length := by
  fun_induction skipWhile p cs m with
  | case1 | case3 => exact Nat.le_refl _
  | case2 m c cs _ ih => exact Nat.le_succ_of_le ih

theorem length_dropWhile_le (i : Input) (p : Char → Bool) :
    (i.dropWhile p).rest.length ≤ i.rest.length :=
  length_skipWhile_le p i.rest i.mark

theorem length_takeBreak_le (i : Input) : i.takeBreak.2.rest.length ≤ i.rest.length := by
  unfold takeBreak
  split
  · rename_i cs h
    rw [h]
    exact Nat.le_add_right _ 2
  · rename_i c cs _ h
    split
    · rw [h]
      exact Nat.le_add_right _ 1
    · exact Nat.le_refl _
  · exact Nat.le_refl _

theorem length_takeBreak_lt {i : Input} (h : i.head?.any isBreak = true) :
    i.takeBreak.2.rest.length < i.rest.length := by
  unfold takeBreak
  split
  · rename_i cs hi
    rw [hi]
    exact Nat.lt_add_of_pos_right (by decide : 0 < 2)
  · rename_i c cs _ hi
    rw [if_pos (by simpa [head?, hi] using h), hi]
    exact Nat.lt_succ_self _
  · rename_i hi
    simp [head?, hi] at h

def skipComment (i : Input) : Input :=
  if i.head? = some '#' then i.dropWhile (fun c => !isBreak c) else i

theorem length_skipComment_le (i : Input) : i.skipComment.rest.length ≤ i.rest.length := by
  unfold skipComment
  split
  · exact i.length_dropWhile_le _
  · exact Nat.le_refl _

/-- The rest of a line with its end is never nothing. -/
theorem length_takeLine_lt {i : Input} (h : i.rest ≠ []) :
    (i.dropWhile (fun c => !isBreak c)).takeBreak.2.rest.length < i.rest.length := by
  obtain ⟨rest, m⟩ := i
  cases rest with
  | nil => contradiction
  | cons c cs =>
    cases hc : isBreak c with
    | true =>
      have hstay : dropWhile ⟨c :: cs, m⟩ (fun c => !isBreak c) = ⟨c :: cs, m⟩ := by
        simp [dropWhile, skipWhile, hc]
      rw [hstay]
      exact length_takeBreak_lt (by simp [head?, hc])
    | false =>
      have hpass : dropWhile ⟨c :: cs, m⟩ (fun c => !isBreak c) =
          dropWhile ⟨cs, m.next⟩ (fun c => !isBreak c) := by
        simp [dropWhile, skipWhile, hc]
      rw [hpass]
      have hbreak := length_takeBreak_le (dropWhile ⟨cs, m.next⟩ (fun c => !isBreak c))
      have hdrop := length_dropWhile_le ⟨cs, m.next⟩ (fun c => !isBreak c)
      exact Nat.lt_succ_of_le (Nat.le_trans hbreak hdrop)

/-- Whether the line starts with three of the given characters and a gap. -/
def atTriple (i : Input) (c : Char) : Bool :=
  i.mark.column = 0 && i.rest.take 3 = [c, c, c] && i.atOrEnd 3 isGap

def atDocumentMark (i : Input) : Bool := i.atTriple '-' || i.atTriple '.'

end Input

end Netlab.Yaml
