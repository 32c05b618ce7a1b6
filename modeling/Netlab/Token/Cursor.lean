import Netlab.Text.Blank
import Netlab.Token

namespace Netlab

inductive LexFault where
  | danglingDash
  | malformedNumber (digits : String)
  | unexpected (c : Char)
  | unknownEscape (c : Char)
  | unclosedLine
  | unterminated
deriving DecidableEq

def LexFault.message : LexFault → String
  | danglingDash => "expected '>' after '-'"
  | malformedNumber digits => "malformed number '" ++ digits ++ "'"
  | unexpected c => "unexpected character '" ++ String.singleton c ++ "'"
  | unknownEscape c => "unknown escape sequence '\\" ++ String.singleton c ++ "'"
  | unclosedLine => "string literal is not closed before end of line"
  | unterminated => "unterminated string literal"

abbrev LexError := Located LexFault

structure Cursor where
  rest : List Char
  pos : Position
deriving DecidableEq

def isNameStart (c : Char) : Bool := c.isAlpha || c = '_'

def isNameChar (c : Char) : Bool := c.isAlphanum || c = '_'

def unescape? (c : Char) : Option Char :=
  if c = 'n' then some '\n'
  else if c = 't' then some '\t'
  else if c = 'r' then some '\r'
  else if c = '\\' ∨ c = '"' ∨ c = '\'' then some c
  else none

namespace Cursor

def ofText (s : String) : Cursor := ⟨s.toList, .start⟩

/-- Pass over blanks and comments. A comment runs up to the next line feed. -/
def skip (comment : Bool) : List Char → Position → Cursor
  | [], p => ⟨[], p⟩
  | c :: cs, p =>
    if comment then skip (c ≠ '\n') cs (p.after c)
    else if Text.isBlank c then skip false cs (p.after c)
    else if c = '#' then skip true cs (p.after c)
    else ⟨c :: cs, p⟩

def skipTrivia (cursor : Cursor) : Cursor :=
  skip false cursor.rest cursor.pos

def span (keep : Char → Bool) (cs : List Char) (p : Position) : String × Cursor :=
  (String.ofList (cs.takeWhile keep), ⟨cs.dropWhile keep, p.afterAll (cs.takeWhile keep)⟩)

def before (c : Char) (r : Except LexError (List Char) × Cursor) :
    Except LexError (List Char) × Cursor :=
  (r.1.map (c :: ·), r.2)

/-- Read the text of a string up to its closing quote. A fault that concerns the whole literal is
reported at `opening`, an unknown escape one column before the place where reading stopped. -/
def quoted (quote : Char) (opening : Position) :
    List Char → Position → Except LexError (List Char) × Cursor
  | [], p => (.error ⟨opening, .unterminated⟩, ⟨[], p⟩)
  | c :: cs, p =>
    if c = quote then (.ok [], ⟨cs, p.after c⟩)
    else if c = '\\' then
      match cs with
      | [] => (.error ⟨opening, .unterminated⟩, ⟨[], p.after c⟩)
      | e :: cs =>
        match unescape? e with
        | none =>
          let stop := (p.after c).after e
          (.error ⟨⟨stop.line, stop.column - 1⟩, .unknownEscape e⟩, ⟨cs, stop⟩)
        | some d => before d (quoted quote opening cs ((p.after c).after e))
    else if c = '\n' then (.error ⟨opening, .unclosedLine⟩, ⟨cs, p.after c⟩)
    else before c (quoted quote opening cs (p.after c))

def dash (p : Position) : List Char → Except LexError Lexeme × Cursor
  | '>' :: cs => (.ok ⟨.arrow, "->"⟩, ⟨cs, (p.after '-').after '>'⟩)
  | cs => (.error ⟨p, .danglingDash⟩, ⟨cs, p.after '-'⟩)

def number (cs : List Char) (p : Position) : Except LexError Lexeme × Cursor :=
  let r := span Char.isDigit cs p
  if r.2.rest.head?.any isNameChar then (.error ⟨p, .malformedNumber r.1⟩, r.2)
  else (.ok ⟨.number, r.1⟩, r.2)

def word (cs : List Char) (p : Position) : Except LexError Lexeme × Cursor :=
  let r := span isNameChar cs p
  (.ok ⟨.name, r.1⟩, r.2)

/-- The lexeme that starts with the character `c` at `p`, before `cs`. After a fault the cursor stands
where reading stopped: an unexpected character is still unread, while a dash, a run of digits or the
start of a string has been read. -/
def lexeme (p : Position) (c : Char) (cs : List Char) : Except LexError Lexeme × Cursor :=
  match Kind.ofMark? c with
  | some kind => (.ok ⟨kind, String.singleton c⟩, ⟨cs, p.after c⟩)
  | none =>
    if c = '-' then dash p cs
    else if c = '"' ∨ c = '\'' then
      let r := quoted c p cs (p.after c)
      (r.1.map (fun text => ⟨.string, String.ofList text⟩), r.2)
    else if c.isDigit then number (c :: cs) p
    else if isNameStart c then word (c :: cs) p
    else (.error ⟨p, .unexpected c⟩, ⟨c :: cs, p⟩)

def next (cursor : Cursor) : Except LexError Token × Cursor :=
  match cursor.skipTrivia with
  | ⟨[], p⟩ => (.ok ⟨⟨.eof, ""⟩, p⟩, ⟨[], p⟩)
  | ⟨c :: cs, p⟩ =>
    let r := lexeme p c cs
    (r.1.map (fun l => ⟨l, p⟩), r.2)

theorem length_skip (comment : Bool) (cs : List Char) (p : Position) :
    (skip comment cs p).rest.length ≤ cs.length := by
  induction cs generalizing comment p with
  | nil => simp [skip]
  | cons c cs ih =>
    simp only [skip, List.length_cons]
    split
    · exact Nat.le_succ_of_le (ih _ _)
    · split
      · exact Nat.le_succ_of_le (ih _ _)
      · split
        · exact Nat.le_succ_of_le (ih _ _)
        · simp

theorem length_quoted (quote : Char) (opening : Position) (cs : List Char) (p : Position) :
    (quoted quote opening cs p).2.rest.length ≤ cs.length := by
  fun_induction quoted quote opening cs p <;> simp_all [before] <;> omega

theorem length_dropWhile_lt {keep : Char → Bool} {c : Char} (cs : List Char) (h : keep c = true) :
    ((c :: cs).dropWhile keep).length < (c :: cs).length := by
  have := (List.dropWhile_suffix keep (l := cs)).length_le
  simp only [List.dropWhile, h, List.length_cons]
  omega

theorem isNameChar_of_isNameStart {c : Char} (h : isNameStart c = true) : isNameChar c = true := by
  simp only [isNameStart, isNameChar, Char.isAlphanum, Bool.or_eq_true] at h ⊢
  exact h.imp_left Or.inl

theorem length_dash_lt (p : Position) (cs : List Char) :
    (dash p cs).2.rest.length < cs.length + 1 := by
  unfold dash
  split <;> simp only [List.length_cons] <;> omega

theorem length_lexeme_lt {p : Position} {c : Char} {cs : List Char} {l : Lexeme} {rest : Cursor}
    (h : lexeme p c cs = (.ok l, rest)) : rest.rest.length < cs.length + 1 := by
  unfold lexeme at h
  split at h
  · cases h
    simp
  · split at h
    · have := length_dash_lt p cs
      rwa [h] at this
    · split at h
      · have := length_quoted c p cs (p.after c)
        cases hq : quoted c p cs (p.after c) with
        | mk text after =>
          simp only [hq, Prod.mk.injEq] at h this
          rw [← h.2]
          omega
      · split at h
        · rename_i hd
          have := length_dropWhile_lt cs hd
          simp only [number] at h
          split at h
          · simp at h
          · cases h
            simpa [span] using this
        · split at h
          · rename_i hn
            have := length_dropWhile_lt cs (isNameChar_of_isNameStart hn)
            cases h
            simpa [span] using this
          · simp at h

/-- A token that is not the end of the text has used up some of it. -/
theorem length_next_lt {cursor rest : Cursor} {t : Token} (h : cursor.next = (.ok t, rest))
    (hk : t.kind ≠ .eof) : rest.rest.length < cursor.rest.length := by
  have hs : cursor.skipTrivia.rest.length ≤ cursor.rest.length := length_skip _ _ _
  unfold next at h
  split at h
  · cases h
    exact absurd rfl hk
  · rename_i c cs p hc
    rw [hc] at hs
    cases hl : lexeme p c cs with
    | mk r after =>
      rw [hl] at h
      cases r with
      | error e => simp [Except.map] at h
      | ok l =>
        have := length_lexeme_lt hl
        simp only [Prod.mk.injEq] at h
        rw [← h.2]
        simp only [List.length_cons] at hs
        omega

def tokens (cursor : Cursor) : Except LexError (List Token) :=
  match h : cursor.next with
  | (.error e, _) => .error e
  | (.ok t, rest) =>
    if hk : t.kind = .eof then .ok [t]
    else
      have := length_next_lt h hk
      rest.tokens.map (t :: ·)
termination_by cursor.rest.length

/-- The answers of `n` readings in a row, which go on after a fault and at the end of the text. -/
def readings : Nat → Cursor → List (Except LexError Token)
  | 0, _ => []
  | n + 1, cursor => cursor.next.1 :: readings n cursor.next.2

end Cursor

def Token.ofText (s : String) : Except LexError (List Token) :=
  (Cursor.ofText s).tokens

end Netlab
