import Netlab.Token.Cursor

namespace Netlab

/-- Blanks and comments in front of `rest`. A comment runs up to a line feed or to the end of the
text. -/
inductive Trivia (rest : List Char) : List Char → Prop
  | nil : Trivia rest []
  | blank {c : Char} {cs : List Char} (hc : Text.isBlank c = true) (h : Trivia rest cs) :
      Trivia rest (c :: cs)
  | comment {body cs : List Char} (hb : '\n' ∉ body)
      (hend : ∀ c, (cs ++ rest).head? = some c → c = '\n') (h : Trivia rest cs) :
      Trivia rest ('#' :: (body ++ cs))

/-- The characters that can stand behind a backslash, each with the one that is meant. -/
def escapes : List (Char × Char) :=
  [('\\', '\\'), ('"', '"'), ('\'', '\''), ('n', '\n'), ('t', '\t'), ('r', '\r')]

/-- What is written between two quotes, and the text that it stands for. -/
inductive Quoted (quote : Char) : List Char → List Char → Prop
  | nil : Quoted quote [] []
  | plain {c : Char} {cs text : List Char} (hq : c ≠ quote) (hb : c ≠ '\\') (hn : c ≠ '\n')
      (h : Quoted quote cs text) : Quoted quote (c :: cs) (c :: text)
  | escape {e c : Char} {cs text : List Char} (he : (e, c) ∈ escapes) (h : Quoted quote cs text) :
      Quoted quote ('\\' :: e :: cs) (c :: text)

def marks : List (Char × Kind) :=
  [('[', .openBracket), (']', .closeBracket), ('\x7b', .openBrace), ('\x7d', .closeBrace),
    (',', .comma), (':', .colon)]

inductive Spelling : List Char → Lexeme → Prop
  | name {c : Char} {cs : List Char} (hc : isNameStart c = true)
      (hcs : ∀ d ∈ cs, isNameChar d = true) : Spelling (c :: cs) ⟨.name, String.ofList (c :: cs)⟩
  | number {c : Char} {cs : List Char} (h : ∀ d ∈ c :: cs, d.isDigit = true) :
      Spelling (c :: cs) ⟨.number, String.ofList (c :: cs)⟩
  | mark {c : Char} {kind : Kind} (h : (c, kind) ∈ marks) :
      Spelling [c] ⟨kind, String.singleton c⟩
  | arrow : Spelling ['-', '>'] ⟨.arrow, "->"⟩
  | string {quote : Char} {cs text : List Char} (hq : quote = '"' ∨ quote = '\'')
      (h : Quoted quote cs text) :
      Spelling (quote :: (cs ++ [quote])) ⟨.string, String.ofList text⟩

/-- A name or a number is not written right in front of a character that names have. -/
def Apart (l : Lexeme) (rest : List Char) : Prop :=
  l.kind = .name ∨ l.kind = .number → ∀ c, rest.head? = some c → isNameChar c = false

/-- A text that starts at `p`, and its tokens. -/
inductive Lexed : Position → List Char → List Token → Prop
  | done {p : Position} {gap : List Char} (h : Trivia [] gap) :
      Lexed p gap [⟨⟨.eof, ""⟩, p.afterAll gap⟩]
  | token {p : Position} {gap spelling rest : List Char} {l : Lexeme} {ts : List Token}
      (hg : Trivia (spelling ++ rest) gap) (hs : Spelling spelling l) (ha : Apart l rest)
      (h : Lexed ((p.afterAll gap).afterAll spelling) rest ts) :
      Lexed p (gap ++ (spelling ++ rest)) (⟨l, p.afterAll gap⟩ :: ts)

theorem toNat_of_isAlpha {c : Char} (h : c.isAlpha = true) :
    65 ≤ c.toNat ∧ c.toNat ≤ 90 ∨ 97 ≤ c.toNat ∧ c.toNat ≤ 122 := by
  rcases Bool.or_eq_true_iff.mp h with hu | hl
  · have hr : 'A'.val ≤ c.val ∧ c.val ≤ 'Z'.val := of_decide_eq_true hu
    exact .inl ⟨UInt32.le_iff_toNat_le.mp hr.1, UInt32.le_iff_toNat_le.mp hr.2⟩
  · obtain ⟨ha, hz⟩ := Bool.and_eq_true_iff.mp hl
    have hr : 'a'.val ≤ c.val ∧ c.val ≤ 'z'.val := ⟨of_decide_eq_true ha, of_decide_eq_true hz⟩
    exact .inr ⟨UInt32.le_iff_toNat_le.mp hr.1, UInt32.le_iff_toNat_le.mp hr.2⟩

theorem toNat_of_isDigit {c : Char} (h : c.isDigit = true) : 48 ≤ c.toNat ∧ c.toNat ≤ 57 := by
  obtain ⟨h₀, h₉⟩ := Bool.and_eq_true_iff.mp h
  have hr : '0'.val ≤ c.val ∧ c.val ≤ '9'.val := ⟨of_decide_eq_true h₀, of_decide_eq_true h₉⟩
  exact ⟨UInt32.le_iff_toNat_le.mp hr.1, UInt32.le_iff_toNat_le.mp hr.2⟩

theorem isDigit_of_isNameStart {c : Char} (h : isNameStart c = true) : c.isDigit = false := by
  rw [Bool.eq_false_iff]
  intro hd
  rcases Bool.or_eq_true_iff.mp h with ha | hu
  · have hletter := toNat_of_isAlpha ha
    have hdigit := toNat_of_isDigit hd
    omega
  · rw [of_decide_eq_true hu] at hd
    exact absurd hd (by decide)

theorem unescape?_eq_some {e c : Char} : unescape? e = some c ↔ (e, c) ∈ escapes := by
  simp only [unescape?, escapes, List.mem_cons, Prod.mk.injEq, List.not_mem_nil, or_false]
  grind

theorem ofMark?_eq_some {c : Char} {kind : Kind} : Kind.ofMark? c = some kind ↔ (c, kind) ∈ marks := by
  simp only [Kind.ofMark?, marks, List.mem_cons, Prod.mk.injEq, List.not_mem_nil, or_false]
  grind

theorem isNameChar_of_isDigit {c : Char} (h : c.isDigit = true) : isNameChar c = true := by
  simp [isNameChar, Char.isAlphanum, h]

def Solid (cs : List Char) : Prop :=
  ∀ c, cs.head? = some c → Text.isBlank c = false ∧ c ≠ '#'

section

variable {c : Char} (h : isNameChar c = true)
include h

theorem isBlank_of_isNameChar : Text.isBlank c = false := by
  rw [Bool.eq_false_iff]
  intro hb
  simp only [Text.isBlank, Bool.or_eq_true, Bool.and_eq_true, decide_eq_true_eq, beq_iff_eq] at hb
  rcases Bool.or_eq_true_iff.mp h with ha | hu
  · rcases Bool.or_eq_true_iff.mp ha with hl | hd
    · have hletter := toNat_of_isAlpha hl
      omega
    · have hdigit := toNat_of_isDigit hd
      omega
  · rw [of_decide_eq_true hu] at hb
    exact absurd hb (by decide)

theorem ne_of_isNameChar {d : Char} (hd : isNameChar d = false) : c ≠ d := by
  rintro rfl
  exact absurd h (by simp [hd])

theorem ofMark?_of_isNameChar : Kind.ofMark? c = none := by
  cases hm : Kind.ofMark? c with
  | none => rfl
  | some kind =>
    have hmem := ofMark?_eq_some.mp hm
    have hmarks : ∀ m ∈ marks, isNameChar m.1 = false := by decide
    rw [hmarks _ hmem] at h
    cases h

end

theorem Spelling.ne_eof {cs : List Char} {l : Lexeme} (h : Spelling cs l) : l.kind ≠ .eof := by
  cases h with
  | mark hm =>
    have hmarks : ∀ m ∈ marks, m.2 ≠ .eof := by decide
    exact hmarks _ hm
  | name | number | arrow | string => intro he; cases he

theorem Spelling.solid {cs : List Char} {l : Lexeme} (h : Spelling cs l) (rest : List Char) :
    Solid (cs ++ rest) := by
  have hname : ∀ {c : Char}, isNameChar c = true → Text.isBlank c = false ∧ c ≠ '#' :=
    fun hc => ⟨isBlank_of_isNameChar hc, ne_of_isNameChar hc (by decide)⟩
  intro c hc
  cases h with
  | name hd =>
    cases hc
    exact hname (Cursor.isNameChar_of_isNameStart hd)
  | number hd =>
    cases hc
    exact hname (isNameChar_of_isDigit (hd _ List.mem_cons_self))
  | @mark d kind hm =>
    have hmarks : ∀ m ∈ marks, Text.isBlank m.1 = false ∧ m.1 ≠ '#' := by decide
    obtain rfl : d = c := Option.some.inj hc
    exact hmarks (d, kind) hm
  | arrow =>
    obtain rfl : '-' = c := Option.some.inj hc
    decide
  | @string quote _ _ hq =>
    obtain rfl : quote = c := Option.some.inj hc
    rcases hq with rfl | rfl <;> decide

theorem Trivia.isNameChar_head {rest gap : List Char} (h : Trivia rest gap) {c : Char}
    (hc : gap.head? = some c) : isNameChar c = false := by
  rw [Bool.eq_false_iff]
  intro hn
  cases h with
  | nil => cases hc
  | blank hb =>
    cases hc
    rw [isBlank_of_isNameChar hn] at hb
    cases hb
  | comment =>
    cases hc
    exact absurd hn (by decide)

def escape (c : Char) : List Char :=
  match escapes.find? (fun e => e.2 = c) with
  | some e => ['\\', e.1]
  | none => [c]

theorem quoted_escape {quote : Char} (hq : quote = '"' ∨ quote = '\'') (text : List Char) :
    Quoted quote (text.flatMap escape) text := by
  induction text with
  | nil => exact .nil
  | cons c text ih =>
    rw [List.flatMap_cons, escape]
    cases hf : escapes.find? (fun e => e.2 = c) with
    | some e =>
      obtain rfl : e.2 = c := by simpa using List.find?_some hf
      exact .escape (List.mem_of_find?_eq_some hf) ih
    | none =>
      have hne : ∀ e ∈ escapes, c ≠ e.2 := by
        intro e he heq
        simpa [heq] using List.find?_eq_none.mp hf e he
      have hquote : c ≠ quote := by
        rcases hq with rfl | rfl
        · exact hne ('"', '"') (by decide)
        · exact hne ('\'', '\'') (by decide)
      exact .plain hquote (hne ('\\', '\\') (by decide)) (hne ('n', '\n') (by decide)) ih

theorem Spelling.of_quote {quote : Char} (hq : quote = '"' ∨ quote = '\'') (text : String) :
    Spelling (quote :: (text.toList.flatMap escape ++ [quote])) ⟨.string, text⟩ := by
  have h := Spelling.string hq (quoted_escape hq text.toList)
  rwa [String.ofList_toList] at h

def isName (s : String) : Bool :=
  match s.toList with
  | [] => false
  | c :: cs => isNameStart c && cs.all isNameChar

theorem Spelling.of_isName {s : String} (h : isName s = true) : Spelling s.toList ⟨.name, s⟩ := by
  unfold isName at h
  split at h
  · cases h
  · rename_i c cs hs
    obtain ⟨hc, hcs⟩ := Bool.and_eq_true_iff.mp h
    have hspell := Spelling.name hc (List.all_eq_true.mp hcs)
    rwa [← hs, String.ofList_toList] at hspell

/-- How the text of a token that carries data is written. -/
def Kind.SpelledAs (text : String) (cs : List Char) : Kind → Prop
  | name => cs = text.toList ∧ isName text = true
  | number => cs = text.toList ∧ cs ≠ [] ∧ ∀ d ∈ cs, d.isDigit = true
  | string => ∃ quote inner, (quote = '"' ∨ quote = '\'') ∧ cs = quote :: (inner ++ [quote]) ∧
    Quoted quote inner text.toList
  | _ => True

theorem Spelling.spelledAs {cs : List Char} {l : Lexeme} (h : Spelling cs l) :
    l.kind.SpelledAs l.text cs := by
  cases h with
  | @name c cs hc hcs =>
    refine ⟨String.toList_ofList.symm, ?_⟩
    rw [isName, String.toList_ofList]
    exact Bool.and_eq_true_iff.mpr ⟨hc, List.all_eq_true.mpr hcs⟩
  | @number c cs hd => exact ⟨String.toList_ofList.symm, List.cons_ne_nil c cs, hd⟩
  | @mark c kind hm =>
    have hmarks : ∀ m ∈ marks, m.2 ≠ .name ∧ m.2 ≠ .number ∧ m.2 ≠ .string := by decide
    obtain ⟨hname, hnumber, hstring⟩ := hmarks _ hm
    cases kind with
    | name => exact absurd rfl hname
    | number => exact absurd rfl hnumber
    | string => exact absurd rfl hstring
    | _ => trivial
  | arrow => trivial
  | @string quote inner text hq hquoted =>
    exact ⟨quote, inner, hq, rfl, by rwa [String.toList_ofList]⟩

end Netlab
