import Mathlib.Data.List.DropRight
import Netlab.Proofs.Numbers
import Netlab.Proofs.Splitting
import Netlab.Proofs.ViablePrefix

namespace Netlab

namespace Position

def lineOf (cs : List Char) (number : Nat) : List Char :=
  (Text.split '\n' cs).getD (number - 1) []

/-- A place in a text is on one of its lines, at a character of the line or right behind the last
one. -/
structure Within (cs : List Char) (p : Position) : Prop where
  one_le_line : 1 ≤ p.line
  line_le : p.line ≤ 1 + cs.count '\n'
  one_le_column : 1 ≤ p.column
  column_le : p.column ≤ 1 + (lineOf cs p.line).length

theorem start_afterAll (cs : List Char) :
    start.afterAll cs = ⟨1 + cs.count '\n', 1 + (cs.rtakeWhile (· ≠ '\n')).length⟩ := by
  induction cs using List.reverseRecOn with
  | nil => rfl
  | append_singleton cs c ih =>
    have hstep : start.afterAll (cs ++ [c]) = (start.afterAll cs).after c := by
      rw [afterAll_append, afterAll_cons, afterAll_nil]
    rw [hstep, ih, after]
    by_cases hc : c = '\n'
    · rw [if_pos hc, List.rtakeWhile_concat_neg _ _ _ (by simp [hc])]
      simp [hc, Nat.add_assoc]
    · rw [if_neg hc, List.rtakeWhile_concat_pos _ _ _ (by simp [hc])]
      simp [hc, Nat.add_assoc]

/-- The lines from the one on that a text has come to: it is made of what the text has of it and of
the first line of the rest. -/
theorem drop_split {cs rest line : List Char} {lines : List (List Char)}
    (h : Text.split '\n' rest = line :: lines) :
    (Text.split '\n' (cs ++ rest)).drop (cs.count '\n') =
      (cs.rtakeWhile (· ≠ '\n') ++ line) :: lines := by
  induction cs using List.reverseRecOn generalizing rest line lines with
  | nil => simpa using h
  | append_singleton cs c ih =>
    rw [List.append_assoc, List.singleton_append]
    by_cases hc : c = '\n'
    · have hsplit : Text.split '\n' (c :: rest) = [] :: line :: lines := by
        rw [Text.split, if_pos hc, h]
      have hdrop := congrArg List.tail (ih hsplit)
      rw [List.rtakeWhile_concat_neg _ _ _ (by simp [hc])]
      simpa [hc] using hdrop
    · have hsplit : Text.split '\n' (c :: rest) = (c :: line) :: lines := by
        rw [Text.split, if_neg hc, h]
      rw [List.rtakeWhile_concat_pos _ _ _ (by simp [hc])]
      simpa [hc] using ih hsplit

theorem lineOf_append (cs rest : List Char) :
    cs.rtakeWhile (· ≠ '\n') <+: lineOf (cs ++ rest) (1 + cs.count '\n') := by
  obtain ⟨line, lines, h⟩ := List.exists_cons_of_ne_nil (Text.split_ne_nil '\n' rest)
  have hget : (Text.split '\n' (cs ++ rest))[cs.count '\n']? =
      some (cs.rtakeWhile (· ≠ '\n') ++ line) := by
    rw [← List.head?_drop, drop_split h, List.head?_cons]
  rw [lineOf, Nat.add_sub_cancel_left, List.getD_eq_getElem?_getD, hget]
  exact List.prefix_append _ _

theorem within_afterAll (cs rest : List Char) : Within (cs ++ rest) (start.afterAll cs) := by
  rw [start_afterAll]
  refine ⟨Nat.le_add_right _ _, ?_, Nat.le_add_right _ _, ?_⟩
  · rw [List.count_append]
    exact Nat.add_le_add_left (Nat.le_add_right _ _) 1
  · exact Nat.add_le_add_left (lineOf_append cs rest).length_le 1

end Position

def LexFault.escapedLineFeed : LexFault := .unknownEscape '\n'

/-- The place of a fault in a text that starts at `p`. It is that of a character or the end, but a line
feed behind a backslash is reported in front of the line that it starts. -/
def LexFault.PlacedIn (p : Position) (cs : List Char) (e : LexError) : Prop :=
  (∃ read rest, cs = read ++ rest ∧ e.pos = p.afterAll read ∧ e.cause ≠ escapedLineFeed) ∨
    ∃ read rest, cs = read ++ '\\' :: '\n' :: rest ∧
      e = ⟨⟨(p.afterAll read).line + 1, 0⟩, escapedLineFeed⟩

open LexFault (PlacedIn escapedLineFeed)

theorem LexFault.PlacedIn.append {p : Position} {cs : List Char} {e : LexError} (read : List Char)
    (h : PlacedIn (p.afterAll read) cs e) : PlacedIn p (read ++ cs) e := by
  obtain ⟨more, rest, rfl, he, hc⟩ | ⟨more, rest, rfl, he⟩ := h
  · refine .inl ⟨read ++ more, rest, (List.append_assoc ..).symm, ?_, hc⟩
    rw [he, Position.afterAll_append]
  · refine .inr ⟨read ++ more, rest, (List.append_assoc ..).symm, ?_⟩
    rw [he, Position.afterAll_append]

namespace Cursor

theorem before_eq_error {c : Char} {r : Except LexError (List Char) × Cursor} {e : LexError}
    {k : Cursor} (h : before c r = (.error e, k)) : r = (.error e, k) := by
  obtain ⟨result, after⟩ := r
  cases result with
  | error e' => simpa [before, Except.map] using h
  | ok text => simp [before, Except.map] at h

theorem placedIn_unknownEscape (p : Position) (c : Char) (cs : List Char) :
    PlacedIn p ('\\' :: c :: cs)
      ⟨⟨((p.after '\\').after c).line, ((p.after '\\').after c).column - 1⟩, .unknownEscape c⟩ := by
  by_cases hc : c = '\n'
  · subst hc
    exact .inr ⟨[], cs, rfl, by simp [Position.after, escapedLineFeed]⟩
  · exact .inl ⟨['\\'], c :: cs, rfl, by simp [Position.after, hc], by simp [escapedLineFeed, hc]⟩

theorem quoted_fault {quote : Char} {opening p : Position} {cs : List Char} {e : LexError} {k : Cursor}
    (h : quoted quote opening cs p = (.error e, k)) :
    e.pos = opening ∧ e.cause ≠ escapedLineFeed ∨ PlacedIn p cs e := by
  fun_induction quoted quote opening cs p with
  | case1 | case3 | case6 =>
    cases h
    exact .inl ⟨rfl, by simp [escapedLineFeed]⟩
  | case2 => cases h
  | case4 p c cs _ _ _ =>
    cases h
    exact .inr (placedIn_unknownEscape p c cs)
  | case5 p c cs _ _ _ ih =>
    exact (ih (before_eq_error h)).imp_right fun hp => hp.append ['\\', c]
  | case7 c cs p _ _ _ ih =>
    exact (ih (before_eq_error h)).imp_right fun hp => hp.append [c]

theorem lexeme_fault {p : Position} {c : Char} {cs : List Char} {e : LexError} {k : Cursor}
    (h : lexeme p c cs = (.error e, k)) : PlacedIn p (c :: cs) e := by
  have hstart : e.pos = p ∧ e.cause ≠ escapedLineFeed → PlacedIn p (c :: cs) e :=
    fun he => .inl ⟨[], c :: cs, rfl, he⟩
  unfold lexeme at h
  split at h
  · cases h
  · split at h
    · unfold dash at h
      split at h
      · cases h
      · cases h
        exact hstart ⟨rfl, by simp [escapedLineFeed]⟩
    · split at h
      · cases hr : quoted c p cs (p.after c) with
        | mk result after =>
          rw [hr] at h
          cases result with
          | ok text => cases h
          | error e' =>
            cases h
            exact (quoted_fault hr).elim hstart fun hp => hp.append [c]
      · split at h
        · simp only [number] at h
          split at h
          · cases h
            exact hstart ⟨rfl, by simp [escapedLineFeed]⟩
          · cases h
        · split at h
          · cases h
          · cases h
            exact hstart ⟨rfl, by simp [escapedLineFeed]⟩

theorem next_fault {p : Position} {cs : List Char} {e : LexError} {k : Cursor}
    (h : next ⟨cs, p⟩ = (.error e, k)) : PlacedIn p cs e := by
  obtain ⟨gap, rest, rfl, hg, hr⟩ := exists_trivia cs
  rw [next, skipTrivia_eq hg hr] at h
  cases rest with
  | nil => cases h
  | cons c rest =>
    cases hl : lexeme (p.afterAll gap) c rest with
    | mk result after =>
      simp only [hl] at h
      cases result with
      | ok l => cases h
      | error e' =>
        cases h
        exact (lexeme_fault hl).append

theorem tokens_fault (cursor : Cursor) {e : LexError} (h : cursor.tokens = .error e) :
    PlacedIn cursor.pos cursor.rest e := by
  fun_induction tokens cursor with
  | case1 cursor e' k hn =>
    cases h
    exact next_fault hn
  | case2 => cases h
  | case3 cursor t rest hn hk _ ih =>
    obtain ⟨-, rfl, -⟩ | ⟨gap, spelling, rest, l, he, -, -, -, rfl, rfl⟩ := next_eq_ok.mp hn
    · exact absurd rfl hk
    · cases hr : tokens ⟨rest, (cursor.pos.afterAll gap).afterAll spelling⟩ with
      | ok us =>
        rw [hr] at h
        cases h
      | error e' =>
        rw [hr] at h
        cases h
        rw [he]
        exact (ih hr).append.append

end Cursor

theorem Lexed.exists_afterAll {p : Position} {cs : List Char} {ts : List Token} (h : Lexed p cs ts) :
    ∀ t ∈ ts, ∃ read rest, cs = read ++ rest ∧ t.pos = p.afterAll read := by
  induction h with
  | @done p gap => exact List.forall_mem_singleton.mpr ⟨gap, [], by simp, rfl⟩
  | @token p gap spelling rest _ _ _ _ _ _ ih =>
    refine List.forall_mem_cons.mpr ⟨⟨gap, spelling ++ rest, rfl, rfl⟩, fun t ht => ?_⟩
    obtain ⟨read, rest, rfl, ht⟩ := ih t ht
    refine ⟨gap ++ (spelling ++ read), rest, by simp, ?_⟩
    rw [ht, Position.afterAll_append, Position.afterAll_append]

theorem Stream.ofTokens_snoc {ts : List Token} (h : ∀ t ∈ ts, t.kind ≠ .eof) {stop : Token}
    (hstop : stop.kind = .eof) : Stream.ofTokens (ts ++ [stop]) = ⟨ts, stop.pos⟩ := by
  have ha : (ts ++ [stop]).takeWhile (fun t => t.kind ≠ .eof) = ts :=
    Lists.takeWhile_append (by simpa using h) (by simpa using hstop)
  have hf : (ts ++ [stop]).find? (fun t => t.kind = .eof) = some stop := by
    rw [List.find?_append, List.find?_eq_none.mpr (by simpa using h)]
    simp [hstop]
  simp only [Stream.ofTokens, ha, hf]

theorem Tree.ofTokens_fault {ts : List Token} (h : ∀ t ∈ ts, t.kind ≠ .eof) {stop : Token}
    (hstop : stop.kind = .eof) {e : ParseError} (he : Tree.ofTokens (ts ++ [stop]) = .error e) :
    ∃ t ∈ ts ++ [stop], e.pos = t.pos := by
  rw [Tree.ofTokens, Stream.ofTokens_snoc h hstop] at he
  have hend : e.pos = stop.pos → ∃ t ∈ ts ++ [stop], e.pos = t.pos := fun hp =>
    ⟨stop, List.mem_append_right ts List.mem_cons_self, hp⟩
  obtain hf | ⟨-, hp⟩ := Stream.parse_eq_error he
  · obtain ⟨read, rest, hr, hp, -⟩ := Stream.statements_refuses _ hf
    cases rest with
    | nil => exact hend hp
    | cons t rest =>
      have ht : t ∈ ts := by
        change ts = read ++ t :: rest at hr
        simp [hr]
      exact ⟨t, List.mem_append_left _ ht, hp⟩
  · exact hend hp

theorem NumberFault.exists_pos {ts : List Token} {e : ParseError} (h : NumberFault ts e) :
    ∃ t ∈ ts, e.pos = t.pos := by
  obtain ⟨t, ht, -, he⟩ := h
  refine ⟨t, ht, ?_⟩
  unfold Token.int at he
  split at he
  · cases he
  · cases he
    rfl

theorem Lexed.within {s : List Char} {ts : List Token} (h : Lexed .start s ts) {p : Position}
    (hp : ∃ t ∈ ts, p = t.pos) : p.Within s := by
  obtain ⟨t, ht, rfl⟩ := hp
  obtain ⟨read, rest, rfl, hp⟩ := h.exists_afterAll t ht
  rw [hp]
  exact Position.within_afterAll read rest

namespace Program

theorem ofText_parse_fault {s : String} {e : ParseError} (h : Program.ofText s = .error (.parse e)) :
    e.pos.Within s.toList := by
  obtain ⟨d, -, hp⟩ | ⟨ts, stop, hl, hts, hcase⟩ := Program.ofText_cases s
  · cases h.symm.trans hp
  · apply (Token.ofText_eq_ok.mp hl).within
    obtain ⟨d, ht, hp⟩ | ⟨trees, ht, ⟨d, hd, hp⟩ | ⟨p, -, hp⟩⟩ := hcase
    · cases h.symm.trans hp
      apply Tree.ofTokens_fault _ rfl ht
      exact fun t hm => (hts t hm).ne_eof
    · cases h.symm.trans hp
      obtain ⟨t, hm, hpos⟩ := hd.exists_pos
      exact ⟨t, List.mem_append_left _ hm, hpos⟩
    · cases h.symm.trans hp

theorem ofText_lexical_fault {s : String} {e : LexError} (h : Program.ofText s = .error (.lexical e)) :
    PlacedIn .start s.toList e := by
  obtain ⟨d, hd, hp⟩ | ⟨ts, stop, -, -, hcase⟩ := Program.ofText_cases s
  · cases h.symm.trans hp
    exact Cursor.tokens_fault (Cursor.ofText s) hd
  · obtain ⟨d, ht, hp⟩ | ⟨trees, -, ⟨d, hd, hp⟩ | ⟨p, -, hp⟩⟩ := hcase <;> cases h.symm.trans hp

/-- A text that is not read is reported at a line and a column of it. The one column that does not
exist is column zero, which is reported for a line feed behind a backslash and for no other fault. -/
theorem ofText_fault_placed {s : String} {e : Error} (h : Program.ofText s = .error e) :
    e.isSyntax = true ∧ ∃ p, e.position? = some p ∧
      1 ≤ p.line ∧ p.line ≤ 1 + s.toList.count '\n' ∧
      p.column ≤ 1 + (Position.lineOf s.toList p.line).length ∧
      (p.column = 0 ↔ e = .lexical ⟨p, .unknownEscape '\n'⟩) := by
  cases e with
  | lexical e =>
    refine ⟨rfl, e.pos, rfl, ?_⟩
    obtain ⟨read, rest, hs, hp, hc⟩ | ⟨read, rest, hs, rfl⟩ := ofText_lexical_fault h
    · have hw := Position.within_afterAll read rest
      rw [← hs, ← hp] at hw
      refine ⟨hw.one_le_line, hw.line_le, hw.column_le, ?_⟩
      have hcolumn := hw.one_le_column
      constructor
      · intro hz
        omega
      · intro he
        cases e
        cases he
        exact absurd rfl hc
    · have hline : (Position.start.afterAll read).line = 1 + read.count '\n' := by
        rw [Position.start_afterAll]
      have hcount : s.toList.count '\n' = read.count '\n' + (rest.count '\n' + 1) := by
        simp [hs]
      simp only [hline, hcount]
      refine ⟨by omega, by omega, by omega, ?_⟩
      exact iff_of_true trivial rfl
  | parse e =>
    have hw := ofText_parse_fault h
    have hcolumn := hw.one_le_column
    refine ⟨rfl, e.pos, rfl, hw.one_le_line, hw.line_le, hw.column_le, ?_⟩
    constructor
    · intro hz
      omega
    · intro he
      cases he
  | exhausted | projection | config | unreadable | unwritable => cases ofText_isSyntax h

theorem ofText_fault_placed_unknownEscape :
    Program.ofText "up\n'a\\b'" = .error (.lexical ⟨⟨2, 4⟩, .unknownEscape 'b'⟩) ∧
      Position.Within "up\n'a\\b'".toList ⟨2, 4⟩ := by
  have h : Program.ofText "up\n'a\\b'" = .error (.lexical ⟨⟨2, 4⟩, .unknownEscape 'b'⟩) := by
    decide +kernel
  obtain ⟨-, p, hp, hone, hline, hcolumn, hzero⟩ := ofText_fault_placed h
  cases hp
  refine ⟨h, hone, hline, ?_, hcolumn⟩
  exact Nat.one_le_iff_ne_zero.mpr fun hz => absurd (hzero.mp hz) (by decide)

/-- The text `"\` and a line feed has no column zero on its second line. -/
theorem ofText_escapedLineFeed_misplaced :
    Program.ofText "\"\\\n" = .error (.lexical ⟨⟨2, 0⟩, .unknownEscape '\n'⟩) ∧
      ¬Position.Within "\"\\\n".toList ⟨2, 0⟩ := by
  refine ⟨by decide +kernel, fun h => ?_⟩
  exact absurd h.one_le_column (by decide)

end Program

end Netlab
