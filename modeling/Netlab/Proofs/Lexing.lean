import Netlab.Proofs.Lists
import Netlab.Proofs.Spelling

namespace Netlab

theorem exists_trivia (cs : List Char) :
    ∃ gap rest, cs = gap ++ rest ∧ Trivia rest gap ∧ Solid rest := by
  -- A comment is passed over as a whole, so the induction is on the length of the text.
  induction hn : cs.length using Nat.strongRecOn generalizing cs with
  | ind n ih =>
    subst hn
    cases cs with
    | nil => exact ⟨[], [], rfl, .nil, by simp [Solid]⟩
    | cons c cs =>
      by_cases hb : Text.isBlank c = true
      · obtain ⟨gap, rest, he, ht, hr⟩ := ih cs.length (Nat.lt_succ_self _) cs rfl
        exact ⟨c :: gap, rest, by rw [he, List.cons_append], .blank hb ht, hr⟩
      · by_cases hc : c = '#'
        · subst hc
          have hlen : (cs.dropWhile (· ≠ '\n')).length < ('#' :: cs).length :=
            Nat.lt_succ_of_le (List.dropWhile_suffix _).length_le
          obtain ⟨gap, rest, he, ht, hr⟩ := ih _ hlen _ rfl
          refine ⟨'#' :: (cs.takeWhile (· ≠ '\n') ++ gap), rest, ?_, .comment ?_ ?_ ht, hr⟩
          · rw [List.cons_append, List.append_assoc, ← he, List.takeWhile_append_dropWhile]
          · intro hm
            simpa using List.mem_takeWhile_imp hm
          · intro d hd
            rw [← he] at hd
            simpa using Lists.head?_dropWhile hd
        · refine ⟨[], c :: cs, rfl, .nil, ?_⟩
          rintro _ ⟨⟩
          exact ⟨by simpa using hb, hc⟩

namespace Cursor

theorem skip_comment {body cs : List Char} (hb : '\n' ∉ body)
    (hend : ∀ c, cs.head? = some c → c = '\n') (p : Position) :
    skip true (body ++ cs) p = skip false cs (p.afterAll body) := by
  induction body generalizing p with
  | nil =>
    cases cs with
    | nil => rfl
    | cons c cs =>
      have hblank : Text.isBlank '\n' = true := by decide
      rw [hend c rfl]
      simp [skip, hblank]
  | cons b body ih =>
    obtain ⟨hne, hnot⟩ := not_or.mp (List.mem_cons.not.mp hb)
    have hstep : skip true (b :: (body ++ cs)) p = skip true (body ++ cs) (p.after b) := by
      simp [skip, Ne.symm hne]
    rw [List.cons_append, hstep, ih hnot, Position.afterAll_cons]

theorem skip_trivia {gap rest : List Char} (h : Trivia rest gap) (p : Position) :
    skip false (gap ++ rest) p = skip false rest (p.afterAll gap) := by
  induction h generalizing p with
  | nil => rfl
  | blank hc _ ih => simp [skip, hc, ih]
  | @comment body cs hb hend _ ih =>
    have hblank : Text.isBlank '#' = false := by decide
    have hstep : skip false ('#' :: (body ++ cs ++ rest)) p =
        skip true (body ++ (cs ++ rest)) (p.after '#') := by
      simp [skip, hblank]
    rw [List.cons_append, hstep, skip_comment hb hend, ih, Position.afterAll_cons,
      Position.afterAll_append]

theorem skip_solid {cs : List Char} (h : Solid cs) (p : Position) : skip false cs p = ⟨cs, p⟩ := by
  cases cs with
  | nil => rfl
  | cons c cs =>
    obtain ⟨hb, hc⟩ := h c rfl
    simp [skip, hb, hc]

theorem skipTrivia_eq {gap rest : List Char} (h : Trivia rest gap) (hr : Solid rest) (p : Position) :
    skipTrivia ⟨gap ++ rest, p⟩ = ⟨rest, p.afterAll gap⟩ := by
  rw [skipTrivia, skip_trivia h, skip_solid hr]

section

variable {quote : Char} {opening : Position}

/-- What stands behind a part that is written as it should be decides how a string goes on. -/
theorem quoted_append (hq : quote = '"' ∨ quote = '\'') {cs text : List Char}
    (h : Quoted quote cs text) (rest : List Char) (p : Position) :
    quoted quote opening (cs ++ rest) p =
      ((quoted quote opening rest (p.afterAll cs)).1.map (text ++ ·),
        (quoted quote opening rest (p.afterAll cs)).2) := by
  have hslash : '\\' ≠ quote := by rcases hq with rfl | rfl <;> decide
  have hbefore : ∀ (c : Char) (text : List Char) (r : Except LexError (List Char) × Cursor),
      before c (r.1.map (text ++ ·), r.2) = (r.1.map (c :: text ++ ·), r.2) := by
    rintro c text ⟨_ | _, _⟩ <;> rfl
  induction h generalizing p with
  | nil =>
    rw [List.nil_append, Position.afterAll_nil]
    generalize quoted quote opening rest p = r
    obtain ⟨_ | _, _⟩ := r <;> rfl
  | @plain c cs text hne hb hn _ ih =>
    have hstep : quoted quote opening (c :: (cs ++ rest)) p =
        before c (quoted quote opening (cs ++ rest) (p.after c)) := by
      rw [quoted.eq_def]
      simp only [if_neg hne, if_neg hb, if_neg hn]
    rw [List.cons_append, hstep, ih, hbefore, Position.afterAll_cons]
  | @escape e c cs text he _ ih =>
    have hstep : quoted quote opening ('\\' :: e :: (cs ++ rest)) p =
        before c (quoted quote opening (cs ++ rest) ((p.after '\\').after e)) := by
      rw [quoted.eq_def]
      simp [hslash, unescape?_eq_some.mpr he]
    rw [List.cons_append, List.cons_append, hstep, ih, hbefore, Position.afterAll_cons,
      Position.afterAll_cons]

theorem quoted_accepts (hq : quote = '"' ∨ quote = '\'') {cs text : List Char}
    (h : Quoted quote cs text) (rest : List Char) (p : Position) :
    quoted quote opening (cs ++ quote :: rest) p = (.ok text, ⟨rest, p.afterAll (cs ++ [quote])⟩) := by
  have hend : ∀ p, quoted quote opening (quote :: rest) p = (.ok [], ⟨rest, p.after quote⟩) := by
    intro p
    simp [quoted.eq_def]
  rw [quoted_append hq h, hend, Position.afterAll_append]
  simp [Except.map]

theorem before_eq_ok {c : Char} {r : Except LexError (List Char) × Cursor} {text : List Char}
    {k : Cursor} : before c r = (.ok text, k) ↔ ∃ tail, r = (.ok tail, k) ∧ text = c :: tail := by
  obtain ⟨result, after⟩ := r
  cases result with
  | error e => simp [before, Except.map]
  | ok tail =>
    simp only [before, Except.map, Prod.mk.injEq, Except.ok.injEq]
    constructor
    · rintro ⟨rfl, rfl⟩
      exact ⟨tail, ⟨rfl, rfl⟩, rfl⟩
    · rintro ⟨_, ⟨rfl, rfl⟩, rfl⟩
      exact ⟨rfl, rfl⟩

theorem quoted_inverts {cs text : List Char} {p : Position} {k : Cursor}
    (h : quoted quote opening cs p = (.ok text, k)) :
    ∃ written rest, cs = written ++ quote :: rest ∧ Quoted quote written text ∧
      k = ⟨rest, p.afterAll (written ++ [quote])⟩ := by
  fun_induction quoted quote opening cs p generalizing text with
  | case1 | case3 | case4 | case6 => cases h
  | case2 cs p =>
    cases h
    exact ⟨[], cs, rfl, .nil, rfl⟩
  | case5 p e cs d he hq ih =>
    obtain ⟨tail, hr, rfl⟩ := before_eq_ok.mp h
    obtain ⟨written, rest, rfl, hw, rfl⟩ := ih hr
    exact ⟨'\\' :: e :: written, rest, rfl, .escape (unescape?_eq_some.mp he) hw, rfl⟩
  | case7 c cs p hq hb hn ih =>
    obtain ⟨tail, hr, rfl⟩ := before_eq_ok.mp h
    obtain ⟨written, rest, rfl, hw, rfl⟩ := ih hr
    exact ⟨c :: written, rest, rfl, .plain hq hb hn hw, rfl⟩

end

theorem span_append {keep : Char → Bool} {cs rest : List Char} (h : ∀ c ∈ cs, keep c = true)
    (hr : ∀ c, rest.head? = some c → keep c = false) (p : Position) :
    span keep (cs ++ rest) p = (String.ofList cs, ⟨rest, p.afterAll cs⟩) := by
  rw [span, Lists.takeWhile_append h hr, Lists.dropWhile_append h hr]

section

variable {cs rest : List Char} {l : Lexeme}

theorem apart_of_kind (hn : l.kind ≠ .name) (hd : l.kind ≠ .number) : Apart l rest := by
  rintro (hk | hk)
  · exact absurd hk hn
  · exact absurd hk hd

theorem lexeme_name {c : Char} (hc : isNameStart c = true) (cs : List Char) (p : Position) :
    lexeme p c cs = word (c :: cs) p := by
  have hn := isNameChar_of_isNameStart hc
  have hq : ¬(c = '"' ∨ c = '\'') :=
    not_or.mpr ⟨ne_of_isNameChar hn (by decide), ne_of_isNameChar hn (by decide)⟩
  have hdash : c ≠ '-' := ne_of_isNameChar hn (by decide)
  simp only [lexeme, ofMark?_of_isNameChar hn, if_neg hdash, if_neg hq, isDigit_of_isNameStart hc,
    Bool.false_eq_true, if_false, hc, if_true]

theorem lexeme_digit {c : Char} (hc : c.isDigit = true) (cs : List Char) (p : Position) :
    lexeme p c cs = number (c :: cs) p := by
  have hn := isNameChar_of_isDigit hc
  have hq : ¬(c = '"' ∨ c = '\'') :=
    not_or.mpr ⟨ne_of_isNameChar hn (by decide), ne_of_isNameChar hn (by decide)⟩
  have hdash : c ≠ '-' := ne_of_isNameChar hn (by decide)
  simp only [lexeme, ofMark?_of_isNameChar hn, if_neg hdash, if_neg hq, hc, if_true]

theorem lexeme_quote {quote : Char} (hq : quote = '"' ∨ quote = '\'') (cs : List Char) (p : Position) :
    lexeme p quote cs =
      ((quoted quote p cs (p.after quote)).1.map fun text => ⟨.string, String.ofList text⟩,
        (quoted quote p cs (p.after quote)).2) := by
  have hmark : Kind.ofMark? quote = none := by rcases hq with rfl | rfl <;> decide
  have hdash : quote ≠ '-' := by rcases hq with rfl | rfl <;> decide
  simp only [lexeme, hmark, if_neg hdash, if_pos hq]

/-- A lexeme is read as far as it is spelled. -/
theorem lexeme_accepts (h : Spelling cs l) (ha : Apart l rest) (p : Position) :
    ∃ c ds, cs = c :: ds ∧ lexeme p c (ds ++ rest) = (.ok l, ⟨rest, p.afterAll cs⟩) := by
  cases h with
  | @name c ds hc hds =>
    refine ⟨c, ds, rfl, ?_⟩
    have hall : ∀ d ∈ c :: ds, isNameChar d = true :=
      List.forall_mem_cons.mpr ⟨isNameChar_of_isNameStart hc, hds⟩
    rw [lexeme_name hc, word, ← List.cons_append, span_append hall (ha (.inl rfl))]
  | @number c ds hds =>
    refine ⟨c, ds, rfl, ?_⟩
    have hr := ha (.inr rfl)
    have hdigit : ∀ d, rest.head? = some d → d.isDigit = false := by
      intro d hd
      rw [Bool.eq_false_iff]
      intro hdd
      exact absurd (isNameChar_of_isDigit hdd) (by simp [hr d hd])
    have hany : rest.head?.any isNameChar = false := by
      cases hh : rest.head? with
      | none => rfl
      | some d => exact hr d hh
    rw [lexeme_digit (hds c List.mem_cons_self), number, ← List.cons_append, span_append hds hdigit]
    simp [hany]
  | @mark c kind hm =>
    refine ⟨c, [], rfl, ?_⟩
    simp [lexeme, ofMark?_eq_some.mpr hm]
  | arrow => exact ⟨'-', ['>'], rfl, rfl⟩
  | @string quote ds text hq hd =>
    refine ⟨quote, ds ++ [quote], rfl, ?_⟩
    rw [List.append_assoc, List.singleton_append, lexeme_quote hq, quoted_accepts hq hd,
      Position.afterAll_cons]
    rfl

theorem dash_inverts {p : Position} {k : Cursor} (h : dash p cs = (.ok l, k)) :
    ∃ rest, cs = '>' :: rest ∧ l = ⟨.arrow, "->"⟩ ∧ k = ⟨rest, p.afterAll ['-', '>']⟩ := by
  unfold dash at h
  split at h
  · cases h
    exact ⟨_, rfl, rfl, rfl⟩
  · cases h

theorem span_cons {keep : Char → Bool} {c : Char} (hc : keep c = true) (cs : List Char)
    (p : Position) :
    ∃ run rest, cs = run ++ rest ∧ (∀ d ∈ c :: run, keep d = true) ∧
      (∀ d, rest.head? = some d → keep d = false) ∧
      span keep (c :: cs) p = (String.ofList (c :: run), ⟨rest, p.afterAll (c :: run)⟩) := by
  refine ⟨cs.takeWhile keep, cs.dropWhile keep, List.takeWhile_append_dropWhile.symm, ?_,
    fun _ hd => Lists.head?_dropWhile hd, ?_⟩
  · exact List.forall_mem_cons.mpr ⟨hc, fun _ hd => List.mem_takeWhile_imp hd⟩
  · rw [span, List.takeWhile_cons_of_pos hc, List.dropWhile_cons_of_pos hc]

theorem lexeme_inverts {p : Position} {c : Char} {k : Cursor} (h : lexeme p c cs = (.ok l, k)) :
    ∃ spelling rest, c :: cs = spelling ++ rest ∧ Spelling spelling l ∧ Apart l rest ∧
      k = ⟨rest, p.afterAll spelling⟩ := by
  unfold lexeme at h
  split at h
  · rename_i kind hm
    cases h
    have hmark := ofMark?_eq_some.mp hm
    have hmarks : ∀ m ∈ marks, m.2 ≠ .name ∧ m.2 ≠ .number := by decide
    exact ⟨[c], cs, rfl, .mark hmark, apart_of_kind (hmarks _ hmark).1 (hmarks _ hmark).2, rfl⟩
  · split at h
    · rename_i hc
      subst hc
      obtain ⟨rest, rfl, rfl, rfl⟩ := dash_inverts h
      exact ⟨['-', '>'], rest, rfl, .arrow, apart_of_kind (by decide) (by decide), rfl⟩
    · split at h
      · rename_i hq
        cases hr : quoted c p cs (p.after c) with
        | mk result after =>
          rw [hr] at h
          cases result with
          | error e => cases h
          | ok text =>
            cases h
            obtain ⟨written, rest, rfl, hw, rfl⟩ := quoted_inverts hr
            exact ⟨c :: (written ++ [c]), rest, by simp, .string hq hw,
              apart_of_kind (by simp) (by simp), rfl⟩
      · split at h
        · rename_i hd
          obtain ⟨run, rest, rfl, hrun, -, hs⟩ := span_cons hd cs p
          simp only [number, hs] at h
          split at h
          · cases h
          · rename_i hany
            cases h
            refine ⟨c :: run, rest, rfl, .number hrun, ?_, rfl⟩
            intro _ d hd
            simpa [hd] using hany
        · split at h
          · rename_i hn
            obtain ⟨run, rest, rfl, hrun, hrest, hs⟩ := span_cons (isNameChar_of_isNameStart hn) cs p
            simp only [word, hs] at h
            cases h
            exact ⟨c :: run, rest, rfl, .name hn (List.forall_mem_cons.mp hrun).2, fun _ => hrest, rfl⟩
          · cases h

end

/-- Reading a token passes over blanks and comments and takes one spelled lexeme. -/
theorem next_eq_ok {cs : List Char} {p : Position} {t : Token} {k : Cursor} :
    next ⟨cs, p⟩ = (.ok t, k) ↔
      (Trivia [] cs ∧ t = ⟨⟨.eof, ""⟩, p.afterAll cs⟩ ∧ k = ⟨[], p.afterAll cs⟩) ∨
      ∃ gap spelling rest l, cs = gap ++ (spelling ++ rest) ∧ Trivia (spelling ++ rest) gap ∧
        Spelling spelling l ∧ Apart l rest ∧ t = ⟨l, p.afterAll gap⟩ ∧
        k = ⟨rest, (p.afterAll gap).afterAll spelling⟩ := by
  constructor
  · intro h
    obtain ⟨gap, rest, rfl, hg, hr⟩ := exists_trivia cs
    rw [next, skipTrivia_eq hg hr] at h
    cases rest with
    | nil =>
      cases h
      exact .inl ⟨by simpa using hg, by simp, by simp⟩
    | cons c rest =>
      cases hl : lexeme (p.afterAll gap) c rest with
      | mk result after =>
        simp only [hl] at h
        cases result with
        | error e => cases h
        | ok l =>
          cases h
          obtain ⟨spelling, rest', he, hs, ha, rfl⟩ := lexeme_inverts hl
          rw [he] at hg ⊢
          exact .inr ⟨gap, spelling, rest', l, rfl, hg, hs, ha, rfl, rfl⟩
  · rintro (⟨hg, rfl, rfl⟩ | ⟨gap, spelling, rest, l, rfl, hg, hs, ha, rfl, rfl⟩)
    · have hskip := skipTrivia_eq hg (by simp [Solid]) p
      rw [List.append_nil] at hskip
      rw [next, hskip]
    · obtain ⟨c, ds, rfl, hl⟩ := lexeme_accepts hs ha (p.afterAll gap)
      rw [next, skipTrivia_eq hg (hs.solid rest), List.cons_append]
      simp only [hl]
      rfl

theorem tokens_of_error {cursor k : Cursor} {e : LexError} (h : cursor.next = (.error e, k)) :
    cursor.tokens = .error e := by
  rw [tokens]
  split
  · rename_i he
    rw [h] at he
    cases he
    rfl
  · rename_i hok
    rw [h] at hok
    cases hok

theorem tokens_of_eof {cursor k : Cursor} {t : Token} (h : cursor.next = (.ok t, k))
    (ht : t.kind = .eof) : cursor.tokens = .ok [t] := by
  rw [tokens]
  split
  · rename_i he
    rw [h] at he
    cases he
  · rename_i hok
    rw [h] at hok
    cases hok
    rw [dif_pos ht]

theorem tokens_of_token {cursor k : Cursor} {t : Token} (h : cursor.next = (.ok t, k))
    (ht : t.kind ≠ .eof) : cursor.tokens = k.tokens.map (t :: ·) := by
  rw [tokens]
  split
  · rename_i he
    rw [h] at he
    cases he
  · rename_i hok
    rw [h] at hok
    cases hok
    rw [dif_neg ht]

theorem tokens_accepts {p : Position} {cs : List Char} {ts : List Token} (h : Lexed p cs ts) :
    tokens ⟨cs, p⟩ = .ok ts := by
  induction h with
  | done hg => exact tokens_of_eof (next_eq_ok.mpr (.inl ⟨hg, rfl, rfl⟩)) rfl
  | @token p gap spelling rest l _ hg hs ha _ ih =>
    have hn : next ⟨gap ++ (spelling ++ rest), p⟩ =
        (.ok ⟨l, p.afterAll gap⟩, ⟨rest, (p.afterAll gap).afterAll spelling⟩) :=
      next_eq_ok.mpr (.inr ⟨gap, spelling, rest, l, rfl, hg, hs, ha, rfl, rfl⟩)
    rw [tokens_of_token hn hs.ne_eof, ih]
    rfl

theorem tokens_inverts (cursor : Cursor) {ts : List Token} (h : cursor.tokens = .ok ts) :
    Lexed cursor.pos cursor.rest ts := by
  fun_induction tokens cursor generalizing ts with
  | case1 => cases h
  | case2 cursor t rest hn hk =>
    cases h
    rcases next_eq_ok.mp hn with ⟨hg, rfl, -⟩ | ⟨gap, spelling, rest, l, -, -, hs, -, rfl, -⟩
    · exact .done hg
    · exact absurd hk hs.ne_eof
  | case3 cursor t rest hn hk _ ih =>
    rcases next_eq_ok.mp hn with ⟨-, rfl, -⟩ | ⟨gap, spelling, rest, l, he, hg, hs, ha, rfl, rfl⟩
    · exact absurd rfl hk
    · cases hr : tokens ⟨rest, (cursor.pos.afterAll gap).afterAll spelling⟩ with
      | error e =>
        rw [hr] at h
        cases h
      | ok us =>
        rw [hr] at h
        cases h
        rw [he]
        exact .token hg hs ha (ih hr)

end Cursor

theorem Token.ofText_eq_ok {s : String} {ts : List Token} :
    Token.ofText s = .ok ts ↔ Lexed .start s.toList ts :=
  ⟨Cursor.tokens_inverts (Cursor.ofText s), Cursor.tokens_accepts⟩

/-- A lexeme as it is written, with the blanks and comments in front of it. -/
structure Piece where
  gap : List Char
  spelling : List Char
  lexeme : Lexeme

namespace Piece

def written (x : Piece) : List Char := x.gap ++ x.spelling

/-- Lexemes that are kept apart by blanks or comments are read one by one. -/
theorem exists_lexed {xs : List Piece} {last : List Char}
    (hx : ∀ x ∈ xs, (∀ rest, Trivia rest x.gap) ∧ Spelling x.spelling x.lexeme)
    (hsep : ∀ x ∈ xs.tail, x.gap ≠ []) (hlast : Trivia [] last) (p : Position) :
    ∃ ts, Lexed p (xs.flatMap written ++ last) ts ∧
      ts.map Token.toLexeme = xs.map lexeme ++ [⟨.eof, ""⟩] := by
  induction xs generalizing p with
  | nil => exact ⟨_, .done hlast, rfl⟩
  | cons x xs ih =>
    obtain ⟨⟨hg, hs⟩, hxs⟩ := List.forall_mem_cons.mp hx
    obtain ⟨ts, hts, hl⟩ := ih hxs (fun y hy => hsep y (List.mem_of_mem_tail hy))
      ((p.afterAll x.gap).afterAll x.spelling)
    have ha : Apart x.lexeme (xs.flatMap written ++ last) := by
      intro _ c hc
      cases xs with
      | nil => exact hlast.isNameChar_head hc
      | cons y ys =>
        obtain ⟨d, ds, hd⟩ := List.exists_cons_of_ne_nil (hsep y List.mem_cons_self)
        have hy := (hxs y List.mem_cons_self).1 []
        refine hy.isNameChar_head ?_
        rw [hd]
        simpa [written, hd] using hc
    have htoken := Lexed.token (hg _) hs ha hts
    rw [← List.append_assoc, ← written, ← List.append_assoc, ← List.flatMap_cons] at htoken
    exact ⟨_, htoken, by rw [List.map_cons, hl, List.map_cons, List.cons_append]⟩

end Piece

/-- Exactly the texts that are made of spelled lexemes, blanks and comments are read, each as the
lexemes it spells. Lexemes that are kept apart can be spelled in any way, and every text is the text of
a string in quotes of either kind. -/
theorem Token.ofText_inverts_spelling :
    (∀ s ts, Token.ofText s = .ok ts ↔ Lexed .start s.toList ts) ∧
      (∀ (xs : List Piece) (last : List Char),
        (∀ x ∈ xs, (∀ rest, Trivia rest x.gap) ∧ Spelling x.spelling x.lexeme) →
        (∀ x ∈ xs.tail, x.gap ≠ []) → Trivia [] last →
        ∃ ts, Token.ofText (String.ofList (xs.flatMap Piece.written ++ last)) = .ok ts ∧
          ts.map Token.toLexeme = xs.map Piece.lexeme ++ [⟨.eof, ""⟩]) ∧
      ∀ quote, quote = '"' ∨ quote = '\'' → ∀ text : String,
        ∃ cs, Spelling (quote :: (cs ++ [quote])) ⟨.string, text⟩ := by
  refine ⟨fun s ts => Token.ofText_eq_ok, ?_, fun quote hq text => ⟨_, Spelling.of_quote hq text⟩⟩
  intro xs last hx hsep hlast
  obtain ⟨ts, hts, hl⟩ := Piece.exists_lexed hx hsep hlast .start
  refine ⟨ts, Token.ofText_eq_ok.mpr ?_, hl⟩
  rwa [String.toList_ofList]

def Piece.commented : List Piece :=
  [⟨['#', 'a', '\n'], ['u', 'p'], ⟨.name, "up"⟩⟩,
    ⟨[' '], ['\'', '\\', '\'', '"', '\''], ⟨.string, "'\""⟩⟩]

theorem Token.ofText_inverts_spelling_commented :
    (∀ x ∈ Piece.commented, (∀ rest, Trivia rest x.gap) ∧ Spelling x.spelling x.lexeme) ∧
      (∀ x ∈ Piece.commented.tail, x.gap ≠ []) ∧ Trivia [] ['#', '!'] ∧
      String.ofList (Piece.commented.flatMap Piece.written ++ ['#', '!']) = "#a\nup '\\'\"'#!" ∧
      ∃ ts, Token.ofText "#a\nup '\\'\"'#!" = .ok ts ∧
        ts.map Token.toLexeme = [⟨.name, "up"⟩, ⟨.string, "'\""⟩, ⟨.eof, ""⟩] := by
  have hgap : ∀ rest, Trivia rest ['#', 'a', '\n'] := fun rest =>
    @Trivia.comment rest ['a'] ['\n'] (by decide) (by simp) (.blank (by decide) .nil)
  have hquoted : Quoted '\'' ['\\', '\'', '"'] ['\'', '"'] :=
    .escape (by decide) (.plain (by decide) (by decide) (by decide) .nil)
  have hx : ∀ x ∈ Piece.commented, (∀ rest, Trivia rest x.gap) ∧ Spelling x.spelling x.lexeme := by
    simp only [Piece.commented, List.forall_mem_cons]
    refine ⟨⟨hgap, .name (by decide) ?_⟩, ⟨fun _ => .blank (by decide) .nil, ?_⟩, by simp⟩
    · exact List.forall_mem_singleton.mpr (by decide)
    · exact .string (.inr rfl) hquoted
  have hlast : Trivia [] ['#', '!'] := @Trivia.comment [] ['!'] [] (by decide) (by simp) .nil
  have hsep : ∀ x ∈ Piece.commented.tail, x.gap ≠ [] := by simp [Piece.commented]
  have htext : String.ofList (Piece.commented.flatMap Piece.written ++ ['#', '!']) =
      "#a\nup '\\'\"'#!" := by decide +kernel
  have hread := ofText_inverts_spelling.2.1 _ _ hx hsep hlast
  rw [htext] at hread
  exact ⟨hx, hsep, hlast, htext, hread⟩

end Netlab
