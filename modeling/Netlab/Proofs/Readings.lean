import Netlab.Proofs.Pointing

namespace Netlab

/-- The place behind a part of a text that starts at its first line: one line further for every line
feed, and one column further for every character behind the last of them. -/
def Position.behind (read : List Char) : Position :=
  ⟨1 + read.count '\n', 1 + (read.rtakeWhile (· ≠ '\n')).length⟩

namespace Cursor

/-- A cursor is reached from another one by reading some of the text. -/
def Reaches (k k' : Cursor) : Prop := ∃ read, k.rest = read ++ k'.rest ∧ k'.pos = k.pos.afterAll read

theorem Reaches.refl (k : Cursor) : Reaches k k := ⟨[], rfl, rfl⟩

theorem Reaches.trans {k₁ k₂ k₃ : Cursor} (h : Reaches k₁ k₂) (h' : Reaches k₂ k₃) : Reaches k₁ k₃ := by
  obtain ⟨read, hr, hp⟩ := h
  obtain ⟨more, hr', hp'⟩ := h'
  refine ⟨read ++ more, ?_, ?_⟩
  · rw [hr, hr', List.append_assoc]
  · rw [hp', hp, Position.afterAll_append]

theorem reaches_tail (c : Char) (cs : List Char) (p : Position) :
    Reaches ⟨c :: cs, p⟩ ⟨cs, p.after c⟩ :=
  ⟨[c], rfl, rfl⟩

theorem reaches_skip (comment : Bool) (cs : List Char) (p : Position) :
    Reaches ⟨cs, p⟩ (skip comment cs p) := by
  induction cs generalizing comment p with
  | nil => exact .refl _
  | cons c cs ih =>
    have hnext : ∀ comment, Reaches ⟨c :: cs, p⟩ (skip comment cs (p.after c)) :=
      fun comment => (reaches_tail c cs p).trans (ih comment _)
    rw [skip]
    split
    · exact hnext _
    · split
      · exact hnext _
      · split
        · exact hnext _
        · exact .refl _

theorem reaches_span (keep : Char → Bool) (cs : List Char) (p : Position) :
    Reaches ⟨cs, p⟩ (span keep cs p).2 :=
  ⟨cs.takeWhile keep, List.takeWhile_append_dropWhile.symm, rfl⟩

theorem reaches_quoted (quote : Char) (opening : Position) (cs : List Char) (p : Position) :
    Reaches ⟨cs, p⟩ (quoted quote opening cs p).2 := by
  fun_induction quoted quote opening cs p with
  | case1 => exact .refl _
  | case2 cs p => exact reaches_tail _ _ _
  | case3 => exact reaches_tail _ _ _
  | case4 p c cs => exact (reaches_tail _ _ _).trans (reaches_tail _ _ _)
  | case5 p c cs d _ _ ih => exact ((reaches_tail _ _ _).trans (reaches_tail _ _ _)).trans ih
  | case6 => exact reaches_tail _ _ _
  | case7 c cs p _ _ _ ih => exact (reaches_tail _ _ _).trans ih

theorem reaches_dash (p : Position) (cs : List Char) : Reaches ⟨'-' :: cs, p⟩ (dash p cs).2 := by
  unfold dash
  split
  · exact (reaches_tail _ _ _).trans (reaches_tail _ _ _)
  · exact reaches_tail _ _ _

theorem reaches_number (cs : List Char) (p : Position) : Reaches ⟨cs, p⟩ (number cs p).2 := by
  simp only [number]
  split <;> exact reaches_span _ _ _

theorem reaches_lexeme (p : Position) (c : Char) (cs : List Char) :
    Reaches ⟨c :: cs, p⟩ (lexeme p c cs).2 := by
  unfold lexeme
  split
  · exact reaches_tail _ _ _
  · split
    · rename_i hc
      subst hc
      exact reaches_dash p cs
    · split
      · exact (reaches_tail _ _ _).trans (reaches_quoted _ _ _ _)
      · split
        · exact reaches_number _ _
        · split
          · exact reaches_span _ _ _
          · exact .refl _

theorem reaches_next (k : Cursor) : Reaches k k.next.2 := by
  have hskip : Reaches k k.skipTrivia := reaches_skip false k.rest k.pos
  unfold next
  split
  · rename_i p hk
    rwa [hk] at hskip
  · rename_i c cs p hk
    rw [hk] at hskip
    exact hskip.trans (reaches_lexeme p c cs)

/-- A token is read from the blanks and comments in front of it and from its spelling, which an end of
the text has none of. -/
theorem next_reads {k k' : Cursor} {t : Token} (h : k.next = (.ok t, k')) :
    ∃ gap spelling, k.rest = gap ++ (spelling ++ k'.rest) ∧ t.pos = k.pos.afterAll gap ∧
      k'.pos = t.pos.afterAll spelling ∧
      (t.kind = .eof ∧ spelling = [] ∧ k'.rest = [] ∨ Spelling spelling t.toLexeme) := by
  obtain ⟨-, rfl, rfl⟩ | ⟨gap, spelling, rest, l, he, -, hs, -, rfl, rfl⟩ := next_eq_ok.mp h
  · exact ⟨k.rest, [], by simp, rfl, rfl, .inl ⟨rfl, rfl, rfl⟩⟩
  · exact ⟨gap, spelling, he, rfl, rfl, .inr hs⟩

def later : Nat → Cursor → Cursor
  | 0, k => k
  | n + 1, k => later n k.next.2

theorem reaches_later (n : Nat) (k : Cursor) : Reaches k (later n k) := by
  induction n generalizing k with
  | zero => exact .refl k
  | succ n ih => exact (reaches_next k).trans (ih k.next.2)

theorem later_add (m n : Nat) (k : Cursor) : later (m + n) k = later n (later m k) := by
  induction m generalizing k with
  | zero => rw [Nat.zero_add, later]
  | succ m ih => rw [Nat.succ_add, later, later, ih]

theorem later_succ (n : Nat) (k : Cursor) : later (n + 1) k = (later n k).next.2 :=
  later_add n 1 k

theorem readings_getElem? {n i : Nat} {k : Cursor} {a : Except LexError Token} :
    (readings n k)[i]? = some a ↔ i < n ∧ (later i k).next.1 = a := by
  induction n generalizing i k with
  | zero => simp [readings]
  | succ n ih =>
    cases i with
    | zero => simp [readings, later]
    | succ i =>
      rw [readings, List.getElem?_cons_succ, ih, later]
      simp

end Cursor

def isToken : Except LexError Token → Bool
  | .ok t => t.kind ≠ .eof
  | .error _ => false

/-- The answers that are given again and again: the end of the text, and a character that starts no
token, which stays unread. -/
def IsFinal : Except LexError Token → Prop
  | .ok t => t.kind = .eof
  | .error e => ∃ c, e.cause = .unexpected c

namespace Cursor

theorem next_solid {c : Char} {cs : List Char} (h : Solid (c :: cs)) (p : Position) :
    next ⟨c :: cs, p⟩ = ((lexeme p c cs).1.map fun l => ⟨l, p⟩, (lexeme p c cs).2) := by
  have hskip : skipTrivia ⟨c :: cs, p⟩ = ⟨c :: cs, p⟩ := skip_solid h p
  rw [next, hskip]

theorem next_of_trivia {gap rest : List Char} (hg : Trivia rest gap) (hr : Solid rest) (p : Position) :
    next ⟨gap ++ rest, p⟩ = next ⟨rest, p.afterAll gap⟩ := by
  have hskip : skipTrivia ⟨rest, p.afterAll gap⟩ = ⟨rest, p.afterAll gap⟩ := skip_solid hr _
  rw [next, next, skipTrivia_eq hg hr, hskip]

/-- Inside a string no character is unexpected. -/
theorem quoted_expected {quote : Char} {opening p : Position} {cs : List Char} {e : LexError}
    (h : (quoted quote opening cs p).1 = .error e) (c : Char) : e.cause ≠ .unexpected c := by
  fun_induction quoted quote opening cs p with
  | case1 | case3 | case4 | case6 =>
    cases h
    exact LexFault.noConfusion
  | case2 => cases h
  | case5 _ _ _ _ _ _ ih | case7 _ _ _ _ _ _ ih => exact ih (map_eq_error.mp h)

theorem lexeme_unexpected {p : Position} {c d : Char} {cs : List Char} {e : LexError} {k : Cursor}
    (h : lexeme p c cs = (.error e, k)) (he : e.cause = .unexpected d) : k = ⟨c :: cs, p⟩ := by
  unfold lexeme at h
  split at h
  · cases h
  · split at h
    · unfold dash at h
      split at h
      · cases h
      · cases h
        cases he
    · split at h
      · have hq := map_eq_error.mp (congrArg Prod.fst h)
        exact absurd he (quoted_expected hq d)
      · split at h
        · simp only [number] at h
          split at h
          · cases h
            cases he
          · cases h
        · split at h
          · cases h
          · cases h
            rfl

/-- Reading on after a final answer gives the answer again. -/
theorem next_final {k : Cursor} (h : IsFinal k.next.1) : k.next.2.next = k.next := by
  obtain ⟨cs, p⟩ := k
  obtain ⟨gap, rest, rfl, hg, hr⟩ := exists_trivia cs
  rw [next_of_trivia hg hr] at h ⊢
  generalize p.afterAll gap = q at h ⊢
  cases rest with
  | nil => rfl
  | cons c cs =>
    rw [next_solid hr] at h ⊢
    cases hl : lexeme q c cs with
    | mk a k =>
      rw [hl] at h
      cases a with
      | ok l =>
        obtain ⟨_, _, -, hs, -⟩ := lexeme_inverts hl
        exact absurd h hs.ne_eof
      | error e =>
        obtain ⟨d, hd⟩ := h
        cases lexeme_unexpected hl hd
        rw [next_solid hr, hl]

theorem later_final {k : Cursor} (h : IsFinal k.next.1) (n : Nat) : (later n k).next = k.next := by
  induction n with
  | zero => rfl
  | succ n ih => rw [later_succ, ih, next_final h]

theorem length_next_le (k : Cursor) : k.next.2.rest.length ≤ k.rest.length := by
  obtain ⟨read, hr, -⟩ := reaches_next k
  rw [hr, List.length_append]
  exact Nat.le_add_left _ _

theorem length_next_of_isToken {k : Cursor} (h : isToken k.next.1 = true) :
    k.next.2.rest.length < k.rest.length := by
  cases hn : k.next with
  | mk a k' =>
    rw [hn] at h
    cases a with
    | error e => cases h
    | ok t => exact length_next_lt hn (of_decide_eq_true h)

/-- Every token uses up a character at least. -/
theorem countP_readings (n : Nat) (k : Cursor) :
    (readings n k).countP isToken + (later n k).rest.length ≤ k.rest.length := by
  induction n generalizing k with
  | zero => simp [readings, later]
  | succ n ih =>
    have hrest := ih k.next.2
    rw [readings, later, List.countP_cons]
    by_cases ht : isToken k.next.1 = true
    · have hlt := length_next_of_isToken ht
      rw [if_pos ht]
      omega
    · have hle := length_next_le k
      rw [if_neg ht]
      omega

theorem before_of_readings {k : Cursor} {n i j : Nat} {t u : Token} (hij : i < j)
    (ht : (readings n k)[i]? = some (.ok t)) (hk : t.kind ≠ .eof)
    (hu : (readings n k)[j]? = some (.ok u)) : t.pos.Before u.pos := by
  obtain ⟨-, ht⟩ := readings_getElem?.mp ht
  obtain ⟨-, hu⟩ := readings_getElem?.mp hu
  obtain ⟨m, rfl⟩ := Nat.exists_eq_add_of_lt hij
  rw [Nat.add_right_comm, later_add, later_succ] at hu
  obtain ⟨gap, spelling, -, -, hnext, he | hs⟩ := next_reads (Prod.ext ht rfl)
  · exact absurd he.1 hk
  · -- Between the two places there is at least the spelling of the first token.
    obtain ⟨more, -, hmore⟩ := reaches_later m (later i k).next.2
    obtain ⟨gap', _, -, hpos, -⟩ := next_reads (Prod.ext hu rfl)
    rw [hpos, hmore, hnext, ← Position.afterAll_append, ← Position.afterAll_append]
    exact Position.before_afterAll _ (by simp [hs.ne_nil])

section

variable (s : String)

theorem later_in_place (n : Nat) :
    ∃ read, s.toList = read ++ (later n (ofText s)).rest ∧ (later n (ofText s)).pos = .behind read := by
  obtain ⟨read, hr, hp⟩ := reaches_later n (ofText s)
  exact ⟨read, hr, hp.trans (Position.start_afterAll read)⟩

variable {s}

theorem token_in_place {n i : Nat} {t : Token} (h : (readings n (ofText s))[i]? = some (.ok t)) :
    ∃ read spelling, s.toList = read ++ (spelling ++ (later (i + 1) (ofText s)).rest) ∧
      t.pos = .behind read ∧ (later (i + 1) (ofText s)).pos = .behind (read ++ spelling) ∧
      (t.kind = .eof ∧ spelling = [] ∧ (later (i + 1) (ofText s)).rest = [] ∨
        Spelling spelling t.toLexeme ∧
          (later (i + 1) (ofText s)).rest.length < (later i (ofText s)).rest.length) := by
  obtain ⟨-, ht⟩ := readings_getElem?.mp h
  obtain ⟨read, hread, hplace⟩ := reaches_later i (ofText s)
  obtain ⟨gap, spelling, hrest, hpos, hnext, hcase⟩ := next_reads (Prod.ext ht rfl)
  rw [hplace, ← Position.afterAll_append] at hpos
  rw [later_succ]
  refine ⟨read ++ gap, spelling, ?_, hpos.trans (Position.start_afterAll _), ?_, ?_⟩
  · rw [List.append_assoc, ← hrest]
    exact hread
  · rw [hnext, hpos, ← Position.afterAll_append]
    exact Position.start_afterAll _
  · refine hcase.imp_right fun hs => ⟨hs, ?_⟩
    exact length_next_of_isToken (ht ▸ decide_eq_true hs.ne_eof)

theorem readings_final {k : Cursor} {n i j : Nat} {a : Except LexError Token} (hij : i ≤ j) (hj : j < n)
    (h : (readings n k)[i]? = some a) (ha : IsFinal a) : (readings n k)[j]? = some a := by
  obtain ⟨-, rfl⟩ := readings_getElem?.mp h
  obtain ⟨m, rfl⟩ := Nat.exists_eq_add_of_le hij
  refine readings_getElem?.mpr ⟨hj, ?_⟩
  rw [later_add, later_final ha]

end

/-- However many tokens are asked for, also after faults and behind the end of the text: the cursor stands
behind what has been read of the text, every token is placed where its spelling starts and behind the
tokens before it, there are no more tokens than characters, and a final answer is given for ever. -/
theorem readings_in_place (s : String) (n : Nat) :
    (∃ read, s.toList = read ++ (later n (ofText s)).rest ∧
        (later n (ofText s)).pos = .behind read) ∧
      (∀ (i : Nat) (t : Token), (readings n (ofText s))[i]? = some (.ok t) →
        ∃ read spelling, s.toList = read ++ (spelling ++ (later (i + 1) (ofText s)).rest) ∧
          t.pos = .behind read ∧ (later (i + 1) (ofText s)).pos = .behind (read ++ spelling) ∧
          (t.kind = .eof ∧ spelling = [] ∧ (later (i + 1) (ofText s)).rest = [] ∨
            Spelling spelling t.toLexeme ∧
              (later (i + 1) (ofText s)).rest.length < (later i (ofText s)).rest.length)) ∧
      (∀ (i j : Nat) (t u : Token), i < j → (readings n (ofText s))[i]? = some (.ok t) →
        t.kind ≠ .eof → (readings n (ofText s))[j]? = some (.ok u) → t.pos.Before u.pos) ∧
      (readings n (ofText s)).countP isToken ≤ s.length ∧
      ∀ (i j : Nat) (a : Except LexError Token), i ≤ j → j < n →
        (readings n (ofText s))[i]? = some a → IsFinal a → (readings n (ofText s))[j]? = some a := by
  refine ⟨later_in_place s n, fun i t => token_in_place, fun i j t u => before_of_readings, ?_,
    fun i j a => readings_final⟩
  have hcount := countP_readings n (ofText s)
  rw [← String.length_toList]
  exact Nat.le_trans (Nat.le_add_right _ _) hcount

def faulty : String := "a\n-b $c"

def faultyReadings : List (Except LexError Token) :=
  [.ok ⟨⟨.name, "a"⟩, ⟨1, 1⟩⟩, .error ⟨⟨2, 1⟩, .danglingDash⟩, .ok ⟨⟨.name, "b"⟩, ⟨2, 2⟩⟩,
    .error ⟨⟨2, 4⟩, .unexpected '$'⟩, .error ⟨⟨2, 4⟩, .unexpected '$'⟩]

theorem readings_in_place_faulty :
    readings 5 (ofText faulty) = faultyReadings ∧
      (∃ read, faulty.toList = read ++ (later 5 (ofText faulty)).rest ∧
        (later 5 (ofText faulty)).pos = .behind read) ∧
      (∃ read spelling, faulty.toList = read ++ (spelling ++ (later 3 (ofText faulty)).rest) ∧
        ⟨2, 2⟩ = Position.behind read ∧ Spelling spelling ⟨.name, "b"⟩) ∧
      Position.Before ⟨1, 1⟩ ⟨2, 2⟩ ∧ faultyReadings.countP isToken ≤ faulty.length ∧
      faultyReadings[4]? = some (.error ⟨⟨2, 4⟩, .unexpected '$'⟩) := by
  have hr : readings 5 (ofText faulty) = faultyReadings := by decide +kernel
  obtain ⟨hplace, htoken, hbefore, hcount, hfinal⟩ := readings_in_place faulty 5
  rw [hr] at htoken hbefore hcount hfinal
  obtain ⟨read, spelling, hs, hp, -, he | ⟨hspelling, -⟩⟩ := htoken 2 ⟨⟨.name, "b"⟩, ⟨2, 2⟩⟩ rfl
  · cases he.1
  · refine ⟨hr, hplace, ⟨read, spelling, hs, hp, hspelling⟩, ?_, hcount, ?_⟩
    · exact hbefore 0 2 _ _ (by decide) rfl (by decide) rfl
    · exact hfinal 3 4 _ (by decide) (by decide) rfl ⟨'$', rfl⟩

end Cursor

end Netlab
