import Mathlib.Data.List.Chain
import Netlab.Proofs.Except
import Netlab.Proofs.Mirroring

namespace Netlab

namespace Stream

theorem rest_of_statements {s : Stream} (h : s.statements.fault? = none) :
    s.statements.rest.ahead = [] := by
  fun_induction Stream.statements s with
  | case1 s he => simpa using he
  | case2 s he e s' hs => cases h
  | case3 s he tree s' hs _ r ih => exact ih h

theorem rest_of_parse {s : Stream} {trees : List Tree} (h : s.parse.1 = .ok trees) :
    s.parse.2.ahead = [] := by
  unfold parse at h ⊢
  cases hf : s.statements.fault? with
  | some e =>
    simp only [hf] at h
    cases h
  | none =>
    simp only [hf]
    split <;> exact rest_of_statements hf

end Stream

namespace Source

/-- The answers of `n` calls in a row and the indices they lead to, each going on from the index that
the one before it came to. -/
def calls (S : Source) : Nat → Nat → List (Arrival (List Tree))
  | 0, _ => []
  | n + 1, i => Walk.parse.run S i :: S.calls n (Walk.parse.run S i).2

def listed (ts : List Token) : Source where
  look i := ts[i]?
  bound := ts.length
  quiet hi ht := by simp [List.getElem?_eq_none hi] at ht

/-- The tokens of a list, which has an end mark behind them unless its last token is one. -/
def closed (ts : List Token) : List Token :=
  if ts.getLast?.map (·.kind) = some .eof then ts
  else ts ++ [⟨⟨.eof, ""⟩, (ts.getLast?.map Token.stop).getD .start⟩]

theorem closed_eq_append (ts : List Token) : ∃ more, closed ts = ts ++ more := by
  unfold closed
  split
  · exact ⟨[], (List.append_nil ts).symm⟩
  · exact ⟨_, rfl⟩

theorem getLast?_closed (ts : List Token) : ∃ t, (closed ts).getLast? = some t ∧ t.kind = .eof := by
  unfold closed
  split
  · rename_i h
    simpa using h
  · exact ⟨_, List.getLast?_concat, rfl⟩

/-- The tokens of a closed list under their indices. Every index behind the last token stands for
the last token. -/
def clamped (ts : List Token) : Source where
  look i := (closed ts)[min i ((closed ts).length - 1)]?
  bound := (closed ts).length - 1
  quiet hi ht := by
    obtain ⟨t, hlast, heof⟩ := getLast?_closed ts
    rw [Nat.min_eq_right hi, ← List.getLast?_eq_getElem?, hlast] at ht
    cases ht
    exact heof

def firstEnd (ts : List Token) : Nat := (closed ts).findIdx (fun t => t.kind = .eof)

def reached (calls : List (Arrival (List Tree))) (i : Nat) : Nat :=
  (calls.map Prod.snd).getLast?.getD i

section

variable {S S' : Source} {m i n : Nat} {stop : Position} {ts : List Token}

theorem length_calls (S : Source) (n i : Nat) : (S.calls n i).length = n := by
  induction n generalizing i with
  | zero => rfl
  | succ n ih => rw [calls, List.length_cons, ih]

theorem calls_chain (S : Source) (n i : Nat) :
    (i :: (S.calls n i).map Prod.snd).IsChain (· ≤ ·) := by
  induction n generalizing i with
  | zero => exact .singleton i
  | succ n ih => exact .cons_cons (Walk.parse.onward S i) (ih _)

/-- One call answers as the stream does, and leaves the same tokens. -/
theorem Shows.call (hs : S.Shows m stop i ts) :
    ∃ j us, S.Shows m stop j us ∧ (Stream.mk ts stop).parse.2 = ⟨us, stop⟩ ∧
      Walk.parse.run S i = ((Stream.mk ts stop).parse.1.mapError .fault, j) := by
  have h := Walk.mirrors_parse hs
  rw [Stream.parse_eq]
  generalize Walk.parse.run S i = x at h ⊢
  generalize Read.parse ⟨ts, stop⟩ = y at h ⊢
  cases h with
  | ok hs' => exact ⟨_, _, hs', rfl, rfl⟩
  | error hs' => exact ⟨_, _, hs', rfl, rfl⟩

theorem Shows.answers (hs : S.Shows m stop i ts) (n : Nat) :
    (S.calls n i).map Prod.fst = (Stream.parses n ⟨ts, stop⟩).map (Except.mapError .fault) := by
  induction n generalizing i ts with
  | zero => rfl
  | succ n ih =>
    obtain ⟨j, us, hs', hrest, hcall⟩ := hs.call
    rw [calls, Stream.parses, List.map_cons, List.map_cons, hcall, hrest, ih hs']

theorem Shows.le (hs : S.Shows m stop i ts) : i ≤ m :=
  hs.index ▸ Nat.le_add_right i ts.length

theorem Shows.calls_le (hs : S.Shows m stop i ts) (n : Nat) : ∀ c ∈ S.calls n i, c.2 ≤ m := by
  induction n generalizing i ts with
  | zero => exact fun c hc => absurd hc List.not_mem_nil
  | succ n ih =>
    obtain ⟨j, us, hs', -, hcall⟩ := hs.call
    rw [calls, hcall]
    exact List.forall_mem_cons.mpr ⟨hs'.le, ih hs'⟩

/-- Sources that show the same tokens up to the same end mark are not told apart. -/
theorem Shows.calls_eq (hs : S.Shows m stop i ts) (hs' : S'.Shows m stop i ts) (n : Nat) :
    S.calls n i = S'.calls n i := by
  induction n generalizing i ts with
  | zero => rfl
  | succ n ih =>
    obtain ⟨j, us, hs₁, hrest, hcall⟩ := hs.call
    obtain ⟨j', us', hs₂, hrest', hcall'⟩ := hs'.call
    have hus : us = us' := congrArg Stream.ahead (hrest.symm.trans hrest')
    subst hus
    have hj : j = j' := Nat.add_right_cancel (hs₁.index.trans hs₂.index.symm)
    subst hj
    rw [calls, calls, hcall, hcall', ih hs₁ hs₂]

theorem calls_of_stuck {answer : Except Stop (List Tree)} (h : Walk.parse.run S i = (answer, i))
    (n : Nat) : S.calls n i = List.replicate n (answer, i) := by
  induction n with
  | zero => rfl
  | succ n ih => rw [calls, h, ih, List.replicate_succ]

theorem Shows.calls_split (hs : S.Shows m stop i ts) {before after : List (Arrival (List Tree))}
    {c : Arrival (List Tree)} (h : S.calls n i = before ++ c :: after) :
    ∃ us, S.Shows m stop (reached before i) us ∧ Walk.parse.run S (reached before i) = c ∧
      after = S.calls after.length c.2 := by
  induction before generalizing n i ts with
  | nil =>
    cases n with
    | zero => cases h
    | succ n =>
      obtain ⟨rfl, rfl⟩ := List.cons.inj h
      exact ⟨ts, hs, rfl, by rw [length_calls]⟩
  | cons b before ih =>
    cases n with
    | zero => cases h
    | succ n =>
      obtain ⟨rfl, hrest⟩ := List.cons.inj h
      obtain ⟨j, us, hs', -, hcall⟩ := hs.call
      have hreached : ∀ k, reached (Walk.parse.run S i :: before) k =
          reached before (Walk.parse.run S i).2 := by
        intro k
        simp only [reached, List.map_cons, List.getLast?_cons, Option.getD_some]
      rw [hreached, hcall]
      rw [hcall] at hrest
      exact ih hs' hrest

theorem Shows.calls_of_done (hs : S.Shows m stop i []) (n : Nat) :
    S.calls n i = List.replicate n (.error (.fault ⟨stop, .noStatement⟩), m) := by
  have hparse : (Stream.mk [] stop).parse = (.error ⟨stop, .noStatement⟩, ⟨[], stop⟩) := by
    simp only [Stream.parse, Stream.statements_nil]
    rfl
  obtain ⟨j, us, hs', hrest, hcall⟩ := hs.call
  rw [hparse] at hrest hcall
  obtain rfl : us = [] := congrArg Stream.ahead hrest.symm
  obtain rfl : j = m := hs'.index
  obtain rfl : i = j := hs.index
  exact calls_of_stuck hcall n

theorem Shows.after_ok (hs : S.Shows m stop i ts) {before after : List (Arrival (List Tree))}
    {trees : List Tree} {j : Nat} (h : S.calls n i = before ++ (.ok trees, j) :: after) :
    ∀ c ∈ after, c = (.error (.fault ⟨stop, .noStatement⟩), m) := by
  obtain ⟨us, hs₁, hrun, hafter⟩ := hs.calls_split h
  obtain ⟨k, vs, hs₂, hrest, hcall⟩ := hs₁.call
  obtain ⟨hok, rfl⟩ := Prod.ext_iff.mp (hrun.symm.trans hcall)
  have hnil := Stream.rest_of_parse (mapError_eq_ok.mp hok.symm)
  rw [hrest] at hnil
  obtain rfl : vs = [] := hnil
  rw [hafter, hs₂.calls_of_done]
  exact fun c => List.eq_of_mem_replicate

theorem Shows.after_stuck (hs : S.Shows m stop i ts)
    {before after : List (Arrival (List Tree))} {e : Stop}
    (h : S.calls n i = before ++ (.error e, reached before i) :: after) :
    ∀ c ∈ after, c = (.error e, reached before i) := by
  obtain ⟨us, -, hrun, hafter⟩ := hs.calls_split h
  rw [hafter, calls_of_stuck hrun]
  exact fun c => List.eq_of_mem_replicate

end

theorem exists_closed (ts : List Token) :
    ∃ mark rest, closed ts = (Stream.ofTokens ts).ahead ++ mark :: rest ∧ mark.kind = .eof ∧
      mark.pos = (Stream.ofTokens ts).stop ∧ ∀ t ∈ (Stream.ofTokens ts).ahead, t.kind ≠ .eof := by
  by_cases h : ∃ t ∈ ts, t.kind = .eof
  · obtain ⟨mark, hfind⟩ : ∃ mark, ts.find? (fun t => t.kind = .eof) = some mark :=
      Option.isSome_iff_exists.mp (List.find?_isSome.mpr (by simpa using h))
    obtain ⟨hmark, before, rest, hts, hbefore⟩ := List.find?_eq_some_iff_append.mp hfind
    have hmark : mark.kind = .eof := by simpa using hmark
    have hbefore : ∀ t ∈ before, t.kind ≠ .eof := by simpa using hbefore
    have hahead : (Stream.ofTokens ts).ahead = before := by
      rw [hts]
      exact Lists.takeWhile_append (by simpa using hbefore) (by simpa using hmark)
    have hstop : (Stream.ofTokens ts).stop = mark.pos := by
      simp only [Stream.ofTokens, hfind]
    obtain ⟨more, hmore⟩ := closed_eq_append ts
    refine ⟨mark, rest ++ more, ?_, hmark, hstop.symm, hahead ▸ hbefore⟩
    rw [hmore, hahead, hts, List.append_assoc, List.cons_append]
  · have hno : ∀ t ∈ ts, t.kind ≠ .eof := fun t ht hk => h ⟨t, ht, hk⟩
    have hlast : ts.getLast?.map (·.kind) ≠ some .eof := by
      intro hk
      obtain ⟨t, ht, hk⟩ := Option.map_eq_some_iff.mp hk
      exact hno t (List.mem_of_getLast? ht) hk
    rw [Stream.ofTokens_of_no_eof hno, closed, if_neg hlast]
    exact ⟨_, [], rfl, rfl, rfl, hno⟩

theorem shows_of_look {S : Source} {mark : Token} (hm : mark.kind = .eof) {before rest : List Token}
    (hb : ∀ t ∈ before, t.kind ≠ .eof) {i : Nat}
    (hl : ∀ k ≤ before.length, S.look (i + k) = (before ++ mark :: rest)[k]?) :
    S.Shows (i + before.length) mark.pos i before := by
  induction before generalizing i with
  | nil => exact .done (hl 0 (Nat.le_refl 0)) hm rfl
  | cons t before ih =>
    obtain ⟨ht, hb⟩ := List.forall_mem_cons.mp hb
    refine .more (hl 0 (Nat.zero_le _)) ht ?_
    rw [List.length_cons, Nat.add_comm before.length 1, ← Nat.add_assoc]
    refine ih hb fun k hk => ?_
    rw [Nat.add_assoc, Nat.add_comm 1 k]
    exact hl (k + 1) (Nat.succ_le_succ hk)

theorem firstEnd_eq {ts before rest : List Token} {mark : Token}
    (h : closed ts = before ++ mark :: rest) (hm : mark.kind = .eof)
    (hb : ∀ t ∈ before, t.kind ≠ .eof) : firstEnd ts = before.length := by
  have hbefore : before.findIdx (fun t => t.kind = .eof) = before.length :=
    List.findIdx_eq_length.mpr (by simpa using hb)
  rw [firstEnd, h, List.findIdx_append, hbefore, if_neg (Nat.lt_irrefl _), List.findIdx_cons]
  simp [hm]

theorem exists_mark (ts : List Token) :
    ∃ mark, (closed ts)[firstEnd ts]? = some mark ∧ mark.kind = .eof ∧
      mark.pos = (Stream.ofTokens ts).stop := by
  obtain ⟨mark, rest, hclosed, hm, hstop, hahead⟩ := exists_closed ts
  refine ⟨mark, ?_, hm, hstop⟩
  rw [firstEnd_eq hclosed hm hahead, hclosed, List.getElem?_append_right (Nat.le_refl _), Nat.sub_self]
  rfl

/-- It does not matter what a source has behind the first end mark, or whether it has anything
there. -/
theorem shows_ofTokens {S : Source} {ts : List Token}
    (h : ∀ i ≤ firstEnd ts, S.look i = (closed ts)[i]?) :
    S.Shows (firstEnd ts) (Stream.ofTokens ts).stop 0 (Stream.ofTokens ts).ahead := by
  obtain ⟨mark, rest, hclosed, hm, hstop, hahead⟩ := exists_closed ts
  have hend := firstEnd_eq hclosed hm hahead
  have hlook : ∀ k ≤ (Stream.ofTokens ts).ahead.length,
      S.look (0 + k) = ((Stream.ofTokens ts).ahead ++ mark :: rest)[k]? := by
    intro k hk
    rw [Nat.zero_add, h k (hend ▸ hk), hclosed]
  have hshows := shows_of_look hm hahead hlook
  rwa [Nat.zero_add, ← hend, hstop] at hshows

theorem firstEnd_lt (ts : List Token) : firstEnd ts < (closed ts).length := by
  obtain ⟨mark, hmark, -⟩ := exists_mark ts
  exact (List.getElem?_eq_some_iff.mp hmark).1

theorem shows_clamped (ts : List Token) :
    (clamped ts).Shows (firstEnd ts) (Stream.ofTokens ts).stop 0 (Stream.ofTokens ts).ahead := by
  refine shows_ofTokens fun i hi => ?_
  have hlt := firstEnd_lt ts
  change (closed ts)[min i ((closed ts).length - 1)]? = (closed ts)[i]?
  rw [Nat.min_eq_left (by omega)]

theorem shows_listed (ts : List Token) :
    (listed (closed ts)).Shows (firstEnd ts) (Stream.ofTokens ts).stop 0 (Stream.ofTokens ts).ahead :=
  shows_ofTokens fun _ _ => rfl

theorem shows_upToEnd (ts : List Token) :
    (listed ((closed ts).take (firstEnd ts + 1))).Shows (firstEnd ts) (Stream.ofTokens ts).stop 0
      (Stream.ofTokens ts).ahead :=
  shows_ofTokens fun _ hi => List.getElem?_take_of_lt (Nat.lt_succ_of_le hi)

/-- However often a parser is called, and whatever its tokens are: it answers as the stream of its tokens
does, it never goes back and never passes the first end mark, so that an index never stands for another
one, and it does not look behind that mark. After a success there is nothing left to be read, and a call
that fails where it started fails in the same way for ever. -/
theorem calls_settle (ts : List Token) (n : Nat) :
    ∃ mark, (closed ts)[firstEnd ts]? = some mark ∧ mark.kind = .eof ∧
      ((clamped ts).calls n 0).map Prod.fst =
        (Stream.parses n (Stream.ofTokens ts)).map (Except.mapError .fault) ∧
      (0 :: ((clamped ts).calls n 0).map Prod.snd).IsChain (· ≤ ·) ∧
      (∀ c ∈ (clamped ts).calls n 0, c.2 ≤ firstEnd ts) ∧
      (listed (closed ts)).calls n 0 = (clamped ts).calls n 0 ∧
      (listed ((closed ts).take (firstEnd ts + 1))).calls n 0 = (clamped ts).calls n 0 ∧
      (∀ us, (closed us).take (firstEnd us + 1) = (closed ts).take (firstEnd ts + 1) →
        (clamped us).calls n 0 = (clamped ts).calls n 0) ∧
      (∀ before trees j after, (clamped ts).calls n 0 = before ++ (.ok trees, j) :: after →
        ∀ c ∈ after, c = (.error (.fault ⟨mark.pos, .noStatement⟩), firstEnd ts)) ∧
      ∀ before e after, (clamped ts).calls n 0 = before ++ (.error e, reached before 0) :: after →
        ∀ c ∈ after, c = (.error e, reached before 0) := by
  have hs := shows_clamped ts
  have hupToEnd : ∀ us, (listed ((closed us).take (firstEnd us + 1))).calls n 0 =
      (clamped us).calls n 0 := fun us => (shows_upToEnd us).calls_eq (shows_clamped us) n
  obtain ⟨mark, hmark, hk, hpos⟩ := exists_mark ts
  refine ⟨mark, hmark, hk, hs.answers n, calls_chain _ n 0, hs.calls_le n,
    (shows_listed ts).calls_eq hs n, hupToEnd ts, ?_, ?_, ?_⟩
  · intro us h
    rw [← hupToEnd us, h, hupToEnd ts]
  · intro before trees j after h
    rw [hpos]
    exact hs.after_ok h
  · intro before e after h
    exact hs.after_stuck h

def resumed : List Token :=
  [⟨⟨.name, "switch"⟩, ⟨1, 1⟩⟩, ⟨⟨.name, "host"⟩, ⟨1, 8⟩⟩, ⟨⟨.name, "up"⟩, ⟨2, 1⟩⟩,
    ⟨⟨.eof, "x"⟩, ⟨2, 3⟩⟩, ⟨⟨.name, "down"⟩, ⟨3, 1⟩⟩]

theorem calls_settle_resumed :
    (clamped (resumed.take 4)).calls 4 0 = (clamped resumed).calls 4 0 ∧
      ∃ fault trees, (clamped resumed).calls 4 0 =
        [(.error fault, 2), (.ok trees, 3), (.error (.fault ⟨⟨2, 3⟩, .noStatement⟩), 3),
          (.error (.fault ⟨⟨2, 3⟩, .noStatement⟩), 3)] := by
  obtain ⟨mark, hmark, -, -, -, -, -, -, hsame, hok, hstuck⟩ := calls_settle resumed 4
  refine ⟨hsame _ (by decide), ?_⟩
  have hshape : ((clamped resumed).calls 4 0).map (fun c => (c.1.isOk, c.2)) =
      [(false, 2), (true, 3), (false, 3), (false, 3)] := by
    decide +kernel
  have hend : firstEnd resumed = 3 := by decide
  have hpos : mark.pos = ⟨2, 3⟩ := by
    rw [hend] at hmark
    cases hmark
    rfl
  rw [hend, hpos] at hok
  generalize (clamped resumed).calls 4 0 = calls at hshape hok hstuck ⊢
  obtain ⟨⟨first, _⟩, rest, rfl, hfirst, hshape⟩ := List.map_eq_cons_iff.mp hshape
  obtain ⟨⟨second, _⟩, rest, rfl, hsecond, hshape⟩ := List.map_eq_cons_iff.mp hshape
  obtain ⟨third, rest, rfl, -, hshape⟩ := List.map_eq_cons_iff.mp hshape
  obtain ⟨fourth, rest, rfl, -, hshape⟩ := List.map_eq_cons_iff.mp hshape
  obtain rfl : rest = [] := List.map_eq_nil_iff.mp hshape
  cases first with
  | ok trees => cases hfirst
  | error fault =>
    cases second with
    | error e => cases hsecond
    | ok trees =>
      cases hfirst
      cases hsecond
      have hthird := hok [(.error fault, 2)] trees 3 [third, fourth] rfl third (by simp)
      subst hthird
      have hfourth := hstuck [(.error fault, 2), (.ok trees, 3)] _ [fourth] rfl fourth (by simp)
      subst hfourth
      exact ⟨fault, trees, rfl⟩

end Source

end Netlab
