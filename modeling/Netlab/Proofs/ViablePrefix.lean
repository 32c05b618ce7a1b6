import Netlab.Proofs.Derivable

namespace Netlab

namespace Token

variable {t : Token}

theorem ne_eof_of_isData (h : t.isData = true) : t.kind ≠ .eof := by
  intro he
  rw [isData_of_kind he] at h
  cases h

theorem ne_eof_of_isWord {text : String} (h : t.isWord text = true) : t.kind ≠ .eof := by
  simp only [isWord, Bool.and_eq_true, decide_eq_true_eq] at h
  exact ne_eof_of_isData (isData_of_kind h.1)

theorem ne_eof_of_kind {k : Kind} (h : t.kind = k) (hk : k ≠ .eof) : t.kind ≠ .eof :=
  h ▸ hk

end Token

theorem Member.ne_eof {l : Listing} {ts : List Token} {c : Child} (h : Member l ts c) :
    ∀ t ∈ ts, t.kind ≠ .eof := by
  cases h with
  | value hv => simpa using Token.ne_eof_of_isData (Token.isData_of_isValue hv)
  | pair hk hc hv =>
    have hvalue := Token.ne_eof_of_isData (Token.isData_of_isValue hv)
    simpa [hk, hc] using hvalue
  | intPair hk hc hv => simp [hk, hc, hv]

theorem Led.ne_eof {l : Listing} {ts : List Token} {cs : List Child}
    (h : Led .comma (Member l) ts cs) : ∀ t ∈ ts, t.kind ≠ .eof := by
  induction h with
  | nil => simp
  | cons ht ha _ ih =>
    refine List.forall_mem_cons.mpr ⟨Token.ne_eof_of_kind ht (by decide), ?_⟩
    exact List.forall_mem_append.mpr ⟨ha.ne_eof, ih⟩

theorem Content.ne_eof {shape : Shape} {ts : List Token} {c : Child} (h : Content shape ts c) :
    ∀ t ∈ ts, t.kind ≠ .eof := by
  cases h with
  | name ht => simpa using Token.ne_eof_of_isData (Token.isData_of_isFree ht)
  | string ht | number ht => simp [ht]
  | @listing l _ _ _ _ ho hm hc =>
    have hopen : l.opening ≠ .eof := by cases l <;> decide
    have hclose : l.closing ≠ .eof := by cases l <;> decide
    refine List.forall_mem_cons.mpr ⟨Token.ne_eof_of_kind ho hopen, List.forall_mem_append.mpr ⟨?_, ?_⟩⟩
    · cases hm with
      | none => simp
      | some hm hs => exact List.forall_mem_append.mpr ⟨hm.ne_eof, hs.ne_eof⟩
    · simpa using Token.ne_eof_of_kind hc hclose

theorem Block.ne_eof {table : List Clause} {blocks : List Block}
    (h : ∀ b ∈ blocks, b.Valid table) : ∀ t ∈ blocks.flatMap Block.written, t.kind ≠ .eof := by
  intro t ht
  obtain ⟨b, hb, ht⟩ := List.mem_flatMap.mp ht
  have hv := h b hb
  rcases List.mem_cons.mp ht with rfl | ht
  · exact Token.ne_eof_of_isWord hv.key
  · exact hv.content.ne_eof t ht

theorem Body.ne_eof {k : Keyword} {b : Body} (h : b.Valid k) : ∀ t ∈ b.written, t.kind ≠ .eof := by
  have hfree : ∀ {t : Token}, Read.isFree t = true → t.kind ≠ .eof :=
    fun ht => Token.ne_eof_of_isData (Token.isData_of_isFree ht)
  cases b with
  | nothing => simp [written]
  | value t =>
    cases k with
    | controller => simpa [written] using Token.ne_eof_of_isData (Token.isData_of_isValue h)
    | _ => exact h.elim
  | remote name hostWord host portWord port =>
    cases k with
    | remoteController =>
      obtain ⟨hn, hhw, hh, hpw, hp⟩ := h
      simp [written, hfree hn, Token.ne_eof_of_isWord hhw, Token.ne_eof_of_isWord hpw, hh, hp]
    | _ => exact h.elim
  | names first more =>
    cases k with
    | switch | ping => exact fun t ht => hfree (h t ht)
    | _ => exact h.elim
  | chain first hops =>
    cases k with
    | intent =>
      obtain ⟨hf, -, hh⟩ := h
      refine List.forall_mem_cons.mpr ⟨hfree hf, ?_⟩
      intro t ht
      obtain ⟨hop, hm, ht⟩ := List.mem_flatMap.mp ht
      obtain ⟨ha, hn⟩ := hh hop hm
      have hpair : hop.1.kind ≠ .eof ∧ hop.2.kind ≠ .eof :=
        ⟨Token.ne_eof_of_kind ha (by decide), hfree hn⟩
      rcases List.mem_pair.mp ht with rfl | rfl
      exacts [hpair.1, hpair.2]
    | _ => exact h.elim
  | clauses name blocks =>
    have hname : Read.isFree name = true := by
      cases k with
      | host | link => exact h.1
      | _ => exact h.elim
    exact List.forall_mem_cons.mpr ⟨hfree hname, Block.ne_eof (valid_clauses h).2.valid⟩

theorem Phrase.ne_eof {ps : List Phrase} (h : ∀ p ∈ ps, p.Valid) :
    ∀ t ∈ ps.flatMap Phrase.written, t.kind ≠ .eof := by
  intro t ht
  obtain ⟨p, hp, ht⟩ := List.mem_flatMap.mp ht
  obtain ⟨hk, hb⟩ := h p hp
  rcases List.mem_cons.mp ht with rfl | ht
  · exact Token.ne_eof_of_isWord hk
  · exact Body.ne_eof hb t ht

namespace Stream

theorem parse_of_fault {s : Stream} {e : ParseError} (h : s.statements.fault? = some e) :
    s.parse.1 = .error e := by
  simp only [parse, h]

/-- Reading fails at a token, or at the end of a text without statements. -/
theorem parse_eq_error {s : Stream} {e : ParseError} (h : s.parse.1 = .error e) :
    s.statements.fault? = some e ∨ s.ahead = [] ∧ e.pos = s.stop := by
  simp only [parse] at h
  split at h
  · rename_i hf
    cases h
    exact .inl hf
  · rename_i hf
    split at h
    · rename_i ht
      cases h
      obtain ⟨ps, -, hw, hps⟩ := statements_inverts s hf
      have hnil : ps = [] := by simpa [hps] using ht
      have ha : s.ahead = [] := by rw [hw, hnil, List.flatMap_nil]
      refine .inr ⟨ha, ?_⟩
      obtain ⟨ahead, stop⟩ := s
      cases ha
      rw [statements_nil]
      rfl
    · cases h

theorem exists_ofTokens_append {ts : List Token} (h : ∀ t ∈ ts, t.kind ≠ .eof) (us : List Token) :
    ∃ vs stop, ofTokens (ts ++ us) = ⟨ts ++ vs, stop⟩ := by
  have ha : (ofTokens (ts ++ us)).ahead = ts ++ (ofTokens us).ahead :=
    List.takeWhile_append_of_pos (by simpa using h)
  exact ⟨_, (ofTokens (ts ++ us)).stop, congrArg (Stream.mk · _) ha⟩

end Stream

namespace Tree

/-- Tokens that some statements start with can be completed to a text that is read. -/
theorem exists_completion {ts more : List Token} {ps : List Phrase} (hne : ps ≠ [])
    (hps : ∀ p ∈ ps, p.Valid) (hw : ps.flatMap Phrase.written = ts ++ more) :
    ∃ w trees, (∀ t ∈ w, t.kind ≠ .eof) ∧ ofTokens (ts ++ w) = .ok trees := by
  have he : ∀ t ∈ ts ++ more, t.kind ≠ .eof := hw ▸ Phrase.ne_eof hps
  exact ⟨more, _, fun t ht => he t (List.mem_append_right ts ht),
    (ofTokens_eq_ok_iff he).mpr ⟨ps, ⟨hne, hps, hw⟩, rfl⟩⟩

/-- An error is reported at the first token that cannot stand in its place: what was written before
it can be completed, and with it every text fails in the same way. -/
theorem ofTokens_viable_prefix {ts : List Token} {e : ParseError} (h : ∀ t ∈ ts, t.kind ≠ .eof)
    (he : ofTokens ts = .error e) :
    ∃ i ≤ ts.length, e.pos = (ts[i]?.map Token.pos).getD (Stream.ofTokens ts).stop ∧
      (∃ w trees, (∀ t ∈ w, t.kind ≠ .eof) ∧ ofTokens (ts.take i ++ w) = .ok trees) ∧
      (i < ts.length → ∀ w, ofTokens (ts.take (i + 1) ++ w) = .error e) ∧
      (i = ts.length → ts.map Token.toLexeme ∉ Grammar.program) := by
  have hout : ts.map Token.toLexeme ∉ Grammar.program := by
    rw [Grammar.mem_program_iff]
    rintro ⟨ps, hps⟩
    rw [(ofTokens_eq_ok_iff h).mpr ⟨ps, hps, rfl⟩] at he
    cases he
  have hs := Stream.ofTokens_of_no_eof h
  rcases Stream.parse_eq_error he with hf | ⟨ha, hpos⟩
  · obtain ⟨read, rest, hr, hpos, ⟨more, ps, hne, hps, hw⟩, hfatal⟩ := Stream.statements_refuses _ hf
    rw [hs] at hr
    change ts = read ++ rest at hr
    refine ⟨read.length, by simp [hr], ?_, ?_, ?_, fun _ => hout⟩
    · rw [hpos, hr, List.getElem?_append_right (Nat.le_refl _), Nat.sub_self]
      cases rest <;> rfl
    · rw [hr, List.take_left]
      exact exists_completion hne hps hw
    · intro hlt w
      cases rest with
      | nil => simp [hr] at hlt
      | cons t rest =>
        have htake : ts.take (read.length + 1) = read ++ [t] := by
          rw [hr, List.take_length_add_append, List.take_succ_cons, List.take_zero]
        have hread : ∀ u ∈ read ++ [t], u.kind ≠ .eof := by
          intro u hu
          exact h u (List.mem_of_mem_take (htake ▸ hu))
        obtain ⟨vs, stop, hvs⟩ := Stream.exists_ofTokens_append hread w
        rw [htake, ofTokens, hvs, List.append_assoc]
        exact Stream.parse_of_fault (hfatal t rest rfl vs stop)
  · have hnil : ts = [] := by rwa [hs] at ha
    subst hnil
    have hup : (⟨⟨⟨.name, "up"⟩, .start⟩, .up, .nothing⟩ : Phrase).Valid := ⟨by decide, trivial⟩
    refine ⟨0, Nat.le_refl _, hpos, ?_, fun hlt => absurd hlt (Nat.lt_irrefl _), fun _ => hout⟩
    exact exists_completion (List.cons_ne_nil _ []) (List.forall_mem_singleton.mpr hup) rfl

def doubledClause : List Token :=
  [⟨⟨.name, "host"⟩, ⟨1, 1⟩⟩, ⟨⟨.name, "h"⟩, ⟨1, 6⟩⟩, ⟨⟨.name, "ip"⟩, ⟨1, 8⟩⟩,
    ⟨⟨.string, "10.0.0.1"⟩, ⟨1, 11⟩⟩, ⟨⟨.name, "ip"⟩, ⟨2, 3⟩⟩, ⟨⟨.string, "10.0.0.2"⟩, ⟨2, 6⟩⟩]

theorem ofTokens_viable_prefix_doubledClause :
    (∀ t ∈ doubledClause, t.kind ≠ .eof) ∧
      ofTokens doubledClause = .error ⟨⟨2, 3⟩, .duplicateClause "ip" "host"⟩ ∧
      ∃ i ≤ doubledClause.length,
        ⟨2, 3⟩ = (doubledClause[i]?.map Token.pos).getD (Stream.ofTokens doubledClause).stop ∧
        (∃ w trees, (∀ t ∈ w, t.kind ≠ .eof) ∧ ofTokens (doubledClause.take i ++ w) = .ok trees) ∧
        (i < doubledClause.length → ∀ w, ofTokens (doubledClause.take (i + 1) ++ w) =
          .error ⟨⟨2, 3⟩, .duplicateClause "ip" "host"⟩) ∧
        (i = doubledClause.length → doubledClause.map Token.toLexeme ∉ Grammar.program) := by
  have h : ∀ t ∈ doubledClause, t.kind ≠ .eof := by decide
  have hf : (Stream.ofTokens doubledClause).statements.fault? =
      some ⟨⟨2, 3⟩, .duplicateClause "ip" "host"⟩ := by decide +kernel
  have he := Stream.parse_of_fault hf
  exact ⟨h, he, ofTokens_viable_prefix h he⟩

end Tree

end Netlab
