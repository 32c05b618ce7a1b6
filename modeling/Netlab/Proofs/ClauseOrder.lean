import Netlab.Proofs.ViablePrefix

namespace Netlab

namespace Block

variable {table : List Clause} {blocks order : List Block}

def keywords (blocks : List Block) : List String := blocks.map fun b => b.key.text

theorem keywords_eq (h : ∀ b ∈ blocks, b.Valid table) :
    keywords blocks = (blocks.map Block.clause).map Clause.keyword := by
  rw [keywords, List.map_map]
  apply List.map_congr_left
  intro b hb
  have hkey := (h b hb).key
  simp only [Token.isWord, Bool.and_eq_true, decide_eq_true_eq] at hkey
  exact hkey.2

theorem mem_keywords (ht : Clause.Regular table) (h : ∀ b ∈ blocks, b.Valid table) {c : Clause}
    (hc : c ∈ table) : c.keyword ∈ keywords blocks ↔ c ∈ blocks.map Block.clause := by
  rw [keywords_eq h]
  constructor
  · intro hk
    obtain ⟨d, hd, he⟩ := List.mem_map.mp hk
    obtain ⟨b, hb, rfl⟩ := List.mem_map.mp hd
    rwa [← List.inj_on_of_nodup_map ht.keywords (h b hb).mem hc he]
  · exact List.mem_map_of_mem

/-- Clauses are complete if no keyword is written twice and none of the required ones is missing. -/
theorem complete_iff (ht : Clause.Regular table) (h : ∀ b ∈ blocks, b.Valid table) :
    Complete table blocks ↔ (keywords blocks).Nodup ∧
      ∀ c ∈ table, c.required = true → c.keyword ∈ keywords blocks := by
  have hnodup : (keywords blocks).Nodup ↔ (blocks.map Block.clause).Nodup := by
    rw [keywords_eq h]
    refine ⟨List.Nodup.of_map _, List.Nodup.map_on ?_⟩
    intro c hc d hd
    obtain ⟨a, ha, rfl⟩ := List.mem_map.mp hc
    obtain ⟨b, hb, rfl⟩ := List.mem_map.mp hd
    exact List.inj_on_of_nodup_map ht.keywords (h a ha).mem (h b hb).mem
  constructor
  · intro hc
    exact ⟨hnodup.mpr hc.nodup, fun c hm hr => (mem_keywords ht h hm).mpr (hc.required c hm hr)⟩
  · rintro ⟨hn, hr⟩
    exact ⟨⟨h, hnodup.mp hn⟩, fun c hm hreq => (mem_keywords ht h hm).mp (hr c hm hreq)⟩

theorem Complete.perm (h : Complete table blocks) (hp : order.Perm blocks) : Complete table order where
  valid := fun b hb => h.valid b (hp.subset hb)
  nodup := (hp.map _).nodup_iff.mpr h.nodup
  required := fun c hc hr => (hp.map _).symm.subset (h.required c hc hr)

/-- What stands in the slots does not depend on the order of the clauses. -/
theorem Complete.fill_perm (h : Complete table blocks) (hp : order.Perm blocks) (name : Token) :
    fill table name order = fill table name blocks := by
  have hfind : ∀ c, order.find? (fun b => b.clause = c) = blocks.find? (fun b => b.clause = c) := by
    intro c
    apply Option.ext
    intro b
    rw [Lists.find?_key_eq_some (h.perm hp).nodup, Lists.find?_key_eq_some h.nodup, hp.mem_iff]
  have hslot : slot order = slot blocks := by
    funext c
    rw [slot, slot, hfind]
  rw [fill, fill, hslot]

end Block

namespace Read

/-- The fault of a statement with one clause too many or too few. -/
def ClauseFault (k : Keyword) (table : List Clause) (cause : ParseFault) : Prop :=
  ∃ c ∈ table, cause = .duplicateClause c.keyword k.text ∨
    ∃ found, cause = .missingClause c.keyword k.text found

theorem bind_of_ok {α β : Type} {r : Read α} {s s' : Stream} {a : α} (h : r s = .ok a s')
    (f : α → Read β) : (r >>= f) s = f a s' := by
  simp only [bind, EStateM.bind, h]

section

variable {k : Keyword} {table : List Clause} (h : Clause.Regular table) {name : Token}
  {blocks : List Block} (rest : List Token) (stop : Position)
include h

theorem clauses_repeated (done : List Block) (hd : Block.Distinct table done)
    (hv : ∀ b ∈ blocks, b.Valid table) (hn : ¬((done ++ blocks).map Block.clause).Nodup) :
    ∃ e s', clauses k table (Block.fill table name done) ⟨blocks.flatMap Block.written ++ rest, stop⟩ =
      .error e s' ∧ ClauseFault k table e.cause := by
  induction blocks generalizing done with
  | nil =>
    rw [List.append_nil] at hn
    exact absurd hd.nodup hn
  | cons b blocks ih =>
    obtain ⟨hb, hbs⟩ := List.forall_mem_cons.mp hv
    rw [List.flatMap_cons, List.append_assoc]
    by_cases hc : b.clause ∈ done.map Block.clause
    · have ht := h.startedBy?_eq_some.mpr ⟨hb.mem, hb.key⟩
      have hs : ((Block.fill table name done).getD b.clause.slot .absent).isAbsent = false := by
        rw [Block.getD_fill h name hb.mem, Bool.eq_false_iff]
        exact fun ha => (Block.isAbsent_slot hd _).mp ha hc
      exact ⟨_, _, clauses_duplicate ht hs _ stop, b.clause, hb.mem, .inl rfl⟩
    · rw [clauses_step h name hd hb hc]
      rw [List.append_cons] at hn
      exact ih _ (hd.snoc hb hc) hbs hn

theorem slots_name (hname : isFree name = true) (ts : List Token) :
    slots k table ⟨name :: ts, stop⟩ =
      (do
        let filled ← clauses k table (Block.fill table name [])
        match Clause.missing? table filled with
        | some clause => fail (.missingClause clause.keyword k.text)
        | none => return filled : Read (List Child)) ⟨ts, stop⟩ := by
  have hread : takeName ⟨name :: ts, stop⟩ = .ok name ⟨ts, stop⟩ :=
    recognizes_takeName.accepts ⟨rfl, hname⟩ ts stop trivial
  rw [Block.fill_nil, h.length]
  exact bind_of_ok hread _

theorem slots_incomplete (hname : isFree name = true) (hv : ∀ b ∈ blocks, b.Valid table)
    (hc : ¬Block.Complete table blocks) (hrest : noClause table [] rest.head?) :
    ∃ e s', slots k table ⟨name :: (blocks.flatMap Block.written ++ rest), stop⟩ = .error e s' ∧
      ClauseFault k table e.cause := by
  have hnil : Block.Distinct table [] := ⟨by simp, by simp⟩
  rw [slots_name h stop hname]
  by_cases hn : (blocks.map Block.clause).Nodup
  · have hd : Block.Distinct table blocks := ⟨hv, hn⟩
    cases hm : Clause.missing? table (Block.fill table name blocks) with
    | none => exact absurd ((Block.missing?_fill h hd name).mp hm) hc
    | some c =>
      have hmem : c ∈ table := List.mem_of_find?_eq_some hm
      have hread := clauses_accepts (k := k) h name [] hd rest stop hrest
      rw [List.nil_append] at hread
      let found := (Stream.mk rest stop).head
      refine ⟨⟨found.pos, .missingClause c.keyword k.text found.toLexeme⟩, ⟨rest, stop⟩,
        bind_error.mpr (.inr ⟨_, _, hread, ?_⟩), c, hmem, .inr ⟨_, rfl⟩⟩
      simp only [hm]
      rfl
  · obtain ⟨e, s', he, hfault⟩ := clauses_repeated h rest stop [] hnil hv hn
    exact ⟨e, s', bind_error.mpr (.inl he), hfault⟩

end

theorem body_incomplete {k : Keyword} (hk : k = .host ∨ k = .link) {name : Token}
    (hname : isFree name = true) {blocks : List Block} (hv : ∀ b ∈ blocks, b.Valid k.clauses)
    (hc : ¬Block.Complete k.clauses blocks) {rest : List Token} (hrest : k.Follow rest.head?)
    (stop : Position) :
    ∃ e s', body k ⟨name :: (blocks.flatMap Block.written ++ rest), stop⟩ = .error e s' ∧
      ClauseFault k k.clauses e.cause := by
  obtain rfl | rfl := hk
  · obtain ⟨e, s', he, hfault⟩ :=
      slots_incomplete (k := .host) Clause.regular_ofHost rest stop hname hv hc hrest
    exact ⟨e, s', bind_error.mpr (.inl he), hfault⟩
  · obtain ⟨e, s', he, hfault⟩ :=
      slots_incomplete (k := .link) Clause.regular_ofLink rest stop hname hv hc hrest
    exact ⟨e, s', bind_error.mpr (.inl he), hfault⟩

end Read

namespace Stream

theorem statements_append {ps : List Phrase} (h : ∀ p ∈ ps, p.Valid) {rest : List Token}
    (hrest : ∀ k : Keyword, k.Follow rest.head?) (stop : Position) :
    statements ⟨ps.flatMap Phrase.written ++ rest, stop⟩ =
      { statements ⟨rest, stop⟩ with
        trees := ps.map Phrase.tree ++ (statements ⟨rest, stop⟩).trees } := by
  induction ps with
  | nil => rfl
  | cons p ps ih =>
    obtain ⟨hp, hps⟩ := List.forall_mem_cons.mp h
    have hfollow : ∀ k : Keyword, k.Follow (ps.flatMap Phrase.written ++ rest).head? := by
      intro k
      cases ps with
      | nil => exact hrest k
      | cons q qs => exact Keyword.follow_keyword (hps q List.mem_cons_self).1 k
    have hs := Read.recognizes_statement.accepts ⟨p, hp, rfl, rfl⟩ (ps.flatMap Phrase.written ++ rest)
      stop fun k _ => hfollow k
    rw [List.flatMap_cons, List.append_assoc, statements_of_ok hs, ih hps]
    rfl

variable {ts us : List Token}

theorem exists_phrases (h : ts = [] ∨ ∃ trees, Tree.ofTokens ts = .ok trees) :
    ∃ ps : List Phrase, (∀ p ∈ ps, p.Valid) ∧ (ofTokens ts).ahead = ps.flatMap Phrase.written := by
  obtain rfl | ⟨trees, h⟩ := h
  · exact ⟨[], by simp, rfl⟩
  · obtain ⟨ps, hps, -⟩ := parse_eq_ok.mp h
    exact ⟨ps, hps.valid, hps.written.symm⟩

theorem ahead_ofTokens_append (h : ∀ t ∈ ts, t.kind ≠ .eof) :
    (ofTokens (ts ++ us)).ahead = ts ++ (ofTokens us).ahead :=
  List.takeWhile_append_of_pos (by simpa using h)

theorem ahead_ofTokens (h : ∀ t ∈ ts, t.kind ≠ .eof) : (ofTokens ts).ahead = ts := by
  rw [ofTokens_of_no_eof h]

theorem ofTokens_append_of_eof (h : ∃ t ∈ ts, t.kind = .eof) : ofTokens (ts ++ us) = ofTokens ts := by
  obtain ⟨e, he⟩ : ∃ e, ts.find? (fun t => t.kind = .eof) = some e :=
    Option.isSome_iff_exists.mp (List.find?_isSome.mpr (by simpa using h))
  have hfind : (ts ++ us).find? (fun t => t.kind = .eof) = some e := by
    rw [List.find?_append, he, Option.some_or]
  have hshort : (ts.takeWhile (fun t => t.kind ≠ .eof)).length ≠ ts.length := by
    intro hl
    have hall := List.takeWhile_eq_self_iff.mp ((List.takeWhile_prefix _).eq_of_length hl)
    obtain ⟨t, ht, hk⟩ := h
    simpa [hk] using hall t ht
  have hwhile : (ts ++ us).takeWhile (fun t => t.kind ≠ .eof) =
      ts.takeWhile (fun t => t.kind ≠ .eof) := by
    rw [List.takeWhile_append, if_neg hshort]
  simp only [ofTokens, hfind, he, hwhile]

end Stream

/-- A statement with clauses among other tokens. -/
def Block.arranged (before : List Token) (key name : Token) (blocks : List Block)
    (after : List Token) : List Token :=
  before ++ (key :: name :: blocks.flatMap Block.written ++ after)

section

variable {k : Keyword} {key name : Token} (hkey : key.isWord k.text = true)
  (hname : Read.isFree name = true) {before after : List Token} {blocks : List Block}
  (hv : ∀ b ∈ blocks, b.Valid k.clauses)
include hkey hname hv

theorem Block.ahead_arranged (hbefore : ∀ t ∈ before, t.kind ≠ .eof) :
    (Stream.ofTokens (arranged before key name blocks after)).ahead =
      before ++ (key :: name :: blocks.flatMap Block.written ++ (Stream.ofTokens after).ahead) := by
  have hne : ∀ t ∈ key :: name :: blocks.flatMap Block.written, t.kind ≠ .eof := by
    refine List.forall_mem_cons.mpr ⟨Token.ne_eof_of_isWord hkey, List.forall_mem_cons.mpr ⟨?_, ?_⟩⟩
    · exact Token.ne_eof_of_isData (Token.isData_of_isFree hname)
    · exact Block.ne_eof hv
  rw [arranged, Stream.ahead_ofTokens_append hbefore, Stream.ahead_ofTokens_append hne]

variable (hk : k = .host ∨ k = .link) (hbefore : ∀ t ∈ before, t.kind ≠ .eof) {ps qs : List Phrase}
  (hps : ∀ p ∈ ps, p.Valid) (hp : before = ps.flatMap Phrase.written)
  (hqs : ∀ q ∈ qs, q.Valid) (hq : (Stream.ofTokens after).ahead = qs.flatMap Phrase.written)
include hk hbefore hps hp hqs hq

theorem Tree.ofTokens_complete (hc : Block.Complete k.clauses blocks) :
    Tree.ofTokens (Block.arranged before key name blocks after) =
      .ok (ps.map Phrase.tree ++ ⟨k.rule, key.pos, Block.fill k.clauses name blocks⟩ ::
        qs.map Phrase.tree) := by
  have hvalid : Phrase.Valid ⟨key, k, .clauses name blocks⟩ := by
    refine ⟨hkey, ?_⟩
    obtain rfl | rfl := hk <;> exact ⟨hname, hc⟩
  refine Stream.parse_eq_ok.mpr ⟨ps ++ ⟨key, k, .clauses name blocks⟩ :: qs, ⟨?_, ?_, ?_⟩, ?_⟩
  · exact List.append_ne_nil_of_right_ne_nil _ (List.cons_ne_nil _ _)
  · exact List.forall_mem_append.mpr ⟨hps, List.forall_mem_cons.mpr ⟨hvalid, hqs⟩⟩
  · rw [Block.ahead_arranged hkey hname hv hbefore, hq, hp, List.flatMap_append, List.flatMap_cons]
    rfl
  · rw [List.map_append, List.map_cons]
    rfl

theorem Tree.ofTokens_incomplete (hc : ¬Block.Complete k.clauses blocks) :
    ∃ e, Tree.ofTokens (Block.arranged before key name blocks after) = .error e ∧
      Read.ClauseFault k k.clauses e.cause := by
  have hahead : (Stream.ofTokens (Block.arranged before key name blocks after)).ahead = _ :=
    Block.ahead_arranged hkey hname hv hbefore
  generalize hs : Stream.ofTokens (Block.arranged before key name blocks after) = s at hahead
  obtain ⟨ahead, stop⟩ := s
  obtain rfl : ahead = _ := hahead
  obtain ⟨e, s', he, hfault⟩ := Read.body_incomplete hk hname hv hc (Phrase.follow_flatMap hqs k) stop
  have hstatement : Read.statement ⟨key :: name :: blocks.flatMap Block.written ++
      (Stream.ofTokens after).ahead, stop⟩ = .error e s' := by
    rw [List.cons_append, List.cons_append, Read.statement_keyword (Read.keyword?_eq_some.mpr hkey), hq]
    exact Read.bind_error.mpr (.inl he)
  refine ⟨e, ?_, hfault⟩
  rw [Tree.ofTokens, hs]
  apply Stream.parse_of_fault
  have hfollow : ∀ j : Keyword, j.Follow (key :: name :: blocks.flatMap Block.written ++
      (Stream.ofTokens after).ahead).head? := fun j => Keyword.follow_keyword hkey j
  rw [hp, Stream.statements_append hps hfollow]
  exact congrArg Reading.fault? (Stream.statements_of_error hstatement)

end

namespace Tree

/-- The clauses of a host or a link can be written in any order: in all orders they are read alike, and
if one of them is repeated or a required one is missing they are refused in all. An end mark in front of
the statement keeps it from being read at all. -/
theorem clause_order_irrelevant {k : Keyword} (hk : k = .host ∨ k = .link) {key name : Token}
    (hkey : key.isWord k.text = true) (hname : Read.isFree name = true) {before after : List Token}
    (hbefore : before = [] ∨ ∃ trees, ofTokens before = .ok trees)
    (hafter : after = [] ∨ ∃ trees, ofTokens after = .ok trees) {blocks : List Block}
    (hv : ∀ b ∈ blocks, b.Valid k.clauses) :
    ((Block.keywords blocks).Nodup →
        (∀ c ∈ k.clauses, c.required = true → c.keyword ∈ Block.keywords blocks) →
        ∃ trees, ∀ order, order.Perm blocks →
          ofTokens (Block.arranged before key name order after) = .ok trees) ∧
      (¬(Block.keywords blocks).Nodup ∨
          (∃ c ∈ k.clauses, c.required = true ∧ c.keyword ∉ Block.keywords blocks) →
        (∀ t ∈ before, t.kind ≠ .eof) → ∀ order, order.Perm blocks →
          ∃ e, ofTokens (Block.arranged before key name order after) = .error e ∧
            Read.ClauseFault k k.clauses e.cause) ∧
      ((∃ t ∈ before, t.kind = .eof) → ∀ order,
        ofTokens (Block.arranged before key name order after) = ofTokens before) := by
  have ht : Clause.Regular k.clauses := by
    obtain rfl | rfl := hk
    exacts [Clause.regular_ofHost, Clause.regular_ofLink]
  have horder : ∀ {order : List Block}, order.Perm blocks → ∀ b ∈ order, b.Valid k.clauses :=
    fun hp b hb => hv b (hp.subset hb)
  have hhalted : (∃ t ∈ before, t.kind = .eof) → ∀ order,
      ofTokens (Block.arranged before key name order after) = ofTokens before := by
    intro he order
    rw [ofTokens, Block.arranged, Stream.ofTokens_append_of_eof he]
    rfl
  obtain ⟨ps, hps, hp⟩ := Stream.exists_phrases hbefore
  obtain ⟨qs, hqs, hq⟩ := Stream.exists_phrases hafter
  refine ⟨fun hn hr => ?_, fun hbad hne order hperm => ?_, hhalted⟩
  · have hc := (Block.complete_iff ht hv).mpr ⟨hn, hr⟩
    by_cases he : ∃ t ∈ before, t.kind = .eof
    · obtain rfl | ⟨trees, hb⟩ := hbefore
      · obtain ⟨t, ht, -⟩ := he
        cases ht
      · exact ⟨trees, fun order _ => (hhalted he order).trans hb⟩
    · have hne : ∀ t ∈ before, t.kind ≠ .eof := fun t hm hk => he ⟨t, hm, hk⟩
      rw [Stream.ahead_ofTokens hne] at hp
      refine ⟨ps.map Phrase.tree ++ ⟨k.rule, key.pos, Block.fill k.clauses name blocks⟩ ::
        qs.map Phrase.tree, fun order hperm => ?_⟩
      rw [ofTokens_complete hkey hname (horder hperm) hk hne hps hp hqs hq (hc.perm hperm),
        hc.fill_perm hperm]
  · rw [Stream.ahead_ofTokens hne] at hp
    refine ofTokens_incomplete hkey hname (horder hperm) hk hne hps hp hqs hq fun hc => ?_
    obtain ⟨hn, hr⟩ := (Block.complete_iff ht hv).mp (hc.perm hperm.symm)
    obtain hbad | ⟨c, hm, hreq, hnot⟩ := hbad
    · exact hbad hn
    · exact hnot (hr c hm hreq)

def crossed : List Block :=
  [⟨⟨⟨.name, "src"⟩, ⟨2, 10⟩⟩, .src, [⟨⟨.name, "dst"⟩, ⟨2, 14⟩⟩],
      .token ⟨⟨.name, "dst"⟩, ⟨2, 14⟩⟩⟩,
    ⟨⟨⟨.name, "dst"⟩, ⟨2, 18⟩⟩, .dst, [⟨⟨.name, "src"⟩, ⟨2, 22⟩⟩],
      .token ⟨⟨.name, "src"⟩, ⟨2, 22⟩⟩⟩]

def upToken : Token := ⟨⟨.name, "up"⟩, ⟨1, 1⟩⟩

def linkToken : Token := ⟨⟨.name, "link"⟩, ⟨2, 1⟩⟩

def srcToken : Token := ⟨⟨.name, "src"⟩, ⟨2, 6⟩⟩

theorem ofTokens_up (rest : List Token) (h : (Stream.ofTokens (upToken :: rest)).ahead = [upToken]) :
    ofTokens (upToken :: rest) = .ok [⟨.up, ⟨1, 1⟩, []⟩] := by
  have hv : ∀ p ∈ [Phrase.mk upToken .up .nothing], p.Valid :=
    List.forall_mem_singleton.mpr ⟨by decide, trivial⟩
  exact Stream.parse_eq_ok.mpr ⟨_, ⟨List.cons_ne_nil _ _, hv, h.symm⟩, rfl⟩

theorem clause_order_irrelevant_crossed :
    (∃ trees, ∀ order, order.Perm crossed →
        ofTokens (Block.arranged [upToken] linkToken srcToken order []) = .ok trees) ∧
      ∃ e, ofTokens (Block.arranged [upToken] linkToken srcToken crossed.tail []) = .error e := by
  have hcrossed : ∀ b ∈ crossed, b.Valid Keyword.link.clauses := by
    simp only [crossed, List.forall_mem_cons]
    exact ⟨⟨by decide, by decide, .name (by decide)⟩, ⟨by decide, by decide, .name (by decide)⟩,
      by simp⟩
  have hup : [upToken] = [] ∨ ∃ trees, ofTokens [upToken] = .ok trees := .inr ⟨_, ofTokens_up [] rfl⟩
  have hlink : linkToken.isWord Keyword.link.text = true := by decide
  have hsrc : Read.isFree srcToken = true := by decide
  obtain ⟨hread, -⟩ := clause_order_irrelevant (.inr rfl) hlink hsrc hup (.inl rfl) hcrossed
  obtain ⟨-, hrefuse, -⟩ := clause_order_irrelevant (.inr rfl) hlink hsrc hup (.inl rfl)
    fun b hb => hcrossed b (List.mem_of_mem_tail hb)
  refine ⟨hread (by decide) (by decide), ?_⟩
  obtain ⟨e, he, -⟩ := hrefuse (.inr ⟨.src, by decide, rfl, by decide⟩) (by decide) _
    (.refl _)
  exact ⟨e, he⟩

def hostToken : Token := ⟨⟨.name, "host"⟩, ⟨2, 1⟩⟩

def nameToken : Token := ⟨⟨.name, "h"⟩, ⟨2, 6⟩⟩

/-- Behind an end mark a host without an image is not refused. -/
theorem incomplete_clauses_unread :
    ofTokens [upToken, ⟨⟨.eof, ""⟩, ⟨1, 3⟩⟩] = .ok [⟨.up, ⟨1, 1⟩, []⟩] ∧
      hostToken.isWord Keyword.host.text = true ∧ Read.isFree nameToken = true ∧
      (∃ c ∈ Keyword.host.clauses, c.required = true ∧ c.keyword ∉ Block.keywords []) ∧
      ¬∃ e, ofTokens (Block.arranged [upToken, ⟨⟨.eof, ""⟩, ⟨1, 3⟩⟩] hostToken nameToken [] []) =
        .error e := by
  have hread : ofTokens (Block.arranged [upToken, ⟨⟨.eof, ""⟩, ⟨1, 3⟩⟩] hostToken nameToken [] []) =
      .ok [⟨.up, ⟨1, 1⟩, []⟩] := ofTokens_up _ rfl
  refine ⟨ofTokens_up _ rfl, by decide, by decide, ?_, ?_⟩
  · exact ⟨.image, by decide, rfl, by decide⟩
  · rintro ⟨e, he⟩
    cases hread.symm.trans he

end Tree

end Netlab
