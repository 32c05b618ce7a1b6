import Netlab.Proofs.Lists
import Netlab.Proofs.Reading.Content

namespace Netlab

namespace Clause

/-- Every clause of a table has a keyword of its own, which starts no statement, and the slot that
belongs to its place in the table. -/
structure Regular (table : List Clause) : Prop where
  length : table.length = 7
  keywords : (table.map Clause.keyword).Nodup
  free : ∀ c ∈ table, Keyword.isReserved c.keyword = false
  slots : table.map Clause.slot = List.range' 1 table.length

theorem regular_ofHost : Regular ofHost := by
  constructor <;> decide

theorem regular_ofLink : Regular ofLink := by
  constructor <;> decide

namespace Regular

variable {table : List Clause} (h : Regular table)
include h

theorem nodup : table.Nodup :=
  List.Nodup.of_map _ h.keywords

theorem startedBy?_eq_some {t : Token} {c : Clause} :
    startedBy? table t = some c ↔ c ∈ table ∧ t.isWord c.keyword = true := by
  simp only [startedBy?, Token.isWord, Bool.and_eq_true, decide_eq_true_eq]
  by_cases hk : t.kind = .name
  · rw [if_pos hk, Lists.find?_key_eq_some h.keywords]
    simp [hk, eq_comm]
  · simp [hk]

/-- The first slot belongs to the name of the statement, the others to the clauses in their order. -/
theorem slot_eq {c : Clause} {n : Nat} (hn : table[n]? = some c) : c.slot = n + 1 := by
  have hlt : n < table.length := (List.getElem?_eq_some_iff.mp hn).1
  have hs : (table.map Clause.slot)[n]? = (List.range' 1 table.length)[n]? := by rw [h.slots]
  rw [List.getElem?_map, hn, List.getElem?_range' hlt] at hs
  simpa [Nat.add_comm] using hs

theorem exists_getElem? {c : Clause} (hc : c ∈ table) : ∃ n, c.slot = n + 1 ∧ table[n]? = some c := by
  obtain ⟨n, hn⟩ := List.mem_iff_getElem?.mp hc
  exact ⟨n, h.slot_eq hn, hn⟩

end Regular

end Clause

namespace Block

variable {table : List Clause} {blocks : List Block}

def fill (table : List Clause) (name : Token) (blocks : List Block) : List Child :=
  .token name :: table.map (slot blocks)

theorem fill_nil (name : Token) :
    fill table name [] = .token name :: List.replicate table.length .absent := by
  have hs : slot [] = fun _ => Child.absent := by
    funext c
    rfl
  rw [fill, hs, List.map_const']

theorem getElem?_fill (h : Clause.Regular table) (name : Token) (blocks : List Block) {c : Clause}
    (hc : c ∈ table) : (fill table name blocks)[c.slot]? = some (slot blocks c) := by
  obtain ⟨n, hn, ht⟩ := h.exists_getElem? hc
  simp [fill, hn, ht]

theorem getD_fill (h : Clause.Regular table) (name : Token) {c : Clause} (hc : c ∈ table) :
    (fill table name blocks).getD c.slot .absent = slot blocks c := by
  rw [List.getD_eq_getElem?_getD, getElem?_fill h name blocks hc, Option.getD_some]

theorem find?_eq_none_iff {c : Clause} :
    blocks.find? (fun b => b.clause = c) = none ↔ c ∉ blocks.map Block.clause := by
  simp [List.find?_eq_none]

theorem slot_append (c : Clause) (b : Block) :
    slot (blocks ++ [b]) c =
      if c ∉ blocks.map Block.clause ∧ b.clause = c then b.child else slot blocks c := by
  simp only [slot, List.find?_append]
  cases hf : blocks.find? (fun b => b.clause = c) with
  | none =>
    have hn := find?_eq_none_iff.mp hf
    by_cases hb : b.clause = c
    · simp [hn, hb]
    · simp [hb]
  | some d =>
    have hm : ¬(c ∉ blocks.map Block.clause ∧ b.clause = c) := by
      rw [← find?_eq_none_iff, hf]
      simp
    rw [if_neg hm]
    rfl

theorem content_not_absent {shape : Shape} {ts : List Token} {c : Child} (h : Content shape ts c) :
    c.isAbsent = false := by
  cases h <;> rfl

theorem isAbsent_slot (h : Distinct table blocks) (c : Clause) :
    (slot blocks c).isAbsent = true ↔ c ∉ blocks.map Block.clause := by
  rw [← find?_eq_none_iff, slot]
  cases hf : blocks.find? (fun b => b.clause = c) with
  | none => simp [Child.isAbsent]
  | some b =>
    have hb := (h.valid b (List.mem_of_find?_eq_some hf)).content
    simp [content_not_absent hb]

theorem set_fill (h : Clause.Regular table) (name : Token) (b : Block) (hb : b.clause ∈ table)
    (hn : b.clause ∉ blocks.map Block.clause) :
    (fill table name blocks).set b.clause.slot b.child = fill table name (blocks ++ [b]) := by
  obtain ⟨n, hs, ht⟩ := h.exists_getElem? hb
  rw [fill, hs, List.set_cons_succ, fill]
  congr 1
  apply List.ext_getElem?
  intro i
  rw [List.getElem?_set, List.getElem?_map, List.getElem?_map, List.length_map]
  by_cases hi : n = i
  · subst hi
    have hlt : n < table.length := (List.getElem?_eq_some_iff.mp ht).1
    rw [if_pos rfl, if_pos hlt, ht, Option.map_some, slot_append, if_pos ⟨hn, rfl⟩]
  · rw [if_neg hi]
    cases hc : table[i]? with
    | none => rfl
    | some c =>
      have hne : b.clause ≠ c := by
        rintro rfl
        have := h.slot_eq hc
        omega
      simp [slot_append, hne]

theorem Distinct.mem_table (h : Distinct table blocks) {c : Clause}
    (hc : c ∈ blocks.map Block.clause) : c ∈ table := by
  obtain ⟨b, hb, rfl⟩ := List.mem_map.mp hc
  exact (h.valid b hb).mem

theorem Distinct.snoc {b : Block} (h : Distinct table blocks) (hb : b.Valid table)
    (hn : b.clause ∉ blocks.map Block.clause) : Distinct table (blocks ++ [b]) where
  valid := by
    intro d hd
    rcases List.mem_append.mp hd with hd | hd
    · exact h.valid d hd
    · rw [List.mem_singleton.mp hd]
      exact hb
  nodup := by
    rw [List.map_append, List.map_singleton, List.nodup_append_comm, List.singleton_append]
    exact List.nodup_cons.mpr ⟨hn, h.nodup⟩

theorem Distinct.of_append {more : List Block} (h : Distinct table (blocks ++ more)) :
    Distinct table blocks where
  valid := fun b hb => h.valid b (List.mem_append_left _ hb)
  nodup := by
    have hn := h.nodup
    rw [List.map_append] at hn
    exact hn.of_append_left

end Block

namespace Read

/-- Clauses are read up to a token that starts none. -/
def noClause (table : List Clause) (_ : List Child) (t? : Option Token) : Prop :=
  ∀ t ∈ t?, Clause.startedBy? table t = none

section

variable {k : Keyword} {table : List Clause} {slots : List Child} {c : Clause} {t : Token}

theorem clauses_nil (stop : Position) :
    clauses k table slots ⟨[], stop⟩ = .ok slots ⟨[], stop⟩ := by
  simp [clauses]

theorem clauses_other (ht : Clause.startedBy? table t = none) (ts : List Token) (stop : Position) :
    clauses k table slots ⟨t :: ts, stop⟩ = .ok slots ⟨t :: ts, stop⟩ := by
  rw [clauses]
  simp [ht]

theorem clauses_clause (ht : Clause.startedBy? table t = some c)
    (hs : (slots.getD c.slot .absent).isAbsent = true) (ts : List Token) (stop : Position) :
    clauses k table slots ⟨t :: ts, stop⟩ =
      (do let child ← content c.shape; clauses k table (slots.set c.slot child)) ⟨ts, stop⟩ := by
  rw [clauses]
  simp only [ht, hs, ↓reduceIte, bind, EStateM.bind]
  cases content c.shape ⟨ts, stop⟩ <;> rfl

theorem clauses_duplicate (ht : Clause.startedBy? table t = some c)
    (hs : (slots.getD c.slot .absent).isAbsent = false) (ts : List Token) (stop : Position) :
    clauses k table slots ⟨t :: ts, stop⟩ =
      .error ⟨t.pos, .duplicateClause c.keyword k.text⟩ ⟨t :: ts, stop⟩ := by
  rw [clauses]
  simp only [ht, hs, Bool.false_eq_true, ↓reduceIte]

end

section

variable {k : Keyword} {table : List Clause} (h : Clause.Regular table) (name : Token)
include h

/-- A clause that is still missing fills its slot, and the reading goes on behind it. -/
theorem clauses_step {blocks : List Block} (hb : Block.Distinct table blocks) {b : Block}
    (hv : b.Valid table) (hn : b.clause ∉ blocks.map Block.clause) (rest : List Token)
    (stop : Position) :
    clauses k table (Block.fill table name blocks) ⟨b.written ++ rest, stop⟩ =
      clauses k table (Block.fill table name (blocks ++ [b])) ⟨rest, stop⟩ := by
  have ht := h.startedBy?_eq_some.mpr ⟨hv.mem, hv.key⟩
  have hs : ((Block.fill table name blocks).getD b.clause.slot .absent).isAbsent = true := by
    rw [Block.getD_fill h name hv.mem]
    exact (Block.isAbsent_slot hb _).mpr hn
  have hcontent := (recognizes_content _).accepts hv.content rest stop trivial
  rw [Block.written, List.cons_append, clauses_clause ht hs, ← Block.set_fill h name b hv.mem hn]
  simp only [bind, EStateM.bind, hcontent]

theorem clauses_accepts (blocks : List Block) {more : List Block}
    (hb : Block.Distinct table (blocks ++ more))
    (rest : List Token) (stop : Position) (hrest : noClause table [] rest.head?) :
    clauses k table (Block.fill table name blocks) ⟨more.flatMap Block.written ++ rest, stop⟩ =
      .ok (Block.fill table name (blocks ++ more)) ⟨rest, stop⟩ := by
  induction more generalizing blocks with
  | nil =>
    rw [List.append_nil, List.flatMap_nil, List.nil_append]
    cases rest with
    | nil => exact clauses_nil stop
    | cons t ts => exact clauses_other (hrest t rfl) ts stop
  | cons b more ih =>
    rw [List.append_cons] at hb ⊢
    have hv := hb.valid b (by simp)
    have hn : b.clause ∉ blocks.map Block.clause := by
      have hd := hb.of_append.nodup
      rw [List.map_append, List.map_singleton] at hd
      exact fun hm => (List.disjoint_of_nodup_append hd) hm (by simp)
    rw [List.flatMap_cons, List.append_assoc, clauses_step h name hb.of_append.of_append hv hn]
    exact ih _ hb

/-- What the next token of a list of clauses can be: none of a clause, the keyword of a clause that
is still missing, or that of one that has been read. -/
theorem clauses_cases {blocks : List Block} (hb : Block.Distinct table blocks) (t : Token) :
    Clause.startedBy? table t = none ∨
      ∃ c ∈ table, t.isWord c.keyword = true ∧ Clause.startedBy? table t = some c ∧
        (c ∉ blocks.map Block.clause ∧
            ((Block.fill table name blocks).getD c.slot .absent).isAbsent = true ∨
          ((Block.fill table name blocks).getD c.slot .absent).isAbsent = false) := by
  cases ht : Clause.startedBy? table t with
  | none => exact .inl rfl
  | some c =>
    obtain ⟨hc, hw⟩ := h.startedBy?_eq_some.mp ht
    refine .inr ⟨c, hc, hw, rfl, ?_⟩
    rw [Block.getD_fill h name hc]
    cases ha : (Block.slot blocks c).isAbsent with
    | false => exact .inr rfl
    | true => exact .inl ⟨(Block.isAbsent_slot hb c).mp ha, rfl⟩

theorem clauses_inverts {blocks : List Block} (hb : Block.Distinct table blocks) {s s' : Stream}
    {cs : List Child} (hs : clauses k table (Block.fill table name blocks) s = .ok cs s') :
    ∃ more, Block.Distinct table (blocks ++ more) ∧
      s = ⟨more.flatMap Block.written ++ s'.ahead, s'.stop⟩ ∧
      cs = Block.fill table name (blocks ++ more) ∧ noClause table [] s'.ahead.head? := by
  obtain ⟨ahead, stop⟩ := s
  induction hn : ahead.length using Nat.strongRecOn generalizing ahead stop blocks with
  | ind n ih =>
    cases ahead with
    | nil =>
      rw [clauses_nil] at hs
      cases hs
      exact ⟨[], by simpa using hb, rfl, by simp, by simp [noClause]⟩
    | cons t ts =>
      rcases clauses_cases h name hb t with ht | ⟨c, hc, hw, ht, ⟨hfree, ha⟩ | ha⟩
      · rw [clauses_other ht] at hs
        cases hs
        exact ⟨[], by simpa using hb, rfl, by simp, by simpa [noClause] using ht⟩
      · have hs' := hs
        rw [clauses_clause ht ha] at hs'
        obtain ⟨child, ⟨ahead₁, stop₁⟩, hchild, -⟩ := bind_ok.mp hs'
        obtain ⟨us, hus, hcontent, -⟩ := (recognizes_content _).inverts hchild
        cases hus
        have hv : Block.Valid table ⟨t, c, us, child⟩ := ⟨hc, hw, hcontent⟩
        have hmore := (clauses_step h name hb hv hfree ahead₁ stop₁).symm.trans hs
        have hlt : ahead₁.length < n := by
          simp only [← hn, List.length_cons, List.length_append]
          omega
        obtain ⟨more, hd, hs₁, hcs, hfollow⟩ := ih _ hlt (hb.snoc hv hfree) _ _ hmore rfl
        cases hs₁
        exact ⟨⟨t, c, us, child⟩ :: more, by simpa using hd, by simp [Block.written],
          by simpa using hcs, hfollow⟩
      · rw [clauses_duplicate ht ha] at hs
        cases hs

theorem clauses_refuses {blocks : List Block} (hb : Block.Distinct table blocks) {s s' : Stream}
    {e : ParseError} (hs : clauses k table (Block.fill table name blocks) s = .error e s') :
    Refuses (fun ts cs => ∃ more, Block.Distinct table (blocks ++ more) ∧
        ts = more.flatMap Block.written ∧ cs = Block.fill table name (blocks ++ more))
      (clauses k table (Block.fill table name blocks)) s e := by
  obtain ⟨ahead, stop⟩ := s
  induction hn : ahead.length using Nat.strongRecOn generalizing ahead stop blocks with
  | ind n ih =>
    cases ahead with
    | nil =>
      rw [clauses_nil] at hs
      cases hs
    | cons t ts =>
      rcases clauses_cases h name hb t with ht | ⟨c, hc, hw, ht, ⟨hfree, ha⟩ | ha⟩
      · rw [clauses_other ht] at hs
        cases hs
      · have hs' := hs
        rw [clauses_clause ht ha] at hs'
        rcases bind_error.mp hs' with he | ⟨child, ⟨ahead₁, stop₁⟩, hchild, -⟩
        · -- The clause itself is broken off: what completes its content completes the clause.
          obtain ⟨read, rest, hs, hpos, ⟨us, child, hcontent⟩, hfatal⟩ :=
            (recognizes_content _).refuses he
          have hv : Block.Valid table ⟨t, c, read ++ us, child⟩ := ⟨hc, hw, hcontent⟩
          refine ⟨t :: read, rest, by simpa using hs, hpos, ⟨us, _, [⟨t, c, read ++ us, child⟩],
            hb.snoc hv hfree, by simp [Block.written], rfl⟩, ?_⟩
          intro u us' hrest vs stop'
          obtain ⟨s₁, hs₁⟩ := hfatal u us' hrest vs stop'
          refine ⟨s₁, ?_⟩
          rw [List.cons_append, clauses_clause ht ha]
          exact bind_error.mpr (.inl hs₁)
        · obtain ⟨us, hus, hcontent, -⟩ := (recognizes_content _).inverts hchild
          cases hus
          have hv : Block.Valid table ⟨t, c, us, child⟩ := ⟨hc, hw, hcontent⟩
          have hrest := (clauses_step h name hb hv hfree ahead₁ stop₁).symm.trans hs
          have hlt : ahead₁.length < n := by
            simp only [← hn, List.length_cons, List.length_append]
            omega
          obtain ⟨read, rest, hs₁, hpos, ⟨more, _, blocks', hd, hmore, rfl⟩, hfatal⟩ :=
            ih _ hlt (hb.snoc hv hfree) _ _ hrest rfl
          simp only at hs₁
          refine ⟨t :: (us ++ read), rest, by simp [hs₁], hpos, ⟨more, _,
            ⟨t, c, us, child⟩ :: blocks', by simpa using hd, by simp [Block.written, hmore], rfl⟩, ?_⟩
          intro u us' hrest vs stop'
          obtain ⟨s₂, hs₂⟩ := hfatal u us' hrest vs stop'
          refine ⟨s₂, ?_⟩
          rw [List.cons_append, List.append_assoc]
          exact (clauses_step h name hb hv hfree (read ++ u :: vs) stop').trans hs₂
      · -- The clause has been read before: its keyword is what cannot stand here.
        rw [clauses_duplicate ht ha] at hs
        cases hs
        refine ⟨[], t :: ts, rfl, rfl, ⟨[], _, [], by simpa using hb, rfl, rfl⟩, ?_⟩
        intro u us hrest vs stop'
        obtain ⟨rfl, rfl⟩ := List.cons.inj hrest
        exact ⟨⟨t :: vs, stop'⟩, clauses_duplicate ht ha vs stop'⟩

end

end Read

namespace Block

variable {table : List Clause} {blocks : List Block}

theorem missing?_fill (h : Clause.Regular table) (hb : Distinct table blocks) (name : Token) :
    Clause.missing? table (fill table name blocks) = none ↔ Complete table blocks := by
  have hd : ∀ c ∈ table, ((fill table name blocks).getD c.slot .absent).isAbsent = true ↔
      c ∉ blocks.map Block.clause := by
    intro c hc
    rw [getD_fill h name hc, isAbsent_slot hb]
  simp only [Clause.missing?, List.find?_eq_none, Bool.and_eq_true, not_and]
  constructor
  · intro hm
    refine ⟨hb, fun c hc hr => ?_⟩
    by_contra hn
    exact hm c hc hr ((hd c hc).mpr hn)
  · intro hc c hm hr ha
    exact (hd c hm).mp ha (hc.required c hm hr)

theorem exists_valid {c : Clause} (hc : c ∈ table) : ∃ b : Block, b.clause = c ∧ b.Valid table := by
  obtain ⟨ts, child, hcontent⟩ := (Read.recognizes_content c.shape).possible
  exact ⟨⟨⟨⟨.name, c.keyword⟩, .start⟩, c, ts, child⟩, rfl, hc, by simp [Token.isWord], hcontent⟩

theorem Distinct.exists_more (hb : Distinct table blocks) (cs : List Clause)
    (hcs : ∀ c ∈ cs, c ∈ table) :
    ∃ more, Distinct table (blocks ++ more) ∧ ∀ c ∈ cs, c ∈ (blocks ++ more).map Block.clause := by
  induction cs generalizing blocks with
  | nil => exact ⟨[], by simpa using hb, by simp⟩
  | cons c cs ih =>
    have htail : ∀ d ∈ cs, d ∈ table := fun d hd => hcs d (List.mem_cons_of_mem _ hd)
    by_cases hc : c ∈ blocks.map Block.clause
    · obtain ⟨more, hd, hm⟩ := ih hb htail
      refine ⟨more, hd, ?_⟩
      intro d hd
      rcases List.mem_cons.mp hd with rfl | hd
      · rw [List.map_append]
        exact List.mem_append_left _ hc
      · exact hm d hd
    · obtain ⟨b, rfl, hv⟩ := exists_valid (hcs c List.mem_cons_self)
      obtain ⟨more, hd, hm⟩ := ih (hb.snoc hv hc) htail
      rw [List.append_assoc, List.singleton_append] at hd hm
      refine ⟨b :: more, hd, ?_⟩
      intro d hd
      rcases List.mem_cons.mp hd with rfl | hd
      · simp
      · exact hm d hd

/-- Whatever clauses have been written, those that are still missing can be added. -/
theorem Distinct.exists_complete (hb : Distinct table blocks) :
    ∃ more, Complete table (blocks ++ more) := by
  obtain ⟨more, hd, hm⟩ := hb.exists_more table fun _ hc => hc
  exact ⟨more, hd, fun c hc _ => hm c hc⟩

end Block

namespace Read

theorem recognizes_required (k : Keyword) {table : List Clause} (h : Clause.Regular table)
    (name : Token) :
    Recognizes (fun ts cs => ∃ blocks, Block.Complete table blocks ∧
        ts = blocks.flatMap Block.written ∧ cs = Block.fill table name blocks)
      (noClause table) (do
        let filled ← clauses k table (.token name :: List.replicate 7 .absent)
        match Clause.missing? table filled with
        | some clause => fail (.missingClause clause.keyword k.text)
        | none => return filled) := by
  have hnil : Block.Distinct table [] := ⟨by simp, by simp⟩
  rw [← h.length, ← Block.fill_nil name]
  refine ⟨?_, ?_, ?_, ?_⟩
  · obtain ⟨more, hc⟩ := hnil.exists_complete
    exact ⟨_, _, more, hc, rfl, rfl⟩
  · rintro _ _ ⟨blocks, hb, rfl, rfl⟩ rest stop hrest
    refine bind_ok.mpr ⟨_, _, clauses_accepts h name [] hb.toDistinct rest stop hrest, ?_⟩
    simp only [List.nil_append, (Block.missing?_fill h hb.toDistinct name).mpr hb]
    rfl
  · intro s cs s' hs
    obtain ⟨filled, s₁, hf, hs⟩ := bind_ok.mp hs
    obtain ⟨blocks, hb, rfl, rfl, hfollow⟩ := clauses_inverts h name hnil hf
    rw [List.nil_append] at hb hs
    cases hm : Clause.missing? table (Block.fill table name blocks) with
    | some c => simp [hm, fail] at hs
    | none =>
      simp only [hm] at hs
      cases hs
      exact ⟨_, rfl, ⟨blocks, (Block.missing?_fill h hb name).mp hm, rfl, rfl⟩, hfollow⟩
  · intro s e s' hs
    rcases bind_error.mp hs with he | ⟨filled, s₁, hf, he⟩
    · obtain ⟨read, rest, hs, hpos, ⟨more, _, blocks, hb, hw, rfl⟩, hfatal⟩ :=
        clauses_refuses h name hnil he
      obtain ⟨others, hc⟩ := hb.exists_complete
      refine ⟨read, rest, hs, hpos, ⟨more ++ others.flatMap Block.written, _, _, hc, ?_, rfl⟩, ?_⟩
      · rw [← List.append_assoc, hw]
        simp
      · intro t ts hrest us stop
        obtain ⟨s₁, hs₁⟩ := hfatal t ts hrest us stop
        exact ⟨s₁, bind_error.mpr (.inl hs₁)⟩
    · obtain ⟨blocks, hb, rfl, rfl, hfollow⟩ := clauses_inverts h name hnil hf
      rw [List.nil_append] at hb he
      cases hm : Clause.missing? table (Block.fill table name blocks) with
      | none => simp [hm, pure, EStateM.pure] at he
      | some c =>
        simp only [hm, fail] at he
        cases he
        -- The error stands at the token that ended the clauses, and that token still ends them.
        obtain ⟨others, hc⟩ := hb.exists_complete
        refine ⟨blocks.flatMap Block.written, s'.ahead, rfl, rfl,
          ⟨others.flatMap Block.written, _, _, hc, by simp, rfl⟩, ?_⟩
        intro t ts hrest us stop
        refine ⟨⟨t :: us, stop⟩, bind_error.mpr (.inr ⟨_, _, clauses_accepts h name [] hb _ stop ?_, ?_⟩)⟩
        · rw [hrest] at hfollow
          exact hfollow
        · simp [hm, fail, hrest, Stream.head]

theorem recognizes_slots (k : Keyword) {table : List Clause} (h : Clause.Regular table) :
    Recognizes (fun ts cs => ∃ name blocks, isFree name = true ∧ Block.Complete table blocks ∧
        ts = name :: blocks.flatMap Block.written ∧ cs = Block.fill table name blocks)
      (noClause table) (slots k table) := by
  refine (recognizes_takeName.andThen (recognizes_required k h)).congr ?_
  intro ts cs
  constructor
  · rintro ⟨name, _, _, rfl, ⟨rfl, hn⟩, blocks, hb, rfl, rfl⟩
    exact ⟨name, blocks, hn, hb, rfl, rfl⟩
  · rintro ⟨name, blocks, hn, hb, rfl, rfl⟩
    exact ⟨name, [name], _, rfl, ⟨rfl, hn⟩, blocks, hb, rfl, rfl⟩

end Read

/-- Only the statements that have a table of clauses have clauses. -/
theorem Body.valid_clauses {k : Keyword} {name : Token} {blocks : List Block}
    (h : (clauses name blocks).Valid k) :
    Clause.Regular k.clauses ∧ Block.Complete k.clauses blocks := by
  cases k with
  | host => exact ⟨Clause.regular_ofHost, h.2⟩
  | link => exact ⟨Clause.regular_ofLink, h.2⟩
  | _ => exact h.elim

end Netlab
