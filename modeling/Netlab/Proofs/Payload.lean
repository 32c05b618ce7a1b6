import Mathlib.Data.List.Perm.Basic
import Netlab.Proofs.Reading.Clauses

namespace Netlab

namespace Child

theorem allTokens_eq (cs : List Child) : allTokens cs = cs.flatMap tokens := by
  induction cs with
  | nil => rfl
  | cons c cs ih => rw [allTokens, ih, List.flatMap_cons]

theorem tokens_node (rule : Rule) (pos : Position) (cs : List Child) :
    (node rule pos cs).tokens = cs.flatMap tokens := by
  rw [tokens, allTokens_eq]

theorem flatMap_tokens_map_token (ts : List Token) : (ts.map token).flatMap tokens = ts := by
  induction ts with
  | nil => rfl
  | cons t ts ih => rw [List.map_cons, List.flatMap_cons, ih, tokens, List.singleton_append]

end Child

theorem Tree.tokens_eq (t : Tree) : t.tokens = t.children.flatMap Child.tokens :=
  Child.allTokens_eq _

namespace Token

variable {t : Token}

theorem isData_of_kind {k : Kind} (h : t.kind = k) : t.isData = k.isData := by
  rw [isData, h]

theorem isData_of_isFree (h : Read.isFree t = true) : t.isData = true := by
  simp only [Read.isFree, Bool.and_eq_true, decide_eq_true_eq] at h
  exact isData_of_kind h.1

theorem isData_of_isValue (h : t.IsValue) : t.isData = true := by
  rcases h with h | h | h
  · exact isData_of_isFree h
  · exact isData_of_kind h
  · exact isData_of_kind h

end Token

theorem Member.tokens_eq {l : Listing} {ts : List Token} {c : Child} (h : Member l ts c) :
    c.tokens = ts.filter Token.isData := by
  cases h with
  | value hv => simp [Child.tokens, Token.isData_of_isValue hv]
  | pair hk hc hv =>
    simp [Child.tokens, Child.allTokens, Token.isData_of_isValue hv, Token.isData_of_kind hk,
      Token.isData_of_kind hc, Kind.isData]
  | intPair hk hc hv =>
    simp [Child.tokens, Child.allTokens, Token.isData_of_kind hv, Token.isData_of_kind hk,
      Token.isData_of_kind hc, Kind.isData]

theorem Led.tokens_eq {l : Listing} {ts : List Token} {cs : List Child}
    (h : Led .comma (Member l) ts cs) : cs.flatMap Child.tokens = ts.filter Token.isData := by
  induction h with
  | nil => rfl
  | cons ht ha has ih =>
    have hs := Token.isData_of_kind ht
    rw [List.flatMap_cons, ih, ha.tokens_eq, List.filter_cons_of_neg (by simp [hs, Kind.isData]),
      List.filter_append]

theorem Members.tokens_eq {l : Listing} {ts : List Token} {cs : List Child} (h : Members l ts cs) :
    cs.flatMap Child.tokens = ts.filter Token.isData := by
  cases h with
  | none => rfl
  | some hm hs => rw [List.flatMap_cons, hm.tokens_eq, hs.tokens_eq, List.filter_append]

theorem Listing.isData_opening (l : Listing) : l.opening.isData = false := by
  cases l <;> rfl

theorem Listing.isData_closing (l : Listing) : l.closing.isData = false := by
  cases l <;> rfl

/-- The tree of a content holds its tokens in their order, without brackets and separators. -/
theorem Content.tokens_eq {shape : Shape} {ts : List Token} {c : Child} (h : Content shape ts c) :
    c.tokens = ts.filter Token.isData := by
  cases h with
  | name ht => simp [Child.tokens, Token.isData_of_isFree ht]
  | string ht | number ht => simp [Child.tokens, Token.isData_of_kind ht, Kind.isData]
  | @listing l _ _ _ _ ho hm hc =>
    have hopen := (Token.isData_of_kind ho).trans l.isData_opening
    have hclose := (Token.isData_of_kind hc).trans l.isData_closing
    rw [Child.tokens_node, hm.tokens_eq]
    simp [hopen, hclose]

namespace Block

variable {table : List Clause} {blocks : List Block}

theorem slot_of_mem (h : (blocks.map Block.clause).Nodup) {b : Block} (hb : b ∈ blocks) :
    slot blocks b.clause = b.child := by
  have hf : blocks.find? (fun d => d.clause = b.clause) = some b :=
    (Lists.find?_key_eq_some h).mpr ⟨hb, rfl⟩
  simp [slot, hf]

theorem slot_of_not_mem {c : Clause} (h : c ∉ blocks.map Block.clause) : slot blocks c = .absent := by
  simp [slot, find?_eq_none_iff.mpr h]

/-- The slots of a statement hold what its clauses hold, whatever order they are written in. -/
theorem Distinct.tokens_perm (ht : table.Nodup) (h : Distinct table blocks) :
    ((table.map (slot blocks)).flatMap Child.tokens).Perm
      (blocks.flatMap fun b => b.content.filter Token.isData) := by
  -- The table is made of the clauses that are written and of those whose slots stay empty.
  let others := table.filter (fun c => c ∉ blocks.map Block.clause)
  have hp : table.Perm (blocks.map Block.clause ++ others) := by
    refine (List.perm_ext_iff_of_nodup ht (h.nodup.append (ht.filter _) ?_)).mpr ?_
    · intro c hc ho
      simpa [hc] using (List.mem_filter.mp ho).2
    · intro c
      by_cases hc : c ∈ blocks.map Block.clause
      · simp [hc, h.mem_table hc]
      · simp only [List.mem_append, List.mem_filter, hc, not_false_eq_true, decide_true,
          and_true, false_or]
  have ho : others.flatMap (fun c => (slot blocks c).tokens) = [] := by
    rw [List.flatMap_eq_nil_iff]
    intro c hc
    rw [slot_of_not_mem (by simpa using (List.mem_filter.mp hc).2), Child.tokens]
  have hb : (blocks.map Block.clause).flatMap (fun c => (slot blocks c).tokens) =
      blocks.flatMap fun b => b.content.filter Token.isData := by
    rw [List.flatMap_map]
    apply List.flatMap_congr
    intro b hb
    rw [slot_of_mem h.nodup hb, (h.valid b hb).content.tokens_eq]
  rw [List.flatMap_map]
  have hf := hp.flatMap_right fun c => (slot blocks c).tokens
  rwa [List.flatMap_append, ho, hb, List.append_nil] at hf

end Block

namespace Phrase

variable {p : Phrase}

/-- No token that carries data is lost on the way from a statement to its tree, and none is held
twice. -/
theorem tokens_perm (h : p.Valid) : p.tree.tokens.Perm p.body.payload := by
  obtain ⟨key, k, body⟩ := p
  rw [Tree.tokens_eq, tree]
  cases body with
  | nothing | value | remote => exact .refl _
  | names first more => exact .of_eq (Child.flatMap_tokens_map_token _)
  | chain first hops => exact .of_eq (Child.flatMap_tokens_map_token _)
  | clauses name blocks =>
    obtain ⟨ht, hb⟩ := Body.valid_clauses h.2
    rw [Body.children, Body.payload, List.flatMap_cons, Child.tokens, List.singleton_append]
    exact (hb.toDistinct.tokens_perm ht.nodup).cons name

theorem tokens_eq (h : ∀ name blocks, p.body ≠ .clauses name blocks) :
    p.tree.tokens = p.body.payload := by
  obtain ⟨key, k, body⟩ := p
  rw [Tree.tokens_eq, tree]
  cases body with
  | nothing | value | remote => rfl
  | names first more => exact Child.flatMap_tokens_map_token _
  | chain first hops => exact Child.flatMap_tokens_map_token _
  | clauses name blocks => exact absurd rfl (h name blocks)

/-- A tree stands where its statement starts and holds every token that carries data, once and as it
is. What a clause holds is in the slot of the clause, in the order in which it is written. -/
structure HeldBy (p : Phrase) (t : Tree) : Prop where
  rule : t.rule = p.keyword.rule
  pos : t.pos = p.key.pos
  tokens : t.tokens.Perm p.body.payload
  order : (∀ name blocks, p.body ≠ .clauses name blocks) → t.tokens = p.body.payload
  name : ∀ name blocks, p.body = .clauses name blocks → t.children[0]? = some (.token name)
  clause : ∀ name blocks, p.body = .clauses name blocks → ∀ b ∈ blocks,
    t.children[b.clause.slot]? = some b.child ∧ b.child.tokens = b.content.filter Token.isData
  absent : ∀ name blocks, p.body = .clauses name blocks → ∀ c ∈ p.keyword.clauses,
    c ∉ blocks.map Block.clause → t.children[c.slot]? = some .absent

theorem heldBy_tree (h : p.Valid) : p.HeldBy p.tree := by
  obtain ⟨key, k, body⟩ := p
  refine ⟨rfl, rfl, tokens_perm h, tokens_eq, ?_, ?_, ?_⟩
  · rintro name blocks rfl
    rfl
  · rintro name blocks rfl b hb
    obtain ⟨ht, hc⟩ := Body.valid_clauses h.2
    have hv := hc.valid b hb
    have hs := Block.getElem?_fill ht name blocks hv.mem
    rw [Block.slot_of_mem hc.nodup hb] at hs
    exact ⟨hs, hv.content.tokens_eq⟩
  · rintro name blocks rfl c hm hn
    have hs := Block.getElem?_fill (Body.valid_clauses h.2).1 name blocks hm
    rwa [Block.slot_of_not_mem hn] at hs

end Phrase

end Netlab
