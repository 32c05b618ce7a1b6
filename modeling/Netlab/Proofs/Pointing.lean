import Mathlib.Data.List.Flatten
import Netlab.Proofs.Outcome
import Netlab.Proofs.Places

namespace Netlab

namespace Position

/-- The text from a place on, if the text has such a place. -/
def textAt? (cs : List Char) (p : Position) : Option (List Char) :=
  match (Text.split '\n' cs).drop (p.line - 1) with
  | [] => none
  | line :: lines =>
    if 1 ≤ p.line ∧ 1 ≤ p.column ∧ p.column ≤ 1 + line.length then
      some (['\n'].intercalate (line.drop (p.column - 1) :: lines))
    else none

/-- A place on an earlier line, or further to the left on the same one. -/
def Before (p q : Position) : Prop := p.line < q.line ∨ p.line = q.line ∧ p.column < q.column

instance : DecidableRel Before := fun _ _ => inferInstanceAs (Decidable (_ ∨ _))

theorem textAt?_afterAll (cs rest : List Char) :
    textAt? (cs ++ rest) (start.afterAll cs) = some rest := by
  obtain ⟨line, lines, hs⟩ := List.exists_cons_of_ne_nil (Text.split_ne_nil '\n' rest)
  have hrest := Text.intercalate_split '\n' rest
  rw [hs] at hrest
  have hcolumn : (cs.rtakeWhile (· ≠ '\n') ++ line).drop (cs.rtakeWhile (· ≠ '\n')).length = line :=
    List.drop_left
  rw [start_afterAll, textAt?]
  simp only [Nat.add_sub_cancel_left, drop_split hs, hcolumn, hrest]
  rw [if_pos]
  refine ⟨Nat.le_add_right _ _, Nat.le_add_right _ _, Nat.add_le_add_left ?_ 1⟩
  rw [List.length_append]
  exact Nat.le_add_right _ _

theorem Before.trans {p q r : Position} (h : p.Before q) (h' : q.Before r) : p.Before r := by
  unfold Before at *
  omega

theorem Before.ne {p q : Position} (h : p.Before q) : p ≠ q := by
  rintro rfl
  unfold Before at h
  omega

theorem before_after (p : Position) (c : Char) : p.Before (p.after c) := by
  unfold after
  split
  · exact .inl (Nat.lt_succ_self _)
  · exact .inr ⟨rfl, Nat.lt_succ_self _⟩

theorem before_afterAll (p : Position) {cs : List Char} (h : cs ≠ []) : p.Before (p.afterAll cs) := by
  induction cs generalizing p with
  | nil => exact absurd rfl h
  | cons c cs ih =>
    rw [afterAll_cons]
    cases cs with
    | nil => exact before_after p c
    | cons d cs => exact (before_after p c).trans (ih _ (List.cons_ne_nil d cs))

end Position

theorem Spelling.ne_nil {cs : List Char} {l : Lexeme} (h : Spelling cs l) : cs ≠ [] := by
  cases h <;> simp

namespace Lexed

variable {p : Position} {cs : List Char} {ts : List Token}

/-- A token stands where its spelling starts. -/
theorem exists_spelling (h : Lexed p cs ts) : ∀ t ∈ ts, t.kind ≠ .eof →
    ∃ read spelling rest, cs = read ++ (spelling ++ rest) ∧ t.pos = p.afterAll read ∧
      Spelling spelling t.toLexeme ∧ Apart t.toLexeme rest := by
  induction h with
  | done => exact List.forall_mem_singleton.mpr fun hk => absurd rfl hk
  | @token p gap spelling rest l ts _ hs ha _ ih =>
    refine List.forall_mem_cons.mpr ⟨fun _ => ⟨gap, spelling, rest, rfl, rfl, hs, ha⟩, ?_⟩
    intro t ht hk
    obtain ⟨read, spelling', rest', rfl, hpos, hs', ha'⟩ := ih t ht hk
    refine ⟨gap ++ (spelling ++ read), spelling', rest', by simp, ?_, hs', ha'⟩
    rw [hpos, Position.afterAll_append, Position.afterAll_append]

theorem exists_textAt? (h : Lexed .start cs ts) : ∀ t ∈ ts, t.kind ≠ .eof →
    ∃ spelling rest, t.pos.textAt? cs = some (spelling ++ rest) ∧ Spelling spelling t.toLexeme ∧
      Apart t.toLexeme rest := by
  intro t ht hk
  obtain ⟨read, spelling, rest, rfl, hpos, hs, ha⟩ := h.exists_spelling t ht hk
  refine ⟨spelling, rest, ?_, hs, ha⟩
  rw [hpos]
  exact Position.textAt?_afterAll read (spelling ++ rest)

theorem pairwise_before (h : Lexed p cs ts) : ts.Pairwise fun t u => t.pos.Before u.pos := by
  induction h with
  | done => exact List.pairwise_singleton _ _
  | @token p gap spelling rest l ts _ hs _ hlex ih =>
    refine List.pairwise_cons.mpr ⟨fun u hu => ?_, ih⟩
    obtain ⟨read, rest', -, hpos⟩ := hlex.exists_afterAll u hu
    rw [hpos, ← Position.afterAll_append]
    exact Position.before_afterAll _ (List.append_ne_nil_of_left_ne_nil hs.ne_nil read)

end Lexed

/-- A name that starts a text and ends where no more characters of names follow. -/
def WordAt (word : String) (cs : List Char) : Prop :=
  ∃ rest, cs = word.toList ++ rest ∧ ∀ c, rest.head? = some c → isNameChar c = false

/-- A value that starts a text: a name as it is, a number as a whole run of digits, and a string in
quotes. -/
def Atom.WrittenAt (cs : List Char) : Atom → Prop
  | name s => isName s = true ∧ WordAt s cs
  | int n => ∃ digits, WordAt digits cs ∧ digits.toList ≠ [] ∧ (∀ d ∈ digits.toList, d.isDigit = true) ∧
    Nat.ofDigitChars 10 digits.toList 0 = n.toNat
  | str s => ∃ quote inner rest, (quote = '"' ∨ quote = '\'') ∧ cs = quote :: (inner ++ quote :: rest) ∧
    Quoted quote inner s.toList

def Action.values : Action → List Value
  | controller v => [v]
  | host h => h.ports ++ (h.env.map Prod.snd ++ h.cmd)
  | _ => []

def Program.values (p : Program) : List Value := p.statements.flatMap fun s => s.action.values

namespace Token

theorem pos_of_value {t : Token} {v : Value} (h : t.value = .ok v) : v.pos = t.pos := by
  unfold value at h
  split at h
  · cases h
    rfl
  · cases h
    rfl
  · obtain ⟨n, -, rfl⟩ := map_eq_ok.mp h
    rfl
  · cases h

section

variable {t : Token} {spelling rest : List Char} (hs : Spelling spelling t.toLexeme)
  (ha : Apart t.toLexeme rest)
include hs ha

theorem wordAt (ht : t.kind = .name ∨ t.kind = .number) : WordAt t.text (spelling ++ rest) := by
  have hspelled := hs.spelledAs
  obtain rfl : spelling = t.text.toList := by
    obtain hk | hk := ht
    · rw [hk] at hspelled
      exact hspelled.1
    · rw [hk] at hspelled
      exact hspelled.1
  exact ⟨rest, rfl, ha ht⟩

theorem writtenAt_value {v : Value} (hv : t.value = .ok v) :
    v.atom.WrittenAt (spelling ++ rest) := by
  have hspelled := hs.spelledAs
  cases hk : t.kind with
  | name =>
    rw [value, hk] at hv
    rw [hk] at hspelled
    cases hv
    exact ⟨hspelled.2, wordAt hs ha (.inl hk)⟩
  | string =>
    rw [value, hk] at hv
    rw [hk] at hspelled
    cases hv
    obtain ⟨quote, inner, hq, rfl, hquoted⟩ := hspelled
    exact ⟨quote, inner, rest, hq, by simp, hquoted⟩
  | number =>
    rw [value, hk] at hv
    rw [hk] at hspelled
    obtain ⟨n, hn, rfl⟩ := map_eq_ok.mp hv
    obtain ⟨rfl, hne, hd⟩ := hspelled
    have hvalue : t.magnitude = n.toNat := (Spelled.int_eq_ok ⟨_, hs⟩ hk).mp hn
    exact ⟨t.text, wordAt hs ha (.inr hk), hne, hd, hvalue⟩
  | _ =>
    rw [value, hk] at hv
    cases hv

end

end Token

def Valued (ts : List Token) (vs : List Value) : Prop :=
  ∃ us, us.Sublist ts ∧ List.Forall₂ (fun t v => t.value = .ok v) us vs

namespace Valued

variable {ts us : List Token} {vs ws : List Value}

theorem nil (ts : List Token) : Valued ts [] := ⟨[], List.nil_sublist ts, .nil⟩

theorem append (h : Valued ts vs) (h' : Valued us ws) : Valued (ts ++ us) (vs ++ ws) := by
  obtain ⟨ts', hts, hvs⟩ := h
  obtain ⟨us', hus, hws⟩ := h'
  exact ⟨ts' ++ us', hts.append hus, List.rel_append hvs hws⟩

theorem behind (ts : List Token) (h : Valued us vs) : Valued (ts ++ us) vs := by
  simpa using (nil ts).append h

theorem flatMap {κ α : Type} {tokens : κ → List Token} {values : α → List Value} {cs : List κ}
    {xs : List α} (h : List.Forall₂ (fun c x => Valued (tokens c) (values x)) cs xs) :
    Valued (cs.flatMap tokens) (xs.flatMap values) := by
  induction h with
  | nil => exact nil []
  | cons hc _ ih => exact hc.append ih

end Valued

namespace Child

variable {α : Type} {c : Child}

theorem valued_value {v : Value} (h : c.HoldsValue v) : Valued c.tokens [v] := by
  obtain ⟨t, rfl, hv⟩ := h
  exact ⟨[t], List.Sublist.refl _, .cons hv .nil⟩

theorem valued_items {l : Listing} {item : Child → α → Prop} {value : α → Value}
    (hitem : ∀ {d x}, item d x → Valued d.tokens [value x]) {xs : List α}
    (h : HoldsItems l item c xs) : Valued c.tokens (xs.map value) := by
  obtain ⟨rfl, rfl⟩ | ⟨pos, cs, rfl, hall⟩ := h
  · exact Valued.nil _
  · rw [tokens_node, List.map_eq_flatMap]
    exact Valued.flatMap (hall.imp fun _ _ => hitem)

theorem valued_array {vs : List Value} (h : HoldsItems .array HoldsValue c vs) :
    Valued c.tokens vs := by
  have hid : Valued c.tokens (vs.map id) := valued_items (fun hv => valued_value hv) h
  rwa [List.map_id] at hid

theorem valued_object {es : List (String × Value)}
    (h : HoldsItems .object (HoldsPair HoldsText HoldsValue) c es) :
    Valued c.tokens (es.map Prod.snd) := by
  refine valued_items ?_ h
  rintro _ e ⟨_, _, a, b, rfl, -, hb⟩
  rw [tokens_node]
  exact ((valued_value hb).append (Valued.nil [])).behind a.tokens

end Child

theorem Action.HeldBy.valued {rule : Rule} {cs : List Child} {a : Action} (h : HeldBy rule cs a) :
    Valued (cs.flatMap Child.tokens) a.values := by
  cases h with
  | @controller c v hv => simpa [values] using Child.valued_value hv
  | @host c₀ c₁ c₂ c₃ c₄ c₅ c₆ c₇ h hh =>
    have hcmd : Valued ([c₇].flatMap Child.tokens) h.cmd := by
      simpa using Child.valued_array hh.cmd
    exact (((((Child.valued_array hh.ports).append
      (((Child.valued_object hh.env).append hcmd).behind c₅.tokens)).behind c₃.tokens).behind
      c₂.tokens).behind c₁.tokens).behind c₀.tokens
  | remoteController | switch | link | intent | up | down | ping => exact Valued.nil _

theorem Program.valued_of_ofTrees {trees : List Tree} {p : Program}
    (h : Program.ofTrees trees = .ok p) : Valued (trees.flatMap Tree.tokens) p.values := by
  refine Valued.flatMap ((Program.ofTrees_eq_ok.mp h).imp fun tree st hst => ?_)
  rw [Tree.tokens_eq]
  exact (Statement.ofTree_eq_ok.mp hst).2.valued

/-- The tokens that carry data are written in the same order as they are listed. -/
theorem Body.payload_sublist (b : Body) : b.payload.Sublist b.written := by
  cases b with
  | nothing | value | names => exact List.Sublist.refl _
  | remote name hostWord host portWord port =>
    exact ((((List.Sublist.refl [port]).cons portWord).cons_cons host).cons hostWord).cons_cons name
  | chain first hops =>
    refine List.Sublist.cons_cons first ?_
    rw [List.map_eq_flatMap]
    exact List.Sublist.flatMap_right _ fun hop _ => (List.Sublist.refl [hop.2]).cons hop.1
  | clauses name blocks =>
    refine List.Sublist.cons_cons name (List.Sublist.flatMap_right _ fun b _ => ?_)
    exact List.filter_sublist.cons b.key

namespace Derivation

variable {ts : List Token} {ps : List Phrase} (h : Derivation ts ps)
include h

theorem keys_sublist : (ps.map Phrase.key).Sublist ts := by
  rw [← h.written, List.map_eq_flatMap]
  exact List.Sublist.flatMap_right _ fun p _ => (List.nil_sublist p.body.written).cons_cons p.key

/-- The trees of a text hold some of its tokens, each of them once. -/
theorem exists_sublist_perm :
    ∃ us, us.Sublist ts ∧ ((ps.map Phrase.tree).flatMap Tree.tokens).Perm us := by
  refine ⟨ps.flatMap fun p => p.body.payload, ?_, ?_⟩
  · rw [← h.written]
    exact List.Sublist.flatMap_right _ fun p _ => p.body.payload_sublist.cons p.key
  · rw [List.flatMap_map]
    exact List.Perm.flatMap_left _ fun p hp => Phrase.tokens_perm (h.valid p hp)

end Derivation

theorem Action.HeldBy.keyword_eq {k : Keyword} {cs : List Child} {a : Action}
    (h : HeldBy k.rule cs a) : a.keyword = k := by
  cases k <;> cases h <;> rfl

namespace Program

/-- Every statement is placed at its keyword, one behind the other, and every value is placed where it
is written, no two of them at the same place. -/
theorem ofText_positions {s : String} {p : Program} (h : ofText s = .ok p) :
    (∀ st ∈ p.statements, ∃ cs, st.pos.textAt? s.toList = some cs ∧ WordAt st.action.keyword.text cs) ∧
      p.statements.Pairwise (fun st st' => st.pos.Before st'.pos) ∧
      (∀ v ∈ p.values, ∃ cs, v.pos.textAt? s.toList = some cs ∧ v.atom.WrittenAt cs) ∧
      (p.values.map Value.pos).Nodup := by
  obtain ⟨ts, stop, ps, hlex, hps, hst⟩ := ofText_eq_ok.mp h
  have hbefore : ts.Pairwise fun t u => t.pos.Before u.pos :=
    (List.pairwise_append.mp hlex.pairwise_before).1
  have hplace : ∀ t ∈ ts, ∃ spelling rest, t.pos.textAt? s.toList = some (spelling ++ rest) ∧
      Spelling spelling t.toLexeme ∧ Apart t.toLexeme rest := fun t ht =>
    hlex.exists_textAt? t (List.mem_append_left _ ht) (hlex.spelled_of_snoc t ht).ne_eof
  obtain ⟨us, hus, hvalues⟩ := valued_of_ofTrees
    (ofTrees_eq_ok.mpr (List.forall₂_map_left_iff.mpr hst))
  obtain ⟨ws, hws, hperm⟩ := hps.exists_sublist_perm
  refine ⟨?_, ?_, ?_, ?_⟩
  · intro st hm
    obtain ⟨q, hq, hst⟩ := Lists.exists_left_of_forall₂ hst hm
    obtain ⟨hpos, ha⟩ := Statement.ofTree_eq_ok.mp hst
    obtain ⟨hkind, hword⟩ := Token.isWord_iff.mp (hps.valid q hq).1
    obtain ⟨spelling, rest, htext, hs, hapart⟩ :=
      hplace q.key (hps.keys_sublist.subset (List.mem_map_of_mem hq))
    refine ⟨spelling ++ rest, hpos ▸ htext, ?_⟩
    rw [ha.keyword_eq, ← hword]
    exact Token.wordAt hs hapart (.inl hkind)
  · have hpos : p.statements.map Statement.pos = (ps.map Phrase.key).map Token.pos := by
      rw [List.map_map]
      refine (Lists.map_eq_of_forall₂ (hst.imp fun q st hst => ?_)).symm
      exact (Statement.ofTree_eq_ok.mp hst).1.symm
    rw [← List.pairwise_map, hpos, List.pairwise_map]
    exact hbefore.sublist hps.keys_sublist
  · intro v hv
    obtain ⟨t, ht, htv⟩ := Lists.exists_left_of_forall₂ hvalues hv
    obtain ⟨spelling, rest, htext, hs, ha⟩ := hplace t (hws.subset (hperm.subset (hus.subset ht)))
    exact ⟨spelling ++ rest, Token.pos_of_value htv ▸ htext, Token.writtenAt_value hs ha htv⟩
  · have hpos : us.map Token.pos = p.values.map Value.pos :=
      Lists.map_eq_of_forall₂ (hvalues.imp fun t v hv => (Token.pos_of_value hv).symm)
    have hnodup : (ts.map Token.pos).Nodup :=
      List.pairwise_map.mpr (hbefore.imp fun hb => hb.ne)
    rw [← hpos]
    exact (((hperm.map _).nodup_iff).mpr (hnodup.sublist (hws.map _))).sublist (hus.map _)

def scattered : String :=
  "# é\nhost a env \x7b'k': 'é\\'', 'm': b\x7d image 'i' cmd [07]\n\tup"

def scatteredProgram : Program :=
  ⟨[⟨⟨2, 1⟩, .host ⟨"a", none, "i", none, [], [],
      [("k", ⟨.str "é'", ⟨2, 18⟩⟩), ("m", ⟨.name "b", ⟨2, 30⟩⟩)], [⟨.int 7, ⟨2, 48⟩⟩]⟩⟩,
    ⟨⟨3, 2⟩, .up⟩]⟩

theorem ofText_positions_scattered :
    ofText scattered = .ok scatteredProgram ∧
      (∃ cs, Position.textAt? scattered.toList ⟨3, 2⟩ = some cs ∧ WordAt "up" cs) ∧
      (∃ cs, Position.textAt? scattered.toList ⟨2, 18⟩ = some cs ∧ (Atom.str "é'").WrittenAt cs) ∧
      ∃ cs, Position.textAt? scattered.toList ⟨2, 48⟩ = some cs ∧ (Atom.int 7).WrittenAt cs := by
  have h : ofText scattered = .ok scatteredProgram := by decide +kernel
  obtain ⟨hstatements, -, hvalues, -⟩ := ofText_positions h
  refine ⟨h, hstatements ⟨⟨3, 2⟩, .up⟩ (by decide), ?_, ?_⟩
  · exact hvalues ⟨.str "é'", ⟨2, 18⟩⟩ (by decide)
  · exact hvalues ⟨.int 7, ⟨2, 48⟩⟩ (by decide)

end Program

end Netlab
