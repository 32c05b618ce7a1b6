import Netlab.Proofs.WellFormed

namespace Netlab

def Token.Fits (t : Token) : Prop := t.kind = .number → ∃ n, t.int = .ok n

/-- The fault of a number that is too large. -/
def NumberFault (ts : List Token) (e : ParseError) : Prop :=
  ∃ t ∈ ts, t.kind = .number ∧ t.int = .error e

/-- An outcome that depends on the numbers among the tokens alone: if one is too large, reading fails
with the fault of such a number, and it succeeds if all of them fit. -/
def Settled {α : Type} (ts : List Token) (x : Except ParseError α) : Prop :=
  (∃ a, x = .ok a ∧ ∀ t ∈ ts, t.Fits) ∨ ∃ e, x = .error e ∧ NumberFault ts e

namespace Settled

variable {α β : Type} {ts us : List Token} {x : Except ParseError α}

theorem congr (h : Settled ts x) (ht : ∀ t, t.kind = .number → (t ∈ ts ↔ t ∈ us)) : Settled us x := by
  obtain ⟨a, hx, hfit⟩ | ⟨e, hx, t, hm, hk, he⟩ := h
  · exact .inl ⟨a, hx, fun t hm hk => hfit t ((ht t hk).mpr hm) hk⟩
  · exact .inr ⟨e, hx, t, (ht t hk).mp hm, hk, he⟩

theorem bind {f : α → Except ParseError β} (h : Settled ts x)
    (hf : ∀ a, x = .ok a → Settled us (f a)) : Settled (ts ++ us) (x >>= f) := by
  obtain ⟨a, hx, hfit⟩ | ⟨e, hx, t, hm, ht⟩ := h
  · obtain ⟨b, hb, hfit'⟩ | ⟨e, he, t, hm, ht⟩ := hf a hx
    · exact .inl ⟨b, bind_eq_ok.mpr ⟨a, hx, hb⟩, List.forall_mem_append.mpr ⟨hfit, hfit'⟩⟩
    · refine .inr ⟨e, ?_, t, List.mem_append_right ts hm, ht⟩
      rw [hx]
      exact he
  · refine .inr ⟨e, ?_, t, List.mem_append_left us hm, ht⟩
    rw [hx]
    rfl

theorem map (h : Settled ts x) (f : α → β) : Settled ts (x.map f) := by
  obtain ⟨a, rfl, hfit⟩ | ⟨e, rfl, ht⟩ := h
  · exact .inl ⟨f a, rfl, hfit⟩
  · exact .inr ⟨e, rfl, ht⟩

theorem mapM {κ : Type} {f : κ → Except ParseError α} {tokens : κ → List Token} {xs : List κ}
    (h : ∀ c ∈ xs, Settled (tokens c) (f c)) : Settled (xs.flatMap tokens) (xs.mapM f) := by
  induction xs with
  | nil => exact .inl ⟨[], rfl, by simp⟩
  | cons c xs ih =>
    obtain ⟨hc, hxs⟩ := List.forall_mem_cons.mp h
    have hrest : ∀ a, Settled (xs.flatMap tokens) (do return a :: (← xs.mapM f)) :=
      fun a => (ih hxs).map (a :: ·)
    rw [List.mapM_cons, List.flatMap_cons]
    exact hc.bind fun a _ => hrest a

end Settled

namespace Token

variable {t : Token}

theorem settled_int (h : t.kind = .number) : Settled [t] t.int := by
  cases hi : t.int with
  | ok n => exact .inl ⟨n, rfl, List.forall_mem_singleton.mpr fun _ => ⟨n, hi⟩⟩
  | error e => exact .inr ⟨e, rfl, t, List.mem_cons_self, h, hi⟩

theorem fits_of_kind (h : t.kind ≠ .number) : t.Fits := fun hk => absurd hk h

theorem settled_value (h : t.IsValue) : Settled [t] t.value := by
  have hother : ∀ v, t.kind ≠ .number → t.value = .ok v → Settled [t] t.value := fun v hk hv =>
    .inl ⟨v, hv, List.forall_mem_singleton.mpr (fits_of_kind hk)⟩
  obtain hf | hk | hk := h
  · have hk := (Read.isFree_iff.mp hf).1
    exact hother ⟨.name t.text, t.pos⟩ (by simp [hk]) (by simp [value, hk])
  · exact hother ⟨.str t.text, t.pos⟩ (by simp [hk]) (by simp [value, hk])
  · have hv : t.value = t.int.map fun n => ⟨.int n, t.pos⟩ := by simp [value, hk]
    rw [hv]
    exact (settled_int hk).map _

end Token

namespace Slots

variable {α β : Type} {owner : Tree} {cs rest : List Child} {ts us : List Token}

/-- A step that takes the children before `rest`, unless a number among their tokens is too large. -/
structure Settles (r : Slots α) (cs rest : List Child) (ts : List Token) : Prop where
  settled : Settled ts (r cs)
  rest_eq : ∀ {p : α × List Child}, r cs = .ok p → p.2 = rest

namespace Settles

variable {r : Slots α}

theorem bind {f : α → Slots β} {cs₁ : List Child} (h : Settles r cs cs₁ ts)
    (hf : ∀ a, Settles (f a) cs₁ rest us) : Settles (r >>= f) cs rest (ts ++ us) where
  settled := by
    refine h.settled.bind fun ⟨a, cs'⟩ hp => ?_
    obtain rfl : cs' = cs₁ := h.rest_eq hp
    exact (hf a).settled
  rest_eq := by
    intro p hp
    obtain ⟨⟨a, cs'⟩, hq, hp⟩ := bind_eq_ok.mp hp
    obtain rfl : cs' = cs₁ := h.rest_eq hq
    exact (hf a).rest_eq hp

theorem congr {r' : Slots α} {cs' : List Child} (h : Settles r cs rest ts) (he : r' cs' = r cs) :
    Settles r' cs' rest ts where
  settled := he ▸ h.settled
  rest_eq := fun hp => h.rest_eq (he ▸ hp)

theorem pure (a : α) : Settles (Pure.pure a) cs cs [] where
  settled := .inl ⟨(a, cs), rfl, by simp⟩
  rest_eq := by
    intro p hp
    cases hp
    rfl

theorem map (h : Settles r cs rest ts) (f : α → β) : Settles (do return f (← r)) cs rest ts := by
  simpa using h.bind fun a => pure (f a)

theorem lift {x : Except ParseError α} (h : Settled ts x) : Settles (StateT.lift x) cs cs ts where
  settled := h.map fun a => (a, cs)
  rest_eq := fun hp => (lift_eq_ok.mp hp).2

/-- A step that takes all children of a tree settles the tree. -/
theorem whole (h : Settles r owner.children [] ts) : Settled ts (Slots.whole r owner) := by
  obtain ⟨⟨a, rest⟩, ha, hfit⟩ | ⟨e, he, ht⟩ := h.settled
  · obtain rfl : rest = [] := h.rest_eq ha
    exact .inl ⟨a, whole_eq_ok.mpr ha, hfit⟩
  · refine .inr ⟨e, ?_, ht⟩
    rw [Slots.whole, he]
    rfl

end Settles

section

variable {t : Token}

theorem settles_text (h : t.kind ≠ .number) : Settles (text owner) (.token t :: cs) cs [t] :=
  have hs : Settled [t] (.ok t.text) :=
    .inl ⟨t.text, rfl, List.forall_mem_singleton.mpr (Token.fits_of_kind h)⟩
  (Settles.lift hs).congr rfl

theorem settles_int (h : t.kind = .number) : Settles (int owner) (.token t :: cs) cs [t] :=
  (Settles.lift (Token.settled_int h)).congr rfl

theorem settles_value (h : t.IsValue) : Settles (value owner) (.token t :: cs) cs [t] :=
  (Settles.lift (Token.settled_value h)).congr rfl

end

def Fills (shape : Shape) (c : Child) : Prop := c = .absent ∨ ∃ ts, Content shape ts c

section

variable {c : Child}

theorem settles_text_of_content {shape : Shape} (hshape : shape = .name ∨ shape = .string)
    (h : Content shape ts c) : Settles (text owner) (c :: cs) cs c.tokens := by
  cases h with
  | name hf => exact settles_text (by simp [(Read.isFree_iff.mp hf).1])
  | string hk => exact settles_text (by simp [hk])
  | number | listing => simp at hshape

theorem settles_text? {shape : Shape} (hshape : shape = .name ∨ shape = .string)
    (h : Fills shape c) : Settles (text? owner) (c :: cs) cs c.tokens := by
  obtain rfl | ⟨ts, h⟩ := h
  · exact (Settles.pure none).congr rfl
  · have hs : Settles (text owner) (c :: cs) cs c.tokens := settles_text_of_content hshape h
    cases h with
    | name | string => exact (hs.map some).congr rfl
    | number | listing => simp at hshape

theorem settles_int? (h : Fills .number c) : Settles (int? owner) (c :: cs) cs c.tokens := by
  obtain rfl | ⟨ts, h⟩ := h
  · exact (Settles.pure none).congr rfl
  · cases h with
    | @number t hk =>
      have hs : Settles (int owner) (.token t :: cs) cs [t] := settles_int hk
      exact (hs.map some).congr rfl

theorem settles_items {l : Listing} {f : Tree → Child → Except ParseError α}
    (hf : ∀ {tree ts c}, Member l ts c → Settled c.tokens (f tree c)) (h : Fills (.listing l) c) :
    Settles (do let tree ← listing owner l; each (f tree) tree.children) (c :: cs) cs c.tokens := by
  obtain rfl | ⟨ts, h⟩ := h
  · exact (Settles.pure []).congr rfl
  · cases h with
    | @listing _ opening closing ts children _ hm _ =>
      let tree : Tree := ⟨l.rule, opening.pos, children⟩
      have hread : listing owner l (.node l.rule opening.pos children :: cs) = .ok (tree, cs) :=
        reads_listing.eq_ok.mpr ⟨_, rfl, .inr ⟨_, _, rfl, rfl⟩⟩
      have hitems : Settled (children.flatMap Child.tokens) (children.mapM (f tree)) := by
        refine Settled.mapM fun d hd => ?_
        obtain ⟨us, hu, -⟩ := hm.exists_member d hd
        exact hf hu
      rw [Child.tokens_node]
      refine (Settles.lift hitems).congr ?_
      change (listing owner l _ >>= fun p => each (f p.1) p.1.children p.2) = _
      rw [hread]
      rfl

theorem settles_array (h : Fills (.listing .array) c) :
    Settles (array owner) (c :: cs) cs c.tokens := by
  refine settles_items ?_ h
  rintro _ _ _ ⟨hv⟩
  exact Token.settled_value hv

theorem settles_object (h : Fills (.listing .object) c) :
    Settles (object owner) (c :: cs) cs c.tokens := by
  refine settles_items ?_ h
  intro tree ts d hd
  cases hd with
  | @pair key _ v hk _ hv =>
    let pair : Tree := ⟨.pair, key.pos, [.token key, .token v]⟩
    have hs : Settles (do return (← text pair, ← value pair)) pair.children [] ([key] ++ [v]) :=
      (settles_text (by simp [hk])).bind fun k => (settles_value hv).map fun x => (k, x)
    exact hs.whole

theorem settles_intMap (h : Fills (.listing .intMap) c) :
    Settles (intMap owner) (c :: cs) cs c.tokens := by
  refine settles_items ?_ h
  intro tree ts d hd
  cases hd with
  | @intPair key _ v hk _ hv =>
    let pair : Tree := ⟨.intPair, key.pos, [.token key, .token v]⟩
    have hs : Settles (do return (← int pair, ← int pair)) pair.children [] ([key] ++ [v]) :=
      (settles_int hk).bind fun k => (settles_int hv).map fun x => (k, x)
    exact hs.whole

end

theorem settles_host {name : Token} {ip image mac ports portBindings env cmd : Child}
    (hname : name.kind ≠ .number) (hip : Fills .string ip) (himage : Content .string ts image)
    (hmac : Fills .string mac) (hports : Fills (.listing .array) ports)
    (hbindings : Fills (.listing .intMap) portBindings) (henv : Fills (.listing .object) env)
    (hcmd : Fills (.listing .array) cmd) :
    Settles (host owner) [.token name, ip, image, mac, ports, portBindings, env, cmd] []
      ([.token name, ip, image, mac, ports, portBindings, env, cmd].flatMap Child.tokens) :=
  (settles_text hname).bind fun _ => (settles_text? (.inr rfl) hip).bind fun _ =>
    (settles_text_of_content (.inr rfl) himage).bind fun _ =>
    (settles_text? (.inr rfl) hmac).bind fun _ => (settles_array hports).bind fun _ =>
    (settles_intMap hbindings).bind fun _ => (settles_object henv).bind fun _ =>
    (settles_array hcmd).bind fun _ => Settles.pure _

theorem settles_link {name : Token} {src dst port1 port2 cls delay bw : Child}
    (hname : name.kind ≠ .number) (hsrc : Content .name ts src) (hdst : Content .name us dst)
    (hport1 : Fills .number port1) (hport2 : Fills .number port2) (hcls : Fills .name cls)
    (hdelay : Fills .string delay) (hbw : Fills .number bw) :
    Settles (link owner) [.token name, src, dst, port1, port2, cls, delay, bw] []
      ([.token name, src, dst, port1, port2, cls, delay, bw].flatMap Child.tokens) :=
  (settles_text hname).bind fun _ => (settles_text_of_content (.inl rfl) hsrc).bind fun _ =>
    (settles_text_of_content (.inl rfl) hdst).bind fun _ => (settles_int? hport1).bind fun _ =>
    (settles_int? hport2).bind fun _ => (settles_text? (.inl rfl) hcls).bind fun _ =>
    (settles_text? (.inr rfl) hdelay).bind fun _ => (settles_int? hbw).bind fun _ => Settles.pure _

theorem settles_names (h : ∀ t ∈ ts, t.kind ≠ .number) :
    Settles (names owner) (ts.map .token) [] ((ts.map Child.token).flatMap Child.tokens) := by
  have hs : Settled ((ts.map Child.token).flatMap Child.tokens)
      ((ts.map Child.token).mapM (childText owner)) := by
    refine Settled.mapM fun c hc => ?_
    obtain ⟨t, ht, rfl⟩ := List.mem_map.mp hc
    exact .inl ⟨t.text, rfl, List.forall_mem_singleton.mpr (Token.fits_of_kind (h t ht))⟩
  exact (Settles.lift hs).congr rfl

end Slots

namespace Block

variable {table : List Clause} {blocks : List Block}

theorem fills_slot (h : ∀ b ∈ blocks, b.Valid table) (c : Clause) :
    Slots.Fills c.shape (slot blocks c) := by
  unfold slot
  cases hf : blocks.find? (fun b => b.clause = c) with
  | none => exact .inl rfl
  | some b =>
    obtain rfl : b.clause = c := by simpa using List.find?_some hf
    exact .inr ⟨b.content, (h b (List.mem_of_find?_eq_some hf)).content⟩

theorem Complete.exists_content (h : Complete table blocks) {c : Clause} (hc : c ∈ table)
    (hr : c.required = true) : ∃ ts, Content c.shape ts (slot blocks c) := by
  obtain ⟨b, hb, rfl⟩ := List.mem_map.mp (h.required c hc hr)
  rw [slot_of_mem h.nodup hb]
  exact ⟨b.content, (h.valid b hb).content⟩

end Block

/-- The tree of a statement is read as a statement unless one of its numbers is too large. -/
theorem Phrase.settled_ofTree {p : Phrase} (h : p.Valid) :
    Settled p.tree.tokens (Statement.ofTree p.tree) := by
  have hfree : ∀ {t : Token}, Read.isFree t = true → t.kind ≠ .number :=
    fun ht => by simp [(Read.isFree_iff.mp ht).1]
  suffices hs : Slots.Settles (Slots.action p.tree) p.tree.children [] p.tree.tokens from
    hs.whole.map (Statement.mk p.tree.pos)
  obtain ⟨key, k, body⟩ := p
  rw [Tree.tokens_eq]
  cases body with
  | nothing =>
    cases k with
    | up | down => exact Slots.Settles.pure _
    | _ => exact h.2.elim
  | value t =>
    cases k with
    | controller => exact (Slots.settles_value h.2).map Action.controller
    | _ => exact h.2.elim
  | remote name hostWord host portWord port =>
    cases k with
    | remoteController =>
      obtain ⟨hn, -, hh, -, hp⟩ := h.2
      exact (Slots.settles_text (hfree hn)).bind fun _ => (Slots.settles_text (by simp [hh])).bind
        fun _ => (Slots.settles_int hp).map _
    | _ => exact h.2.elim
  | names first more =>
    cases k with
    | switch => exact (Slots.settles_names fun t ht => hfree (h.2 t ht)).map Action.switch
    | ping => exact (Slots.settles_names fun t ht => hfree (h.2 t ht)).map Action.ping
    | _ => exact h.2.elim
  | chain first hops =>
    cases k with
    | intent =>
      obtain ⟨hf, -, hh⟩ := h.2
      have hnames : ∀ t ∈ first :: hops.map Prod.snd, t.kind ≠ .number := by
        refine List.forall_mem_cons.mpr ⟨hfree hf, fun t ht => ?_⟩
        obtain ⟨hop, hm, rfl⟩ := List.mem_map.mp ht
        exact hfree (hh hop hm).2
      exact (Slots.settles_names hnames).map Action.intent
    | _ => exact h.2.elim
  | clauses name blocks =>
    cases k with
    | host =>
      obtain ⟨hn, hb⟩ := h.2
      obtain ⟨_, himage⟩ := hb.exists_content (c := .image) (by decide) rfl
      have hfill := Block.fills_slot hb.valid
      exact (Slots.settles_host (hfree hn) (hfill _) himage (hfill _) (hfill _) (hfill _) (hfill _)
        (hfill _)).map Action.host
    | link =>
      obtain ⟨hn, hb⟩ := h.2
      obtain ⟨_, hsrc⟩ := hb.exists_content (c := .src) (by decide) rfl
      obtain ⟨_, hdst⟩ := hb.exists_content (c := .dst) (by decide) rfl
      have hfill := Block.fills_slot hb.valid
      exact (Slots.settles_link (hfree hn) hsrc hdst (hfill _) (hfill _) (hfill _) (hfill _)
        (hfill _)).map Action.link
    | _ => exact h.2.elim

theorem Token.isWord_iff {t : Token} {word : String} :
    t.isWord word = true ↔ t.kind = .name ∧ t.text = word := by
  simp [Token.isWord]

def Token.isNumber (t : Token) : Bool := t.kind = .number

theorem Token.isNumber_iff {t : Token} : t.isNumber = true ↔ t.kind = .number := by
  simp [isNumber]

theorem Token.isNumber_of_kind {t : Token} (h : t.kind ≠ .number) : t.isNumber = false := by
  simpa [isNumber] using h

/-- The numbers that are written in a statement are all among the tokens that carry data. -/
theorem Body.filter_payload {k : Keyword} {b : Body} (h : b.Valid k) :
    b.payload.filter Token.isNumber = b.written.filter Token.isNumber := by
  have hword : ∀ {t : Token} {word : String}, t.isWord word = true → t.isNumber = false := by
    intro t word ht
    exact Token.isNumber_of_kind (by simp [(Token.isWord_iff.mp ht).1])
  cases b with
  | nothing | value | names => rfl
  | remote name hostWord host portWord port =>
    cases k with
    | remoteController =>
      obtain ⟨-, hh, -, hp, -⟩ := h
      simp [payload, written, List.filter_cons, hword hh, hword hp]
    | _ => exact h.elim
  | chain first hops =>
    cases k with
    | intent =>
      have harrow : ∀ hop ∈ hops, hop.1.isNumber = false := by
        intro hop hm
        exact Token.isNumber_of_kind (by simp [(h.2.2 hop hm).1])
      have hhops : (hops.map Prod.snd).filter Token.isNumber =
          (hops.flatMap fun hop => [hop.1, hop.2]).filter Token.isNumber := by
        rw [List.map_eq_flatMap, List.filter_flatMap, List.filter_flatMap]
        apply List.flatMap_congr
        intro hop hm
        simp [List.filter_cons, harrow hop hm]
      rw [payload, written, List.filter_cons, List.filter_cons, hhops]
    | _ => exact h.elim
  | clauses name blocks =>
    have hb := (valid_clauses h).2.valid
    have hblocks : (blocks.flatMap fun b => b.content.filter Token.isData).filter Token.isNumber =
        (blocks.flatMap Block.written).filter Token.isNumber := by
      rw [List.filter_flatMap, List.filter_flatMap]
      apply List.flatMap_congr
      intro b hm
      rw [Block.written, List.filter_cons_of_neg (by simp [hword (hb b hm).key]), List.filter_filter]
      apply List.filter_congr
      intro t _
      by_cases ht : t.kind = .number
      · simp [Token.isData_of_kind ht, Kind.isData]
      · simp [Token.isNumber_of_kind ht]
    rw [payload, written, List.filter_cons, List.filter_cons, hblocks]

/-- The tree of a statement holds each of its numbers once. -/
theorem Phrase.numbers_perm {p : Phrase} (h : p.Valid) :
    (p.tree.tokens.filter Token.isNumber).Perm (p.written.filter Token.isNumber) := by
  have hkey : p.key.isNumber = false := Token.isNumber_of_kind (by simp [(Token.isWord_iff.mp h.1).1])
  rw [written, List.filter_cons_of_neg (by simp [hkey]), ← Body.filter_payload h.2]
  exact (tokens_perm h).filter _

theorem Derivation.numbers_perm {ts : List Token} {ps : List Phrase} (h : Derivation ts ps) :
    (((ps.map Phrase.tree).flatMap Tree.tokens).filter Token.isNumber).Perm
      (ts.filter Token.isNumber) := by
  rw [← h.written, List.flatMap_map, List.filter_flatMap, List.filter_flatMap]
  exact List.Perm.flatMap_left _ fun p hp => Phrase.numbers_perm (h.valid p hp)

/-- Whatever is divided into statements is read as a program unless one of its numbers is too large. -/
theorem Derivation.settled_ofTrees {ts : List Token} {ps : List Phrase} (h : Derivation ts ps) :
    Settled ts (Program.ofTrees (ps.map Phrase.tree)) := by
  have hs : Settled ((ps.map Phrase.tree).flatMap Tree.tokens)
      ((ps.map Phrase.tree).mapM Statement.ofTree) := by
    refine Settled.mapM fun tree htree => ?_
    obtain ⟨p, hp, rfl⟩ := List.mem_map.mp htree
    exact Phrase.settled_ofTree (h.valid p hp)
  refine (hs.map Program.mk).congr fun t ht => ?_
  have hm := h.numbers_perm.mem_iff (a := t)
  simpa [List.mem_filter, Token.isNumber_iff.mpr ht] using hm

/-- How the reading of a text can end: it fails in its characters or in the order of its tokens, one
of its numbers is too large, or it is a program. -/
theorem Program.ofText_cases (s : String) :
    (∃ e, Token.ofText s = .error e ∧ Program.ofText s = .error (.lexical e)) ∨
      ∃ ts stop, Token.ofText s = .ok (ts ++ [⟨⟨.eof, ""⟩, stop⟩]) ∧ (∀ t ∈ ts, t.Spelled) ∧
        ((∃ e, Tree.ofTokens (ts ++ [⟨⟨.eof, ""⟩, stop⟩]) = .error e ∧
            Program.ofText s = .error (.parse e)) ∨
          ∃ trees, Tree.ofTokens (ts ++ [⟨⟨.eof, ""⟩, stop⟩]) = .ok trees ∧
            ((∃ e, NumberFault ts e ∧ Program.ofText s = .error (.parse e)) ∨
              ∃ p, (∀ t ∈ ts, t.Fits) ∧ Program.ofText s = .ok p)) := by
  cases hl : Token.ofText s with
  | error e => exact .inl ⟨e, rfl, by rw [Program.ofText, hl]; rfl⟩
  | ok us =>
    have hread : Program.ofText s = (Tree.ofTokens us).mapError .parse >>= fun trees =>
        (Program.ofTrees trees).mapError .parse := by
      rw [Program.ofText, hl]
      rfl
    obtain ⟨ts, stop, rfl, hts⟩ := (Token.ofText_eq_ok.mp hl).exists_snoc
    refine .inr ⟨ts, stop, rfl, hts, ?_⟩
    cases ht : Tree.ofTokens (ts ++ [⟨⟨.eof, ""⟩, stop⟩]) with
    | error e => exact .inl ⟨e, rfl, by rw [hread, ht]; rfl⟩
    | ok trees =>
      have heof : ∀ t ∈ ts, t.kind ≠ .eof := fun t hm => (hts t hm).ne_eof
      obtain ⟨ps, hps, rfl⟩ := (Tree.ofTokens_snoc_eq_ok heof rfl).mp ht
      have hbuild : Program.ofText s = (Program.ofTrees (ps.map Phrase.tree)).mapError .parse := by
        rw [hread, ht]
        rfl
      refine .inr ⟨_, rfl, ?_⟩
      obtain ⟨p, hp, hfit⟩ | ⟨e, he, hfault⟩ := hps.settled_ofTrees
      · exact .inr ⟨p, hfit, by rw [hbuild, hp]; rfl⟩
      · exact .inl ⟨e, hfault, by rw [hbuild, he]; rfl⟩

theorem Program.ofText_isSyntax {s : String} {e : Error} (h : Program.ofText s = .error e) :
    e.isSyntax = true := by
  obtain ⟨d, -, hp⟩ | ⟨ts, stop, -, -, ⟨d, -, hp⟩ | ⟨trees, -, ⟨d, -, hp⟩ | ⟨p, -, hp⟩⟩⟩ :=
    Program.ofText_cases s <;> cases h.symm.trans hp <;> rfl

end Netlab
