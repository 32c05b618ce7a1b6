import Netlab.Proofs.Outcome

namespace Netlab

def Value.integers (v : Value) : List UInt64 :=
  match v.atom with
  | .int n => [n]
  | .name _ | .str _ => []

/-- The integers of a statement that belong to one slot of its tree. -/
def Action.integersAt : Action → Nat → List UInt64
  | controller v, 0 => v.integers
  | remoteController _ _ port, 2 => [port]
  | host h, 4 => h.ports.flatMap Value.integers
  | host h, 5 => h.portBindings.flatMap fun b => [b.1, b.2]
  | host h, 6 => h.env.flatMap fun e => e.2.integers
  | host h, 7 => h.cmd.flatMap Value.integers
  | link l, 3 => l.port1.toList
  | link l, 4 => l.port2.toList
  | link l, 7 => l.bw.toList
  | _, _ => []

def Child.numbers (c : Child) : List Token := c.tokens.filter Token.isNumber

/-- Numbers and the integers that they are read as. -/
def Denoted (ts : List Token) (ns : List UInt64) : Prop :=
  List.Forall₂ (fun t n => t.int = .ok n) ts ns

namespace Denoted

theorem none {c : Child} (h : c.numbers = []) : Denoted c.numbers [] := by
  rw [h]
  exact .nil

theorem single {t : Token} {n : UInt64} (hn : t.int = .ok n) : Denoted [t] [n] :=
  .cons hn .nil

theorem value {t : Token} {v : Value} (ht : t.IsValue) (hv : t.value = .ok v) :
    Denoted ([t].filter Token.isNumber) v.integers := by
  obtain hf | hk | hk := ht
  · have hk := (Read.isFree_iff.mp hf).1
    rw [Token.value, hk] at hv
    cases hv
    rw [List.filter_cons_of_neg (by simp [Token.isNumber, hk])]
    exact .nil
  · rw [Token.value, hk] at hv
    cases hv
    rw [List.filter_cons_of_neg (by simp [Token.isNumber, hk])]
    exact .nil
  · rw [Token.value, hk] at hv
    obtain ⟨n, hn, rfl⟩ := map_eq_ok.mp hv
    rw [List.filter_cons_of_pos (Token.isNumber_iff.mpr hk)]
    exact single hn

theorem append {ts us : List Token} {ns ms : List UInt64} (h : Denoted ts ns) (h' : Denoted us ms) :
    Denoted (ts ++ us) (ns ++ ms) :=
  List.rel_append h h'

theorem flatMap {α : Type} {ints : α → List UInt64} {cs : List Child} {xs : List α}
    (h : List.Forall₂ (fun c x => Denoted c.numbers (ints x)) cs xs) :
    Denoted ((cs.flatMap Child.tokens).filter Token.isNumber) (xs.flatMap ints) := by
  induction h with
  | nil => exact .nil
  | cons hc _ ih =>
    rw [List.flatMap_cons, List.flatMap_cons, List.filter_append]
    exact hc.append ih

/-- The integers that are read from numbers of a text are what the digits stand for. -/
theorem map_toNat {ts : List Token} {ns : List UInt64} (h : Denoted ts ns)
    (hts : ∀ t ∈ ts, t.Spelled ∧ t.kind = .number) :
    ns.map UInt64.toNat = ts.map Token.magnitude := by
  have hall := (List.forall₂_and_left ts ns).mpr ⟨hts, h⟩
  refine (Lists.map_eq_of_forall₂ (hall.imp ?_)).symm
  rintro t n ⟨⟨hs, hk⟩, hn⟩
  exact (hs.int_eq_ok hk).mp hn

end Denoted

namespace Child

open Slots

variable {α : Type} {c : Child}

theorem numbers_token {t : Token} (h : t.kind ≠ .number) : (Child.token t).numbers = [] := by
  simp [numbers, tokens, Token.isNumber_of_kind h]

theorem numbers_of_isFree {t : Token} (h : Read.isFree t = true) : (Child.token t).numbers = [] :=
  numbers_token (by simp [(Read.isFree_iff.mp h).1])

theorem numbers_of_text {shape : Shape} (hshape : shape = .name ∨ shape = .string)
    (h : Fills shape c) : c.numbers = [] := by
  obtain rfl | ⟨ts, h⟩ := h
  · rfl
  · cases h with
    | name hf => exact numbers_of_isFree hf
    | string hk => exact numbers_token (by simp [hk])
    | number | listing => simp at hshape

theorem denoted_int? {n? : Option UInt64} (h : Fills .number c) (hn : HoldsOption HoldsInt c n?) :
    Denoted c.numbers n?.toList := by
  obtain ⟨rfl, rfl⟩ | ⟨n, ⟨t, rfl, hn⟩, rfl⟩ := hn
  · exact .nil
  · obtain h | ⟨ts, h⟩ := h
    · cases h
    · cases h with
      | number hk =>
        rw [numbers, tokens, List.filter_cons_of_pos (Token.isNumber_iff.mpr hk)]
        exact Denoted.single hn

/-- The integers of a listing are those of its members. -/
theorem denoted_items {l : Listing} {item : Child → α → Prop} {ints : α → List UInt64}
    (hitem : ∀ {ts d x}, Member l ts d → item d x → Denoted d.numbers (ints x))
    (h : Fills (.listing l) c) {xs : List α} (hx : HoldsItems l item c xs) :
    Denoted c.numbers (xs.flatMap ints) := by
  obtain ⟨rfl, rfl⟩ | ⟨pos, cs, rfl, hall⟩ := hx
  · exact .nil
  · obtain h | ⟨ts, h⟩ := h
    · cases h
    · cases h with
      | listing _ hm _ =>
        rw [numbers, tokens_node]
        apply Denoted.flatMap
        refine List.forall₂_iff_get.mpr ⟨hall.length_eq, fun i hi hi' => ?_⟩
        obtain ⟨us, hu, -⟩ := hm.exists_member _ (List.get_mem cs ⟨i, hi⟩)
        exact hitem hu (hall.get hi hi')

theorem denoted_array (h : Fills (.listing .array) c) {vs : List Value}
    (hv : HoldsItems .array HoldsValue c vs) : Denoted c.numbers (vs.flatMap Value.integers) := by
  refine denoted_items ?_ h hv
  rintro _ _ v ⟨ht⟩ ⟨t, he, hv⟩
  cases he
  exact Denoted.value ht hv

theorem denoted_object (h : Fills (.listing .object) c) {es : List (String × Value)}
    (he : HoldsItems .object (HoldsPair HoldsText HoldsValue) c es) :
    Denoted c.numbers (es.flatMap fun e => e.2.integers) := by
  refine denoted_items ?_ h he
  rintro _ _ e hm ⟨_, _, _, _, hab, -, t, rfl, hv⟩
  cases hm with
  | @pair key _ _ hk _ ht =>
    cases hab
    have hkey : key.isNumber = false := Token.isNumber_of_kind (by simp [hk])
    rw [numbers, tokens_node, List.flatMap_cons, List.filter_append, tokens,
      List.filter_cons_of_neg (by simp [hkey])]
    exact Denoted.value ht hv

theorem denoted_intMap (h : Fills (.listing .intMap) c) {bs : List (UInt64 × UInt64)}
    (hb : HoldsItems .intMap (HoldsPair HoldsInt HoldsInt) c bs) :
    Denoted c.numbers (bs.flatMap fun b => [b.1, b.2]) := by
  refine denoted_items ?_ h hb
  rintro _ _ b hm ⟨_, _, _, _, hab, ⟨key, rfl, hk⟩, ⟨t, rfl, ht⟩⟩
  cases hm with
  | intPair hkey _ hvalue =>
    cases hab
    rw [numbers, tokens_node, List.flatMap_cons, tokens, List.flatMap_cons, tokens,
      List.flatMap_nil, List.singleton_append, List.singleton_append,
      List.filter_cons_of_pos (Token.isNumber_iff.mpr hkey),
      List.filter_cons_of_pos (Token.isNumber_iff.mpr hvalue)]
    exact .cons hk (Denoted.single ht)

end Child

section

open Slots

variable {name : Token} (hname : Read.isFree name = true)
include hname

theorem Host.HeldBy.denoted {h : Host} {ip image mac ports portBindings env cmd : Child}
    (hh : h.HeldBy (.token name) ip image mac ports portBindings env cmd) (hip : Fills .string ip)
    (himage : Fills .string image) (hmac : Fills .string mac) (hports : Fills (.listing .array) ports)
    (hbindings : Fills (.listing .intMap) portBindings) (henv : Fills (.listing .object) env)
    (hcmd : Fills (.listing .array) cmd) (i : Nat) :
    Denoted ([.token name, ip, image, mac, ports, portBindings, env, cmd].getD i Child.absent).numbers
      ((Action.host h).integersAt i) := by
  match i with
  | 0 => exact Denoted.none (Child.numbers_of_isFree hname)
  | 1 => exact Denoted.none (Child.numbers_of_text (.inr rfl) hip)
  | 2 => exact Denoted.none (Child.numbers_of_text (.inr rfl) himage)
  | 3 => exact Denoted.none (Child.numbers_of_text (.inr rfl) hmac)
  | 4 => exact Child.denoted_array hports hh.ports
  | 5 => exact Child.denoted_intMap hbindings hh.portBindings
  | 6 => exact Child.denoted_object henv hh.env
  | 7 => exact Child.denoted_array hcmd hh.cmd
  | i + 8 => exact .nil

theorem Link.HeldBy.denoted {l : Link} {src dst port1 port2 cls delay bw : Child}
    (hl : l.HeldBy (.token name) src dst port1 port2 cls delay bw) (hsrc : Fills .name src)
    (hdst : Fills .name dst) (hport1 : Fills .number port1) (hport2 : Fills .number port2)
    (hcls : Fills .name cls) (hdelay : Fills .string delay) (hbw : Fills .number bw) (i : Nat) :
    Denoted ([.token name, src, dst, port1, port2, cls, delay, bw].getD i Child.absent).numbers
      ((Action.link l).integersAt i) := by
  match i with
  | 0 => exact Denoted.none (Child.numbers_of_isFree hname)
  | 1 => exact Denoted.none (Child.numbers_of_text (.inl rfl) hsrc)
  | 2 => exact Denoted.none (Child.numbers_of_text (.inl rfl) hdst)
  | 3 => exact Child.denoted_int? hport1 hl.port1
  | 4 => exact Child.denoted_int? hport2 hl.port2
  | 5 => exact Denoted.none (Child.numbers_of_text (.inl rfl) hcls)
  | 6 => exact Denoted.none (Child.numbers_of_text (.inr rfl) hdelay)
  | 7 => exact Child.denoted_int? hbw hl.bw
  | i + 8 => exact .nil

end

theorem numbers_getD_names {ts : List Token} (hts : ∀ t ∈ ts, Read.isFree t = true) (i : Nat) :
    ((ts.map Child.token).getD i .absent).numbers = [] := by
  obtain hm | hnone := Lists.getD_mem_or (ts.map Child.token) i .absent
  · obtain ⟨t, ht, he⟩ := List.mem_map.mp hm
    rw [← he]
    exact Child.numbers_of_isFree (hts t ht)
  · rw [hnone]
    rfl

theorem Tree.mem_tokens_of_mem_slot {tree : Tree} {i : Nat} {t : Token}
    (h : t ∈ (tree.children.getD i .absent).tokens) : t ∈ tree.tokens := by
  rw [Tree.tokens_eq]
  obtain hm | hnone := Lists.getD_mem_or tree.children i .absent
  · exact List.mem_flatMap.mpr ⟨_, hm, h⟩
  · rw [hnone] at h
    cases h

/-- Every integer of a statement is read from a number in the slot that it belongs to, and no number
is left out. -/
theorem Phrase.denoted {q : Phrase} (hq : q.Valid) {st : Statement}
    (hst : Statement.ofTree q.tree = .ok st) (i : Nat) :
    Denoted (q.tree.children.getD i .absent).numbers (st.action.integersAt i) := by
  obtain ⟨-, ha⟩ := Statement.ofTree_eq_ok.mp hst
  obtain ⟨pos, a⟩ := st
  obtain ⟨key, k, body⟩ := q
  have hbody := hq.2
  cases body with
  | nothing =>
    cases k with
    | up | down =>
      cases ha
      exact .nil
    | _ => exact hbody.elim
  | value t =>
    cases k with
    | controller =>
      cases ha with
      | controller hv =>
        obtain ⟨_, he, hv⟩ := hv
        cases he
        match i with
        | 0 => exact Denoted.value hbody hv
        | i + 1 => exact .nil
    | _ => exact hbody.elim
  | remote name hostWord host portWord port =>
    cases k with
    | remoteController =>
      obtain ⟨hn, -, hh, -, hp⟩ := hbody
      cases ha with
      | remoteController _ _ hport =>
        match i with
        | 0 => exact Denoted.none (Child.numbers_of_isFree hn)
        | 1 => exact Denoted.none (Child.numbers_of_text (.inr rfl) (.inr ⟨_, .string hh⟩))
        | 2 => exact Child.denoted_int? (.inr ⟨_, .number hp⟩) (.inr ⟨_, hport, rfl⟩)
        | i + 3 => exact .nil
    | _ => exact hbody.elim
  | names first more =>
    cases k with
    | switch | ping =>
      cases ha
      exact Denoted.none (numbers_getD_names hbody i)
    | _ => exact hbody.elim
  | chain first hops =>
    cases k with
    | intent =>
      obtain ⟨hf, -, hh⟩ := hbody
      have hnames : ∀ t ∈ first :: hops.map Prod.snd, Read.isFree t = true := by
        refine List.forall_mem_cons.mpr ⟨hf, fun t ht => ?_⟩
        obtain ⟨hop, hm, rfl⟩ := List.mem_map.mp ht
        exact (hh hop hm).2
      cases ha
      exact Denoted.none (numbers_getD_names hnames i)
    | _ => exact hbody.elim
  | clauses name blocks =>
    cases k with
    | host =>
      have hfill := Block.fills_slot hbody.2.valid
      cases ha with
      | host hh =>
        exact hh.denoted hbody.1 (hfill _) (hfill _) (hfill _) (hfill _) (hfill _) (hfill _) (hfill _) i
    | link =>
      have hfill := Block.fills_slot hbody.2.valid
      cases ha with
      | link hl =>
        exact hl.denoted hbody.1 (hfill _) (hfill _) (hfill _) (hfill _) (hfill _) (hfill _) (hfill _) i
    | _ => exact hbody.elim

theorem Token.int_eq_error {t : Token} {e : ParseError} (h : t.int = .error e) :
    e = ⟨t.pos, .integerRange t.text⟩ ∧ ¬∃ n < 2 ^ 64, Text.Denotes t.text n := by
  constructor
  · unfold Token.int at h
    split at h
    · cases h
    · cases h
      rfl
  · rintro ⟨n, hn, hd⟩
    have hw : (UInt64.ofNat n).toNat = n := UInt64.toNat_ofNat_of_lt hn
    cases h.symm.trans (Token.int_eq_ok.mpr (hw.symm ▸ hd))

namespace Derivation

variable {ts : List Token} {ps : List Phrase} (h : Derivation ts ps) (hts : ∀ t ∈ ts, t.Spelled)
include h hts

theorem exists_program_iff : (∃ p, Program.ofTrees (ps.map Phrase.tree) = .ok p) ↔
    ∀ t ∈ ts, t.kind = .number → t.magnitude ≤ 2 ^ 64 - 1 := by
  have hfits : (∀ t ∈ ts, t.Fits) ↔ ∀ t ∈ ts, t.kind = .number → t.magnitude ≤ 2 ^ 64 - 1 := by
    refine forall₂_congr fun t ht => (hts t ht).fits_iff.trans (imp_congr_right fun _ => ?_)
    exact Nat.lt_iff_le_pred (by decide)
  rw [← hfits]
  obtain ⟨p, hp, hfit⟩ | ⟨e, he, t, hm, hk, hint⟩ := h.settled_ofTrees
  · exact iff_of_true ⟨p, hp⟩ hfit
  · refine iff_of_false ?_ fun hfit => ?_
    · rintro ⟨p, hp⟩
      cases he.symm.trans hp
    · obtain ⟨n, hn⟩ := hfit t hm hk
      cases hint.symm.trans hn

theorem integersAt_eq {p : Program} (hp : Program.ofTrees (ps.map Phrase.tree) = .ok p) :
    List.Forall₂ (fun tree st => ∀ i, (st.action.integersAt i).map UInt64.toNat =
      (tree.children.getD i .absent).numbers.map Token.magnitude) (ps.map Phrase.tree) p.statements := by
  have hst := List.forall₂_map_left_iff.mp (Program.ofTrees_eq_ok.mp hp)
  refine List.forall₂_map_left_iff.mpr (((List.forall₂_and_left _ _).mpr ⟨fun q hq => hq, hst⟩).imp ?_)
  rintro q st ⟨hq, hst⟩ i
  refine (Phrase.denoted (h.valid q hq) hst i).map_toNat fun t ht => ?_
  obtain ⟨hm, hn⟩ := List.mem_filter.mp ht
  have hwritten : t ∈ q.written.filter Token.isNumber :=
    (Phrase.numbers_perm (h.valid q hq)).subset
      (List.mem_filter.mpr ⟨Tree.mem_tokens_of_mem_slot hm, hn⟩)
  refine ⟨hts t ?_, Token.isNumber_iff.mp hn⟩
  rw [← h.written]
  exact List.mem_flatMap.mpr ⟨q, hq, List.mem_of_mem_filter hwritten⟩

end Derivation

namespace Program

/-- Trees that come from tokens are read as a program unless one of the numbers is too large. If the
tokens are those of a text, the integers of the program are what the digits stand for. -/
theorem ofTrees_of_ofTokens {ts : List Token} {trees : List Tree} (h : Tree.ofTokens ts = .ok trees) :
    (∀ e, ofTrees trees = .error e → e.cause.isMalformed = false ∧
        ∃ t ∈ ts, t.kind = .number ∧ (¬∃ n < 2 ^ 64, Text.Denotes t.text n) ∧
          e = ⟨t.pos, .integerRange t.text⟩) ∧
      ∀ s, Token.ofText s = .ok ts →
        ((∃ p, ofTrees trees = .ok p) ↔ ∀ t ∈ ts, t.kind = .number → t.magnitude ≤ 2 ^ 64 - 1) ∧
          ((trees.flatMap Tree.tokens).filter Token.isNumber).Perm (ts.filter Token.isNumber) ∧
          ∀ p, ofTrees trees = .ok p →
            List.Forall₂ (fun tree st => ∀ i, (st.action.integersAt i).map UInt64.toNat =
              (tree.children.getD i .absent).numbers.map Token.magnitude) trees p.statements := by
  constructor
  · intro e he
    obtain ⟨ps, hps, rfl⟩ := Stream.parse_eq_ok.mp h
    obtain ⟨p, hp, -⟩ | ⟨e', he', t, hm, hk, hint⟩ := hps.settled_ofTrees
    · cases he.symm.trans hp
    · cases he.symm.trans he'
      obtain ⟨rfl, hrange⟩ := Token.int_eq_error hint
      exact ⟨rfl, t, List.takeWhile_subset _ hm, hk, hrange, rfl⟩
  · intro s hs
    obtain ⟨us, stop, rfl, hus⟩ := (Token.ofText_eq_ok.mp hs).exists_snoc
    have heof : ∀ t ∈ us, t.kind ≠ .eof := fun t hm => (hus t hm).ne_eof
    obtain ⟨ps, hps, rfl⟩ := (Tree.ofTokens_snoc_eq_ok heof rfl).mp h
    refine ⟨?_, ?_, fun p hp => hps.integersAt_eq hus hp⟩
    · rw [hps.exists_program_iff hus, List.forall_mem_append, List.forall_mem_singleton]
      exact (and_iff_left nofun).symm
    · rw [List.filter_append]
      simpa [Token.isNumber] using hps.numbers_perm

def cappedLink : List Token :=
  [⟨⟨.name, "link"⟩, ⟨1, 1⟩⟩, ⟨⟨.name, "l"⟩, ⟨1, 6⟩⟩, ⟨⟨.name, "dst"⟩, ⟨1, 8⟩⟩, ⟨⟨.name, "b"⟩, ⟨1, 12⟩⟩,
    ⟨⟨.name, "bw"⟩, ⟨1, 14⟩⟩, ⟨⟨.number, "018446744073709551615"⟩, ⟨1, 17⟩⟩,
    ⟨⟨.name, "src"⟩, ⟨1, 39⟩⟩, ⟨⟨.name, "a"⟩, ⟨1, 43⟩⟩, ⟨⟨.eof, ""⟩, ⟨1, 44⟩⟩]

theorem ofTrees_of_ofTokens_cappedLink :
    Token.ofText "link l dst b bw 018446744073709551615 src a" = .ok cappedLink ∧
      ∃ tree p st, Tree.ofTokens cappedLink = .ok [tree] ∧ ofTrees [tree] = .ok p ∧
        p.statements = [st] ∧ (st.action.integersAt 7).map UInt64.toNat = [2 ^ 64 - 1] := by
  have htext : Token.ofText "link l dst b bw 018446744073709551615 src a" = .ok cappedLink := by
    decide +kernel
  have hslot : (Tree.ofTokens cappedLink).map (fun trees => trees.map fun tree =>
      (tree.children.getD 7 .absent).numbers.map Token.magnitude) = .ok [[2 ^ 64 - 1]] := by
    decide +kernel
  obtain ⟨trees, htrees, hslot⟩ := map_eq_ok.mp hslot
  obtain ⟨tree, rfl, hvalue⟩ := List.map_eq_singleton_iff.mp hslot
  obtain ⟨hiff, -, hintegers⟩ := (ofTrees_of_ofTokens htrees).2 _ htext
  obtain ⟨p, hp⟩ := hiff.mpr (by decide +kernel)
  obtain ⟨st, sts, hst, hnil, hsts⟩ := List.forall₂_cons_left_iff.mp (hintegers p hp)
  rw [List.forall₂_nil_left_iff.mp hnil] at hsts
  exact ⟨htext, tree, p, st, htrees, hp, hsts, (hst 7).trans hvalue⟩

end Program

end Netlab
