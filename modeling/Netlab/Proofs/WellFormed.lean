import Netlab.Compilation
import Netlab.Proofs.Derivable
import Netlab.Proofs.Lexing
import Netlab.Proofs.Slots

namespace Netlab

/-- A name that is written like one and starts no statement. -/
def FreeName (s : String) : Prop := isName s = true ∧ s ∉ Grammar.keywords

instance : DecidablePred FreeName := fun _ => inferInstanceAs (Decidable (_ ∧ _))

def Atom.WellFormed : Atom → Prop
  | name s => FreeName s
  | str _ | int _ => True

instance : DecidablePred Atom.WellFormed
  | .name s => inferInstanceAs (Decidable (FreeName s))
  | .str _ | .int _ => .isTrue trivial

def Host.WellFormed (h : Host) : Prop :=
  FreeName h.name ∧ (∀ v ∈ h.ports, v.atom.WellFormed) ∧ (∀ e ∈ h.env, e.2.atom.WellFormed) ∧
    ∀ v ∈ h.cmd, v.atom.WellFormed

instance : DecidablePred Host.WellFormed := fun _ => inferInstanceAs (Decidable (_ ∧ _))

def Link.WellFormed (l : Link) : Prop :=
  FreeName l.name ∧ FreeName l.src ∧ FreeName l.dst ∧ ∀ s ∈ l.cls, FreeName s

instance : DecidablePred Link.WellFormed := fun _ => inferInstanceAs (Decidable (_ ∧ _))

def Action.WellFormed : Action → Prop
  | controller v => v.atom.WellFormed
  | remoteController name _ _ => FreeName name
  | host h => h.WellFormed
  | switch names | ping names => names ≠ [] ∧ ∀ s ∈ names, FreeName s
  | link l => l.WellFormed
  | intent names => 2 ≤ names.length ∧ ∀ s ∈ names, FreeName s
  | up | down => True

instance : DecidablePred Action.WellFormed
  | .controller v => inferInstanceAs (Decidable v.atom.WellFormed)
  | .remoteController name _ _ => inferInstanceAs (Decidable (FreeName name))
  | .host h => inferInstanceAs (Decidable h.WellFormed)
  | .link l => inferInstanceAs (Decidable l.WellFormed)
  | .switch _ | .ping _ | .intent _ => inferInstanceAs (Decidable (_ ∧ _))
  | .up | .down => .isTrue trivial

/-- There is a statement, and every name in a statement can be written where it stands. -/
def Program.WellFormed (p : Program) : Prop :=
  p.statements ≠ [] ∧ ∀ s ∈ p.statements, s.action.WellFormed

instance : DecidablePred Program.WellFormed := fun _ => inferInstanceAs (Decidable (_ ∧ _))

/-- A token that stands in a text. -/
def Token.Spelled (t : Token) : Prop := ∃ cs, Spelling cs t.toLexeme

theorem Lexed.exists_snoc {p : Position} {cs : List Char} {ts : List Token} (h : Lexed p cs ts) :
    ∃ us stop, ts = us ++ [⟨⟨.eof, ""⟩, stop⟩] ∧ ∀ t ∈ us, t.Spelled := by
  induction h with
  | done => exact ⟨[], _, rfl, by simp⟩
  | token _ hs _ _ ih =>
    obtain ⟨us, stop, rfl, hu⟩ := ih
    exact ⟨_ :: us, stop, rfl, List.forall_mem_cons.mpr ⟨⟨_, hs⟩, hu⟩⟩

theorem Lexed.spelled_of_snoc {p stop : Position} {cs : List Char} {ts : List Token}
    (h : Lexed p cs (ts ++ [⟨⟨.eof, ""⟩, stop⟩])) : ∀ t ∈ ts, t.Spelled := by
  obtain ⟨us, stop', he, hus⟩ := h.exists_snoc
  obtain ⟨rfl, -⟩ := List.append_inj' he rfl
  exact hus

namespace Token

variable {t : Token}

theorem Spelled.ne_eof (h : t.Spelled) : t.kind ≠ .eof := by
  obtain ⟨_, hs⟩ := h
  exact hs.ne_eof

theorem Spelled.freeName (h : t.Spelled) (hf : Read.isFree t = true) : FreeName t.text := by
  obtain ⟨hk, hr⟩ := Read.isFree_iff.mp hf
  obtain ⟨⟨kind, text⟩, pos⟩ := t
  cases hk
  obtain ⟨_, hs⟩ := h
  refine ⟨hs.spelledAs.2, fun hm => ?_⟩
  rw [Grammar.isReserved_iff.mpr hm] at hr
  cases hr

theorem Spelled.value_wellFormed (h : t.Spelled) (ht : t.IsValue) {v : Value} (hv : t.value = .ok v) :
    v.atom.WellFormed := by
  unfold Token.value at hv
  split at hv
  · rename_i hk
    cases hv
    rcases ht with hf | hk' | hk'
    · exact h.freeName hf
    · cases hk.symm.trans hk'
    · cases hk.symm.trans hk'
  · cases hv
    trivial
  · cases hi : t.int with
    | error e =>
      rw [hi] at hv
      cases hv
    | ok n =>
      rw [hi] at hv
      cases hv
      trivial
  · cases hv

end Token

theorem Led.exists_member {l : Listing} {ts : List Token} {cs : List Child}
    (h : Led .comma (Member l) ts cs) : ∀ c ∈ cs, ∃ us, Member l us c ∧ us ⊆ ts := by
  induction h with
  | nil => simp
  | @cons t us vs c cs _ hc _ ih =>
    refine List.forall_mem_cons.mpr ⟨⟨us, hc, ?_⟩, ?_⟩
    · exact List.subset_cons_of_subset t (List.subset_append_left us vs)
    · intro d hd
      obtain ⟨ws, hw, hs⟩ := ih d hd
      exact ⟨ws, hw, List.Subset.trans hs
        (List.subset_cons_of_subset t (List.subset_append_right us vs))⟩

theorem Members.exists_member {l : Listing} {ts : List Token} {cs : List Child}
    (h : Members l ts cs) : ∀ c ∈ cs, ∃ us, Member l us c ∧ us ⊆ ts := by
  cases h with
  | none => simp
  | @some us vs c cs hm hs =>
    refine List.forall_mem_cons.mpr ⟨⟨us, hm, List.subset_append_left us vs⟩, ?_⟩
    intro d hd
    obtain ⟨ws, hw, hsub⟩ := hs.exists_member d hd
    exact ⟨ws, hw, List.Subset.trans hsub (List.subset_append_right us vs)⟩

/-- What is written in the slot of a clause, if the clause is written at all. -/
def Slot (c : Clause) (child : Child) : Prop :=
  child = .absent ∨ ∃ ts, Content c.shape ts child ∧ ∀ t ∈ ts, t.Spelled

namespace Slot

open Child

variable {c : Clause} {child : Child}

theorem freeName (h : Slot c child) (hc : c.shape = .name) {s : String} (hs : child.HoldsText s) :
    FreeName s := by
  obtain ⟨t, rfl, rfl⟩ := hs
  rcases h with h | ⟨ts, h, hsp⟩
  · cases h
  · rw [hc] at h
    cases h with
    | name hf => exact (hsp t List.mem_cons_self).freeName hf

theorem freeName? (h : Slot c child) (hc : c.shape = .name) {s? : Option String}
    (hs : HoldsOption HoldsText child s?) : ∀ s ∈ s?, FreeName s := by
  rcases hs with ⟨-, rfl⟩ | ⟨s, hs, rfl⟩
  · simp
  · rintro _ ⟨⟩
    exact h.freeName hc hs

theorem items {α : Type} {l : Listing} {item : Child → α → Prop} {good : α → Prop}
    (hitem : ∀ {ts c x}, Member l ts c → (∀ t ∈ ts, t.Spelled) → item c x → good x)
    (h : Slot c child) (hc : c.shape = .listing l) {xs : List α} (hx : HoldsItems l item child xs) :
    ∀ x ∈ xs, good x := by
  rcases hx with ⟨-, rfl⟩ | ⟨pos, cs, rfl, hall⟩
  · simp
  · rcases h with h | ⟨ts, h, hsp⟩
    · cases h
    · rw [hc] at h
      cases h with
      | @listing _ opening closing ts _ _ hm _ =>
        intro x hx
        obtain ⟨d, hd, hdx⟩ := Lists.exists_left_of_forall₂ hall hx
        obtain ⟨us, hu, hsub⟩ := hm.exists_member d hd
        refine hitem hu (fun t ht => hsp t ?_) hdx
        exact List.mem_cons_of_mem _ (List.mem_append_left _ (hsub ht))

theorem values (h : Slot c child) (hc : c.shape = .listing .array) {vs : List Value}
    (hv : HoldsItems .array HoldsValue child vs) : ∀ v ∈ vs, v.atom.WellFormed := by
  refine items ?_ h hc hv
  rintro _ _ v ⟨ht⟩ hsp ⟨t, he, hv⟩
  cases he
  exact (hsp _ List.mem_cons_self).value_wellFormed ht hv

theorem pairs (h : Slot c child) (hc : c.shape = .listing .object) {es : List (String × Value)}
    (he : HoldsItems .object (HoldsPair HoldsText HoldsValue) child es) :
    ∀ e ∈ es, e.2.atom.WellFormed := by
  refine items ?_ h hc he
  rintro _ _ e hm hsp ⟨_, _, a, b, hab, -, t, rfl, hv⟩
  cases hm with
  | pair _ _ ht =>
    cases hab
    exact (hsp t (by simp)).value_wellFormed ht hv

end Slot

theorem Block.slot_spelled {table : List Clause} {blocks : List Block}
    (hb : ∀ b ∈ blocks, b.Valid table) (hs : ∀ t ∈ blocks.flatMap Block.written, t.Spelled)
    (c : Clause) : Slot c (Block.slot blocks c) := by
  unfold Block.slot
  cases hf : blocks.find? (fun b => b.clause = c) with
  | none => exact .inl rfl
  | some b =>
    have hm := List.mem_of_find?_eq_some hf
    obtain rfl : b.clause = c := by simpa using List.find?_some hf
    refine .inr ⟨b.content, (hb b hm).content, fun t ht => hs t ?_⟩
    exact List.mem_flatMap.mpr ⟨b, hm, List.mem_cons_of_mem _ ht⟩

theorem forall₂_holdsText {ts : List Token} {names : List String} :
    List.Forall₂ Child.HoldsText (ts.map Child.token) names ↔ names = ts.map (fun t => t.text) := by
  induction ts generalizing names with
  | nil => simp
  | cons t ts ih => simp [List.forall₂_cons_left_iff, ih, Child.HoldsText]

section

variable {name : Token} {blocks : List Block} (hname : FreeName name.text)
  (hslot : ∀ c, Slot c (Block.slot blocks c))
include hname hslot

theorem Action.HeldBy.wellFormed_host {a : Action}
    (ha : HeldBy .host (Block.fill Keyword.host.clauses name blocks) a) : a.WellFormed := by
  cases ha with
  | host hh =>
    obtain ⟨_, he, hn⟩ := hh.name
    cases he
    refine ⟨hn ▸ hname, ?_, ?_, ?_⟩
    · exact (hslot _).values rfl hh.ports
    · exact (hslot _).pairs rfl hh.env
    · exact (hslot _).values rfl hh.cmd

theorem Action.HeldBy.wellFormed_link {a : Action}
    (ha : HeldBy .link (Block.fill Keyword.link.clauses name blocks) a) : a.WellFormed := by
  cases ha with
  | link hl =>
    obtain ⟨_, he, hn⟩ := hl.name
    cases he
    refine ⟨hn ▸ hname, ?_, ?_, ?_⟩
    · exact (hslot _).freeName rfl hl.src
    · exact (hslot _).freeName rfl hl.dst
    · exact (hslot _).freeName? rfl hl.cls

end

theorem freeName_of_forall₂ {ts : List Token} {names : List String}
    (hn : List.Forall₂ Child.HoldsText (ts.map Child.token) names)
    (hs : ∀ t ∈ ts, t.Spelled ∧ Read.isFree t = true) : ∀ s ∈ names, FreeName s := by
  intro s hm
  rw [forall₂_holdsText.mp hn] at hm
  obtain ⟨t, ht, rfl⟩ := List.mem_map.mp hm
  exact (hs t ht).1.freeName (hs t ht).2

/-- Whatever is read from a statement of a text is well-formed. -/
theorem Body.wellFormed {k : Keyword} {b : Body} (hb : b.Valid k)
    (hs : ∀ t ∈ b.written, t.Spelled) {a : Action}
    (ha : Action.HeldBy k.rule (b.children k.clauses) a) : a.WellFormed := by
  cases b with
  | nothing =>
    cases k with
    | up | down => cases ha; trivial
    | _ => exact hb.elim
  | value t =>
    cases k with
    | controller =>
      cases ha with
      | controller hv =>
        obtain ⟨_, he, hv⟩ := hv
        cases he
        exact (hs t List.mem_cons_self).value_wellFormed hb hv
    | _ => exact hb.elim
  | remote name hostWord host portWord port =>
    cases k with
    | remoteController =>
      cases ha with
      | remoteController hn =>
        obtain ⟨_, he, rfl⟩ := hn
        cases he
        exact (hs name List.mem_cons_self).freeName hb.1
    | _ => exact hb.elim
  | names first more =>
    cases k with
    | switch =>
      cases ha with
      | switch hn =>
        refine ⟨?_, freeName_of_forall₂ hn fun t ht => ⟨hs t ht, hb t ht⟩⟩
        rw [forall₂_holdsText.mp hn]
        simp
    | ping =>
      cases ha with
      | ping hn =>
        refine ⟨?_, freeName_of_forall₂ hn fun t ht => ⟨hs t ht, hb t ht⟩⟩
        rw [forall₂_holdsText.mp hn]
        simp
    | _ => exact hb.elim
  | chain first hops =>
    cases k with
    | intent =>
      obtain ⟨hf, hne, hh⟩ := hb
      cases ha with
      | intent hn =>
        refine ⟨?_, freeName_of_forall₂ hn (List.forall_mem_cons.mpr
          ⟨⟨hs first List.mem_cons_self, hf⟩, ?_⟩)⟩
        · have hpos := List.length_pos_iff.mpr hne
          rw [forall₂_holdsText.mp hn]
          simp only [List.length_map, List.length_cons]
          omega
        · intro t ht
          obtain ⟨hop, hhop, rfl⟩ := List.mem_map.mp ht
          refine ⟨hs hop.2 (List.mem_cons_of_mem _ ?_), (hh hop hhop).2⟩
          exact List.mem_flatMap.mpr ⟨hop, hhop, by simp⟩
    | _ => exact hb.elim
  | clauses name blocks =>
    have hname := hs name List.mem_cons_self
    have hslot := Block.slot_spelled (valid_clauses hb).2.valid
      fun t ht => hs t (List.mem_cons_of_mem _ ht)
    cases k with
    | host => exact ha.wellFormed_host (hname.freeName hb.1) hslot
    | link => exact ha.wellFormed_link (hname.freeName hb.1) hslot
    | _ => exact hb.elim

namespace Program

theorem ofTrees_eq_ok {trees : List Tree} {p : Program} :
    Program.ofTrees trees = .ok p ↔
      List.Forall₂ (fun t st => Statement.ofTree t = .ok st) trees p.statements := by
  rw [Program.ofTrees, bind_eq_ok, ← mapM_eq_ok]
  constructor
  · rintro ⟨ss, hss, h⟩
    cases h
    exact hss
  · intro hss
    exact ⟨p.statements, hss, rfl⟩

/-- A text is read as a program by way of its tokens, their division into statements and the trees of
these. -/
theorem ofText_eq_ok {s : String} {p : Program} :
    Program.ofText s = .ok p ↔ ∃ ts stop ps, Lexed .start s.toList (ts ++ [⟨⟨.eof, ""⟩, stop⟩]) ∧
      Derivation ts ps ∧
      List.Forall₂ (fun q st => Statement.ofTree (Phrase.tree q) = .ok st) ps p.statements := by
  simp only [Program.ofText, bind_eq_ok, mapError_eq_ok, Token.ofText_eq_ok, ofTrees_eq_ok]
  constructor
  · rintro ⟨_, hlex, _, htree, hp⟩
    obtain ⟨ts, stop, rfl, hts⟩ := hlex.exists_snoc
    obtain ⟨ps, hps, rfl⟩ := (Tree.ofTokens_snoc_eq_ok (fun t ht => (hts t ht).ne_eof) rfl).mp htree
    exact ⟨ts, stop, ps, hlex, hps, List.forall₂_map_left_iff.mp hp⟩
  · rintro ⟨ts, stop, ps, hlex, hps, hp⟩
    have hts := hlex.spelled_of_snoc
    exact ⟨_, hlex, _, (Tree.ofTokens_snoc_eq_ok (fun t ht => (hts t ht).ne_eof) rfl).mpr ⟨ps, hps, rfl⟩,
      List.forall₂_map_left_iff.mpr hp⟩

theorem wellFormed_of_ofText {s : String} {p : Program} (h : Program.ofText s = .ok p) :
    p.WellFormed := by
  obtain ⟨ts, stop, ps, hlex, hps, hp⟩ := ofText_eq_ok.mp h
  refine ⟨?_, fun st hst => ?_⟩
  · intro hnil
    rw [hnil, List.forall₂_nil_right_iff] at hp
    exact hps.nonempty hp
  · obtain ⟨q, hq, hst⟩ := Lists.exists_left_of_forall₂ hp hst
    refine Body.wellFormed (hps.valid q hq).2 (fun t ht => hlex.spelled_of_snoc t ?_)
      (Statement.ofTree_eq_ok.mp hst).2
    rw [← hps.written]
    exact List.mem_flatMap.mpr ⟨q, hq, List.mem_cons_of_mem _ ht⟩

end Program

end Netlab
