import Netlab.Proofs.Canonical

namespace Netlab

open Lexeme Child

def Value.unplaced (v : Value) : Value := { v with pos := .start }

def Host.unplaced (h : Host) : Host :=
  { h with
    ports := h.ports.map Value.unplaced
    env := h.env.map fun e => (e.1, e.2.unplaced)
    cmd := h.cmd.map Value.unplaced }

def Action.unplaced : Action → Action
  | controller v => controller v.unplaced
  | host h => host h.unplaced
  | a => a

def Statement.unplaced (s : Statement) : Statement := ⟨.start, s.action.unplaced⟩

/-- A program without the places where its parts were written. -/
def Program.unplaced (p : Program) : Program := ⟨p.statements.map Statement.unplaced⟩

section

variable {t : Token}

theorem isFree_of_word {s : String} (h : t.toLexeme = word s) (hs : FreeName s) :
    Read.isFree t = true := by
  have hkind : t.kind = .name := congrArg Lexeme.kind h
  have htext : t.text = s := congrArg Lexeme.text h
  refine Read.isFree_iff.mpr ⟨hkind, ?_⟩
  rw [htext, Bool.eq_false_iff]
  intro hr
  exact hs.2 (Grammar.isReserved_iff.mp hr)

theorem isWord_of_word {s : String} (h : t.toLexeme = word s) : t.isWord s = true := by
  have hkind : t.kind = .name := congrArg Lexeme.kind h
  have htext : t.text = s := congrArg Lexeme.text h
  simp [Token.isWord, hkind, htext]

theorem int_of_digits {n : UInt64} (h : t.toLexeme = digits n) : t.int = .ok n := by
  have htext : t.text = toString n.toNat := congrArg Lexeme.text h
  rw [Token.int, htext, Text.readWord_toString]

theorem value_of_lexeme {a : Atom} (ha : a.WellFormed) (h : t.toLexeme = a.lexeme) :
    t.IsValue ∧ t.value = .ok ⟨a, t.pos⟩ := by
  have hkind : t.kind = a.lexeme.kind := congrArg Lexeme.kind h
  have htext : t.text = a.lexeme.text := congrArg Lexeme.text h
  cases a with
  | name s =>
    refine ⟨.inl (isFree_of_word h ha), ?_⟩
    rw [Token.value, hkind, htext]
    rfl
  | str s =>
    refine ⟨.inr (.inl hkind), ?_⟩
    rw [Token.value, hkind, htext]
    rfl
  | int n =>
    refine ⟨.inr (.inr hkind), ?_⟩
    rw [Token.value, hkind, int_of_digits h]
    rfl

end

/-- Whatever tokens are written like this, their tree holds what is wanted. -/
def Prints (shape : Shape) (content : List Lexeme) (reads : Child → Prop) : Prop :=
  ∀ ts : List Token, ts.map Token.toLexeme = content → ∃ child, Content shape ts child ∧ reads child

theorem prints_name {s : String} (hs : FreeName s) : Prints .name [word s] (HoldsText · s) := by
  intro ts hts
  obtain ⟨t, rfl, ht⟩ := List.map_eq_singleton_iff.mp hts
  exact ⟨.token t, .name (isFree_of_word ht hs), t, rfl, (congrArg Lexeme.text ht).symm⟩

theorem prints_string (s : String) : Prints .string [quoted s] (HoldsText · s) := by
  intro ts hts
  obtain ⟨t, rfl, ht⟩ := List.map_eq_singleton_iff.mp hts
  exact ⟨.token t, .string (congrArg Lexeme.kind ht), t, rfl, (congrArg Lexeme.text ht).symm⟩

theorem prints_number (n : UInt64) : Prints .number [digits n] (HoldsInt · n) := by
  intro ts hts
  obtain ⟨t, rfl, ht⟩ := List.map_eq_singleton_iff.mp hts
  exact ⟨.token t, .number (congrArg Lexeme.kind ht), t, rfl, int_of_digits ht⟩

section

variable {α β : Type} {l : Listing} {item : α → List Lexeme} {holds : Child → α → Prop} {view : α → β}

/-- Whatever tokens an item is written with, they are a member of a listing that holds the item. -/
def PrintsItem (l : Listing) (item : α → List Lexeme) (holds : Child → α → Prop) (view : α → β)
    (x : α) : Prop :=
  ∀ ts : List Token, ts.map Token.toLexeme = item x →
    ∃ c y, Member l ts c ∧ holds c y ∧ view y = view x

theorem exists_led {xs : List α} (hx : ∀ x ∈ xs, PrintsItem l item holds view x) {ts : List Token}
    (hts : ts.map Token.toLexeme = (xs.map item).flatMap (⟨.comma, ","⟩ :: ·)) :
    ∃ cs ys, Led .comma (Member l) ts cs ∧ List.Forall₂ holds cs ys ∧ ys.map view = xs.map view := by
  induction xs generalizing ts with
  | nil =>
    rw [List.map_eq_nil_iff.mp hts]
    exact ⟨[], [], .nil, .nil, rfl⟩
  | cons x xs ih =>
    obtain ⟨hx, hxs⟩ := List.forall_mem_cons.mp hx
    rw [List.map_cons, List.flatMap_cons, List.cons_append] at hts
    obtain ⟨comma, ts, rfl, hcomma, hts⟩ := List.map_eq_cons_iff.mp hts
    obtain ⟨us, vs, rfl, hus, hvs⟩ := List.map_eq_append_iff.mp hts
    obtain ⟨c, y, hc, hy, hview⟩ := hx us hus
    obtain ⟨cs, ys, hcs, hys, hviews⟩ := ih hxs hvs
    refine ⟨c :: cs, y :: ys, .cons (congrArg Lexeme.kind hcomma) hc hcs, .cons hy hys, ?_⟩
    rw [List.map_cons, List.map_cons, hview, hviews]

theorem exists_members {xs : List α} (hx : ∀ x ∈ xs, PrintsItem l item holds view x)
    {ts : List Token} (hts : ts.map Token.toLexeme = joined ⟨.comma, ","⟩ (xs.map item)) :
    ∃ cs ys, Members l ts cs ∧ List.Forall₂ holds cs ys ∧ ys.map view = xs.map view := by
  cases xs with
  | nil =>
    rw [List.map_eq_nil_iff.mp hts]
    exact ⟨[], [], .none, .nil, rfl⟩
  | cons x xs =>
    obtain ⟨hx, hxs⟩ := List.forall_mem_cons.mp hx
    obtain ⟨us, vs, rfl, hus, hvs⟩ := List.map_eq_append_iff.mp hts
    obtain ⟨c, y, hc, hy, hview⟩ := hx us hus
    obtain ⟨cs, ys, hcs, hys, hviews⟩ := exists_led hxs hvs
    refine ⟨c :: cs, y :: ys, .some hc hcs, .cons hy hys, ?_⟩
    rw [List.map_cons, List.map_cons, hview, hviews]

theorem prints_listing {xs : List α} (hx : ∀ x ∈ xs, PrintsItem l item holds view x)
    {opening closing : Lexeme} (ho : opening.kind = l.opening) (hc : closing.kind = l.closing) :
    Prints (.listing l) (opening :: (joined ⟨.comma, ","⟩ (xs.map item) ++ [closing]))
      (fun c => ∃ ys, HoldsItems l holds c ys ∧ ys.map view = xs.map view) := by
  intro ts hts
  obtain ⟨first, ts, rfl, hfirst, hts⟩ := List.map_eq_cons_iff.mp hts
  obtain ⟨us, vs, rfl, hus, hvs⟩ := List.map_eq_append_iff.mp hts
  obtain ⟨last, rfl, hlast⟩ := List.map_eq_singleton_iff.mp hvs
  obtain ⟨cs, ys, hcs, hys, hview⟩ := exists_members hx hus
  have hkind : first.kind = l.opening := (congrArg Lexeme.kind hfirst).trans ho
  have hend : last.kind = l.closing := (congrArg Lexeme.kind hlast).trans hc
  exact ⟨_, .listing hkind hcs hend, ys, .inr ⟨_, cs, rfl, hys⟩, hview⟩

end

theorem printsItem_value {v : Value} (h : v.atom.WellFormed) :
    PrintsItem .array Value.item HoldsValue Value.unplaced v := by
  intro ts hts
  obtain ⟨t, rfl, ht⟩ := List.map_eq_singleton_iff.mp hts
  obtain ⟨hvalue, hread⟩ := value_of_lexeme h ht
  exact ⟨_, _, .value hvalue, ⟨t, rfl, hread⟩, rfl⟩

theorem printsItem_pair {e : String × Value} (h : e.2.atom.WellFormed) :
    PrintsItem .object pairItem (HoldsPair HoldsText HoldsValue) (fun e => (e.1, e.2.unplaced)) e := by
  intro ts hts
  obtain ⟨key, _, rfl, hkey, hts⟩ := List.map_eq_cons_iff.mp hts
  obtain ⟨colon, _, rfl, hcolon, hts⟩ := List.map_eq_cons_iff.mp hts
  obtain ⟨t, rfl, ht⟩ := List.map_eq_singleton_iff.mp hts
  obtain ⟨hvalue, hread⟩ := value_of_lexeme h ht
  have htext : e.1 = key.text := (congrArg Lexeme.text hkey).symm
  exact ⟨_, (e.1, ⟨e.2.atom, t.pos⟩), .pair (congrArg Lexeme.kind hkey) (congrArg Lexeme.kind hcolon) hvalue,
    ⟨_, _, _, _, rfl, ⟨key, rfl, htext⟩, t, rfl, hread⟩, rfl⟩

theorem printsItem_intPair (e : UInt64 × UInt64) :
    PrintsItem .intMap intPairItem (HoldsPair HoldsInt HoldsInt) id e := by
  intro ts hts
  obtain ⟨key, _, rfl, hkey, hts⟩ := List.map_eq_cons_iff.mp hts
  obtain ⟨colon, _, rfl, hcolon, hts⟩ := List.map_eq_cons_iff.mp hts
  obtain ⟨t, rfl, ht⟩ := List.map_eq_singleton_iff.mp hts
  exact ⟨_, e, .intPair (congrArg Lexeme.kind hkey) (congrArg Lexeme.kind hcolon) (congrArg Lexeme.kind ht),
    ⟨_, _, _, _, rfl, ⟨key, rfl, int_of_digits hkey⟩, t, rfl, int_of_digits ht⟩, rfl⟩

namespace Block

variable {table : List Clause} {blocks : List Block}

/-- A clause that is not required can be left out. -/
theorem Complete.skip (h : Complete table blocks) {c : Clause} (hr : c.required = false) :
    Complete (c :: table) blocks where
  valid := fun b hb =>
    ⟨List.mem_cons_of_mem c (h.valid b hb).mem, (h.valid b hb).key, (h.valid b hb).content⟩
  nodup := h.nodup
  required := by
    intro d hd hrd
    rcases List.mem_cons.mp hd with rfl | hd
    · rw [hr] at hrd
      cases hrd
    · exact h.required d hd hrd

theorem Complete.cons (h : Complete table blocks) {b : Block} (hb : b.Valid (b.clause :: table))
    (hn : b.clause ∉ table) : Complete (b.clause :: table) (b :: blocks) where
  valid := by
    refine List.forall_mem_cons.mpr ⟨hb, fun d hd => ?_⟩
    exact ⟨List.mem_cons_of_mem _ (h.valid d hd).mem, (h.valid d hd).key, (h.valid d hd).content⟩
  nodup := List.nodup_cons.mpr ⟨fun hm => hn (h.mem_table hm), h.nodup⟩
  required := by
    intro c hc hr
    rcases List.mem_cons.mp hc with rfl | hc
    · exact List.mem_cons_self
    · exact List.mem_cons_of_mem _ (h.required c hc hr)

theorem slot_cons_self (b : Block) : slot (b :: blocks) b.clause = b.child := by
  simp [slot]

theorem slot_cons_of_ne {b : Block} {c : Clause} (h : b.clause ≠ c) :
    slot (b :: blocks) c = slot blocks c := by
  simp [slot, h]

end Block

/-- A clause, how it is written, and what its slot has to hold. -/
structure Filling where
  clause : Clause
  content : Option (List Lexeme)
  reads : Child → Prop

namespace Filling

def lexemes (f : Filling) : List Lexeme := Lexeme.clause f.clause.keyword f.content

structure Sound (f : Filling) : Prop where
  absent : f.content = none → f.reads .absent
  written : ∀ ls, f.content = some ls → Prints f.clause.shape ls f.reads
  required : f.clause.required = true → f.content ≠ none

variable {f : Filling} {ts : List Token}

/-- Tokens that are written like a clause are a clause that holds what is wanted. -/
theorem exists_block (hf : f.Sound) {ls : List Lexeme} (hc : f.content = some ls)
    (hts : ts.map Token.toLexeme = f.lexemes) {table : List Clause} (hm : f.clause ∈ table) :
    ∃ b : Block, b.Valid table ∧ b.clause = f.clause ∧ b.written = ts ∧ f.reads b.child := by
  rw [lexemes, hc] at hts
  obtain ⟨key, us, rfl, hkey, hus⟩ := List.map_eq_cons_iff.mp hts
  obtain ⟨child, hcontent, hreads⟩ := hf.written ls hc us hus
  exact ⟨⟨key, f.clause, us, child⟩, ⟨hm, isWord_of_word hkey, hcontent⟩, rfl, rfl, hreads⟩

theorem exists_blocks (fillings : List Filling) (hf : ∀ f ∈ fillings, f.Sound)
    (hn : (fillings.map Filling.clause).Nodup)
    (hts : ts.map Token.toLexeme = fillings.flatMap lexemes) :
    ∃ blocks, Block.Complete (fillings.map Filling.clause) blocks ∧
      ts = blocks.flatMap Block.written ∧ ∀ f ∈ fillings, f.reads (Block.slot blocks f.clause) := by
  induction fillings generalizing ts with
  | nil =>
    rw [List.map_eq_nil_iff.mp hts]
    exact ⟨[], ⟨⟨by simp, by simp⟩, by simp⟩, rfl, by simp⟩
  | cons f fillings ih =>
    obtain ⟨hf, hfs⟩ := List.forall_mem_cons.mp hf
    obtain ⟨hnot, hn⟩ := List.nodup_cons.mp hn
    obtain ⟨us, vs, rfl, hus, hvs⟩ := List.map_eq_append_iff.mp hts
    obtain ⟨blocks, hb, rfl, hreads⟩ := ih hfs hn hvs
    cases hc : f.content with
    | none =>
      have hr : f.clause.required = false := Bool.eq_false_iff.mpr fun hr => hf.required hr hc
      have hslot : Block.slot blocks f.clause = .absent :=
        Block.slot_of_not_mem fun hm => hnot (hb.mem_table hm)
      rw [lexemes, hc] at hus
      rw [List.map_eq_nil_iff.mp hus]
      exact ⟨blocks, hb.skip hr, rfl, List.forall_mem_cons.mpr ⟨hslot ▸ hf.absent hc, hreads⟩⟩
    | some ls =>
      have hm : f.clause ∈ f.clause :: fillings.map Filling.clause := List.mem_cons_self
      obtain ⟨b, hbv, hbc, rfl, hbr⟩ := exists_block hf hc hus hm
      rw [← hbc] at hbv hnot
      rw [List.map_cons, ← hbc]
      refine ⟨b :: blocks, hb.cons hbv hnot, rfl, List.forall_mem_cons.mpr ⟨?_, ?_⟩⟩
      · rwa [← hbc, Block.slot_cons_self]
      · intro g hg
        have hne : b.clause ≠ g.clause := fun he => hnot (he ▸ List.mem_map_of_mem hg)
        rw [Block.slot_cons_of_ne hne]
        exact hreads g hg

section

variable {α β : Type} {c : Clause} {holds : Child → α → Prop}

theorem sound_required {ls : List Lexeme} {reads : Child → Prop} (h : Prints c.shape ls reads) :
    Sound ⟨c, some ls, reads⟩ where
  absent := by
    intro he
    cases he
  written := by
    rintro _ ⟨⟩
    exact h
  required := by simp

theorem sound_option {print : α → Lexeme} {o : Option α} (hr : c.required = false)
    (h : ∀ x ∈ o, Prints c.shape [print x] (holds · x)) :
    Sound ⟨c, o.map fun x => [print x], (HoldsOption holds · o)⟩ where
  absent := by
    intro he
    exact .inl ⟨rfl, by simpa using he⟩
  written := by
    intro ls he ts hts
    obtain ⟨x, rfl, rfl⟩ := Option.map_eq_some_iff.mp he
    obtain ⟨child, hcontent, hx⟩ := h x rfl ts hts
    exact ⟨child, hcontent, .inr ⟨x, hx, rfl⟩⟩
  required := by simp [hr]

theorem sound_listed {l : Listing} {brackets : List (List Lexeme) → List Lexeme}
    {item : α → List Lexeme} {view : α → β} {xs : List α} (hr : c.required = false)
    (h : Prints c.shape (brackets (xs.map item))
      (fun child => ∃ ys, HoldsItems l holds child ys ∧ ys.map view = xs.map view)) :
    Sound ⟨c, listed brackets item xs,
      fun child => ∃ ys, HoldsItems l holds child ys ∧ ys.map view = xs.map view⟩ where
  absent := by
    intro he
    have hnil : xs = [] := by simpa [listed] using he
    rw [hnil]
    exact ⟨[], .inl ⟨rfl, rfl⟩, rfl⟩
  written := by
    intro ls he
    simp only [listed] at he
    split at he
    · cases he
    · cases he
      exact h
  required := by simp [hr]

end

end Filling

def Host.fillings (h : Host) : List Filling :=
  [⟨.ip, h.ip.map fun s => [quoted s], (HoldsOption HoldsText · h.ip)⟩,
   ⟨.image, some [quoted h.image], (HoldsText · h.image)⟩,
   ⟨.mac, h.mac.map fun s => [quoted s], (HoldsOption HoldsText · h.mac)⟩,
   ⟨.ports, listed array Value.item h.ports, fun c =>
      ∃ vs, HoldsItems .array HoldsValue c vs ∧ vs.map Value.unplaced = h.ports.map Value.unplaced⟩,
   ⟨.portBindings, listed object intPairItem h.portBindings, fun c =>
      ∃ es, HoldsItems .intMap (HoldsPair HoldsInt HoldsInt) c es ∧ es.map id = h.portBindings.map id⟩,
   ⟨.env, listed object pairItem h.env, fun c =>
      ∃ es, HoldsItems .object (HoldsPair HoldsText HoldsValue) c es ∧
        es.map (fun e => (e.1, e.2.unplaced)) = h.env.map (fun e => (e.1, e.2.unplaced))⟩,
   ⟨.cmd, listed array Value.item h.cmd, fun c =>
      ∃ vs, HoldsItems .array HoldsValue c vs ∧ vs.map Value.unplaced = h.cmd.map Value.unplaced⟩]

theorem Host.sound {h : Host} (hw : h.WellFormed) : ∀ f ∈ h.fillings, f.Sound := by
  obtain ⟨-, hports, henv, hcmd⟩ := hw
  simp only [Host.fillings, List.forall_mem_cons]
  refine ⟨?_, ?_, ?_, ?_, ?_, ?_, ?_, by simp⟩
  · exact Filling.sound_option rfl fun s _ => prints_string s
  · exact Filling.sound_required (prints_string h.image)
  · exact Filling.sound_option rfl fun s _ => prints_string s
  · exact Filling.sound_listed rfl (prints_listing (fun v hv => printsItem_value (hports v hv)) rfl rfl)
  · exact Filling.sound_listed rfl (prints_listing (fun e _ => printsItem_intPair e) rfl rfl)
  · exact Filling.sound_listed rfl (prints_listing (fun e he => printsItem_pair (henv e he)) rfl rfl)
  · exact Filling.sound_listed rfl (prints_listing (fun v hv => printsItem_value (hcmd v hv)) rfl rfl)

def Link.fillings (l : Link) : List Filling :=
  [⟨.src, some [word l.src], (HoldsText · l.src)⟩,
   ⟨.dst, some [word l.dst], (HoldsText · l.dst)⟩,
   ⟨.port1, l.port1.map fun n => [digits n], (HoldsOption HoldsInt · l.port1)⟩,
   ⟨.port2, l.port2.map fun n => [digits n], (HoldsOption HoldsInt · l.port2)⟩,
   ⟨.cls, l.cls.map fun s => [word s], (HoldsOption HoldsText · l.cls)⟩,
   ⟨.delay, l.delay.map fun s => [quoted s], (HoldsOption HoldsText · l.delay)⟩,
   ⟨.bw, l.bw.map fun n => [digits n], (HoldsOption HoldsInt · l.bw)⟩]

theorem Link.sound {l : Link} (hw : l.WellFormed) : ∀ f ∈ l.fillings, f.Sound := by
  obtain ⟨-, hsrc, hdst, hcls⟩ := hw
  simp only [Link.fillings, List.forall_mem_cons]
  refine ⟨?_, ?_, ?_, ?_, ?_, ?_, ?_, by simp⟩
  · exact Filling.sound_required (prints_name hsrc)
  · exact Filling.sound_required (prints_name hdst)
  · exact Filling.sound_option rfl fun n _ => prints_number n
  · exact Filling.sound_option rfl fun n _ => prints_number n
  · exact Filling.sound_option rfl fun s hs => prints_name (hcls s hs)
  · exact Filling.sound_option rfl fun s _ => prints_string s
  · exact Filling.sound_option rfl fun n _ => prints_number n

theorem names_of_words {names : List String} (h : ∀ s ∈ names, FreeName s) {ts : List Token}
    (hts : ts.map Token.toLexeme = names.map word) :
    (∀ t ∈ ts, Read.isFree t = true) ∧ names = ts.map (fun t => t.text) := by
  induction names generalizing ts with
  | nil =>
    rw [List.map_eq_nil_iff.mp hts]
    simp
  | cons s names ih =>
    obtain ⟨hs, hss⟩ := List.forall_mem_cons.mp h
    obtain ⟨t, ts, rfl, ht, hts⟩ := List.map_eq_cons_iff.mp hts
    obtain ⟨hfree, rfl⟩ := ih hss hts
    have htext : t.text = s := congrArg Lexeme.text ht
    exact ⟨List.forall_mem_cons.mpr ⟨isFree_of_word ht hs, hfree⟩, by rw [List.map_cons, htext]⟩

theorem exists_names {names : List String} (hne : names ≠ []) (h : ∀ s ∈ names, FreeName s)
    {ts : List Token} (hts : ts.map Token.toLexeme = names.map word) :
    ∃ first more, ts = first :: more ∧ (∀ t ∈ first :: more, Read.isFree t = true) ∧
      List.Forall₂ HoldsText ((first :: more).map .token) names := by
  obtain ⟨hfree, hnames⟩ := names_of_words h hts
  cases ts with
  | nil => exact absurd hnames hne
  | cons first more => exact ⟨first, more, rfl, hfree, forall₂_holdsText.mpr hnames⟩

theorem exists_hops {names : List String} (h : ∀ s ∈ names, FreeName s) {ts : List Token}
    (hts : ts.map Token.toLexeme = (names.map fun s => [word s]).flatMap (⟨.arrow, "->"⟩ :: ·)) :
    ∃ hops : List (Token × Token), (∀ h ∈ hops, h.1.kind = .arrow ∧ Read.isFree h.2 = true) ∧
      ts = hops.flatMap (fun h => [h.1, h.2]) ∧
      names = (hops.map Prod.snd).map (fun t => t.text) := by
  induction names generalizing ts with
  | nil => exact ⟨[], by simp, List.map_eq_nil_iff.mp hts, rfl⟩
  | cons s names ih =>
    obtain ⟨hs, hss⟩ := List.forall_mem_cons.mp h
    obtain ⟨arrow, _, rfl, harrow, hts⟩ := List.map_eq_cons_iff.mp hts
    obtain ⟨t, ts, rfl, ht, hts⟩ := List.map_eq_cons_iff.mp hts
    obtain ⟨hops, hh, rfl, hnames⟩ := ih hss hts
    have htext : t.text = s := congrArg Lexeme.text ht
    refine ⟨(arrow, t) :: hops, List.forall_mem_cons.mpr ⟨⟨?_, isFree_of_word ht hs⟩, hh⟩, rfl, ?_⟩
    · exact congrArg Lexeme.kind harrow
    · rw [List.map_cons, List.map_cons, htext, ← hnames]

namespace Action

/-- Tokens that can stand behind the keyword of an action and are read as this action. -/
def WrittenAs (a : Action) (ts : List Token) : Prop :=
  ∃ b : Body, b.Valid a.keyword ∧ b.written = ts ∧
    ∃ a', HeldBy a.keyword.rule (b.children a.keyword.clauses) a' ∧ a'.unplaced = a.unplaced

variable {ts : List Token}

theorem writtenAs_host {h : Host} (hw : h.WellFormed)
    (hts : ts.map Token.toLexeme = word h.name :: h.clauses.flatMap fun c => clause c.1 c.2) :
    (host h).WrittenAs ts := by
  obtain ⟨name, ts, rfl, hname, hts⟩ := List.map_eq_cons_iff.mp hts
  obtain ⟨blocks, hb, rfl, hreads⟩ := Filling.exists_blocks h.fillings (Host.sound hw)
    Clause.regular_ofHost.nodup hts
  refine ⟨.clauses name blocks, ⟨isFree_of_word hname hw.1, hb⟩, rfl, ?_⟩
  simp only [Host.fillings, List.forall_mem_cons] at hreads
  obtain ⟨hip, himage, hmac, ⟨ports, hports, hp⟩, ⟨bindings, hbindings, hpb⟩, ⟨env, henv, he⟩,
    ⟨cmd, hcmd, hc⟩, -⟩ := hreads
  have hn : HoldsText (.token name) h.name := ⟨name, rfl, (congrArg Lexeme.text hname).symm⟩
  refine ⟨.host { h with ports := ports, portBindings := bindings, env := env, cmd := cmd },
    .host ⟨hn, hip, himage, hmac, hports, hbindings, henv, hcmd⟩, ?_⟩
  rw [List.map_id, List.map_id] at hpb
  simp only [unplaced, Host.unplaced, hp, hpb, he, hc]

theorem writtenAs_link {l : Link} (hw : l.WellFormed)
    (hts : ts.map Token.toLexeme = word l.name :: l.clauses.flatMap fun c => clause c.1 c.2) :
    (link l).WrittenAs ts := by
  obtain ⟨name, ts, rfl, hname, hts⟩ := List.map_eq_cons_iff.mp hts
  obtain ⟨blocks, hb, rfl, hreads⟩ := Filling.exists_blocks l.fillings (Link.sound hw)
    Clause.regular_ofLink.nodup hts
  refine ⟨.clauses name blocks, ⟨isFree_of_word hname hw.1, hb⟩, rfl, ?_⟩
  simp only [Link.fillings, List.forall_mem_cons] at hreads
  obtain ⟨hsrc, hdst, hport1, hport2, hcls, hdelay, hbw, -⟩ := hreads
  have hn : HoldsText (.token name) l.name := ⟨name, rfl, (congrArg Lexeme.text hname).symm⟩
  exact ⟨.link l, .link ⟨hn, hsrc, hdst, hport1, hport2, hcls, hdelay, hbw⟩, rfl⟩

theorem writtenAs_remoteController {name address : String} {port : UInt64} (hfree : FreeName name)
    (hts : ts.map Token.toLexeme =
      [word name, word "host", quoted address, word "port", digits port]) :
    (remoteController name address port).WrittenAs ts := by
  obtain ⟨n, _, rfl, hn, hts⟩ := List.map_eq_cons_iff.mp hts
  obtain ⟨hw, _, rfl, hhw, hts⟩ := List.map_eq_cons_iff.mp hts
  obtain ⟨h, _, rfl, hh, hts⟩ := List.map_eq_cons_iff.mp hts
  obtain ⟨pw, _, rfl, hpw, hts⟩ := List.map_eq_cons_iff.mp hts
  obtain ⟨p, rfl, hp⟩ := List.map_eq_singleton_iff.mp hts
  have hvalid : (Body.remote n hw h pw p).Valid .remoteController :=
    ⟨isFree_of_word hn hfree, isWord_of_word hhw, congrArg Lexeme.kind hh, isWord_of_word hpw,
      congrArg Lexeme.kind hp⟩
  have hname : HoldsText (.token n) name := ⟨n, rfl, (congrArg Lexeme.text hn).symm⟩
  have haddress : HoldsText (.token h) address := ⟨h, rfl, (congrArg Lexeme.text hh).symm⟩
  exact ⟨_, hvalid, rfl, _, .remoteController hname haddress ⟨p, rfl, int_of_digits hp⟩, rfl⟩

theorem writtenAs_intent {name : String} {names : List String} (hne : names ≠ [])
    (hfree : ∀ s ∈ name :: names, FreeName s)
    (hts : ts.map Token.toLexeme =
      word name :: (names.map fun s => [word s]).flatMap (⟨.arrow, "->"⟩ :: ·)) :
    (intent (name :: names)).WrittenAs ts := by
  obtain ⟨hname, hnames⟩ := List.forall_mem_cons.mp hfree
  obtain ⟨first, us, rfl, hfirst, hus⟩ := List.map_eq_cons_iff.mp hts
  obtain ⟨hops, hh, rfl, rfl⟩ := exists_hops hnames hus
  have hops_ne : hops ≠ [] := by
    rintro rfl
    exact hne rfl
  have htext : first.text = name := congrArg Lexeme.text hfirst
  have hheld : List.Forall₂ HoldsText ((first :: hops.map Prod.snd).map .token)
      (name :: (hops.map Prod.snd).map fun t => t.text) :=
    forall₂_holdsText.mpr (by rw [List.map_cons, htext])
  exact ⟨.chain first hops, ⟨isFree_of_word hfirst hname, hops_ne, hh⟩, rfl, _, .intent hheld, rfl⟩

theorem exists_writtenAs {a : Action} (ha : a.WellFormed) (hts : ts.map Token.toLexeme = a.lexemes) :
    ∃ key us, ts = key :: us ∧ key.toLexeme = word a.keyword.text ∧ a.WrittenAs us := by
  cases a with
  | controller v =>
    obtain ⟨key, _, rfl, hkey, hts⟩ := List.map_eq_cons_iff.mp hts
    obtain ⟨t, rfl, ht⟩ := List.map_eq_singleton_iff.mp hts
    obtain ⟨hvalue, hread⟩ := value_of_lexeme ha ht
    exact ⟨key, [t], rfl, hkey, .value t, hvalue, rfl, _, .controller ⟨t, rfl, hread⟩, rfl⟩
  | remoteController name address port =>
    obtain ⟨key, us, rfl, hkey, hus⟩ := List.map_eq_cons_iff.mp hts
    exact ⟨key, us, rfl, hkey, writtenAs_remoteController ha hus⟩
  | host h =>
    obtain ⟨key, us, rfl, hkey, hus⟩ := List.map_eq_cons_iff.mp hts
    exact ⟨key, us, rfl, hkey, writtenAs_host ha hus⟩
  | link l =>
    obtain ⟨key, us, rfl, hkey, hus⟩ := List.map_eq_cons_iff.mp hts
    exact ⟨key, us, rfl, hkey, writtenAs_link ha hus⟩
  | switch names =>
    obtain ⟨key, us, rfl, hkey, hus⟩ := List.map_eq_cons_iff.mp hts
    obtain ⟨first, more, rfl, hfree, hnames⟩ := exists_names ha.1 ha.2 hus
    exact ⟨key, _, rfl, hkey, .names first more, hfree, rfl, _, .switch hnames, rfl⟩
  | ping names =>
    obtain ⟨key, us, rfl, hkey, hus⟩ := List.map_eq_cons_iff.mp hts
    obtain ⟨first, more, rfl, hfree, hnames⟩ := exists_names ha.1 ha.2 hus
    exact ⟨key, _, rfl, hkey, .names first more, hfree, rfl, _, .ping hnames, rfl⟩
  | intent names =>
    obtain ⟨hlen, hfree⟩ := ha
    obtain ⟨key, us, rfl, hkey, hus⟩ := List.map_eq_cons_iff.mp hts
    cases names with
    | nil => simp at hlen
    | cons name names =>
      have hne : names ≠ [] := by
        rintro rfl
        simp at hlen
      exact ⟨key, us, rfl, hkey, writtenAs_intent hne hfree hus⟩
  | up =>
    obtain ⟨key, rfl, hkey⟩ := List.map_eq_singleton_iff.mp hts
    exact ⟨key, [], rfl, hkey, .nothing, trivial, rfl, _, .up, rfl⟩
  | down =>
    obtain ⟨key, rfl, hkey⟩ := List.map_eq_singleton_iff.mp hts
    exact ⟨key, [], rfl, hkey, .nothing, trivial, rfl, _, .down, rfl⟩

end Action

theorem Statement.exists_phrase {s : Statement} (h : s.action.WellFormed) {ts : List Token}
    (hts : ts.map Token.toLexeme = s.action.lexemes) :
    ∃ (p : Phrase) (s' : Statement), p.Valid ∧ p.written = ts ∧ Statement.ofTree p.tree = .ok s' ∧
      s'.unplaced = s.unplaced := by
  obtain ⟨key, us, rfl, hkey, b, hb, rfl, a, ha, hsame⟩ := Action.exists_writtenAs h hts
  refine ⟨⟨key, s.action.keyword, b⟩, ⟨key.pos, a⟩, ⟨isWord_of_word hkey, hb⟩, rfl, ?_, ?_⟩
  · exact Statement.ofTree_eq_ok.mpr ⟨rfl, ha⟩
  · rw [Statement.unplaced, Statement.unplaced, hsame]

theorem Statement.exists_phrases {ss : List Statement} (h : ∀ s ∈ ss, s.action.WellFormed)
    {ts : List Token} (hts : ts.map Token.toLexeme = ss.flatMap fun s => s.action.lexemes) :
    ∃ (ps : List Phrase) (ss' : List Statement), (∀ p ∈ ps, p.Valid) ∧
      ps.flatMap Phrase.written = ts ∧
      List.Forall₂ (fun p s => Statement.ofTree (Phrase.tree p) = .ok s) ps ss' ∧
      ss'.map Statement.unplaced = ss.map Statement.unplaced := by
  induction ss generalizing ts with
  | nil => exact ⟨[], [], by simp, (List.map_eq_nil_iff.mp hts).symm, .nil, rfl⟩
  | cons s ss ih =>
    obtain ⟨hs, hss⟩ := List.forall_mem_cons.mp h
    obtain ⟨us, vs, rfl, hus, hvs⟩ := List.map_eq_append_iff.mp hts
    obtain ⟨p, s', hp, rfl, hread, hsame⟩ := exists_phrase hs hus
    obtain ⟨ps, ss', hps, rfl, hreads, hsames⟩ := ih hss hvs
    refine ⟨p :: ps, s' :: ss', List.forall_mem_cons.mpr ⟨hp, hps⟩, rfl, .cons hread hreads, ?_⟩
    rw [List.map_cons, List.map_cons, hsame, hsames]

theorem Program.exists_ofText_canonical {p : Program} (h : p.WellFormed) :
    ∃ p', Program.ofText p.canonical = .ok p' ∧ p'.unplaced = p.unplaced := by
  obtain ⟨hne, hw⟩ := h
  obtain ⟨_, hlex, hm⟩ := Program.exists_lexed_canonical hw
  obtain ⟨ts, stop, rfl, -⟩ := hlex.exists_snoc
  rw [List.map_append] at hm
  obtain ⟨hts, -⟩ := List.append_inj' hm rfl
  obtain ⟨ps, ss, hps, hwritten, hreads, hsame⟩ := Statement.exists_phrases hw hts
  have hnonempty : ps ≠ [] := by
    rintro rfl
    rw [List.forall₂_nil_left_iff.mp hreads] at hsame
    exact hne (List.map_eq_nil_iff.mp hsame.symm)
  exact ⟨⟨ss⟩, ofText_eq_ok.mpr ⟨ts, stop, ps, hlex, ⟨hnonempty, hps, hwritten⟩, hreads⟩,
    congrArg Program.mk hsame⟩

/-- Exactly the well-formed programs are read from texts, each of them from its canonical text. -/
theorem Program.ofText_image :
    (∀ s p, Program.ofText s = .ok p → p.WellFormed) ∧
      ∀ p : Program, p.WellFormed →
        ∃ p', Program.ofText p.canonical = .ok p' ∧ p'.unplaced = p.unplaced :=
  ⟨fun _ _ h => wellFormed_of_ofText h, fun _ h => exists_ofText_canonical h⟩

/-- A program with names that are keywords of clauses, and with strings that need escapes. -/
def Program.twisted : Program :=
  ⟨[⟨⟨3, 1⟩, .controller ⟨.name "image", ⟨4, 2⟩⟩⟩,
    ⟨⟨3, 1⟩, .host {
      name := "ip", ip := none, image := "a\"b\\", mac := some "",
      ports := [⟨.int 80, .start⟩, ⟨.str "x\ny", .start⟩], portBindings := [(18446744073709551615, 0)],
      env := [("k", ⟨.name "v", .start⟩), ("k", ⟨.int 7, .start⟩)], cmd := [] }⟩,
    ⟨⟨2, 1⟩, .link {
      name := "src", src := "dst", dst := "src", port1 := none, port2 := some 2, cls := some "bw",
      delay := none, bw := some 1 }⟩,
    ⟨.start, .intent ["src", "dst", "src"]⟩]⟩

theorem Program.ofText_image_twisted :
    twisted.WellFormed ∧
      twisted.canonical = "controller image\n" ++
        "host ip image \"a\\\"b\\\\\" mac \"\" ports [ 80 , \"x\\ny\" ] " ++
        "port_bindings \x7b 18446744073709551615 : 0 \x7d env \x7b \"k\" : v , \"k\" : 7 \x7d\n" ++
        "link src src dst dst src port2 2 cls bw bw 1\nintent src -> dst -> src\n" ∧
      ∃ p', Program.ofText twisted.canonical = .ok p' ∧ p'.unplaced = twisted.unplaced := by
  have h : twisted.WellFormed := by decide +kernel
  exact ⟨h, by decide +kernel, ofText_image.2 twisted h⟩

end Netlab
