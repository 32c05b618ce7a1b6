import Netlab.Proofs.Derivation
import Netlab.Proofs.Grammar
import Netlab.Proofs.Payload

namespace Netlab.Grammar

open Computability

/-- The tokens are a word of a language, whatever places they have. -/
def Spells (l : Language Lexeme) (ts : List Token) : Prop := ts.map Token.toLexeme ∈ l

section

variable {l m : Language Lexeme} {ts : List Token}

theorem spells_lexeme {p : Lexeme → Prop} :
    Spells (lexeme p) ts ↔ ∃ t, ts = [t] ∧ p t.toLexeme := by
  constructor
  · rintro ⟨x, hx, hp⟩
    obtain ⟨t, rfl, rfl⟩ := List.map_eq_singleton_iff.mp hx
    exact ⟨t, rfl, hp⟩
  · rintro ⟨t, rfl, hp⟩
    exact ⟨t.toLexeme, rfl, hp⟩

theorem spells_one : Spells 1 ts ↔ ts = [] := by
  rw [Spells, Language.mem_one, List.map_eq_nil_iff]

theorem spells_add : Spells (l + m) ts ↔ Spells l ts ∨ Spells m ts :=
  Language.mem_add l m _

theorem spells_mul : Spells (l * m) ts ↔ ∃ us vs, ts = us ++ vs ∧ Spells l us ∧ Spells m vs := by
  rw [Spells, Language.mem_mul]
  constructor
  · rintro ⟨a, ha, b, hb, he⟩
    obtain ⟨us, vs, rfl, rfl, rfl⟩ := List.map_eq_append_iff.mp he.symm
    exact ⟨us, vs, rfl, ha, hb⟩
  · rintro ⟨us, vs, rfl, hu, hv⟩
    exact ⟨_, hu, _, hv, by rw [List.map_append]⟩

theorem spells_kstar :
    Spells l∗ ts ↔ ∃ tss : List (List Token), ts = tss.flatten ∧ ∀ us ∈ tss, Spells l us := by
  rw [Spells, Language.mem_kstar]
  constructor
  · rintro ⟨ls, he, hl⟩
    induction ls generalizing ts with
    | nil =>
      rw [List.flatten_nil, List.map_eq_nil_iff] at he
      exact ⟨[], he, by simp⟩
    | cons x xs ih =>
      rw [List.flatten_cons] at he
      obtain ⟨us, vs, rfl, rfl, hv⟩ := List.map_eq_append_iff.mp he
      obtain ⟨hx, hxs⟩ := List.forall_mem_cons.mp hl
      obtain ⟨tss, rfl, ht⟩ := ih hv hxs
      exact ⟨us :: tss, rfl, List.forall_mem_cons.mpr ⟨hx, ht⟩⟩
  · rintro ⟨tss, rfl, ht⟩
    refine ⟨tss.map (List.map Token.toLexeme), by rw [List.map_flatten], ?_⟩
    intro y hy
    obtain ⟨us, hu, rfl⟩ := List.mem_map.mp hy
    exact ht us hu

end

theorem spells_mark {kind : Kind} {ts : List Token} :
    Spells (mark kind) ts ↔ ∃ t, ts = [t] ∧ t.kind = kind :=
  spells_lexeme

theorem spells_word {text : String} {ts : List Token} :
    Spells (word text) ts ↔ ∃ t, ts = [t] ∧ t.isWord text = true := by
  simp only [word, spells_lexeme, Token.isWord, Bool.and_eq_true, decide_eq_true_eq]

theorem isReserved_iff {text : String} : Keyword.isReserved text = true ↔ text ∈ keywords := by
  have hk : keywords = Keyword.all.map Keyword.text := rfl
  rw [Keyword.isReserved, Option.isSome_iff_exists, hk, List.mem_map]
  constructor
  · rintro ⟨k, h⟩
    exact ⟨k, k.mem_all, (Keyword.ofText?_eq_some_iff.mp h).symm⟩
  · rintro ⟨k, -, rfl⟩
    exact ⟨k, Keyword.ofText?_eq_some_iff.mpr rfl⟩

theorem spells_name {ts : List Token} :
    Spells name ts ↔ ∃ t, ts = [t] ∧ Read.isFree t = true := by
  simp only [name, spells_lexeme, Read.isFree_iff, ← isReserved_iff, Bool.not_eq_true]

theorem spells_value {ts : List Token} : Spells value ts ↔ ∃ t, ts = [t] ∧ t.IsValue := by
  simp only [value, spells_add, spells_name, string, number, spells_mark, Token.IsValue]
  constructor
  · rintro ((⟨t, rfl, h⟩ | ⟨t, rfl, h⟩) | ⟨t, rfl, h⟩)
    · exact ⟨t, rfl, .inl h⟩
    · exact ⟨t, rfl, .inr (.inl h)⟩
    · exact ⟨t, rfl, .inr (.inr h)⟩
  · rintro ⟨t, rfl, h | h | h⟩
    · exact .inl (.inl ⟨t, rfl, h⟩)
    · exact .inl (.inr ⟨t, rfl, h⟩)
    · exact .inr ⟨t, rfl, h⟩

theorem spells_led {α : Type} {l : Language Lexeme} {phrase : List Token → α → Prop}
    (h : ∀ ts, Spells l ts ↔ ∃ a, phrase ts a) (separator : Kind) {ts : List Token} :
    Spells (mark separator * l)∗ ts ↔ ∃ as, Led separator phrase ts as := by
  rw [spells_kstar]
  constructor
  · rintro ⟨tss, rfl, ht⟩
    induction tss with
    | nil => exact ⟨[], .nil⟩
    | cons us tss ih =>
      obtain ⟨hu, hs⟩ := List.forall_mem_cons.mp ht
      obtain ⟨_, vs, rfl, hm, hv⟩ := spells_mul.mp hu
      obtain ⟨t, rfl, hk⟩ := spells_mark.mp hm
      obtain ⟨a, ha⟩ := (h vs).mp hv
      obtain ⟨as, has⟩ := ih hs
      exact ⟨a :: as, .cons hk ha has⟩
  · rintro ⟨as, hl⟩
    induction hl with
    | nil => exact ⟨[], rfl, by simp⟩
    | @cons t us vs a as hk ha _ ih =>
      obtain ⟨tss, rfl, ht⟩ := ih
      refine ⟨(t :: us) :: tss, rfl, List.forall_mem_cons.mpr ⟨?_, ht⟩⟩
      exact spells_mul.mpr ⟨[t], us, rfl, spells_mark.mpr ⟨t, rfl, hk⟩, (h us).mpr ⟨a, ha⟩⟩

/-- The language of the members of a listing. -/
def member : Listing → Language Lexeme
  | .array => value
  | .object => string * mark .colon * value
  | .intMap => number * mark .colon * number

theorem spells_member (l : Listing) (ts : List Token) :
    Spells (member l) ts ↔ ∃ c, Member l ts c := by
  cases l with
  | array =>
    rw [member, spells_value]
    constructor
    · rintro ⟨t, rfl, h⟩
      exact ⟨_, .value h⟩
    · rintro ⟨_, ⟨h⟩⟩
      exact ⟨_, rfl, h⟩
  | object =>
    simp only [member, string, spells_mul, spells_mark, spells_value]
    constructor
    · rintro ⟨_, _, rfl, ⟨_, _, rfl, ⟨key, rfl, hk⟩, colon, rfl, hc⟩, v, rfl, hv⟩
      exact ⟨_, .pair hk hc hv⟩
    · rintro ⟨_, h⟩
      cases h with
      | pair hk hc hv =>
        exact ⟨[_, _], [_], rfl, ⟨[_], [_], rfl, ⟨_, rfl, hk⟩, _, rfl, hc⟩, _, rfl, hv⟩
  | intMap =>
    simp only [member, number, spells_mul, spells_mark]
    constructor
    · rintro ⟨_, _, rfl, ⟨_, _, rfl, ⟨key, rfl, hk⟩, colon, rfl, hc⟩, v, rfl, hv⟩
      exact ⟨_, .intPair hk hc hv⟩
    · rintro ⟨_, h⟩
      cases h with
      | intPair hk hc hv =>
        exact ⟨[_, _], [_], rfl, ⟨[_], [_], rfl, ⟨_, rfl, hk⟩, _, rfl, hc⟩, _, rfl, hv⟩

theorem spells_members (l : Listing) (ts : List Token) :
    Spells (1 + member l * (mark .comma * member l)∗) ts ↔ ∃ cs, Members l ts cs := by
  rw [spells_add, spells_one, spells_mul]
  constructor
  · rintro (rfl | ⟨us, vs, rfl, hu, hv⟩)
    · exact ⟨[], .none⟩
    · obtain ⟨c, hc⟩ := (spells_member l us).mp hu
      obtain ⟨cs, hcs⟩ := (spells_led (spells_member l) .comma).mp hv
      exact ⟨c :: cs, .some hc hcs⟩
  · rintro ⟨_, h⟩
    cases h with
    | none => exact .inl rfl
    | some hm hs =>
      exact .inr ⟨_, _, rfl, (spells_member l _).mpr ⟨_, hm⟩,
        (spells_led (spells_member l) .comma).mpr ⟨_, hs⟩⟩

def content : Shape → Language Lexeme
  | .name => name
  | .string => string
  | .number => number
  | .listing l => listing l.opening (member l) l.closing

theorem spells_content (shape : Shape) (ts : List Token) :
    Spells (content shape) ts ↔ ∃ c, Content shape ts c := by
  cases shape with
  | name =>
    rw [content, spells_name]
    constructor
    · rintro ⟨t, rfl, h⟩
      exact ⟨_, .name h⟩
    · rintro ⟨_, ⟨h⟩⟩
      exact ⟨_, rfl, h⟩
  | string =>
    rw [content, string, spells_mark]
    constructor
    · rintro ⟨t, rfl, h⟩
      exact ⟨_, .string h⟩
    · rintro ⟨_, h⟩
      cases h with
      | string h => exact ⟨_, rfl, h⟩
  | number =>
    rw [content, number, spells_mark]
    constructor
    · rintro ⟨t, rfl, h⟩
      exact ⟨_, .number h⟩
    · rintro ⟨_, h⟩
      cases h with
      | number h => exact ⟨_, rfl, h⟩
  | listing l =>
    simp only [content, listing, spells_mul, spells_members, spells_mark]
    constructor
    · rintro ⟨_, _, rfl, ⟨_, us, rfl, ⟨opening, rfl, ho⟩, cs, hm⟩, closing, rfl, hc⟩
      exact ⟨_, .listing ho hm hc⟩
    · rintro ⟨_, h⟩
      cases h with
      | listing ho hm hc =>
        exact ⟨_ :: _, [_], rfl, ⟨[_], _, rfl, ⟨_, rfl, ho⟩, _, hm⟩, _, rfl, hc⟩

def clause (c : Clause) : Language Lexeme := word c.keyword * content c.shape

theorem spells_prod {table cs : List Clause} (hcs : ∀ c ∈ cs, c ∈ table) {ts : List Token} :
    Spells (cs.map clause).prod ts ↔
      ∃ blocks : List Block, blocks.map Block.clause = cs ∧ (∀ b ∈ blocks, b.Valid table) ∧
        ts = blocks.flatMap Block.written := by
  induction cs generalizing ts with
  | nil =>
    rw [List.map_nil, List.prod_nil, spells_one]
    constructor
    · rintro rfl
      exact ⟨[], rfl, by simp, rfl⟩
    · rintro ⟨blocks, hb, -, rfl⟩
      rw [List.map_eq_nil_iff.mp hb, List.flatMap_nil]
  | cons c cs ih =>
    obtain ⟨hc, hs⟩ := List.forall_mem_cons.mp hcs
    rw [List.map_cons, List.prod_cons, spells_mul]
    constructor
    · rintro ⟨us, vs, rfl, hu, hv⟩
      obtain ⟨_, ws, rfl, hword, hws⟩ := spells_mul.mp hu
      obtain ⟨key, rfl, hk⟩ := spells_word.mp hword
      obtain ⟨child, hw⟩ := (spells_content c.shape ws).mp hws
      obtain ⟨blocks, rfl, hb, rfl⟩ := (ih hs).mp hv
      exact ⟨⟨key, c, ws, child⟩ :: blocks, rfl, List.forall_mem_cons.mpr ⟨⟨hc, hk, hw⟩, hb⟩, rfl⟩
    · rintro ⟨blocks, hb, hv, rfl⟩
      obtain ⟨b, blocks, rfl, rfl, rfl⟩ := List.map_eq_cons_iff.mp hb
      obtain ⟨hv, hvs⟩ := List.forall_mem_cons.mp hv
      refine ⟨b.written, blocks.flatMap Block.written, by simp, ?_, (ih hs).mpr ⟨blocks, rfl, hvs, rfl⟩⟩
      exact spells_mul.mpr ⟨[b.key], b.content, rfl, spells_word.mpr ⟨b.key, rfl, hv.key⟩,
        (spells_content _ _).mpr ⟨b.child, hv.content⟩⟩

/-- The required clauses of a table and some of the others. -/
theorem nodup_required_append {table cs : List Clause} (h : table.Nodup)
    (hs : cs.Sublist (table.filter (!·.required))) :
    (table.filter (·.required) ++ cs).Nodup := by
  refine (h.filter _).append ((h.filter _).sublist hs) ?_
  intro c hr hc
  have ho := (List.mem_filter.mp (hs.subset hc)).2
  simp [(List.mem_filter.mp hr).2] at ho

theorem spells_anyOrder {table : List Clause} (h : table.Nodup) {ts : List Token} :
    Spells (anyOrder ((table.filter (·.required)).map clause)
        ((table.filter (!·.required)).map clause)) ts ↔
      ∃ blocks, Block.Complete table blocks ∧ ts = blocks.flatMap Block.written := by
  constructor
  · rintro ⟨chosen, order, hs, hp, hm⟩
    obtain ⟨cs, hcs, rfl⟩ := List.sublist_map_iff.mp hs
    rw [← List.map_append] at hp
    have hmap : Relation.Comp (· = List.map clause ·) List.Perm order
        (table.filter (·.required) ++ cs) := by
      rw [List.eq_map_comp_perm]
      exact hp
    obtain ⟨ds, rfl, hd⟩ := hmap
    have hmem : ∀ c ∈ ds, c ∈ table := by
      intro c hc
      rcases List.mem_append.mp (hd.subset hc) with hr | ho
      · exact List.mem_of_mem_filter hr
      · exact List.mem_of_mem_filter (hcs.subset ho)
    obtain ⟨blocks, rfl, hb, rfl⟩ := (spells_prod hmem).mp hm
    refine ⟨blocks, ⟨⟨hb, hd.nodup_iff.mpr (nodup_required_append h hcs)⟩, ?_⟩, rfl⟩
    intro c hc hr
    exact hd.symm.subset (List.mem_append_left _ (List.mem_filter.mpr ⟨hc, hr⟩))
  · rintro ⟨blocks, hb, rfl⟩
    -- The clauses that are not required and are written all the same.
    let cs := (table.filter (!·.required)).filter (fun c => c ∈ blocks.map Block.clause)
    have hmem : ∀ c ∈ blocks.map Block.clause, c ∈ table := fun _ hc => hb.mem_table hc
    have hcs : cs.Sublist (table.filter (!·.required)) := List.filter_sublist
    have hp : (blocks.map Block.clause).Perm (table.filter (·.required) ++ cs) := by
      refine (List.perm_ext_iff_of_nodup hb.nodup (nodup_required_append h hcs)).mpr ?_
      intro c
      simp only [cs, List.mem_append, List.mem_filter]
      constructor
      · intro hc
        cases hr : c.required with
        | true => exact .inl ⟨hmem c hc, rfl⟩
        | false => exact .inr ⟨⟨hmem c hc, rfl⟩, by simpa using hc⟩
      · rintro (⟨hc, hr⟩ | ⟨-, hc⟩)
        · exact hb.required c hc hr
        · simpa using hc
    refine ⟨cs.map clause, (blocks.map Block.clause).map clause, hcs.map clause, ?_, ?_⟩
    · rw [← List.map_append]
      exact hp.map clause
    · exact (spells_prod hmem).mpr ⟨blocks, rfl, hb.valid, rfl⟩

theorem spells_names {ts : List Token} :
    Spells name∗ ts ↔ ∀ t ∈ ts, Read.isFree t = true := by
  rw [spells_kstar]
  constructor
  · rintro ⟨tss, rfl, h⟩ t ht
    obtain ⟨us, hu, ht⟩ := List.mem_flatten.mp ht
    obtain ⟨x, rfl, hx⟩ := spells_name.mp (h us hu)
    rwa [List.mem_singleton.mp ht]
  · intro h
    refine ⟨ts.map (fun t => [t]), ?_, ?_⟩
    · rw [← List.flatMap_def, List.flatMap_singleton']
    · intro us hu
      obtain ⟨t, ht, rfl⟩ := List.mem_map.mp hu
      exact spells_name.mpr ⟨t, rfl, h t ht⟩

/-- The language of the statements that start with a keyword. -/
def ofKeyword : Keyword → Language Lexeme
  | .controller => controller
  | .remoteController => remoteController
  | .host => host
  | .switch => switch
  | .link => link
  | .intent => intent
  | .up => up
  | .down => down
  | .ping => ping

theorem mem_statement {ls : List Lexeme} : ls ∈ statement ↔ ∃ k, ls ∈ ofKeyword k := by
  simp only [statement, Language.mem_add]
  constructor
  · rintro ((((((((h | h) | h) | h) | h) | h) | h) | h) | h)
    exacts [⟨.controller, h⟩, ⟨.remoteController, h⟩, ⟨.host, h⟩, ⟨.switch, h⟩, ⟨.link, h⟩,
      ⟨.intent, h⟩, ⟨.up, h⟩, ⟨.ping, h⟩, ⟨.down, h⟩]
  · rintro ⟨k, h⟩
    cases k <;> simp only [ofKeyword] at h <;> tauto

/-- The tokens are a statement with the keyword `k`. -/
def Starts (k : Keyword) (ts : List Token) : Prop :=
  ∃ key us r, ts = key :: us ∧ key.isWord k.text = true ∧ Read.Written k us r

theorem spells_names_statement {k : Keyword} (hk : k = .switch ∨ k = .ping) {ts : List Token} :
    Spells (word k.text * name * name∗) ts ↔ Starts k ts := by
  simp only [spells_mul, spells_word, spells_name, spells_names, Starts, Read.written_names hk]
  constructor
  · rintro ⟨_, us, rfl, ⟨_, _, rfl, ⟨key, rfl, hkey⟩, first, rfl, hf⟩, hs⟩
    exact ⟨key, first :: us, _, rfl, hkey, first, us, List.forall_mem_cons.mpr ⟨hf, hs⟩, rfl, rfl⟩
  · rintro ⟨key, _, _, rfl, hkey, first, more, h, rfl, rfl⟩
    obtain ⟨hf, hs⟩ := List.forall_mem_cons.mp h
    exact ⟨[key, first], more, rfl, ⟨[key], [first], rfl, ⟨key, rfl, hkey⟩, first, rfl, hf⟩, hs⟩

theorem spells_clauses_statement {k : Keyword} (hk : k = .host ∨ k = .link) (h : k.clauses.Nodup)
    {ts : List Token} :
    Spells (word k.text * name * anyOrder ((k.clauses.filter (·.required)).map clause)
        ((k.clauses.filter (!·.required)).map clause)) ts ↔ Starts k ts := by
  simp only [spells_mul, spells_word, spells_name, spells_anyOrder h, Starts, Read.written_clauses hk]
  constructor
  · rintro ⟨_, _, rfl, ⟨_, _, rfl, ⟨key, rfl, hkey⟩, first, rfl, hf⟩, blocks, hb, rfl⟩
    exact ⟨key, _, _, rfl, hkey, _, ⟨first, blocks, hf, hb, rfl, rfl⟩, rfl⟩
  · rintro ⟨key, _, _, rfl, hkey, _, ⟨first, blocks, hf, hb, rfl, rfl⟩, rfl⟩
    exact ⟨[key, first], _, rfl, ⟨[key], [first], rfl, ⟨key, rfl, hkey⟩, first, rfl, hf⟩, blocks, hb, rfl⟩

theorem spells_bare_statement {k : Keyword} (hk : k = .up ∨ k = .down) {ts : List Token} :
    Spells (word k.text) ts ↔ Starts k ts := by
  simp only [spells_word, Starts, Read.written_nothing hk]
  constructor
  · rintro ⟨key, rfl, hkey⟩
    exact ⟨key, [], _, rfl, hkey, rfl, rfl⟩
  · rintro ⟨key, _, _, rfl, hkey, rfl, -⟩
    exact ⟨key, rfl, hkey⟩

theorem spells_controller {ts : List Token} : Spells controller ts ↔ Starts .controller ts := by
  simp only [controller, spells_mul, spells_word, spells_value]
  constructor
  · rintro ⟨_, _, rfl, ⟨key, rfl, hkey⟩, t, rfl, ht⟩
    exact ⟨key, [t], _, rfl, hkey, .value t, ht, rfl, rfl⟩
  · rintro ⟨key, _, _, rfl, hkey, b, hb, rfl, rfl⟩
    cases b with
    | value t => exact ⟨[key], [t], rfl, ⟨key, rfl, hkey⟩, t, rfl, hb⟩
    | _ => exact hb.elim

theorem spells_remoteController {ts : List Token} :
    Spells remoteController ts ↔ Starts .remoteController ts := by
  simp only [remoteController, spells_mul, spells_word, spells_name, string, number, spells_mark]
  constructor
  · rintro ⟨_, _, rfl, ⟨_, _, rfl, ⟨_, _, rfl, ⟨_, _, rfl, ⟨_, _, rfl, ⟨key, rfl, hkey⟩, n, rfl, hn⟩,
      hw, rfl, hhw⟩, h, rfl, hh⟩, pw, rfl, hpw⟩, p, rfl, hp⟩
    exact ⟨key, [n, hw, h, pw, p], _, rfl, hkey, .remote n hw h pw p, ⟨hn, hhw, hh, hpw, hp⟩, rfl, rfl⟩
  · rintro ⟨key, _, _, rfl, hkey, b, hb, rfl, rfl⟩
    cases b with
    | remote n hw h pw p =>
      obtain ⟨hn, hhw, hh, hpw, hp⟩ := hb
      exact ⟨[key, n, hw, h, pw], [p], rfl, ⟨[key, n, hw, h], [pw], rfl, ⟨[key, n, hw], [h], rfl,
        ⟨[key, n], [hw], rfl, ⟨[key], [n], rfl, ⟨key, rfl, hkey⟩, n, rfl, hn⟩, hw, rfl, hhw⟩, h, rfl, hh⟩,
        pw, rfl, hpw⟩, p, rfl, hp⟩
    | _ => exact hb.elim

theorem spells_intent {ts : List Token} : Spells intent ts ↔ Starts .intent ts := by
  have hname : ∀ us, Spells name us ↔ ∃ t, us = [t] ∧ Read.isFree t = true := fun _ => spells_name
  simp only [intent, spells_mul, spells_led hname, spells_word, spells_name, spells_mark]
  constructor
  · rintro ⟨_, _, rfl, ⟨_, _, rfl, ⟨_, _, rfl, ⟨_, _, rfl, ⟨key, rfl, hkey⟩, f, rfl, hf⟩, a, rfl, ha⟩,
      n, rfl, hn⟩, names, hl⟩
    obtain ⟨hops, hh, rfl, rfl⟩ := Read.led_iff_hops.mp hl
    exact ⟨key, _, _, rfl, hkey, .chain f ((a, n) :: hops),
      ⟨hf, by simp, List.forall_mem_cons.mpr ⟨⟨ha, hn⟩, hh⟩⟩, rfl, rfl⟩
  · rintro ⟨key, _, _, rfl, hkey, b, hb, rfl, rfl⟩
    cases b with
    | chain f hops =>
      obtain ⟨hf, hne, hh⟩ := hb
      cases hops with
      | nil => exact absurd rfl hne
      | cons h hops =>
        obtain ⟨⟨ha, hn⟩, hh⟩ := List.forall_mem_cons.mp hh
        exact ⟨[key, f, h.1, h.2], _, rfl, ⟨[key, f, h.1], [h.2], rfl, ⟨[key, f], [h.1], rfl,
          ⟨[key], [f], rfl, ⟨key, rfl, hkey⟩, f, rfl, hf⟩, h.1, rfl, ha⟩, h.2, rfl, hn⟩, _,
          Read.led_iff_hops.mpr ⟨hops, hh, rfl, rfl⟩⟩
    | _ => exact hb.elim

theorem spells_ofKeyword (k : Keyword) {ts : List Token} : Spells (ofKeyword k) ts ↔ Starts k ts := by
  cases k with
  | controller => exact spells_controller
  | remoteController => exact spells_remoteController
  | intent => exact spells_intent
  | host => exact spells_clauses_statement (.inl rfl) Clause.regular_ofHost.nodup
  | link => exact spells_clauses_statement (.inr rfl) Clause.regular_ofLink.nodup
  | switch => exact spells_names_statement (.inl rfl)
  | ping => exact spells_names_statement (.inr rfl)
  | up => exact spells_bare_statement (.inl rfl)
  | down => exact spells_bare_statement (.inr rfl)

theorem spells_statement {ts : List Token} :
    Spells statement ts ↔ ∃ p : Phrase, p.Valid ∧ ts = p.written := by
  rw [Spells, mem_statement]
  constructor
  · rintro ⟨k, h⟩
    obtain ⟨key, _, _, rfl, hkey, b, hb, rfl, rfl⟩ := (spells_ofKeyword k).mp h
    exact ⟨⟨key, k, b⟩, ⟨hkey, hb⟩, rfl⟩
  · rintro ⟨p, ⟨hkey, hb⟩, rfl⟩
    exact ⟨p.keyword, (spells_ofKeyword _).mpr ⟨p.key, _, _, rfl, hkey, p.body, hb, rfl, rfl⟩⟩

theorem spells_statements {ts : List Token} :
    Spells statement∗ ts ↔
      ∃ ps : List Phrase, (∀ p ∈ ps, p.Valid) ∧ ts = ps.flatMap Phrase.written := by
  rw [spells_kstar]
  constructor
  · rintro ⟨tss, rfl, h⟩
    induction tss with
    | nil => exact ⟨[], by simp, rfl⟩
    | cons us tss ih =>
      obtain ⟨hu, hs⟩ := List.forall_mem_cons.mp h
      obtain ⟨p, hp, rfl⟩ := spells_statement.mp hu
      obtain ⟨ps, hps, he⟩ := ih hs
      exact ⟨p :: ps, List.forall_mem_cons.mpr ⟨hp, hps⟩, by rw [List.flatten_cons, he, List.flatMap_cons]⟩
  · rintro ⟨ps, hps, rfl⟩
    refine ⟨ps.map Phrase.written, List.flatMap_def .., ?_⟩
    intro us hu
    obtain ⟨p, hp, rfl⟩ := List.mem_map.mp hu
    exact spells_statement.mpr ⟨p, hps p hp, rfl⟩

/-- The words of the grammar are the token lists that can be divided into statements. -/
theorem mem_program_iff {ts : List Token} :
    ts.map Token.toLexeme ∈ program ↔ ∃ ps, Derivation ts ps := by
  change Spells (statement * statement∗) ts ↔ _
  simp only [spells_mul, spells_statement, spells_statements]
  constructor
  · rintro ⟨_, _, rfl, ⟨p, hp, rfl⟩, ps, hps, rfl⟩
    exact ⟨p :: ps, by simp, List.forall_mem_cons.mpr ⟨hp, hps⟩, rfl⟩
  · rintro ⟨ps, hne, hps, rfl⟩
    obtain ⟨p, ps, rfl⟩ := List.exists_cons_of_ne_nil hne
    obtain ⟨hp, hps⟩ := List.forall_mem_cons.mp hps
    exact ⟨p.written, _, rfl, ⟨p, hp, rfl⟩, ps, hps, rfl⟩

end Netlab.Grammar

namespace Netlab.Tree

/-- Exactly the words of the grammar are read, and the trees are those of the only way to divide the
tokens into statements. -/
theorem ofTokens_derives {ts : List Token} (h : ∀ t ∈ ts, t.kind ≠ .eof) :
    ((∃ trees, ofTokens ts = .ok trees) ↔ ts.map Token.toLexeme ∈ Grammar.program) ∧
      ∀ trees, ofTokens ts = .ok trees →
        ∃ ps, Derivation ts ps ∧ (∀ qs, Derivation ts qs → qs = ps) ∧
          trees = ps.map Phrase.tree ∧ ∀ p ∈ ps, p.HeldBy p.tree := by
  constructor
  · rw [Grammar.mem_program_iff]
    constructor
    · rintro ⟨trees, ht⟩
      obtain ⟨ps, hps, -⟩ := (ofTokens_eq_ok_iff h).mp ht
      exact ⟨ps, hps⟩
    · rintro ⟨ps, hps⟩
      exact ⟨_, (ofTokens_eq_ok_iff h).mpr ⟨ps, hps, rfl⟩⟩
  · intro trees ht
    obtain ⟨ps, hps, rfl⟩ := (ofTokens_eq_ok_iff h).mp ht
    exact ⟨ps, hps, fun _ hqs => hqs.unique hps, rfl, fun p hp => Phrase.heldBy_tree (hps.valid p hp)⟩

def selfNamedLink : List Token :=
  ["link", "src", "src", "dst", "dst", "dst"].map fun text => ⟨⟨.name, text⟩, .start⟩

theorem ofTokens_derives_selfNamedLink :
    (∀ t ∈ selfNamedLink, t.kind ≠ .eof) ∧ selfNamedLink.map Token.toLexeme ∈ Grammar.program ∧
      ∃ trees, ofTokens selfNamedLink = .ok trees ∧
        ∃ ps, Derivation selfNamedLink ps ∧ (∀ qs, Derivation selfNamedLink qs → qs = ps) ∧
          trees = ps.map Phrase.tree ∧ ∀ p ∈ ps, p.HeldBy p.tree := by
  have h : ∀ t ∈ selfNamedLink, t.kind ≠ .eof := by decide
  have hok : (ofTokens selfNamedLink).isOk = true := by decide +kernel
  obtain ⟨trees, ht⟩ : ∃ trees, ofTokens selfNamedLink = .ok trees := by
    cases hr : ofTokens selfNamedLink with
    | ok trees => exact ⟨trees, rfl⟩
    | error e => rw [hr] at hok; cases hok
  obtain ⟨hmem, htrees⟩ := ofTokens_derives h
  exact ⟨h, hmem.mp ⟨trees, ht⟩, trees, ht, htrees trees ht⟩

end Netlab.Tree
