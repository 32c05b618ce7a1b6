import Netlab.Proofs.Phrase
import Netlab.Proofs.Reading

namespace Netlab.Read

variable {α : Type}

theorem recognizes_takeIf {p : Token → Bool} (hp : ∃ t, p t = true) (cause : Lexeme → ParseFault) :
    Recognizes (fun ts t => ts = [t] ∧ p t = true) anything (takeIf p cause) := by
  refine .single hp ?_ ?_ ?_
  · intro t ts stop ht
    simp [takeIf, ht]
  · intro t ht
    exact ⟨cause t.toLexeme, fun ts stop => ⟨⟨t :: ts, stop⟩, by simp [takeIf, ht, fail, Stream.head]⟩⟩
  · intro stop
    exact ⟨cause ⟨.eof, ""⟩, ⟨[], stop⟩, rfl⟩

theorem recognizes_take (kind : Kind) :
    Recognizes (fun ts t => ts = [t] ∧ t.kind = kind) anything (take kind) := by
  refine (recognizes_takeIf ⟨⟨⟨kind, ""⟩, .start⟩, by simp⟩ _).congr ?_
  simp

theorem recognizes_takeWord (word : String) :
    Recognizes (fun ts t => ts = [t] ∧ t.isWord word = true) anything (takeWord word) :=
  recognizes_takeIf ⟨⟨⟨.name, word⟩, .start⟩, by simp [Token.isWord]⟩ _

theorem isFree_iff {t : Token} :
    isFree t = true ↔ t.kind = .name ∧ Keyword.isReserved t.text = false := by
  simp [isFree]

theorem take_cons {kind : Kind} {t : Token} (h : t.kind = kind) (ts : List Token) (stop : Position) :
    take kind ⟨t :: ts, stop⟩ = .ok t ⟨ts, stop⟩ :=
  (recognizes_take kind).accepts ⟨rfl, h⟩ ts stop trivial

theorem takeName_cons {t : Token} (h : isFree t = true) (ts : List Token) (stop : Position) :
    takeName ⟨t :: ts, stop⟩ = .ok t ⟨ts, stop⟩ := by
  obtain ⟨hk, hr⟩ := isFree_iff.mp h
  refine bind_ok.mpr ⟨t, ⟨ts, stop⟩, take_cons hk ts stop, ?_⟩
  simp [hr, pure, EStateM.pure]

theorem takeName_fails {t : Token} (h : isFree t ≠ true) :
    ∃ cause, ∀ ts stop, ∃ s', takeName ⟨t :: ts, stop⟩ = .error ⟨t.pos, cause⟩ s' := by
  by_cases hk : t.kind = .name
  · have hr : Keyword.isReserved t.text = true := by simpa [isFree, hk] using h
    refine ⟨.reserved t.text, fun ts stop => ⟨⟨ts, stop⟩, ?_⟩⟩
    refine bind_error.mpr (.inr ⟨t, ⟨ts, stop⟩, take_cons hk ts stop, ?_⟩)
    rw [if_pos hr]
    rfl
  · refine ⟨.expected .name t.toLexeme, fun ts stop => ⟨⟨t :: ts, stop⟩, ?_⟩⟩
    refine bind_error.mpr (.inl ?_)
    simp [take, takeIf, hk, fail, Stream.head]

theorem exists_isFree : ∃ t, isFree t = true :=
  ⟨⟨⟨.name, "x"⟩, .start⟩, by decide⟩

theorem recognizes_takeName :
    Recognizes (fun ts t => ts = [t] ∧ isFree t = true) anything takeName :=
  .single exists_isFree (fun _ ts stop h => takeName_cons h ts stop) (fun _ h => takeName_fails h)
    fun stop => ⟨.expected .name ⟨.eof, ""⟩, ⟨[], stop⟩, rfl⟩

theorem takeValue_cons {t : Token} (h : t.IsValue) (ts : List Token) (stop : Position) :
    takeValue ⟨t :: ts, stop⟩ = .ok t ⟨ts, stop⟩ := by
  refine bind_ok.mpr ⟨t, ⟨t :: ts, stop⟩, rfl, ?_⟩
  rcases h with h | h | h
  · rw [(isFree_iff.mp h).1]
    exact takeName_cons h ts stop
  · rw [h]
    exact take_cons h ts stop
  · rw [h]
    exact take_cons h ts stop

theorem takeValue_fails {t : Token} (h : ¬t.IsValue) :
    ∃ cause, ∀ ts stop, ∃ s', takeValue ⟨t :: ts, stop⟩ = .error ⟨t.pos, cause⟩ s' := by
  simp only [Token.IsValue, not_or] at h
  obtain ⟨hf, hs, hn⟩ := h
  by_cases hk : t.kind = .name
  · obtain ⟨cause, hc⟩ := takeName_fails hf
    refine ⟨cause, fun ts stop => ?_⟩
    obtain ⟨s', he⟩ := hc ts stop
    refine ⟨s', bind_error.mpr (.inr ⟨t, ⟨t :: ts, stop⟩, rfl, ?_⟩)⟩
    rw [hk]
    exact he
  · refine ⟨.expectedValue t.toLexeme, fun ts stop => ⟨⟨t :: ts, stop⟩, ?_⟩⟩
    refine bind_error.mpr (.inr ⟨t, ⟨t :: ts, stop⟩, rfl, ?_⟩)
    cases ht : t.kind <;> simp_all [fail, Stream.head]

theorem recognizes_takeValue :
    Recognizes (fun ts t => ts = [t] ∧ t.IsValue) anything takeValue :=
  .single (exists_isFree.imp fun _ h => .inl h) (fun _ ts stop h => takeValue_cons h ts stop)
    (fun _ h => takeValue_fails h)
    fun stop => ⟨.expectedValue ⟨.eof, ""⟩, ⟨[], stop⟩, rfl⟩

theorem recognizes_pair {r : Read Token} {p : Token → Prop}
    (hr : Recognizes (fun ts t => ts = [t] ∧ p t) anything r) (kind : Kind) (rule : Rule) :
    Recognizes
      (fun ts c => ∃ key colon value, key.kind = kind ∧ colon.kind = .colon ∧ p value ∧
        ts = [key, colon, value] ∧ c = Child.node rule key.pos [.token key, .token value])
      anything
      (do
        let key ← take kind
        let _ ← take .colon
        let value ← r
        return Child.node rule key.pos [.token key, .token value]) := by
  have h := (recognizes_take kind).andThen fun key => (recognizes_take .colon).andThen fun _ =>
    hr.map anything (fun value => Child.node rule key.pos [.token key, .token value])
      fun _ _ => Iff.rfl
  refine h.congr ?_
  intro ts c
  constructor
  · rintro ⟨key, _, _, rfl, ⟨rfl, hk⟩, colon, _, _, rfl, ⟨rfl, hc⟩, value, ⟨rfl, hv⟩, rfl⟩
    exact ⟨key, colon, value, hk, hc, hv, rfl, rfl⟩
  · rintro ⟨key, colon, value, hk, hc, hv, rfl, rfl⟩
    exact ⟨key, [key], [colon, value], rfl, ⟨rfl, hk⟩, colon, [colon], [value], rfl, ⟨rfl, hc⟩, value,
      ⟨rfl, hv⟩, rfl⟩

theorem recognizes_item (l : Listing) : Recognizes (Member l) anything (item l) := by
  cases l with
  | array =>
    refine (recognizes_takeValue.map _ Child.token fun _ _ => Iff.rfl).congr ?_
    intro ts c
    constructor
    · rintro ⟨t, ⟨rfl, ht⟩, rfl⟩
      exact .value ht
    · rintro ⟨ht⟩
      exact ⟨_, ⟨rfl, ht⟩, rfl⟩
  | object =>
    refine (recognizes_pair recognizes_takeValue .string .pair).congr ?_
    intro ts c
    constructor
    · rintro ⟨key, colon, value, hk, hc, hv, rfl, rfl⟩
      exact .pair hk hc hv
    · intro h
      cases h with
      | pair hk hc hv => exact ⟨_, _, _, hk, hc, hv, rfl, rfl⟩
  | intMap =>
    refine (recognizes_pair (recognizes_take .number) .number .intPair).congr ?_
    intro ts c
    constructor
    · rintro ⟨key, colon, value, hk, hc, hv, rfl, rfl⟩
      exact .intPair hk hc hv
    · intro h
      cases h with
      | intPair hk hc hv => exact ⟨_, _, _, hk, hc, hv, rfl, rfl⟩

/-- A list goes on as long as there are separators. -/
def noSeparator (separator : Kind) (_ : α) (t? : Option Token) : Prop :=
  ∀ t ∈ t?, t.kind ≠ separator

/-- A step that reads one more phrase behind every separator it meets. -/
structure Leads (separator : Kind) (r : Read α) (more : Read (List α)) : Prop where
  nil : ∀ stop, more ⟨[], stop⟩ = .ok [] ⟨[], stop⟩
  other : ∀ t ts stop, t.kind ≠ separator → more ⟨t :: ts, stop⟩ = .ok [] ⟨t :: ts, stop⟩
  step : ∀ t ts stop, t.kind = separator → more ⟨t :: ts, stop⟩ =
    (do let a ← r; let as ← more; return a :: as : Read (List α)) ⟨ts, stop⟩

namespace Leads

variable {separator : Kind} {r : Read α} {more : Read (List α)} {phrase : List Token → α → Prop}
  (h : Leads separator r more) (hr : Recognizes phrase anything r)
include h hr

theorem accepts {ts : List Token} {as : List α} (hled : Led separator phrase ts as)
    (rest : List Token) (stop : Position) (hrest : noSeparator separator as rest.head?) :
    more ⟨ts ++ rest, stop⟩ = .ok as ⟨rest, stop⟩ := by
  induction hled with
  | nil =>
    cases rest with
    | nil => exact h.nil stop
    | cons t ts => exact h.other t ts stop (hrest t rfl)
  | cons ht ha _ ih =>
    rw [List.cons_append, h.step _ _ _ ht, List.append_assoc]
    exact bind_ok.mpr ⟨_, _, hr.accepts ha _ stop trivial, bind_ok.mpr ⟨_, _, ih hrest, rfl⟩⟩

theorem inverts {s s' : Stream} {as : List α} (hs : more s = .ok as s') :
    ∃ ts, s = ⟨ts ++ s'.ahead, s'.stop⟩ ∧ Led separator phrase ts as ∧
      noSeparator separator as s'.ahead.head? := by
  obtain ⟨ahead, stop⟩ := s
  -- A phrase takes any number of tokens, so the induction is on how many are left.
  induction hn : ahead.length using Nat.strongRecOn generalizing ahead stop as with
  | ind n ih =>
    cases ahead with
    | nil =>
      rw [h.nil] at hs
      cases hs
      exact ⟨[], rfl, .nil, by simp [noSeparator]⟩
    | cons t ts =>
      by_cases ht : t.kind = separator
      · rw [h.step t ts stop ht] at hs
        obtain ⟨a, ⟨ahead₁, stop₁⟩, ha, hs⟩ := bind_ok.mp hs
        obtain ⟨as', s₂, has, hs⟩ := bind_ok.mp hs
        cases hs
        obtain ⟨us, hs₁, hus, -⟩ := hr.inverts ha
        cases hs₁
        have hlt : ahead₁.length < n := by
          simp only [← hn, List.length_cons, List.length_append]
          omega
        obtain ⟨vs, hs₁, hvs, hfollow⟩ := ih _ hlt ahead₁ stop₁ has rfl
        cases hs₁
        exact ⟨t :: (us ++ vs), by simp, .cons ht hus hvs, hfollow⟩
      · rw [h.other t ts stop ht] at hs
        cases hs
        exact ⟨[], rfl, .nil, by simpa [noSeparator] using ht⟩

theorem refuses {s s' : Stream} {e : ParseError} (hs : more s = .error e s') :
    Refuses (Led separator phrase) more s e := by
  obtain ⟨ahead, stop⟩ := s
  induction hn : ahead.length using Nat.strongRecOn generalizing ahead stop with
  | ind n ih =>
    cases ahead with
    | nil =>
      rw [h.nil] at hs
      cases hs
    | cons t ts =>
      by_cases ht : t.kind = separator
      · rw [h.step t ts stop ht] at hs
        rcases bind_error.mp hs with he | ⟨a, ⟨ahead₁, stop₁⟩, ha, hs⟩
        · obtain ⟨read, rest, hs₁, hpos, ⟨more', a, hm⟩, hfatal⟩ := hr.refuses he
          refine ⟨t :: read, rest, by simpa using hs₁, hpos,
            ⟨more', [a], by simpa using Led.cons ht hm .nil⟩, ?_⟩
          intro u us hrest vs stop'
          obtain ⟨s₁, hs₁⟩ := hfatal u us hrest vs stop'
          refine ⟨s₁, ?_⟩
          rw [List.cons_append, h.step _ _ _ ht]
          exact bind_error.mpr (.inl hs₁)
        · rcases bind_error.mp hs with he | ⟨_, _, _, hs⟩
          · obtain ⟨us, hs₁, hus, -⟩ := hr.inverts ha
            cases hs₁
            have hlt : ahead₁.length < n := by
              simp only [← hn, List.length_cons, List.length_append]
              omega
            obtain ⟨read, rest, hs₁, hpos, ⟨more', as, hm⟩, hfatal⟩ := ih _ hlt ahead₁ stop₁ he rfl
            simp only at hs₁
            refine ⟨t :: (us ++ read), rest, by simp [hs₁], hpos,
              ⟨more', a :: as, by simpa using Led.cons ht hus hm⟩, ?_⟩
            intro u us' hrest vs stop'
            obtain ⟨s₂, hs₂⟩ := hfatal u us' hrest vs stop'
            refine ⟨s₂, ?_⟩
            rw [List.cons_append, h.step _ _ _ ht, List.append_assoc]
            exact bind_error.mpr (.inr ⟨a, _, hr.accepts hus _ stop' trivial, bind_error.mpr (.inl hs₂)⟩)
          · cases hs
      · rw [h.other t ts stop ht] at hs
        cases hs

theorem recognizes : Recognizes (Led separator phrase) (noSeparator separator) more where
  possible := ⟨[], [], .nil⟩
  accepts := h.accepts hr
  inverts := h.inverts hr
  refuses := h.refuses hr

end Leads

theorem leads_moreItems (l : Listing) : Leads .comma (item l) (moreItems l) := by
  refine ⟨?_, ?_, ?_⟩
  · intro stop
    simp [moreItems]
  · intro t ts stop ht
    simp [moreItems, ht]
  · intro t ts stop ht
    rw [moreItems]
    simp only [ht, ↓reduceIte, bind, EStateM.bind]
    cases item l ⟨ts, stop⟩ with
    | error e s₁ => rfl
    | ok c s₁ => cases hm : moreItems l s₁ <;> simp [hm, pure, EStateM.pure]

theorem recognizes_moreItems (l : Listing) :
    Recognizes (Led .comma (Member l)) (noSeparator .comma) (moreItems l) :=
  (leads_moreItems l).recognizes (recognizes_item l)

theorem leads_moreHops : Leads .arrow takeName moreHops := by
  refine ⟨?_, ?_, ?_⟩
  · intro stop
    simp [moreHops]
  · intro t ts stop ht
    simp [moreHops, ht]
  · intro t ts stop ht
    rw [moreHops]
    simp only [ht, ↓reduceIte, bind, EStateM.bind]
    cases takeName ⟨ts, stop⟩ with
    | error e s₁ => rfl
    | ok c s₁ => cases hm : moreHops s₁ <;> simp [hm, pure, EStateM.pure]

theorem recognizes_moreHops :
    Recognizes (Led .arrow fun ts t => ts = [t] ∧ isFree t = true) (noSeparator .arrow) moreHops :=
  leads_moreHops.recognizes recognizes_takeName

/-- An empty list ends at once, at its closing bracket; another one where there is no comma. -/
def closes (l : Listing) : List Child → Option Token → Prop
  | [], t? => ∃ t ∈ t?, t.kind = l.closing
  | _ :: _, t? => ∀ t ∈ t?, t.kind ≠ .comma

theorem member_head_ne_closing {l : Listing} {ts : List Token} {c : Child} (h : Member l ts c) :
    ∃ t us, ts = t :: us ∧ t.kind ≠ l.closing := by
  cases h with
  | value hv =>
    refine ⟨_, [], rfl, ?_⟩
    rcases hv with h | h | h
    · rw [(isFree_iff.mp h).1]
      decide
    · rw [h]
      decide
    · rw [h]
      decide
  | pair hk | intPair hk =>
    refine ⟨_, _, rfl, ?_⟩
    rw [hk]
    decide

theorem items_closing {l : Listing} {t : Token} (h : t.kind = l.closing) (ts : List Token)
    (stop : Position) : items l ⟨t :: ts, stop⟩ = .ok [] ⟨t :: ts, stop⟩ := by
  refine bind_ok.mpr ⟨t, ⟨t :: ts, stop⟩, rfl, ?_⟩
  simp [h, pure, EStateM.pure]

theorem closing_or_not (l : Listing) (ts : List Token) :
    (∃ t us, ts = t :: us ∧ t.kind = l.closing) ∨ ∀ t ∈ ts.head?, t.kind ≠ l.closing := by
  cases ts with
  | nil => simp
  | cons t us =>
    by_cases h : t.kind = l.closing
    · exact .inl ⟨t, us, rfl, h⟩
    · exact .inr (by simpa using h)

theorem items_other {l : Listing} {s : Stream} (h : ∀ t ∈ s.ahead.head?, t.kind ≠ l.closing) :
    items l s = (do let c ← item l; let cs ← moreItems l; return c :: cs : Read (List Child)) s := by
  have hk : s.head.kind ≠ l.closing := by
    obtain ⟨ahead, stop⟩ := s
    cases ahead with
    | nil => cases l <;> exact Kind.noConfusion
    | cons t ts => exact h t rfl
  simp only [items, head, bind, EStateM.bind, hk, ↓reduceIte]

theorem recognizes_items (l : Listing) : Recognizes (Members l) (closes l) (items l) := by
  have h := (recognizes_item l).andThen fun c =>
    (recognizes_moreItems l).map (closes l) (c :: ·) fun _ _ => Iff.rfl
  refine ⟨⟨[], [], .none⟩, ?_, ?_, ?_⟩
  · intro ts cs hm rest stop hrest
    cases hm with
    | none =>
      obtain ⟨t, ht, hk⟩ := hrest
      obtain ⟨us, rfl⟩ := List.head?_eq_some_iff.mp ht
      exact items_closing hk us stop
    | some hm hs =>
      obtain ⟨t, us, rfl, ht⟩ := member_head_ne_closing hm
      rw [items_other (by simpa using ht)]
      exact h.accepts ⟨_, _, _, rfl, hm, _, hs, rfl⟩ rest stop hrest
  · rintro ⟨ahead, stop⟩ cs s' hs
    rcases closing_or_not l ahead with ⟨t, us, rfl, ht⟩ | hk
    · rw [items_closing ht] at hs
      cases hs
      exact ⟨[], rfl, .none, t, rfl, ht⟩
    · rw [items_other hk] at hs
      obtain ⟨_, he, ⟨c, us, vs, rfl, hm, cs', hv, rfl⟩, hfollow⟩ := h.inverts hs
      exact ⟨us ++ vs, he, .some hm hv, hfollow⟩
  · rintro ⟨ahead, stop⟩ e s' hs
    rcases closing_or_not l ahead with ⟨t, us, rfl, ht⟩ | hk
    · rw [items_closing ht] at hs
      cases hs
    · rw [items_other hk] at hs
      obtain ⟨read, rest, hs, hpos, ⟨more, cs, c, us, vs, hts, hm, cs', hv, rfl⟩, hfatal⟩ :=
        h.refuses hs
      refine ⟨read, rest, hs, hpos, ⟨more, c :: cs', hts ▸ .some hm hv⟩, ?_⟩
      intro t ts hrest vs stop
      rw [items_other]
      · exact hfatal t ts hrest vs stop
      · rwa [head?_append_cons read vs ts t, ← hrest, ← hs]

theorem recognizes_listing (l : Listing) :
    Recognizes (Content (.listing l)) anything (listing l) := by
  have h := (recognizes_take l.opening).andThen fun bracket => (recognizes_items l).bind (fun cs =>
    (recognizes_take l.closing).map anything (fun _ => Child.node l.rule bracket.pos cs)
      fun _ _ => Iff.rfl) ?_
  · refine h.congr ?_
    intro ts c
    constructor
    · rintro ⟨bracket, _, _, rfl, ⟨rfl, ho⟩, cs, us, _, rfl, hm, closing, ⟨rfl, hc⟩, rfl⟩
      exact .listing ho hm hc
    · intro h
      cases h with
      | listing ho hm hc =>
        exact ⟨_, [_], _, rfl, ⟨rfl, ho⟩, _, _, [_], rfl, hm, _, ⟨rfl, hc⟩, rfl⟩
  · rintro cs ts b ⟨t, ⟨rfl, ht⟩, rfl⟩ rest -
    cases cs with
    | nil => exact ⟨t, rfl, ht⟩
    | cons c cs =>
      intro u hu
      cases hu
      rw [ht]
      cases l <;> decide

theorem recognizes_content (shape : Shape) :
    Recognizes (Content shape) anything (content shape) := by
  cases shape with
  | name =>
    refine (recognizes_takeName.map _ Child.token fun _ _ => Iff.rfl).congr ?_
    intro ts c
    constructor
    · rintro ⟨t, ⟨rfl, ht⟩, rfl⟩
      exact .name ht
    · rintro ⟨ht⟩
      exact ⟨_, ⟨rfl, ht⟩, rfl⟩
  | string =>
    refine ((recognizes_take .string).map _ Child.token fun _ _ => Iff.rfl).congr ?_
    intro ts c
    constructor
    · rintro ⟨t, ⟨rfl, ht⟩, rfl⟩
      exact .string ht
    · intro h
      cases h with
      | string ht => exact ⟨_, ⟨rfl, ht⟩, rfl⟩
  | number =>
    refine ((recognizes_take .number).map _ Child.token fun _ _ => Iff.rfl).congr ?_
    intro ts c
    constructor
    · rintro ⟨t, ⟨rfl, ht⟩, rfl⟩
      exact .number ht
    · intro h
      cases h with
      | number ht => exact ⟨_, ⟨rfl, ht⟩, rfl⟩
  | listing l => exact recognizes_listing l

end Netlab.Read
