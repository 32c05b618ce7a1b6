import Netlab.Tree.OfTokens

namespace Netlab.Read

variable {α β : Type}

/-- Reading fails with `e` at the first token that no phrase has in its place: what was read before it
can be completed to a phrase, and whatever stands behind it reading fails in the same way. -/
def Refuses (phrase : List Token → α → Prop) (r : Read α) (s : Stream) (e : ParseError) : Prop :=
  ∃ read rest, s.ahead = read ++ rest ∧ e.pos = (Stream.mk rest s.stop).head.pos ∧
    (∃ more a, phrase (read ++ more) a) ∧
    ∀ t ts, rest = t :: ts → ∀ us stop, ∃ s', r ⟨read ++ t :: us, stop⟩ = .error e s'

/-- A step takes the tokens of a phrase and gives what the phrase stands for. The token behind the
phrase, if there is one, has to satisfy `follow`: a phrase is read as far as it can go. -/
structure Recognizes (phrase : List Token → α → Prop) (follow : α → Option Token → Prop)
    (r : Read α) : Prop where
  possible : ∃ ts a, phrase ts a
  accepts : ∀ {ts a}, phrase ts a → ∀ rest stop, follow a rest.head? →
    r ⟨ts ++ rest, stop⟩ = .ok a ⟨rest, stop⟩
  inverts : ∀ {s a s'}, r s = .ok a s' →
    ∃ ts, s = ⟨ts ++ s'.ahead, s'.stop⟩ ∧ phrase ts a ∧ follow a s'.ahead.head?
  refuses : ∀ {s e s'}, r s = .error e s' → Refuses phrase r s e

def anything (_ : α) (_ : Option Token) : Prop := True

theorem bind_ok {r : Read α} {f : α → Read β} {s s₂ : Stream} {b : β} :
    (r >>= f) s = .ok b s₂ ↔ ∃ a s₁, r s = .ok a s₁ ∧ f a s₁ = .ok b s₂ := by
  simp only [bind, EStateM.bind]
  cases hr : r s with
  | error e s₁ => simp
  | ok a s₁ =>
    constructor
    · intro h
      exact ⟨a, s₁, rfl, h⟩
    · rintro ⟨_, _, ha, h⟩
      cases ha
      exact h

theorem bind_error {r : Read α} {f : α → Read β} {s s₂ : Stream} {e : ParseError} :
    (r >>= f) s = .error e s₂ ↔
      r s = .error e s₂ ∨ ∃ a s₁, r s = .ok a s₁ ∧ f a s₁ = .error e s₂ := by
  simp only [bind, EStateM.bind]
  cases hr : r s with
  | error e s₁ => simp
  | ok a s₁ =>
    constructor
    · intro h
      exact .inr ⟨a, s₁, rfl, h⟩
    · rintro (ha | ⟨_, _, ha, h⟩)
      · cases ha
      · cases ha
        exact h

theorem head?_append_cons (read us vs : List Token) (t : Token) :
    (read ++ t :: us).head? = (read ++ t :: vs).head? := by
  cases read <;> rfl

namespace Recognizes

variable {phrase phrase' : List Token → α → Prop} {follow follow' : α → Option Token → Prop}
  {r : Read α}

theorem congr (h : Recognizes phrase follow r) (hp : ∀ ts a, phrase ts a ↔ phrase' ts a) :
    Recognizes phrase' follow r := by
  have he : phrase = phrase' := by
    funext ts a
    exact propext (hp ts a)
  exact he ▸ h

/-- A phrase and what may follow it determine how many tokens are read, and what they stand for. -/
theorem unique (h : Recognizes phrase follow r) {ts us : List Token} {a b : α}
    (ha : phrase ts a) (hb : phrase us b) {rest rest' : List Token} (he : ts ++ rest = us ++ rest')
    (hf : follow a rest.head?) (hf' : follow b rest'.head?) : ts = us ∧ a = b ∧ rest = rest' := by
  have hr := h.accepts ha rest .start hf
  rw [he, h.accepts hb rest' .start hf'] at hr
  injection hr with hv hs
  have hrest : rest' = rest := congrArg Stream.ahead hs
  subst hrest
  exact ⟨List.append_cancel_right he, hv.symm, rfl⟩

theorem pure (a : α) : Recognizes (fun ts b => ts = [] ∧ b = a) anything (pure a : Read α) where
  possible := ⟨[], a, rfl, rfl⟩
  accepts := by
    rintro ts b ⟨rfl, rfl⟩ rest stop -
    rfl
  inverts := by
    intro s b s' h
    cases h
    exact ⟨[], rfl, ⟨rfl, rfl⟩, trivial⟩
  refuses := by
    intro s e s' h
    cases h

theorem single {r : Read Token} {p : Token → Prop} (hp : ∃ t, p t)
    (hok : ∀ t ts stop, p t → r ⟨t :: ts, stop⟩ = .ok t ⟨ts, stop⟩)
    (herror : ∀ t, ¬p t → ∃ cause, ∀ ts stop, ∃ s', r ⟨t :: ts, stop⟩ = .error ⟨t.pos, cause⟩ s')
    (hend : ∀ stop, ∃ cause s', r ⟨[], stop⟩ = .error ⟨stop, cause⟩ s') :
    Recognizes (fun ts t => ts = [t] ∧ p t) anything r where
  possible := hp.imp' (fun t => [t]) fun t ht => ⟨t, rfl, ht⟩
  accepts := by
    rintro ts t ⟨rfl, ht⟩ rest stop -
    exact hok t rest stop ht
  inverts := by
    rintro ⟨ahead, stop⟩ t s' h
    cases ahead with
    | nil =>
      obtain ⟨cause, s₁, he⟩ := hend stop
      rw [he] at h
      cases h
    | cons u us =>
      by_cases hu : p u
      · rw [hok u us stop hu] at h
        cases h
        exact ⟨[t], rfl, ⟨rfl, hu⟩, trivial⟩
      · obtain ⟨cause, he⟩ := herror u hu
        obtain ⟨s₁, he⟩ := he us stop
        rw [he] at h
        cases h
  refuses := by
    rintro ⟨ahead, stop⟩ e s' h
    obtain ⟨u, hu⟩ := hp
    cases ahead with
    | nil =>
      obtain ⟨cause, s₁, he⟩ := hend stop
      rw [he] at h
      cases h
      exact ⟨[], [], rfl, rfl, ⟨[u], u, rfl, hu⟩, by simp⟩
    | cons t us =>
      by_cases ht : p t
      · rw [hok t us stop ht] at h
        cases h
      · obtain ⟨cause, he⟩ := herror t ht
        obtain ⟨s₁, hs⟩ := he us stop
        rw [hs] at h
        cases h
        refine ⟨[], t :: us, rfl, rfl, ⟨[u], u, rfl, hu⟩, ?_⟩
        intro t' ts' heq vs stop'
        obtain ⟨rfl, rfl⟩ := List.cons.inj heq
        exact he vs stop'

/-- One phrase after the other. What the second one starts with has to be allowed behind the first. -/
theorem bind {f : α → Read β} {next : α → List Token → β → Prop} {after : β → Option Token → Prop}
    (hr : Recognizes phrase follow r) (hf : ∀ a, Recognizes (next a) after (f a))
    (hend : ∀ {a ts b}, next a ts b → ∀ rest : List Token, after b rest.head? →
      follow a (ts ++ rest).head?) :
    Recognizes (fun ts b => ∃ a us vs, ts = us ++ vs ∧ phrase us a ∧ next a vs b) after
      (r >>= f) where
  possible := by
    obtain ⟨us, a, ha⟩ := hr.possible
    obtain ⟨vs, b, hb⟩ := (hf a).possible
    exact ⟨us ++ vs, b, a, us, vs, rfl, ha, hb⟩
  accepts := by
    rintro ts b ⟨a, us, vs, rfl, ha, hb⟩ rest stop hrest
    refine bind_ok.mpr ⟨a, ⟨vs ++ rest, stop⟩, ?_, (hf a).accepts hb rest stop hrest⟩
    rw [List.append_assoc]
    exact hr.accepts ha (vs ++ rest) stop (hend hb rest hrest)
  inverts := by
    intro s b s₂ h
    obtain ⟨a, s₁, ha, hb⟩ := bind_ok.mp h
    obtain ⟨us, rfl, hus, -⟩ := hr.inverts ha
    obtain ⟨vs, rfl, hvs, hrest⟩ := (hf a).inverts hb
    exact ⟨us ++ vs, by simp, ⟨a, us, vs, rfl, hus, hvs⟩, hrest⟩
  refuses := by
    intro s e s₂ h
    rcases bind_error.mp h with he | ⟨a, s₁, ha, he⟩
    · obtain ⟨read, rest, hs, hpos, ⟨more, a, hm⟩, hfatal⟩ := hr.refuses he
      obtain ⟨ts, b, hb⟩ := (hf a).possible
      refine ⟨read, rest, hs, hpos, ⟨more ++ ts, b, a, read ++ more, ts, by simp, hm, hb⟩, ?_⟩
      intro t us hrest vs stop
      obtain ⟨s', hs'⟩ := hfatal t us hrest vs stop
      exact ⟨s', bind_error.mpr (.inl hs')⟩
    · -- Up to the refused token nothing changes, so the first phrase ends where it did.
      obtain ⟨us, rfl, hus, hfollow⟩ := hr.inverts ha
      obtain ⟨read, rest, hs, hpos, ⟨more, b, hm⟩, hfatal⟩ := (hf a).refuses he
      refine ⟨us ++ read, rest, by simp [hs], hpos,
        ⟨more, b, a, us, read ++ more, by simp, hus, hm⟩, ?_⟩
      intro t ts hrest vs stop
      obtain ⟨s', hs'⟩ := hfatal t ts hrest vs stop
      refine ⟨s', bind_error.mpr (.inr ⟨a, ⟨read ++ t :: vs, stop⟩, ?_, hs'⟩)⟩
      rw [List.append_assoc]
      refine hr.accepts hus _ stop ?_
      rwa [head?_append_cons read vs ts t, ← hrest, ← hs]

theorem andThen {f : α → Read β} {next : α → List Token → β → Prop}
    {after : β → Option Token → Prop} (hr : Recognizes phrase anything r)
    (hf : ∀ a, Recognizes (next a) after (f a)) :
    Recognizes (fun ts b => ∃ a us vs, ts = us ++ vs ∧ phrase us a ∧ next a vs b) after (r >>= f) :=
  hr.bind hf fun _ _ _ => trivial

theorem map (hr : Recognizes phrase follow r) (after : β → Option Token → Prop) (f : α → β)
    (hend : ∀ a t?, after (f a) t? ↔ follow a t?) :
    Recognizes (fun ts b => ∃ a, phrase ts a ∧ b = f a) after (r >>= fun a => Pure.pure (f a)) where
  possible := by
    obtain ⟨ts, a, ha⟩ := hr.possible
    exact ⟨ts, f a, a, ha, rfl⟩
  accepts := by
    rintro ts b ⟨a, ha, rfl⟩ rest stop hrest
    exact bind_ok.mpr ⟨a, ⟨rest, stop⟩, hr.accepts ha rest stop ((hend a _).mp hrest), rfl⟩
  inverts := by
    intro s b s' h
    obtain ⟨a, s₁, ha, hb⟩ := bind_ok.mp h
    cases hb
    obtain ⟨ts, hs, hts, hfollow⟩ := hr.inverts ha
    exact ⟨ts, hs, ⟨a, hts, rfl⟩, (hend a _).mpr hfollow⟩
  refuses := by
    intro s e s' h
    rcases bind_error.mp h with he | ⟨a, s₁, -, he⟩
    · obtain ⟨read, rest, hs, hpos, ⟨more, a, hm⟩, hfatal⟩ := hr.refuses he
      refine ⟨read, rest, hs, hpos, ⟨more, f a, a, hm, rfl⟩, ?_⟩
      intro t ts hrest us stop
      obtain ⟨s₁, hs₁⟩ := hfatal t ts hrest us stop
      exact ⟨s₁, bind_error.mpr (.inl hs₁)⟩
    · cases he

end Recognizes

end Netlab.Read
