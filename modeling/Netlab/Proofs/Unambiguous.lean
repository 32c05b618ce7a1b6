import Netlab.Proofs.Lists

namespace Netlab

/-- A text written for a value tells the value and where it ends, if what follows it may do so. -/
def Unambiguous {α : Type} (phrase : List Char → α → Prop) (follow : List Char → Prop) : Prop :=
  ∀ ⦃ts us : List Char⦄ ⦃a b : α⦄ ⦃r s : List Char⦄, phrase ts a → phrase us b → follow r → follow s →
    ts ++ r = us ++ s → a = b ∧ r = s

def Writes {α : Type} (write : α → String) (ts : List Char) (a : α) : Prop := ts = (write a).toList

def anyText (_ : List Char) : Prop := True

def Stops (p : Char → Bool) (r : List Char) : Prop := ∀ c ∈ r.head?, p c = false

/-- Phrases one after the other. -/
inductive Repeated {α : Type} (phrase : List Char → α → Prop) : List Char → List α → Prop where
  | nil : Repeated phrase [] []
  | cons {ts us : List Char} {a : α} {as : List α} (h : phrase ts a) (hs : Repeated phrase us as) :
      Repeated phrase (ts ++ us) (a :: as)

inductive Optional {α : Type} (lead : List Char) (phrase : List Char → α → Prop) :
    List Char → Option α → Prop where
  | none : Optional lead phrase [] none
  | some {ts : List Char} {a : α} (h : phrase ts a) : Optional lead phrase (lead ++ ts) (some a)

theorem stops_cons {p : Char → Bool} {c : Char} (h : p c = false) (cs : List Char) :
    Stops p (c :: cs) := by
  intro d hd
  cases hd
  exact h

theorem repeated_flatMap {α : Type} {phrase : List Char → α → Prop} {write : α → List Char}
    {as : List α} (h : ∀ a ∈ as, phrase (write a) a) : Repeated phrase (as.flatMap write) as := by
  induction as with
  | nil => exact .nil
  | cons a as ih =>
    obtain ⟨ha, has⟩ := List.forall_mem_cons.mp h
    exact .cons ha (ih has)

namespace Unambiguous

variable {α β : Type} {phrase : List Char → α → Prop} {follow stop : List Char → Prop}

theorem mono (h : Unambiguous phrase follow) (hstop : ∀ r, stop r → follow r) :
    Unambiguous phrase stop :=
  fun _ _ _ _ _ _ ha hb hr hs => h ha hb (hstop _ hr) (hstop _ hs)

theorem anywhere (h : Unambiguous phrase anyText) : Unambiguous phrase follow :=
  h.mono fun _ _ => trivial

theorem of_writes {write : α → String}
    (h : ∀ {a b r s}, follow r → follow s → (write a).toList ++ r = (write b).toList ++ s →
      a = b ∧ r = s) : Unambiguous (Writes write) follow := by
  rintro _ _ a b r s rfl rfl hr hs heq
  exact h hr hs heq

theorem writes {write : α → String} (h : Unambiguous phrase follow)
    (hw : ∀ a, phrase (write a).toList a) : Unambiguous (Writes write) follow :=
  of_writes fun hr hs heq => h (hw _) (hw _) hr hs heq

theorem run {p : Char → Bool} (hp : ∀ ts a, phrase ts a → ∀ c ∈ ts, p c = true)
    (hvalue : ∀ ts a b, phrase ts a → phrase ts b → a = b) : Unambiguous phrase (Stops p) := by
  intro ts us a b r s ha hb hr hs heq
  have htake := congrArg (List.takeWhile p) heq
  rw [Lists.takeWhile_append (hp ts a ha) hr, Lists.takeWhile_append (hp us b hb) hs] at htake
  subst htake
  exact ⟨hvalue ts a b ha hb, List.append_cancel_left heq⟩

/-- A phrase that may be left out, in front of a text that cannot be taken for it. -/
theorem optional (h : Unambiguous phrase follow) (lead : List Char) :
    Unambiguous (Optional lead phrase) (fun r => follow r ∧ ¬lead <+: r) := by
  intro ts us a b r s ha hb hr hs heq
  cases ha with
  | none =>
    cases hb with
    | none => exact ⟨rfl, heq⟩
    | some hb =>
      refine absurd ?_ hr.2
      rw [← List.nil_append r, heq, List.append_assoc]
      exact List.prefix_append _ _
  | some ha =>
    cases hb with
    | none =>
      refine absurd ?_ hs.2
      rw [← List.nil_append s, ← heq, List.append_assoc]
      exact List.prefix_append _ _
    | some hb =>
      rw [List.append_assoc, List.append_assoc] at heq
      obtain ⟨rfl, hrest⟩ := h ha hb hr.1 hs.1 (List.append_cancel_left heq)
      exact ⟨rfl, hrest⟩

/-- Phrases can be told apart up to a text that none of them starts. -/
theorem repeated (h : Unambiguous phrase follow) (hstop : ∀ r, stop r → follow r)
    (hnext : ∀ ts a, phrase ts a → ∀ r, follow (ts ++ r))
    (hend : ∀ ts a, phrase ts a → ∀ r, ¬stop (ts ++ r)) : Unambiguous (Repeated phrase) stop := by
  have hfollow : ∀ {ts as r}, Repeated phrase ts as → stop r → follow (ts ++ r) := by
    intro ts as r hts hr
    cases hts with
    | nil => exact hstop r hr
    | cons ha has =>
      rw [List.append_assoc]
      exact hnext _ _ ha _
  intro ts us as bs r s has hbs hr hs heq
  induction has generalizing us bs with
  | nil =>
    cases hbs with
    | nil => exact ⟨rfl, heq⟩
    | cons hb hbs =>
      rw [List.nil_append, List.append_assoc] at heq
      exact absurd (heq ▸ hr) (hend _ _ hb _)
  | cons ha has ih =>
    rw [List.append_assoc] at heq
    cases hbs with
    | nil =>
      rw [List.nil_append] at heq
      exact absurd (heq ▸ hs) (hend _ _ ha _)
    | cons hb hbs =>
      rw [List.append_assoc] at heq
      obtain ⟨rfl, hrest⟩ := h ha hb (hfollow has hr) (hfollow hbs hs) heq
      obtain ⟨rfl, hrest⟩ := ih hbs hrest
      exact ⟨rfl, hrest⟩

section

variable {write : α → String}

theorem eq (h : Unambiguous (Writes write) follow) {r s : List Char} {a b : α} (hr : follow r)
    (hs : follow s) (heq : (write a).toList ++ r = (write b).toList ++ s) : a = b ∧ r = s :=
  h rfl rfl hr hs heq

theorem behind (h : Unambiguous (Writes write) follow) {lead r s : List Char} {a b : α}
    (hr : follow r) (hs : follow s) (heq : lead ++ ((write a).toList ++ r) = lead ++ ((write b).toList ++ s)) :
    a = b ∧ r = s :=
  h.eq hr hs (List.append_cancel_left heq)

theorem pair {second : β → String} {between : String} (hfirst : Unambiguous (Writes write) follow)
    (hsecond : Unambiguous (Writes second) stop) (hbetween : ∀ r, follow (between.toList ++ r)) :
    Unambiguous (Writes fun p : α × β => write p.1 ++ between ++ second p.2) stop := by
  apply of_writes
  rintro ⟨a, b⟩ ⟨a', b'⟩ r s hr hs heq
  simp only [String.toList_append, List.append_assoc] at heq
  obtain ⟨rfl, hrest⟩ := hfirst.eq (hbetween _) (hbetween _) heq
  obtain ⟨rfl, hend⟩ := hsecond.behind hr hs hrest
  exact ⟨rfl, hend⟩

theorem bracketed {opening separator closing : String} (h : Unambiguous (Writes write) follow)
    (hsep : ∀ r, follow (separator.toList ++ r)) (hclose : ∀ r, follow (closing.toList ++ r))
    (hwrite : ∀ a r, ¬closing.toList <+: (write a).toList ++ r)
    (hother : ∀ r, ¬closing.toList <+: separator.toList ++ r) :
    Unambiguous
      (Writes fun as : List α => opening ++ String.intercalate separator (as.map write) ++ closing)
      anyText := by
  -- Behind the first text there are texts that each start with the separator.
  have hled : Unambiguous (Writes fun a => separator ++ write a) follow := by
    apply of_writes
    intro a b r s hr hs heq
    simp only [String.toList_append, List.append_assoc] at heq
    exact h.behind hr hs heq
  have hmore : Unambiguous (Repeated (Writes fun a => separator ++ write a))
      (fun r => closing.toList <+: r) := by
    apply hled.repeated
    · rintro _ ⟨r, rfl⟩
      exact hclose r
    · rintro _ a rfl r
      rw [String.toList_append, List.append_assoc]
      exact hsep _
    · rintro _ a rfl r
      rw [String.toList_append, List.append_assoc]
      exact hother _
  have hrepeated : ∀ as : List α, Repeated (Writes fun a => separator ++ write a)
      (as.flatMap fun a => separator.toList ++ (write a).toList) as := by
    intro as
    apply repeated_flatMap
    intro a _
    exact String.toList_append.symm
  have hbehind : ∀ (as : List α) (r : List Char),
      follow (as.flatMap (fun a => separator.toList ++ (write a).toList) ++ (closing.toList ++ r)) := by
    intro as r
    cases as with
    | nil => exact hclose r
    | cons a as =>
      simp only [List.flatMap_cons, List.append_assoc]
      exact hsep _
  apply of_writes
  intro as bs r s _ _ heq
  simp only [String.toList_append, String.toList_intercalate, List.append_assoc] at heq
  have hitems := List.append_cancel_left heq
  cases as with
  | nil =>
    cases bs with
    | nil => exact ⟨rfl, List.append_cancel_left hitems⟩
    | cons b bs =>
      simp only [List.map_cons, Lists.intercalate_cons, List.append_assoc] at hitems
      exact absurd ⟨r, hitems⟩ (hwrite b _)
  | cons a as =>
    cases bs with
    | nil =>
      simp only [List.map_cons, Lists.intercalate_cons, List.append_assoc] at hitems
      exact absurd ⟨s, hitems.symm⟩ (hwrite a _)
    | cons b bs =>
      simp only [List.map_cons, Lists.intercalate_cons, List.append_assoc, List.flatMap_map] at hitems
      obtain ⟨rfl, hrest⟩ := h.eq (hbehind as r) (hbehind bs s) hitems
      obtain ⟨rfl, hend⟩ := hmore (hrepeated as) (hrepeated bs) (List.prefix_append _ _)
        (List.prefix_append _ _) hrest
      exact ⟨rfl, List.append_cancel_left hend⟩

end

end Unambiguous

end Netlab
