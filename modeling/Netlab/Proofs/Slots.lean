import Netlab.Program.OfTrees
import Netlab.Proofs.Except

namespace Netlab

namespace Child

variable {α β : Type}

def HoldsText (c : Child) (s : String) : Prop := ∃ t, c = .token t ∧ s = t.text

def HoldsInt (c : Child) (n : UInt64) : Prop := ∃ t, c = .token t ∧ t.int = .ok n

def HoldsValue (c : Child) (v : Value) : Prop := ∃ t, c = .token t ∧ t.value = .ok v

def HoldsOption (holds : Child → α → Prop) (c : Child) (o : Option α) : Prop :=
  c = .absent ∧ o = none ∨ ∃ x, holds c x ∧ o = some x

def HoldsPair (first : Child → α → Prop) (second : Child → β → Prop) (c : Child) (x : α × β) : Prop :=
  ∃ rule pos a b, c = .node rule pos [a, b] ∧ first a x.1 ∧ second b x.2

/-- A listing that is left out has no items. -/
def HoldsItems (l : Listing) (item : Child → α → Prop) (c : Child) (xs : List α) : Prop :=
  c = .absent ∧ xs = [] ∨ ∃ pos cs, c = .node l.rule pos cs ∧ List.Forall₂ item cs xs

end Child

open Child

/-- What the slots of a host hold. -/
structure Host.HeldBy (h : Host) (name ip image mac ports portBindings env cmd : Child) : Prop where
  name : HoldsText name h.name
  ip : HoldsOption HoldsText ip h.ip
  image : HoldsText image h.image
  mac : HoldsOption HoldsText mac h.mac
  ports : HoldsItems .array HoldsValue ports h.ports
  portBindings : HoldsItems .intMap (HoldsPair HoldsInt HoldsInt) portBindings h.portBindings
  env : HoldsItems .object (HoldsPair HoldsText HoldsValue) env h.env
  cmd : HoldsItems .array HoldsValue cmd h.cmd

structure Link.HeldBy (l : Link) (name src dst port1 port2 cls delay bw : Child) : Prop where
  name : HoldsText name l.name
  src : HoldsText src l.src
  dst : HoldsText dst l.dst
  port1 : HoldsOption HoldsInt port1 l.port1
  port2 : HoldsOption HoldsInt port2 l.port2
  cls : HoldsOption HoldsText cls l.cls
  delay : HoldsOption HoldsText delay l.delay
  bw : HoldsOption HoldsInt bw l.bw

/-- What a tree with a rule and children stands for. -/
inductive Action.HeldBy : Rule → List Child → Action → Prop
  | controller {c : Child} {v : Value} (h : c.HoldsValue v) : HeldBy .controller [c] (.controller v)
  | remoteController {c₁ c₂ c₃ : Child} {name host : String} {port : UInt64}
      (hn : c₁.HoldsText name) (hh : c₂.HoldsText host) (hp : c₃.HoldsInt port) :
      HeldBy .remoteController [c₁, c₂, c₃] (.remoteController name host port)
  | host {c₀ c₁ c₂ c₃ c₄ c₅ c₆ c₇ : Child} {h : Host} (hh : h.HeldBy c₀ c₁ c₂ c₃ c₄ c₅ c₆ c₇) :
      HeldBy .host [c₀, c₁, c₂, c₃, c₄, c₅, c₆, c₇] (.host h)
  | switch {cs : List Child} {names : List String} (h : List.Forall₂ HoldsText cs names) :
      HeldBy .switch cs (.switch names)
  | link {c₀ c₁ c₂ c₃ c₄ c₅ c₆ c₇ : Child} {l : Link} (hl : l.HeldBy c₀ c₁ c₂ c₃ c₄ c₅ c₆ c₇) :
      HeldBy .link [c₀, c₁, c₂, c₃, c₄, c₅, c₆, c₇] (.link l)
  | intent {cs : List Child} {names : List String} (h : List.Forall₂ HoldsText cs names) :
      HeldBy .intent cs (.intent names)
  | up : HeldBy .up [] .up
  | down : HeldBy .down [] .down
  | ping {cs : List Child} {names : List String} (h : List.Forall₂ HoldsText cs names) :
      HeldBy .ping cs (.ping names)

namespace Slots

variable {α β : Type} {owner : Tree} {cs cs' : List Child}

theorem andThen_eq_ok {r : Slots α} {f : α → Slots β} {b : β} :
    (r >>= f) cs = .ok (b, cs') ↔ ∃ a cs₁, r cs = .ok (a, cs₁) ∧ f a cs₁ = .ok (b, cs') := by
  change (r cs >>= fun p => f p.1 p.2) = _ ↔ _
  rw [bind_eq_ok]
  constructor
  · rintro ⟨⟨a, cs₁⟩, hr, hf⟩
    exact ⟨a, cs₁, hr, hf⟩
  · rintro ⟨a, cs₁, hr, hf⟩
    exact ⟨(a, cs₁), hr, hf⟩

theorem pure_eq_ok {a b : α} : (pure a : Slots α) cs = .ok (b, cs') ↔ b = a ∧ cs' = cs := by
  change Except.ok (a, cs) = Except.ok (b, cs') ↔ _
  rw [Except.ok.injEq, Prod.mk.injEq]
  exact and_congr eq_comm eq_comm

theorem lift_eq_ok {r : Except ParseError α} {a : α} :
    (StateT.lift r : Slots α) cs = .ok (a, cs') ↔ r = .ok a ∧ cs' = cs := by
  change (r >>= fun a => pure (a, cs)) = _ ↔ _
  rw [bind_eq_ok]
  constructor
  · rintro ⟨_, hr, h⟩
    cases h
    exact ⟨hr, rfl⟩
  · rintro ⟨hr, rfl⟩
    exact ⟨a, hr, rfl⟩

/-- A step that takes one child, which has to hold what the step gives back. -/
structure Reads (r : Slots α) (holds : Child → α → Prop) : Prop where
  eq_ok : ∀ {cs x cs'}, r cs = .ok (x, cs') ↔ ∃ c, cs = c :: cs' ∧ holds c x

namespace Reads

variable {r : Slots α} {holds holds' : Child → α → Prop}

theorem congr (h : Reads r holds) (hh : ∀ c x, holds c x ↔ holds' c x) : Reads r holds' where
  eq_ok := by
    intro cs x cs'
    simp only [h.eq_ok, hh]

/-- Go on with what was read, without taking another child. -/
theorem bind (h : Reads r holds) {f : α → Slots β} (result : α → β → Prop)
    (hf : ∀ x cs y cs', f x cs = .ok (y, cs') ↔ result x y ∧ cs' = cs) :
    Reads (r >>= f) (fun c y => ∃ x, holds c x ∧ result x y) where
  eq_ok := by
    intro cs y cs'
    simp only [andThen_eq_ok, h.eq_ok, hf]
    constructor
    · rintro ⟨x, _, ⟨c, hc, hx⟩, hy, rfl⟩
      exact ⟨c, hc, x, hx, hy⟩
    · rintro ⟨c, hc, x, hx, hy⟩
      exact ⟨x, cs', ⟨c, hc, hx⟩, hy, rfl⟩

theorem map (h : Reads r holds) (f : α → β) :
    Reads (do return f (← r)) (fun c y => ∃ x, holds c x ∧ y = f x) :=
  h.bind _ fun _ _ _ _ => pure_eq_ok

theorem check (h : Reads r holds) (f : α → Except ParseError β) :
    Reads (do (f (← r))) (fun c y => ∃ x, holds c x ∧ f x = .ok y) :=
  h.bind _ fun _ _ _ _ => lift_eq_ok

end Reads

theorem reads_next : Reads (next owner) (fun c x => c = x) where
  eq_ok := by
    intro cs x cs'
    cases cs with
    | nil =>
      constructor
      · intro h
        cases h
      · rintro ⟨c, h, -⟩
        cases h
    | cons c cs =>
      change Except.ok (c, cs) = Except.ok (x, cs') ↔ _
      simp [and_comm]

theorem fault_ne_ok {cause : ParseFault} {a : α} : (fault owner cause : Slots α) cs ≠ .ok (a, cs') := by
  intro h
  cases h

/-- A step that looks at the next child and takes it only if it holds something. -/
theorem Reads.ofNext {f : Child → Slots α} {holds : Child → α → Prop}
    (hf : ∀ c cs x cs', f c cs = .ok (x, cs') ↔ holds c x ∧ cs' = cs) :
    Reads (next owner >>= f) holds :=
  (reads_next.bind _ hf).congr (by simp)

theorem reads_token : Reads (token owner) (fun c t => c = .token t) := by
  refine Reads.ofNext fun c cs t cs' => ?_
  cases c with
  | token u =>
    simp only [pure_eq_ok, Child.token.injEq]
    exact and_congr_left fun _ => eq_comm
  | absent | node => simp [fault_ne_ok]

theorem reads_token? :
    Reads (token? owner) (Child.HoldsOption fun c t => c = .token t) := by
  refine Reads.ofNext fun c cs o cs' => ?_
  cases c with
  | token | absent => simp [pure_eq_ok, Child.HoldsOption]
  | node => simp [fault_ne_ok, Child.HoldsOption]

theorem reads_text : Reads (text owner) Child.HoldsText :=
  reads_token.map fun t => t.text

theorem reads_int : Reads (int owner) Child.HoldsInt :=
  reads_token.check Token.int

theorem reads_value : Reads (value owner) Child.HoldsValue :=
  reads_token.check Token.value

theorem reads_text? : Reads (text? owner) (Child.HoldsOption Child.HoldsText) := by
  refine (reads_token?.map fun o => o.map fun t => t.text).congr ?_
  intro c o
  constructor
  · rintro ⟨_, ⟨hc, rfl⟩ | ⟨t, hc, rfl⟩, rfl⟩
    · exact .inl ⟨hc, rfl⟩
    · exact .inr ⟨_, ⟨t, hc, rfl⟩, rfl⟩
  · rintro (⟨hc, rfl⟩ | ⟨_, ⟨t, hc, rfl⟩, rfl⟩)
    · exact ⟨none, .inl ⟨hc, rfl⟩, rfl⟩
    · exact ⟨some t, .inr ⟨t, hc, rfl⟩, rfl⟩

theorem reads_int? : Reads (int? owner) (Child.HoldsOption Child.HoldsInt) := by
  refine Reads.congr (reads_token?.bind
    (fun t? o => t? = none ∧ o = none ∨ ∃ t n, t? = some t ∧ t.int = .ok n ∧ o = some n) ?_) ?_
  · intro t? cs o cs'
    cases t? with
    | none => simp [pure_eq_ok]
    | some t =>
      have hl : ∀ {n : UInt64} {cs₁}, (liftM t.int : Slots UInt64) cs = .ok (n, cs₁) ↔
        t.int = .ok n ∧ cs₁ = cs := lift_eq_ok
      simp only [andThen_eq_ok, hl, pure_eq_ok]
      constructor
      · rintro ⟨n, _, ⟨hn, rfl⟩, rfl, rfl⟩
        exact ⟨.inr ⟨t, n, rfl, hn, rfl⟩, rfl⟩
      · rintro ⟨⟨h, -⟩ | ⟨_, n, h, hn, rfl⟩, rfl⟩
        · cases h
        · cases h
          exact ⟨n, cs', ⟨hn, rfl⟩, rfl, rfl⟩
  · intro c o
    constructor
    · rintro ⟨_, ⟨hc, rfl⟩ | ⟨t, hc, rfl⟩, ⟨h, rfl⟩ | ⟨_, n, h, hn, rfl⟩⟩
      · exact .inl ⟨hc, rfl⟩
      · cases h
      · cases h
      · cases h
        exact .inr ⟨n, ⟨t, hc, hn⟩, rfl⟩
    · rintro (⟨hc, rfl⟩ | ⟨n, ⟨t, hc, hn⟩, rfl⟩)
      · exact ⟨none, .inl ⟨hc, rfl⟩, .inl ⟨rfl, rfl⟩⟩
      · exact ⟨some t, .inr ⟨t, hc, rfl⟩, .inr ⟨t, n, rfl, hn, rfl⟩⟩

theorem whole_eq_ok {r : Slots α} {a : α} :
    whole r owner = .ok a ↔ r owner.children = .ok (a, []) := by
  rw [whole, bind_eq_ok]
  constructor
  · rintro ⟨⟨b, rest⟩, hr, h⟩
    cases rest with
    | nil =>
      cases h
      exact hr
    | cons => cases h
  · intro hr
    exact ⟨(a, []), hr, rfl⟩

theorem childText_eq_ok {c : Child} {s : String} :
    childText owner c = .ok s ↔ c.HoldsText s := by
  cases c with
  | token t => simp [childText, Child.HoldsText, eq_comm]
  | absent | node => simp [childText, Child.HoldsText]

theorem childValue_eq_ok {c : Child} {v : Value} :
    childValue owner c = .ok v ↔ c.HoldsValue v := by
  cases c with
  | token t => simp [childValue, Child.HoldsValue]
  | absent | node => simp [childValue, Child.HoldsValue]

theorem childPair_eq_ok {key : Tree → Slots α} {item : Tree → Slots β} {first : Child → α → Prop}
    {second : Child → β → Prop} (hkey : ∀ owner, Reads (key owner) first)
    (hitem : ∀ owner, Reads (item owner) second) {missing : ParseFault} {c : Child} {x : α × β} :
    childPair missing key item owner c = .ok x ↔ c.HoldsPair first second x := by
  cases c with
  | token | absent => simp [childPair, Child.HoldsPair]
  | node rule pos children =>
    simp only [childPair, whole_eq_ok, andThen_eq_ok, (hkey _).eq_ok, (hitem _).eq_ok, pure_eq_ok]
    constructor
    · rintro ⟨a, _, ⟨c, rfl, ha⟩, b, _, ⟨d, rfl, hb⟩, rfl, rfl⟩
      exact ⟨rule, pos, c, d, rfl, ha, hb⟩
    · rintro ⟨_, _, c, d, hc, ha, hb⟩
      cases hc
      exact ⟨x.1, [d], ⟨c, rfl, ha⟩, x.2, [], ⟨d, rfl, hb⟩, rfl, rfl⟩

theorem reads_listing {l : Listing} :
    Reads (listing owner l) (fun c tree => c = .absent ∧ tree = ⟨l.rule, owner.pos, []⟩ ∨
      ∃ pos children, c = .node l.rule pos children ∧ tree = ⟨l.rule, pos, children⟩) := by
  refine Reads.ofNext fun c cs tree cs' => ?_
  cases c with
  | absent => simp [pure_eq_ok]
  | token => simp [fault_ne_ok]
  | node rule pos children =>
    by_cases hr : rule = l.rule
    · simp [hr, pure_eq_ok]
    · simp [hr, fault_ne_ok]

/-- The children of a listing are read one by one. -/
theorem reads_items {l : Listing} {f : Tree → Child → Except ParseError α}
    {holds : Child → α → Prop} (hf : ∀ {tree c x}, f tree c = .ok x ↔ holds c x) :
    Reads (do let tree ← listing owner l; each (f tree) tree.children) (Child.HoldsItems l holds) := by
  have heach : ∀ (tree : Tree) (cs : List Child) (xs : List α) (cs' : List Child),
      each (f tree) tree.children cs = .ok (xs, cs') ↔
        List.Forall₂ holds tree.children xs ∧ cs' = cs := by
    intro tree cs xs cs'
    simp only [each, lift_eq_ok, mapM_eq_ok, hf]
  refine (reads_listing.bind _ heach).congr ?_
  intro c xs
  constructor
  · rintro ⟨_, ⟨hc, rfl⟩ | ⟨pos, children, hc, rfl⟩, h⟩
    · exact .inl ⟨hc, List.forall₂_nil_left_iff.mp h⟩
    · exact .inr ⟨pos, children, hc, h⟩
  · rintro (⟨hc, rfl⟩ | ⟨pos, children, hc, h⟩)
    · exact ⟨_, .inl ⟨hc, rfl⟩, .nil⟩
    · exact ⟨_, .inr ⟨pos, children, hc, rfl⟩, h⟩

theorem reads_array : Reads (array owner) (Child.HoldsItems .array Child.HoldsValue) :=
  reads_items childValue_eq_ok

theorem reads_object :
    Reads (object owner) (Child.HoldsItems .object (Child.HoldsPair Child.HoldsText Child.HoldsValue)) :=
  reads_items (childPair_eq_ok (fun _ => reads_text) (fun _ => reads_value))

theorem reads_intMap :
    Reads (intMap owner) (Child.HoldsItems .intMap (Child.HoldsPair Child.HoldsInt Child.HoldsInt)) :=
  reads_items (childPair_eq_ok (fun _ => reads_int) (fun _ => reads_int))

theorem names_eq_ok {xs : List String} :
    names owner cs = .ok (xs, cs') ↔ List.Forall₂ Child.HoldsText cs xs ∧ cs' = [] := by
  change each (childText owner) cs [] = .ok (xs, cs') ↔ _
  simp only [each, lift_eq_ok, mapM_eq_ok, childText_eq_ok]

theorem host_eq_ok {h : Host} :
    host owner cs = .ok (h, cs') ↔ ∃ c₀ c₁ c₂ c₃ c₄ c₅ c₆ c₇,
      cs = c₀ :: c₁ :: c₂ :: c₃ :: c₄ :: c₅ :: c₆ :: c₇ :: cs' ∧ h.HeldBy c₀ c₁ c₂ c₃ c₄ c₅ c₆ c₇ := by
  simp only [host, andThen_eq_ok, reads_text.eq_ok, reads_text?.eq_ok, reads_array.eq_ok,
    reads_intMap.eq_ok, reads_object.eq_ok, pure_eq_ok]
  constructor
  · rintro ⟨_, _, ⟨c₀, rfl, h₀⟩, _, _, ⟨c₁, rfl, h₁⟩, _, _, ⟨c₂, rfl, h₂⟩, _, _, ⟨c₃, rfl, h₃⟩, _, _,
      ⟨c₄, rfl, h₄⟩, _, _, ⟨c₅, rfl, h₅⟩, _, _, ⟨c₆, rfl, h₆⟩, _, _, ⟨c₇, rfl, h₇⟩, rfl, rfl⟩
    exact ⟨c₀, c₁, c₂, c₃, c₄, c₅, c₆, c₇, rfl, h₀, h₁, h₂, h₃, h₄, h₅, h₆, h₇⟩
  · rintro ⟨c₀, c₁, c₂, c₃, c₄, c₅, c₆, c₇, rfl, h₀, h₁, h₂, h₃, h₄, h₅, h₆, h₇⟩
    exact ⟨_, _, ⟨c₀, rfl, h₀⟩, _, _, ⟨c₁, rfl, h₁⟩, _, _, ⟨c₂, rfl, h₂⟩, _, _, ⟨c₃, rfl, h₃⟩, _, _,
      ⟨c₄, rfl, h₄⟩, _, _, ⟨c₅, rfl, h₅⟩, _, _, ⟨c₆, rfl, h₆⟩, _, _, ⟨c₇, rfl, h₇⟩, rfl, rfl⟩

theorem link_eq_ok {l : Link} :
    link owner cs = .ok (l, cs') ↔ ∃ c₀ c₁ c₂ c₃ c₄ c₅ c₆ c₇,
      cs = c₀ :: c₁ :: c₂ :: c₃ :: c₄ :: c₅ :: c₆ :: c₇ :: cs' ∧ l.HeldBy c₀ c₁ c₂ c₃ c₄ c₅ c₆ c₇ := by
  simp only [link, andThen_eq_ok, reads_text.eq_ok, reads_text?.eq_ok, reads_int?.eq_ok, pure_eq_ok]
  constructor
  · rintro ⟨_, _, ⟨c₀, rfl, h₀⟩, _, _, ⟨c₁, rfl, h₁⟩, _, _, ⟨c₂, rfl, h₂⟩, _, _, ⟨c₃, rfl, h₃⟩, _, _,
      ⟨c₄, rfl, h₄⟩, _, _, ⟨c₅, rfl, h₅⟩, _, _, ⟨c₆, rfl, h₆⟩, _, _, ⟨c₇, rfl, h₇⟩, rfl, rfl⟩
    exact ⟨c₀, c₁, c₂, c₃, c₄, c₅, c₆, c₇, rfl, h₀, h₁, h₂, h₃, h₄, h₅, h₆, h₇⟩
  · rintro ⟨c₀, c₁, c₂, c₃, c₄, c₅, c₆, c₇, rfl, h₀, h₁, h₂, h₃, h₄, h₅, h₆, h₇⟩
    exact ⟨_, _, ⟨c₀, rfl, h₀⟩, _, _, ⟨c₁, rfl, h₁⟩, _, _, ⟨c₂, rfl, h₂⟩, _, _, ⟨c₃, rfl, h₃⟩, _, _,
      ⟨c₄, rfl, h₄⟩, _, _, ⟨c₅, rfl, h₅⟩, _, _, ⟨c₆, rfl, h₆⟩, _, _, ⟨c₇, rfl, h₇⟩, rfl, rfl⟩

theorem action_eq_ok {a : Action} :
    action owner cs = .ok (a, []) ↔ Action.HeldBy owner.rule cs a := by
  obtain ⟨rule, pos, children⟩ := owner
  constructor
  · intro h
    cases rule with
    | controller =>
      simp only [action, andThen_eq_ok, reads_value.eq_ok, pure_eq_ok] at h
      obtain ⟨v, _, ⟨c, rfl, hv⟩, rfl, rfl⟩ := h
      exact .controller hv
    | remoteController =>
      simp only [action, andThen_eq_ok, reads_text.eq_ok, reads_int.eq_ok, pure_eq_ok] at h
      obtain ⟨_, _, ⟨c₁, rfl, hn⟩, _, _, ⟨c₂, rfl, hh⟩, _, _, ⟨c₃, rfl, hp⟩, rfl, rfl⟩ := h
      exact .remoteController hn hh hp
    | host =>
      simp only [action, andThen_eq_ok, host_eq_ok, pure_eq_ok] at h
      obtain ⟨_, _, ⟨c₀, c₁, c₂, c₃, c₄, c₅, c₆, c₇, rfl, hh⟩, rfl, rfl⟩ := h
      exact .host hh
    | switch =>
      simp only [action, andThen_eq_ok, names_eq_ok, pure_eq_ok] at h
      obtain ⟨_, _, ⟨hn, rfl⟩, rfl, -⟩ := h
      exact .switch hn
    | link =>
      simp only [action, andThen_eq_ok, link_eq_ok, pure_eq_ok] at h
      obtain ⟨_, _, ⟨c₀, c₁, c₂, c₃, c₄, c₅, c₆, c₇, rfl, hl⟩, rfl, rfl⟩ := h
      exact .link hl
    | intent =>
      simp only [action, andThen_eq_ok, names_eq_ok, pure_eq_ok] at h
      obtain ⟨_, _, ⟨hn, rfl⟩, rfl, -⟩ := h
      exact .intent hn
    | up =>
      obtain ⟨rfl, rfl⟩ := pure_eq_ok.mp h
      exact .up
    | down =>
      obtain ⟨rfl, rfl⟩ := pure_eq_ok.mp h
      exact .down
    | ping =>
      simp only [action, andThen_eq_ok, names_eq_ok, pure_eq_ok] at h
      obtain ⟨_, _, ⟨hn, rfl⟩, rfl, -⟩ := h
      exact .ping hn
    | array | object | pair | intMap | intPair => exact absurd h fault_ne_ok
  · intro h
    cases h with
    | controller hv =>
      simp only [action, andThen_eq_ok, reads_value.eq_ok, pure_eq_ok]
      exact ⟨_, [], ⟨_, rfl, hv⟩, rfl, rfl⟩
    | remoteController hn hh hp =>
      simp only [action, andThen_eq_ok, reads_text.eq_ok, reads_int.eq_ok, pure_eq_ok]
      exact ⟨_, _, ⟨_, rfl, hn⟩, _, _, ⟨_, rfl, hh⟩, _, _, ⟨_, rfl, hp⟩, rfl, rfl⟩
    | host hh =>
      exact andThen_eq_ok.mpr ⟨_, [], host_eq_ok.mpr ⟨_, _, _, _, _, _, _, _, rfl, hh⟩, rfl⟩
    | link hl =>
      exact andThen_eq_ok.mpr ⟨_, [], link_eq_ok.mpr ⟨_, _, _, _, _, _, _, _, rfl, hl⟩, rfl⟩
    | switch hn | intent hn | ping hn =>
      exact andThen_eq_ok.mpr ⟨_, [], names_eq_ok.mpr ⟨hn, rfl⟩, rfl⟩
    | up | down => rfl

end Slots

/-- A tree is read as the statement that its children hold. -/
theorem Statement.ofTree_eq_ok {t : Tree} {s : Statement} :
    Statement.ofTree t = .ok s ↔ s.pos = t.pos ∧ Action.HeldBy t.rule t.children s.action := by
  simp only [Statement.ofTree, bind_eq_ok, Slots.whole_eq_ok, Slots.action_eq_ok]
  constructor
  · rintro ⟨a, ha, h⟩
    cases h
    exact ⟨rfl, ha⟩
  · rintro ⟨hpos, ha⟩
    exact ⟨s.action, ha, by rw [← hpos]; rfl⟩

end Netlab
