namespace Netlab

variable {α β ε ε' : Type} {x : Except ε α}

theorem bind_eq_ok {f : α → Except ε β} {b : β} :
    x >>= f = .ok b ↔ ∃ a, x = .ok a ∧ f a = .ok b := by
  cases x with
  | error e =>
    constructor
    · intro h
      cases h
    · rintro ⟨a, ha, -⟩
      cases ha
  | ok a =>
    constructor
    · intro h
      exact ⟨a, rfl, h⟩
    · rintro ⟨_, ha, h⟩
      cases ha
      exact h

theorem map_eq_ok {f : α → β} {b : β} : x.map f = .ok b ↔ ∃ a, x = .ok a ∧ f a = b := by
  cases x <;> simp [Except.map]

theorem map_eq_error {f : α → β} {e : ε} : x.map f = .error e ↔ x = .error e := by
  cases x <;> simp [Except.map]

theorem mapError_eq_ok {f : ε → ε'} {a : α} : x.mapError f = .ok a ↔ x = .ok a := by
  cases x with
  | error e => exact iff_of_false nofun nofun
  | ok b =>
    have hok : (Except.ok b : Except ε α).mapError f = .ok b := rfl
    rw [hok, Except.ok.injEq, Except.ok.injEq]

theorem ite_error_eq_ok {p : Prop} [Decidable p] {e : ε} {a : α} :
    (if p then x else .error e) = .ok a ↔ p ∧ x = .ok a := by
  by_cases hp : p <;> simp [hp]

theorem error_ite_eq_ok {p : Prop} [Decidable p] {e : ε} {a : α} :
    (if p then .error e else x) = .ok a ↔ ¬p ∧ x = .ok a := by
  by_cases hp : p <;> simp [hp]

section

variable {σ : Type} {s : σ}

theorem stateT_bind_eq_ok {a : StateT σ (Except ε) α} {f : α → StateT σ (Except ε) β} {r : β × σ} :
    (a >>= f) s = .ok r ↔ ∃ x s', a s = .ok (x, s') ∧ f x s' = .ok r := by
  have hbind : (a >>= f) s = a s >>= fun p => f p.1 p.2 := rfl
  rw [hbind, bind_eq_ok]
  constructor
  · rintro ⟨⟨x, s'⟩, h⟩
    exact ⟨x, s', h⟩
  · rintro ⟨x, s', h⟩
    exact ⟨(x, s'), h⟩

theorem stateT_lift_eq_ok {r : α × σ} :
    (liftM x : StateT σ (Except ε) α) s = .ok r ↔ x = .ok r.1 ∧ r.2 = s := by
  have hlift : (liftM x : StateT σ (Except ε) α) s = x.map fun a => (a, s) := by cases x <;> rfl
  obtain ⟨a, s'⟩ := r
  rw [hlift, map_eq_ok]
  constructor
  · rintro ⟨_, hx, h⟩
    cases h
    exact ⟨hx, rfl⟩
  · rintro ⟨hx, rfl⟩
    exact ⟨a, hx, rfl⟩

end

end Netlab
