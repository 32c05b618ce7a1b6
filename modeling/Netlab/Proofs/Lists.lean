import Mathlib.Data.List.Forall2
import Mathlib.Data.List.Nodup
import Mathlib.Data.List.TakeWhile

namespace Netlab.Lists

variable {α κ : Type}

section

variable {p : α → Bool} {xs ys : List α}

/-- A run that cannot be continued is found again in front of what follows it. -/
theorem takeWhile_append (hx : ∀ x ∈ xs, p x = true) (hy : ∀ y ∈ ys.head?, p y = false) :
    (xs ++ ys).takeWhile p = xs := by
  rw [List.takeWhile_append_of_pos hx]
  cases ys with
  | nil => simp
  | cons y ys => simp [hy y rfl]

theorem dropWhile_append (hx : ∀ x ∈ xs, p x = true) (hy : ∀ y ∈ ys.head?, p y = false) :
    (xs ++ ys).dropWhile p = ys := by
  rw [List.dropWhile_append_of_pos hx]
  cases ys with
  | nil => rfl
  | cons y ys => simp [hy y rfl]

theorem head?_dropWhile {y : α} (hy : y ∈ (xs.dropWhile p).head?) : p y = false := by
  have h := List.head?_dropWhile_not p xs
  rw [hy] at h
  simpa using h

end

/-- Where no key occurs twice, looking for a key finds the one entry that has it. -/
theorem find?_key_eq_some [DecidableEq κ] {key : α → κ} {xs : List α} (h : (xs.map key).Nodup) {k : κ}
    {x : α} : xs.find? (fun y => key y = k) = some x ↔ x ∈ xs ∧ key x = k := by
  constructor
  · intro hf
    exact ⟨List.mem_of_find?_eq_some hf, by simpa using List.find?_some hf⟩
  · rintro ⟨hx, rfl⟩
    cases hf : xs.find? (fun y => key y = key x) with
    | none => exact absurd (List.find?_eq_none.mp hf x hx) (by simp)
    | some y =>
      have hy : key y = key x := by simpa using List.find?_some hf
      rw [List.inj_on_of_nodup_map h (List.mem_of_find?_eq_some hf) hx hy]

theorem exists_left_of_forall₂ {β : Type} {r : α → β → Prop} {xs : List α} {ys : List β}
    (h : List.Forall₂ r xs ys) {y : β} (hy : y ∈ ys) : ∃ x ∈ xs, r x y := by
  induction h with
  | nil => cases hy
  | @cons x _ _ _ hr _ ih =>
    rcases List.mem_cons.mp hy with rfl | hy
    · exact ⟨x, List.mem_cons_self, hr⟩
    · obtain ⟨x', hx, hr'⟩ := ih hy
      exact ⟨x', List.mem_cons_of_mem x hx, hr'⟩

theorem map_eq_of_forall₂ {β γ : Type} {f : α → γ} {g : β → γ} {xs : List α} {ys : List β}
    (h : List.Forall₂ (fun x y => f x = g y) xs ys) : xs.map f = ys.map g := by
  induction h with
  | nil => rfl
  | cons hxy _ ih => rw [List.map_cons, List.map_cons, hxy, ih]

theorem getD_mem_or (xs : List α) (i : Nat) (x : α) : xs.getD i x ∈ xs ∨ xs.getD i x = x := by
  rw [List.getD_eq_getElem?_getD]
  cases hx : xs[i]? with
  | none => exact .inr rfl
  | some y => exact .inl (List.mem_of_getElem? hx)

theorem intercalate_cons (separator xs : List α) (xss : List (List α)) :
    separator.intercalate (xs :: xss) = xs ++ xss.flatMap (separator ++ ·) := by
  induction xss generalizing xs with
  | nil => simp
  | cons ys yss ih => rw [List.intercalate_cons_cons, ih, List.flatMap_cons, List.append_assoc,
      List.append_assoc]

theorem intercalate_append_separator (separator xs : List α) (xss : List (List α)) :
    separator.intercalate (xs :: xss) ++ separator = (xs :: xss).flatMap (· ++ separator) := by
  induction xss generalizing xs with
  | nil => simp
  | cons ys yss ih =>
    rw [List.intercalate_cons_cons, List.append_assoc, ih]
    rfl

theorem forall_mem_intercalate {separator : List α} {xss : List (List α)} {P : α → Prop}
    (hsep : ∀ x ∈ separator, P x) (h : ∀ xs ∈ xss, ∀ x ∈ xs, P x) :
    ∀ x ∈ separator.intercalate xss, P x := by
  cases xss with
  | nil =>
    intro x hx
    cases hx
  | cons xs xss =>
    obtain ⟨hfirst, hrest⟩ := List.forall_mem_cons.mp h
    rw [intercalate_cons]
    refine List.forall_mem_append.mpr ⟨hfirst, ?_⟩
    intro x hx
    obtain ⟨ys, hys, hm⟩ := List.mem_flatMap.mp hx
    exact (List.mem_append.mp hm).elim (hsep x) (hrest ys hys x)

theorem find?_eraseDups [DecidableEq α] (p : α → Bool) (xs : List α) :
    xs.eraseDups.find? p = xs.find? p := by
  induction hn : xs.length using Nat.strongRecOn generalizing xs with
  | ind n ih =>
    subst hn
    cases xs with
    | nil => rfl
    | cons x xs =>
      rw [List.eraseDups_cons]
      by_cases hx : p x = true
      · rw [List.find?_cons_of_pos hx, List.find?_cons_of_pos hx]
      · have hlen : (xs.filter fun y => !y == x).length < (x :: xs).length :=
          Nat.lt_succ_of_le (List.length_filter_le _ _)
        rw [List.find?_cons_of_neg hx, List.find?_cons_of_neg hx, ih _ hlen _ rfl, List.find?_filter]
        congr
        funext y
        by_cases hy : y = x <;> simp_all

end Netlab.Lists
