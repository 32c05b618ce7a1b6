import Netlab.Text.Decimal

namespace Netlab.Text

/-- One digit or more that stand for a number, with a plus sign in front of them or without. -/
def Denotes (s : String) (n : Nat) : Prop :=
  ∃ ds, (s.toList = ds ∨ s.toList = '+' :: ds) ∧ ds ≠ [] ∧ (∀ d ∈ ds, d.isDigit = true) ∧
    Nat.ofDigitChars 10 ds 0 = n

theorem denotes_iff {s : String} {n : Nat} (hne : s.toList ≠ [])
    (hd : ∀ d ∈ s.toList, d.isDigit = true) : Denotes s n ↔ Nat.ofDigitChars 10 s.toList 0 = n := by
  constructor
  · rintro ⟨ds, rfl | hds, -, -, hn⟩
    · exact hn
    · have hsign : ('+' : Char).isDigit = true := hd '+' (by rw [hds]; exact List.mem_cons_self)
      exact absurd hsign (by decide)
  · intro hn
    exact ⟨s.toList, .inl rfl, hne, hd, hn⟩

theorem le_ofDigitChars (value : Nat) (cs : List Char) : value ≤ Nat.ofDigitChars 10 cs value := by
  induction cs generalizing value with
  | nil => exact Nat.le_refl _
  | cons c cs ih =>
    have hstep : value ≤ 10 * value + (c.toNat - '0'.toNat) := by omega
    exact Nat.le_trans hstep (ih _)

theorem readDigits_eq_ok {limit value n : Nat} {cs : List Char} (hv : value ≤ limit) :
    readDigits limit value cs = .ok n ↔
      (∀ c ∈ cs, c.isDigit = true) ∧ Nat.ofDigitChars 10 cs value = n ∧ n ≤ limit := by
  induction cs generalizing value with
  | nil =>
    constructor
    · intro h
      cases h
      exact ⟨by simp, rfl, hv⟩
    · rintro ⟨-, rfl, -⟩
      rfl
  | cons c cs ih =>
    have hstep : value * 10 + (c.toNat - '0'.toNat) = 10 * value + (c.toNat - '0'.toNat) := by omega
    rw [readDigits, hstep, List.forall_mem_cons]
    by_cases hc : c.isDigit = true
    · rw [if_pos hc]
      by_cases hl : limit < 10 * value + (c.toNat - '0'.toNat)
      · -- What follows only makes the number larger.
        rw [if_pos hl]
        refine iff_of_false (by simp) ?_
        rintro ⟨-, rfl, hn⟩
        have hle := le_ofDigitChars (10 * value + (c.toNat - '0'.toNat)) cs
        exact absurd (Nat.le_trans hle hn) (Nat.not_le.mpr hl)
      · rw [if_neg hl]
        refine (ih (Nat.not_lt.mp hl)).trans ?_
        rw [and_iff_right hc]
        rfl
    · rw [if_neg hc]
      exact iff_of_false (by simp) fun h => hc h.1.1

theorem readDecimal_eq_ok {limit n : Nat} {s : String} :
    readDecimal limit s = .ok n ↔ Denotes s n ∧ n ≤ limit := by
  have hsign : ('+' : Char).isDigit ≠ true := by decide
  unfold readDecimal Denotes
  generalize s.toList = cs
  split
  · exact iff_of_false (by simp) (by simp)
  · refine iff_of_false (by simp) ?_
    rintro ⟨⟨ds, rfl | hds, hne, hd, -⟩, -⟩
    · exact hsign (hd '+' List.mem_cons_self)
    · exact hne (List.cons.inj hds).2.symm
  · rename_i ds hds
    rw [readDigits_eq_ok (Nat.zero_le _)]
    constructor
    · rintro ⟨hd, hn, hl⟩
      refine ⟨⟨ds, .inr rfl, ?_, hd, hn⟩, hl⟩
      rintro rfl
      exact hds rfl
    · rintro ⟨⟨es, rfl | hes, -, hd, hn⟩, hl⟩
      · exact absurd (hd '+' List.mem_cons_self) hsign
      · obtain rfl := (List.cons.inj hes).2
        exact ⟨hd, hn, hl⟩
  · rename_i hne _ hplus
    rw [readDigits_eq_ok (Nat.zero_le _)]
    constructor
    · rintro ⟨hd, hn, hl⟩
      exact ⟨⟨cs, .inl rfl, hne, hd, hn⟩, hl⟩
    · rintro ⟨⟨es, rfl | hes, -, hd, hn⟩, hl⟩
      · exact ⟨hd, hn, hl⟩
      · exact absurd hes (hplus es)

/-- A word is read from the digits that stand for it and from nothing else. -/
theorem readWord_eq_ok {s : String} {n : UInt64} : readWord s = .ok n ↔ Denotes s n.toNat := by
  have hn : n.toNat ≤ Nat.pow 2 64 - 1 := Nat.le_sub_one_of_lt n.toNat_lt
  rw [readWord, ← and_iff_left (a := Denotes s n.toNat) hn, ← readDecimal_eq_ok]
  cases hm : readDecimal (Nat.pow 2 64 - 1) s with
  | error e => exact iff_of_false (by simp [Except.map]) (by simp)
  | ok m =>
    have hlt : m < 2 ^ 64 := Nat.lt_of_le_pred (by decide) (readDecimal_eq_ok.mp hm).2
    simp only [Except.map, Except.ok.injEq]
    constructor
    · rintro rfl
      exact (UInt64.toNat_ofNat_of_lt hlt).symm
    · rintro rfl
      exact UInt64.ofNat_toNat

theorem exists_digits (n : Nat) : ∃ c cs, (toString n).toList = c :: cs ∧
    (∀ d ∈ c :: cs, d.isDigit = true) ∧ Nat.ofDigitChars 10 (c :: cs) 0 = n := by
  obtain ⟨c, cs, hcs⟩ := List.exists_cons_of_ne_nil (Nat.toDigits_ne_nil (n := n) (b := 10))
  refine ⟨c, cs, ?_, ?_, ?_⟩
  · rw [Nat.toString_eq_repr, Nat.toList_repr, hcs]
  · rw [← hcs]
    exact fun d hd => Nat.isDigit_of_mem_toDigits (by decide) (by decide) hd
  · rw [← hcs]
    exact Nat.ofDigitChars_toDigits (by decide) (by decide)

theorem head?_toDigits_ne_zero {n : Nat} (hn : 0 < n) : (Nat.toDigits 10 n).head? ≠ some '0' := by
  induction n using Nat.strongRecOn with
  | ind n ih =>
    rw [Nat.toDigits_eq_if (by decide)]
    by_cases hlt : n < 10
    · have hdigit : ∀ d < 10, 0 < d → Nat.digitChar d ≠ '0' := by decide
      rw [if_pos hlt, List.head?_cons, Ne, Option.some.injEq]
      exact hdigit n hlt hn
    · obtain ⟨c, cs, hcs⟩ := List.exists_cons_of_ne_nil (Nat.toDigits_ne_nil (n := n / 10) (b := 10))
      have hhead := ih (n / 10) (by omega) (by omega)
      rw [hcs] at hhead
      rw [if_neg hlt, hcs]
      exact hhead

theorem readWord_toString (n : UInt64) : readWord (toString n.toNat) = .ok n := by
  obtain ⟨c, cs, hs, hd, hv⟩ := exists_digits n.toNat
  exact readWord_eq_ok.mpr ⟨c :: cs, .inl hs, List.cons_ne_nil c cs, hd, hv⟩

end Netlab.Text
