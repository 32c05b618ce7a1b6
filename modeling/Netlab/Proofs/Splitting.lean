import Netlab.Proofs.Lists
import Netlab.Text.Split

namespace Netlab.Text

variable {sep : Char} {cs : List Char}

theorem cut?_eq_some {before rest : List Char} (h : cut? sep cs = some (before, rest)) :
    cs = before ++ sep :: rest ∧ sep ∉ before := by
  induction cs generalizing before with
  | nil => cases h
  | cons c cs ih =>
    rw [cut?] at h
    by_cases hc : c = sep
    · rw [if_pos hc] at h
      cases h
      exact ⟨by rw [hc, List.nil_append], List.not_mem_nil⟩
    · rw [if_neg hc] at h
      obtain ⟨⟨b, r⟩, hcut, he⟩ := Option.map_eq_some_iff.mp h
      cases he
      obtain ⟨rfl, hm⟩ := ih hcut
      exact ⟨rfl, List.not_mem_cons_of_ne_of_not_mem (Ne.symm hc) hm⟩

theorem cut?_eq_none (h : cut? sep cs = none) : sep ∉ cs := by
  induction cs with
  | nil => exact List.not_mem_nil
  | cons c cs ih =>
    rw [cut?] at h
    by_cases hc : c = sep
    · rw [if_pos hc] at h
      cases h
    · rw [if_neg hc] at h
      exact List.not_mem_cons_of_ne_of_not_mem (Ne.symm hc) (ih (Option.map_eq_none_iff.mp h))

theorem cut?_append_cons {before : List Char} (h : sep ∉ before) (rest : List Char) :
    cut? sep (before ++ sep :: rest) = some (before, rest) := by
  induction before with
  | nil => rw [List.nil_append, cut?, if_pos rfl]
  | cons c before ih =>
    have hc : c ≠ sep := Ne.symm (List.ne_of_not_mem_cons h)
    rw [List.cons_append, cut?, if_neg hc, ih (List.not_mem_of_not_mem_cons h), Option.map_some]

theorem cutLast?_eq_some {before rest : List Char} (h : cutLast? sep cs = some (before, rest)) :
    cs = before ++ sep :: rest ∧ sep ∉ rest := by
  obtain ⟨⟨b, r⟩, hcut, he⟩ := Option.map_eq_some_iff.mp h
  cases he
  obtain ⟨hs, hm⟩ := cut?_eq_some hcut
  have hcs := congrArg List.reverse hs
  rw [List.reverse_reverse] at hcs
  exact ⟨by simp [hcs], by simpa using hm⟩

theorem cutLast?_eq_none (h : cutLast? sep cs = none) : sep ∉ cs := by
  simpa using cut?_eq_none (Option.map_eq_none_iff.mp h)

theorem split_ne_nil (sep : Char) (cs : List Char) : split sep cs ≠ [] := by
  fun_cases split sep cs <;> simp

theorem split_of_not_mem (h : sep ∉ cs) : split sep cs = [cs] := by
  induction cs with
  | nil => rfl
  | cons c cs ih =>
    have hc : c ≠ sep := Ne.symm (List.ne_of_not_mem_cons h)
    rw [split, if_neg hc, ih (List.not_mem_of_not_mem_cons h)]

theorem split_append_cons (before rest : List Char) :
    split sep (before ++ sep :: rest) = split sep before ++ split sep rest := by
  induction before with
  | nil => simp [split]
  | cons c before ih =>
    rw [List.cons_append, split, split, ih]
    by_cases hc : c = sep
    · rw [if_pos hc, if_pos hc, List.cons_append]
    · obtain ⟨field, fields, hb⟩ := List.exists_cons_of_ne_nil (split_ne_nil sep before)
      rw [if_neg hc, if_neg hc, hb]
      rfl

/-- Fields without the separator are found again when they are put together with it. -/
theorem split_intercalate {field : List Char} {fields : List (List Char)}
    (h : ∀ f ∈ field :: fields, sep ∉ f) : split sep ([sep].intercalate (field :: fields)) = field :: fields := by
  induction fields generalizing field with
  | nil =>
    rw [List.intercalate_singleton]
    exact split_of_not_mem (h field List.mem_cons_self)
  | cons next fields ih =>
    obtain ⟨hfield, hfields⟩ := List.forall_mem_cons.mp h
    rw [List.intercalate_cons_cons, List.append_assoc, List.singleton_append, split_append_cons,
      split_of_not_mem hfield, ih hfields, List.singleton_append]

theorem split_flatMap {fields : List (List Char)} (h : ∀ f ∈ fields, sep ∉ f) :
    split sep (fields.flatMap (· ++ [sep])) = fields ++ [[]] := by
  induction fields with
  | nil => rfl
  | cons field fields ih =>
    obtain ⟨hfield, hfields⟩ := List.forall_mem_cons.mp h
    rw [List.flatMap_cons, List.append_assoc, List.singleton_append, split_append_cons,
      split_of_not_mem hfield, ih hfields, List.singleton_append, List.cons_append]

/-- The fields with the separator between them make up the text again. -/
theorem intercalate_split (sep : Char) (cs : List Char) : [sep].intercalate (split sep cs) = cs := by
  induction cs with
  | nil => rfl
  | cons c cs ih =>
    obtain ⟨field, fields, hs⟩ := List.exists_cons_of_ne_nil (split_ne_nil sep cs)
    rw [hs, Lists.intercalate_cons] at ih
    rw [split, hs]
    by_cases hc : c = sep
    · rw [if_pos hc, Lists.intercalate_cons, List.flatMap_cons, List.append_assoc, ih, hc]
      rfl
    · rw [if_neg hc, Lists.intercalate_cons, List.cons_append, ih]

end Netlab.Text
