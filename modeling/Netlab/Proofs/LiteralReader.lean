import Netlab.Proofs.Quoting
import Netlab.Proofs.Spelling

namespace Netlab

open Text (hexValue? readHex charOfCode?)

theorem hexValue?_lt {c : Char} {d : Nat} (h : hexValue? c = some d) : d < 16 := by
  have hrange : ∀ {a z : Char}, (decide (a ≤ c) && decide (c ≤ z)) = true →
      a.toNat ≤ c.toNat ∧ c.toNat ≤ z.toNat := by
    intro a z hc
    obtain ⟨ha, hz⟩ := Bool.and_eq_true_iff.mp hc
    exact ⟨UInt32.le_iff_toNat_le.mp (of_decide_eq_true ha),
      UInt32.le_iff_toNat_le.mp (of_decide_eq_true hz)⟩
  unfold hexValue? at h
  split_ifs at h with hdigit hlower hupper
  · cases h
    have hc : 48 ≤ c.toNat ∧ c.toNat ≤ 57 := toNat_of_isDigit hdigit
    change c.toNat - 48 < 16
    omega
  · cases h
    have hc : 97 ≤ c.toNat ∧ c.toNat ≤ 102 := hrange hlower
    change c.toNat - 97 + 10 < 16
    omega
  · cases h
    have hc : 65 ≤ c.toNat ∧ c.toNat ≤ 70 := hrange hupper
    change c.toNat - 65 + 10 < 16
    omega

namespace Python

/-- Read the inside of a literal up to the first double quote that no backslash is in front of, and
give what is left behind the quote. -/
def readInside? : List Char → Option (List Char × List Char)
  | [] => none
  | '"' :: cs => some ([], cs)
  | '\\' :: 'x' :: high :: low :: cs =>
    ((readHex [high, low] 0).bind charOfCode?).bind fun c =>
      (readInside? cs).map (Prod.map (c :: ·) id)
  -- A code with fewer than two digits before the end comes here too, and `x` is no letter.
  | '\\' :: e :: cs =>
    (quoting.letters.find? (·.1 = e)).bind fun l => (readInside? cs).map (Prod.map (l.2 :: ·) id)
  | c :: cs => if quoting.plain c then (readInside? cs).map (Prod.map (c :: ·) id) else none

def readLiteral? (text : String) : Option (String × String) :=
  match text.toList with
  | '"' :: cs => (readInside? cs).map (Prod.map String.ofList String.ofList)
  | _ => none

theorem readHex_pair_lt {high low : Char} {n : Nat} (h : readHex [high, low] 0 = some n) : n < 256 := by
  simp only [readHex, Option.bind_eq_some_iff, Option.some.injEq] at h
  obtain ⟨a, ha, b, hb, rfl⟩ := h
  have hhigh := hexValue?_lt ha
  have hlow := hexValue?_lt hb
  omega

theorem ne_of_plain {c d : Char} (hc : quoting.plain c = true) (hd : quoting.plain d = false) :
    c ≠ d := by
  rintro rfl
  rw [hd] at hc
  cases hc

theorem readInside?_escaped {ts : List Char} {c : Char} (h : quoting.Escaped ts c) (cs : List Char) :
    readInside? (ts ++ cs) = (readInside? cs).map (Prod.map (c :: ·) id) := by
  cases h with
  | plain hp =>
    have hquote := ne_of_plain hp regular_quoting.quote
    have hslash := ne_of_plain hp regular_quoting.backslash
    rw [List.singleton_append, readInside?.eq_5 _ _ hquote, if_pos hp]
    · exact fun _ _ _ hc => absurd hc hslash
    · exact fun _ _ hc => absurd hc hslash
  | @letter e _ he =>
    have hmark : e ≠ 'x' := by
      rintro rfl
      exact regular_quoting.mark (List.mem_map_of_mem he)
    have hfind := (Lists.find?_key_eq_some regular_quoting.letters).mpr ⟨he, rfl⟩
    rw [List.cons_append, List.singleton_append, readInside?.eq_4, hfind, Option.bind_some]
    exact fun _ _ _ hx => absurd hx hmark
  | code hd hn hc =>
    obtain ⟨high, low, rfl⟩ := List.length_eq_two.mp hd
    change readInside? ('\\' :: 'x' :: high :: low :: cs) = _
    rw [readInside?, hn, Option.bind_some, hc, Option.bind_some]
  | halves hh _ hm _ hm₀ =>
    obtain ⟨high, low, rfl⟩ := List.length_eq_two.mp hh
    have hlt := readHex_pair_lt hm
    omega

theorem readInside?_eq_some {ts text rest : List Char} :
    readInside? ts = some (text, rest) ↔
      ∃ body, Repeated quoting.Escaped body text ∧ ts = body ++ '"' :: rest := by
  constructor
  · -- A written character in front of a body makes a longer body.
    have hstep : ∀ {written cs text : List Char} {c : Char}, quoting.Escaped written c →
        (∀ {tail : List Char}, readInside? cs = some (tail, rest) →
          ∃ body, Repeated quoting.Escaped body tail ∧ cs = body ++ '"' :: rest) →
        (readInside? cs).map (Prod.map (c :: ·) id) = some (text, rest) →
        ∃ body, Repeated quoting.Escaped body text ∧ written ++ cs = body ++ '"' :: rest := by
      intro written cs text c hc ih h
      obtain ⟨⟨tail, _⟩, hread, heq⟩ := Option.map_eq_some_iff.mp h
      cases heq
      obtain ⟨body, hbody, rfl⟩ := ih hread
      exact ⟨written ++ body, .cons hc hbody, (List.append_assoc ..).symm⟩
    intro h
    fun_induction readInside? ts generalizing text with
    | case1 | case6 => cases h
    | case2 cs =>
      cases h
      exact ⟨[], .nil, rfl⟩
    | case3 high low cs ih =>
      obtain ⟨c, hcode, hmore⟩ := Option.bind_eq_some_iff.mp h
      obtain ⟨n, hn, hc⟩ := Option.bind_eq_some_iff.mp hcode
      exact hstep (.code rfl hn hc) ih hmore
    | case4 e cs _ ih =>
      obtain ⟨⟨_, c⟩, hfind, hmore⟩ := Option.bind_eq_some_iff.mp h
      obtain ⟨hl, rfl⟩ := (Lists.find?_key_eq_some regular_quoting.letters).mp hfind
      exact hstep (.letter hl) ih hmore
    | case5 c cs _ _ _ hp ih => exact hstep (.plain hp) ih h
  · rintro ⟨body, hbody, rfl⟩
    induction hbody with
    | nil => rfl
    | cons hc _ ih =>
      rw [List.append_assoc, readInside?_escaped hc, ih]
      rfl

theorem readLiteral?_eq_some {text s rest : String} :
    readLiteral? text = some (s, rest) ↔
      ∃ written, quoting.Quoted written s ∧ text.toList = written ++ rest.toList := by
  unfold readLiteral?
  constructor
  · intro h
    split at h
    · rename_i cs htext
      obtain ⟨⟨inside, behind⟩, hread, heq⟩ := Option.map_eq_some_iff.mp h
      cases heq
      obtain ⟨body, hbody, rfl⟩ := readInside?_eq_some.mp hread
      refine ⟨'"' :: (body ++ ['"']), ⟨body, ?_, rfl⟩, ?_⟩
      · rwa [String.toList_ofList]
      · simp [htext]
    · cases h
  · rintro ⟨_, ⟨body, hbody, rfl⟩, htext⟩
    have hread : readInside? (body ++ '"' :: rest.toList) = some (s.toList, rest.toList) :=
      readInside?_eq_some.mpr ⟨body, hbody, rfl⟩
    simp [htext, hread]

/-- A string that has been written is read back from the front of any text that starts with its
literal, and the text behind the literal is left. -/
theorem quote_read_back (s t : String) : readLiteral? (quote s ++ t) = some (s, t) :=
  readLiteral?_eq_some.mpr ⟨_, quoted_quote s, String.toList_append⟩

example : readLiteral? "\"\\x4A1\\\"\" + \"" = some ("J1\"", " + \"") := by decide +kernel

example : readLiteral? "\"a\n\"" = none := by decide +kernel

end Python

end Netlab
