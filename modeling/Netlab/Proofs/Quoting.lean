import Netlab.Json
import Netlab.Proofs.Unambiguous
import Netlab.Python
import Netlab.Text.Hex

namespace Netlab

open Text (hexValue? readHex charOfCode?)

/-- How strings are written between double quotes: the characters that stand for themselves, the
letters behind a backslash with what they stand for, and the letter in front of a code of so many
hexadecimal digits. -/
structure Quoting where
  plain : Char → Bool
  letters : List (Char × Char)
  mark : Char
  width : Nat

namespace Quoting

/-- What is written for one character. A character whose code is too large for the digits is written as
two halves. -/
inductive Escaped (q : Quoting) : List Char → Char → Prop where
  | plain {c : Char} (h : q.plain c = true) : Escaped q [c] c
  | letter {e c : Char} (h : (e, c) ∈ q.letters) : Escaped q ['\\', e] c
  | code {digits : List Char} {n : Nat} {c : Char} (hd : digits.length = q.width)
      (hn : readHex digits 0 = some n) (hc : charOfCode? n = some c) :
      Escaped q ('\\' :: q.mark :: digits) c
  | halves {high low : List Char} {m n : Nat} (hh : high.length = q.width) (hl : low.length = q.width)
      (hm : readHex high 0 = some m) (hn : readHex low 0 = some n) (hm₀ : 0xD800 ≤ m) (hm₁ : m < 0xDC00)
      (hn₀ : 0xDC00 ≤ n) (hn₁ : n < 0xE000) :
      Escaped q ('\\' :: q.mark :: (high ++ '\\' :: q.mark :: low))
        (Char.ofNat (0x10000 + 0x400 * (m - 0xD800) + (n - 0xDC00)))

def Quoted (q : Quoting) (ts : List Char) (s : String) : Prop :=
  ∃ body, Repeated q.Escaped body s.toList ∧ ts = '"' :: (body ++ ['"'])

/-- No character can be taken for the start of something else. -/
structure Regular (q : Quoting) : Prop where
  quote : q.plain '"' = false
  backslash : q.plain '\\' = false
  letters : (q.letters.map Prod.fst).Nodup
  mark : q.mark ∉ q.letters.map Prod.fst

theorem not_surrogate {n : Nat} {c : Char} (h : charOfCode? n = some c) :
    n < 0xD800 ∨ 0xE000 ≤ n := by
  by_cases hv : n.isValidChar
  · simp only [Nat.isValidChar] at hv
    omega
  · rw [charOfCode?, dif_neg hv] at h
    cases h

variable {q : Quoting}

theorem Escaped.head?_ne_quote (hq : q.Regular) {ts : List Char} {c : Char} (h : q.Escaped ts c)
    (r : List Char) : (ts ++ r).head? ≠ some '"' := by
  cases h with
  | plain hp =>
    intro hc
    cases hc
    rw [hq.quote] at hp
    cases hp
  | letter | code | halves => simp

theorem Regular.escaped (hq : q.Regular) : Unambiguous q.Escaped anyText := by
  have hplain : ∀ {c : Char}, q.plain c = true → c ≠ '\\' := by
    rintro c hc rfl
    rw [hq.backslash] at hc
    cases hc
  have hmark : ∀ {c : Char}, (q.mark, c) ∉ q.letters := fun hc =>
    hq.mark (List.mem_map_of_mem hc)
  -- A code that stands for a character is not the first half of one.
  have hhalf : ∀ {digits high r s : List Char} {n m : Nat} {c : Char}, digits.length = q.width →
      high.length = q.width → readHex digits 0 = some n → charOfCode? n = some c →
      readHex high 0 = some m → 0xD800 ≤ m → m < 0xDC00 → digits ++ r ≠ high ++ s := by
    intro digits high r s n m c hd hh hn hc hm hm₀ hm₁ heq
    obtain ⟨rfl, -⟩ := List.append_inj heq (hd.trans hh.symm)
    cases hn.symm.trans hm
    have hvalid := not_surrogate hc
    omega
  intro ts us a b r s ha hb _ _ heq
  cases ha with
  | plain hp =>
    cases hb with
    | plain => exact List.cons.inj heq
    | letter | code | halves => exact absurd (List.cons.inj heq).1 (hplain hp)
  | letter he =>
    cases hb with
    | plain hp => exact absurd (List.cons.inj heq).1.symm (hplain hp)
    | letter he' =>
      obtain ⟨rfl, hr⟩ := List.cons.inj (List.cons.inj heq).2
      have hpair := List.inj_on_of_nodup_map hq.letters he he' rfl
      exact ⟨congrArg Prod.snd hpair, hr⟩
    | code | halves =>
      obtain ⟨rfl, -⟩ := List.cons.inj (List.cons.inj heq).2
      exact absurd he hmark
  | code hd hn hc =>
    cases hb with
    | plain hp => exact absurd (List.cons.inj heq).1.symm (hplain hp)
    | letter he =>
      obtain ⟨rfl, -⟩ := List.cons.inj (List.cons.inj heq).2
      exact absurd he hmark
    | code hd' hn' hc' =>
      simp only [List.cons_append, List.cons.injEq, true_and] at heq
      obtain ⟨rfl, hr⟩ := List.append_inj heq (hd.trans hd'.symm)
      cases hn.symm.trans hn'
      cases hc.symm.trans hc'
      exact ⟨rfl, hr⟩
    | halves hh hl hm hn' hm₀ hm₁ =>
      simp only [List.cons_append, List.append_assoc, List.cons.injEq, true_and] at heq
      exact absurd heq (hhalf hd hh hn hc hm hm₀ hm₁)
  | halves hh hl hm hn hm₀ hm₁ =>
    cases hb with
    | plain hp => exact absurd (List.cons.inj heq).1.symm (hplain hp)
    | letter he =>
      obtain ⟨rfl, -⟩ := List.cons.inj (List.cons.inj heq).2
      exact absurd he hmark
    | code hd hn' hc =>
      simp only [List.cons_append, List.append_assoc, List.cons.injEq, true_and] at heq
      exact absurd heq.symm (hhalf hd hh hn' hc hm hm₀ hm₁)
    | halves hh' hl' hm' hn' =>
      simp only [List.cons_append, List.append_assoc, List.cons.injEq, true_and] at heq
      obtain ⟨rfl, hrest⟩ := List.append_inj heq (hh.trans hh'.symm)
      simp only [List.cons.injEq, true_and] at hrest
      obtain ⟨rfl, hr⟩ := List.append_inj hrest (hl.trans hl'.symm)
      cases hm.symm.trans hm'
      cases hn.symm.trans hn'
      exact ⟨rfl, hr⟩

/-- A quoted string ends at the first quote that no backslash is in front of. -/
theorem Regular.quoted (hq : q.Regular) : Unambiguous q.Quoted anyText := by
  have hbody : Unambiguous (Repeated q.Escaped) (fun r => r.head? = some '"') :=
    hq.escaped.repeated (fun _ _ => trivial) (fun _ _ _ _ => trivial)
      (fun _ _ h r => h.head?_ne_quote hq r)
  rintro _ _ s t r u ⟨body, hs, rfl⟩ ⟨body', ht, rfl⟩ - - heq
  simp only [List.cons_append, List.append_assoc, List.cons.injEq, true_and] at heq
  obtain ⟨hst, hend⟩ := hbody hs ht rfl rfl heq
  exact ⟨String.toList_inj.mp hst, (List.cons.inj hend).2⟩

theorem quoted_of_escape {escape : Char → List Char} (h : ∀ c, q.Escaped (escape c) c) (s : String) :
    q.Quoted ('"' :: (s.toList.flatMap escape ++ ['"'])) s :=
  ⟨_, repeated_flatMap fun c _ => h c, rfl⟩

end Quoting

theorem hexValue?_digitChar {d : Nat} (h : d < 16) : hexValue? (Nat.digitChar d) = some d := by
  revert d
  decide

theorem charOfCode?_toNat (c : Char) : charOfCode? c.toNat = some c := by
  have hvalid : c.toNat.isValidChar := c.valid
  rw [charOfCode?, dif_pos hvalid]
  rfl

theorem readHex_digitChar {n : Nat} (h : n < 256) :
    readHex [Nat.digitChar (n / 16), Nat.digitChar (n % 16)] 0 = some n := by
  have hhigh : n / 16 < 16 := by omega
  have hlow : n % 16 < 16 := Nat.mod_lt _ (by decide)
  simp only [readHex, hexValue?_digitChar hhigh, hexValue?_digitChar hlow, Option.bind_some,
    Option.some.injEq]
  omega

namespace Python

def quoting : Quoting where
  plain c := c ≠ '"' && c ≠ '\\' && c ≠ '\n' && c ≠ '\r'
  letters := [('\\', '\\'), ('"', '"'), ('n', '\n'), ('r', '\r'), ('t', '\t')]
  mark := 'x'
  width := 2

theorem regular_quoting : quoting.Regular := ⟨by decide, by decide, by decide, by decide⟩

theorem escaped_escape (c : Char) : quoting.Escaped (escape c) c := by
  unfold escape
  split_ifs with hb hq hn hr ht hc
  iterate 5
    · subst c
      exact .letter (by decide)
  · exact .code rfl (readHex_digitChar (by omega)) (charOfCode?_toNat c)
  · exact .plain (by simp [quoting, hb, hq, hn, hr])

theorem quoted_quote (s : String) : quoting.Quoted (quote s).toList s := by
  rw [quote, String.toList_ofList]
  exact Quoting.quoted_of_escape escaped_escape s

theorem unambiguous_quote : Unambiguous (Writes quote) anyText :=
  regular_quoting.quoted.writes quoted_quote

end Python

namespace Json

def quoting : Quoting where
  plain c := c ≠ '"' && c ≠ '\\' && 0x20 ≤ c.toNat
  letters := [('"', '"'), ('\\', '\\'), ('/', '/'), ('b', '\x08'), ('f', '\x0c'), ('n', '\n'),
    ('r', '\r'), ('t', '\t')]
  mark := 'u'
  width := 4

theorem regular_quoting : quoting.Regular := ⟨by decide, by decide, by decide, by decide⟩

theorem escaped_escape (c : Char) : quoting.Escaped (escape c) c := by
  unfold escape
  split_ifs with hq hb h₈ h₁₂ hn hr ht hc
  iterate 7
    · subst c
      exact .letter (by decide)
  · exact .code rfl (readHex_digitChar (by omega)) (charOfCode?_toNat c)
  · exact .plain (by simp [quoting, hq, hb, Nat.not_lt.mp hc])

theorem quoted_quote (s : String) : quoting.Quoted (quote s).toList s := by
  rw [quote, String.toList_ofList]
  exact Quoting.quoted_of_escape escaped_escape s

end Json

end Netlab
