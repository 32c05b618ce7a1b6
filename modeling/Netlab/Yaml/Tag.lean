import Netlab.Yaml.ScalarText

namespace Netlab.Yaml

/-- What a node is said to be. A tag is kept in bytes, since the escapes in it need not make a text. -/
structure Tag where
  bytes : List UInt8
deriving DecidableEq

namespace Tag

def ofText (s : String) : Tag := ⟨s.toUTF8.data.toList⟩

def append (t u : Tag) : Tag := ⟨t.bytes ++ u.bytes⟩

def cut (t : Tag) : Tag := ⟨t.bytes.takeWhile (· ≠ 0)⟩

def isEmpty (t : Tag) : Bool := t.bytes.isEmpty

def bare : Tag := .ofText "!"

/-- What the tags of the standard set start with. -/
def standardLead : Tag := .ofText "tag:yaml.org,2002:"

def standard (word : String) : Tag := standardLead.append (.ofText word)

def isLocal (t : Tag) : Bool := t.bytes.head? = some 0x21

/-- The word of a local tag: what follows the exclamation mark, or else the mark itself. -/
def word? (t : Tag) : Option String :=
  if t = bare then some "!"
  else if t.isLocal then String.fromUTF8? ⟨(t.bytes.drop 1).toArray⟩
  else none

/-- The characters of a tag. Between angle brackets there are a few more. -/
def isChar (verbatim : Bool) (c : Char) : Bool :=
  isWordChar c ||
    c ∈ [';', '/', '?', ':', '@', '&', '=', '+', '$', '.', '%', '!', '~', '*', '\'', '(', ')'] ||
    (verbatim && c ∈ [',', '[', ']'])

def octet? : List Char → Option Nat
  | '%' :: a :: b :: _ => (Text.hexValue? a).bind (fun m => (Text.hexValue? b).map (fun n => 16 * m + n))
  | _ => none

theorem length_of_octet? {cs : List Char} {n : Nat} (h : octet? cs = some n) : 3 ≤ cs.length := by
  unfold octet? at h
  split at h
  · simp only [List.length_cons]
    omega
  · cases h

def trailing? (n : Nat) : Option Nat :=
  if n < 0x80 then some 0
  else if n / 0x20 = 0x6 then some 1
  else if n / 0x10 = 0xE then some 2
  else if n / 0x08 = 0x1E then some 3
  else none

def readTrail : Nat → Input → Except (String × Mark) (List UInt8 × Input)
  | 0, i => .ok ([], i)
  | n + 1, i =>
    match octet? i.rest with
    | none => .error ("did not find URI escaped octet", i.mark)
    | some b =>
      if b / 0x40 = 0x2 then
        (readTrail n ⟨i.rest.drop 3, i.mark.advance 3⟩).map (fun r => (b.toUInt8 :: r.1, r.2))
      else .error ("found an incorrect trailing UTF-8 octet", i.mark)

theorem length_readTrail_le {n : Nat} {i j : Input} {bs : List UInt8}
    (h : readTrail n i = .ok (bs, j)) : j.rest.length ≤ i.rest.length := by
  induction n generalizing i bs with
  | zero =>
    cases h
    exact Nat.le_refl _
  | succ n ih =>
    unfold readTrail at h
    split at h
    · cases h
    · obtain ⟨-, h⟩ := ite_error_eq_ok.mp h
      obtain ⟨r, hr, h⟩ := map_eq_ok.mp h
      cases h
      have hrest := ih hr
      rw [List.length_drop] at hrest
      omega

def readEscape (i : Input) : Except (String × Mark) (List UInt8 × Input) :=
  match octet? i.rest with
  | none => .error ("did not find URI escaped octet", i.mark)
  | some b =>
    match trailing? b with
    | none => .error ("found an incorrect leading UTF-8 octet", i.mark)
    | some n =>
      (readTrail n ⟨i.rest.drop 3, i.mark.advance 3⟩).map (fun r => (b.toUInt8 :: r.1, r.2))

theorem length_readEscape_lt {i j : Input} {bs : List UInt8} (h : readEscape i = .ok (bs, j)) :
    j.rest.length < i.rest.length := by
  unfold readEscape at h
  split at h
  · cases h
  · rename_i b hb
    have hlen := length_of_octet? hb
    split at h
    · cases h
    · obtain ⟨r, hr, h⟩ := map_eq_ok.mp h
      cases h
      have hrest := length_readTrail_le hr
      rw [List.length_drop] at hrest
      omega

def readBytes (verbatim : Bool) (i : Input) : Except (String × Mark) (List UInt8 × Input) :=
  match i with
  | ⟨[], m⟩ => .ok ([], ⟨[], m⟩)
  | ⟨c :: cs, m⟩ =>
    if c = '%' then
      match he : readEscape ⟨c :: cs, m⟩ with
      | .error e => .error e
      | .ok (bs, j) =>
        have := length_readEscape_lt he
        (readBytes verbatim j).map (fun r => (bs ++ r.1, r.2))
    else if isChar verbatim c then
      (readBytes verbatim ⟨cs, m.next⟩).map (fun r => (c.toNat.toUInt8 :: r.1, r.2))
    else .ok ([], ⟨c :: cs, m⟩)
termination_by i.rest.length
decreasing_by
  · assumption
  · exact Nat.lt_succ_self _

theorem length_readBytes_le {verbatim : Bool} {i j : Input} {bs : List UInt8}
    (h : readBytes verbatim i = .ok (bs, j)) : j.rest.length ≤ i.rest.length := by
  fun_induction readBytes verbatim i generalizing bs with
  | case1 | case5 =>
    cases h
    exact Nat.le_refl _
  | case2 => cases h
  | case3 cs m bs k he hlt ih =>
    obtain ⟨r, hr, h⟩ := map_eq_ok.mp h
    cases h
    exact Nat.le_trans (ih hr) (Nat.le_of_lt hlt)
  | case4 c cs m _ _ ih =>
    obtain ⟨r, hr, h⟩ := map_eq_ok.mp h
    cases h
    exact Nat.le_succ_of_le (ih hr)

def read (verbatim : Bool) (i : Input) : Except (String × Mark) (Tag × Input) := do
  let (bs, j) ← readBytes verbatim i
  if bs.isEmpty then throw ("did not find expected tag URI", j.mark)
  else return (cut ⟨bs⟩, j)

theorem length_read_le {verbatim : Bool} {i j : Input} {t : Tag} (h : read verbatim i = .ok (t, j)) :
    j.rest.length ≤ i.rest.length := by
  obtain ⟨⟨bs, k⟩, hk, h⟩ := bind_eq_ok.mp h
  obtain ⟨-, h⟩ := error_ite_eq_ok.mp h
  cases h
  exact length_readBytes_le hk

end Tag

end Netlab.Yaml
