import Netlab.Proofs.Quoting

namespace Netlab.Json

/-- A value of the data format in full. A number is kept as it is written, and the members of an object
stand in their order. -/
inductive Datum where
  | null
  | bool (b : Bool)
  | number (spelling : List Char)
  | string (s : String)
  | array (items : List Datum)
  | object (members : List (String × Datum))

def isBlank (c : Char) : Bool := c = ' ' || c = '\t' || c = '\n' || c = '\r'

def Blank (gap : List Char) : Prop := ∀ c ∈ gap, isBlank c = true

def Digits (ds : List Char) : Prop := ds ≠ [] ∧ ∀ c ∈ ds, c.isDigit = true

/-- The digits in front of the point have no zero in front. -/
inductive Whole : List Char → Prop where
  | zero : Whole ['0']
  | more {d : Char} {ds : List Char} (hd : d ≠ '0') (h : Digits (d :: ds)) : Whole (d :: ds)

inductive Fraction : List Char → Prop where
  | none : Fraction []
  | some {ds : List Char} (h : Digits ds) : Fraction ('.' :: ds)

inductive Exponent : List Char → Prop where
  | none : Exponent []
  | some {e : Char} {sign ds : List Char} (he : e = 'e' ∨ e = 'E')
      (hs : sign = [] ∨ sign = ['+'] ∨ sign = ['-']) (h : Digits ds) : Exponent (e :: (sign ++ ds))

inductive Number : List Char → Prop where
  | mk {sign whole fraction exponent : List Char} (hs : sign = [] ∨ sign = ['-']) (hw : Whole whole)
      (hf : Fraction fraction) (he : Exponent exponent) :
      Number (sign ++ (whole ++ (fraction ++ exponent)))

section

variable {α : Type}

inductive Padded (phrase : List Char → α → Prop) : List Char → α → Prop where
  | mk {before ts after : List Char} {a : α} (hb : Blank before) (h : phrase ts a) (ha : Blank after) :
      Padded phrase (before ++ (ts ++ after)) a

inductive Keyed (phrase : List Char → α → Prop) : List Char → String × α → Prop where
  | mk {key ts : List Char} {k : String} {a : α} (hk : Padded quoting.Quoted key k) (h : phrase ts a) :
      Keyed phrase (key ++ ':' :: ts) (k, a)

inductive Separated (phrase : List Char → α → Prop) : List Char → List α → Prop where
  | one {ts : List Char} {a : α} (h : phrase ts a) : Separated phrase ts [a]
  | more {ts us : List Char} {a : α} {as : List α} (h : phrase ts a) (hs : Separated phrase us as) :
      Separated phrase (ts ++ ',' :: us) (a :: as)

/-- Phrases with commas between them, or only blanks, up to a bracket. -/
inductive Closed (close : Char) (phrase : List Char → α → Prop) : List Char → List α → Prop where
  | none {gap : List Char} (h : Blank gap) : Closed close phrase (gap ++ [close]) []
  | some {ts : List Char} {as : List α} (h : Separated phrase ts as) :
      Closed close phrase (ts ++ [close]) as

end

/-- The texts of a value, without blanks around them. -/
inductive Value : List Char → Datum → Prop where
  | null : Value ['n', 'u', 'l', 'l'] .null
  | isTrue : Value ['t', 'r', 'u', 'e'] (.bool true)
  | isFalse : Value ['f', 'a', 'l', 's', 'e'] (.bool false)
  | number {ts : List Char} (h : Number ts) : Value ts (.number ts)
  | string {ts : List Char} {s : String} (h : quoting.Quoted ts s) : Value ts (.string s)
  | array {ts : List Char} {ds : List Datum} (h : Closed ']' (Padded Value) ts ds) :
      Value ('[' :: ts) (.array ds)
  | object {ts : List Char} {ms : List (String × Datum)}
      (h : Closed '\x7d' (Keyed (Padded Value)) ts ms) : Value ('\x7b' :: ts) (.object ms)

def isNumberChar (c : Char) : Bool :=
  c.isDigit || c = '-' || c = '+' || c = '.' || c = 'e' || c = 'E'

theorem Digits.isNumberChar {ds : List Char} (h : Digits ds) : ∀ c ∈ ds, isNumberChar c = true := by
  intro c hc
  simp [Json.isNumberChar, h.2 c hc]

theorem Whole.digits {ts : List Char} (h : Whole ts) : Digits ts := by
  cases h with
  | zero => exact ⟨by simp, by simp⟩
  | more hd h => exact h

theorem Number.isNumberChar {ts : List Char} (h : Number ts) : ∀ c ∈ ts, isNumberChar c = true := by
  obtain ⟨hs, hw, hf, he⟩ := h
  simp only [List.forall_mem_append]
  refine ⟨?_, hw.digits.isNumberChar, ?_, ?_⟩
  · rcases hs with rfl | rfl <;> simp [Json.isNumberChar]
  · cases hf with
    | none => simp
    | some hd => exact List.forall_mem_cons.mpr ⟨by decide, hd.isNumberChar⟩
  · cases he with
    | none => simp
    | some he hs hd =>
      rw [List.forall_mem_cons, List.forall_mem_append]
      refine ⟨?_, ?_, hd.isNumberChar⟩
      · rcases he with rfl | rfl <;> decide
      · rcases hs with rfl | rfl | rfl <;> simp [Json.isNumberChar]

theorem Number.exists_cons {ts : List Char} (h : Number ts) :
    ∃ c cs, ts = c :: cs ∧ (c = '-' ∨ c.isDigit = true) := by
  obtain ⟨hs, hw, hf, he⟩ := h
  rcases hs with rfl | rfl
  · obtain ⟨c, cs, rfl⟩ := List.exists_cons_of_ne_nil hw.digits.1
    exact ⟨c, _, rfl, .inr (hw.digits.2 c List.mem_cons_self)⟩
  · exact ⟨'-', _, rfl, .inl rfl⟩

theorem unambiguous_number : Unambiguous (fun ts us => ts = us ∧ Number us) (Stops isNumberChar) := by
  apply Unambiguous.run
  · rintro _ ts ⟨rfl, h⟩
    exact h.isNumberChar
  · rintro _ ts us ⟨rfl, -⟩ ⟨rfl, -⟩
    rfl

/-- What the first character of a value tells. -/
inductive Form where
  | null | isTrue | isFalse | number | string | array | object

def Form.ofChar (c : Char) : Form :=
  if c = '-' || c.isDigit then number
  else if c = 'n' then null
  else if c = 't' then isTrue
  else if c = 'f' then isFalse
  else if c = '"' then string
  else if c = '[' then array
  else object

def Datum.form : Datum → Form
  | null => .null
  | bool true => .isTrue
  | bool false => .isFalse
  | number _ => .number
  | string _ => .string
  | array _ => .array
  | object _ => .object

def AtEnd (r : List Char) : Prop := Stops (fun c => isBlank c || isNumberChar c) r

theorem AtEnd.blank {r : List Char} (h : AtEnd r) : Stops isBlank r :=
  fun c hc => (Bool.or_eq_false_iff.mp (h c hc)).1

theorem AtEnd.number {r : List Char} (h : AtEnd r) : Stops isNumberChar r :=
  fun c hc => (Bool.or_eq_false_iff.mp (h c hc)).2

theorem isNumberChar_of_isBlank {c : Char} (h : isBlank c = true) : isNumberChar c = false := by
  simp only [isBlank, Bool.or_eq_true, decide_eq_true_eq] at h
  rcases h with ((rfl | rfl) | rfl) | rfl <;> decide

theorem Blank.stops {gap r : List Char} (h : Blank gap) (hr : AtEnd r) :
    Stops isNumberChar (gap ++ r) := by
  cases gap with
  | nil => exact hr.number
  | cons c cs => exact stops_cons (isNumberChar_of_isBlank (h c List.mem_cons_self)) _

theorem Blank.cancel {a b r s : List Char} (ha : Blank a) (hb : Blank b) (hr : Stops isBlank r)
    (hs : Stops isBlank s) (h : a ++ r = b ++ s) : r = s := by
  have hdrop := congrArg (List.dropWhile isBlank) h
  rwa [Lists.dropWhile_append ha hr, Lists.dropWhile_append hb hs] at hdrop

theorem Value.exists_cons {ts : List Char} {d : Datum} (h : Value ts d) :
    ∃ c cs, ts = c :: cs ∧ Form.ofChar c = d.form ∧ isBlank c = false ∧ c ≠ ']' := by
  cases h with
  | null | isTrue | isFalse => exact ⟨_, _, rfl, rfl, by decide, by decide⟩
  | number h =>
    obtain ⟨c, cs, rfl, hc⟩ := h.exists_cons
    have hnumber := h.isNumberChar c List.mem_cons_self
    refine ⟨c, cs, rfl, ?_, ?_, ?_⟩
    · rcases hc with rfl | hd
      · rfl
      · simp [Form.ofChar, hd, Datum.form]
    · rw [Bool.eq_false_iff]
      intro hblank
      rw [isNumberChar_of_isBlank hblank] at hnumber
      cases hnumber
    · rintro rfl
      exact absurd hnumber (by decide)
  | string h =>
    obtain ⟨body, -, rfl⟩ := h
    exact ⟨_, _, rfl, rfl, by decide, by decide⟩
  | array | object => exact ⟨_, _, rfl, rfl, by decide, by decide⟩

theorem Value.stops {ts : List Char} {d : Datum} (h : Value ts d) (r : List Char) :
    Stops isBlank (ts ++ r) := by
  obtain ⟨c, cs, rfl, -, hblank, -⟩ := h.exists_cons
  exact stops_cons hblank _

theorem Value.form_eq {ts us : List Char} {d e : Datum} {r s : List Char} (hd : Value ts d)
    (he : Value us e) (h : ts ++ r = us ++ s) : d.form = e.form := by
  obtain ⟨c, cs, rfl, hc, -⟩ := hd.exists_cons
  obtain ⟨c', cs', rfl, hc', -⟩ := he.exists_cons
  obtain rfl : c = c' := (List.cons.inj h).1
  exact hc.symm.trans hc'

section

variable {α : Type}

/-- Behind blanks the text goes on with something else than the character. -/
def GoesOn (close : Char) (ts : List Char) : Prop :=
  ∃ gap c cs, ts = gap ++ c :: cs ∧ Blank gap ∧ isBlank c = false ∧ c ≠ close

theorem GoesOn.append {close : Char} {ts : List Char} (h : GoesOn close ts) (r : List Char) :
    GoesOn close (ts ++ r) := by
  obtain ⟨gap, c, cs, rfl, hg, hc, hne⟩ := h
  exact ⟨gap, c, cs ++ r, by simp, hg, hc, hne⟩

/-- Only blanks stand between the brackets of an empty array or object. -/
theorem GoesOn.ne {close : Char} {ts gap : List Char} (h : GoesOn close ts) (hg : Blank gap)
    (hclose : isBlank close = false) (r s : List Char) : gap ++ close :: r ≠ ts ++ s := by
  obtain ⟨gap', c, cs, rfl, hg', hc, hne⟩ := h
  intro heq
  rw [List.append_assoc] at heq
  have hrest := hg.cancel hg' (stops_cons hclose r) (stops_cons hc _) heq
  exact hne (List.cons.inj hrest).1.symm

theorem Padded.goesOn {close : Char} {phrase : List Char → α → Prop} {ts : List Char} {a : α}
    (h : Padded phrase ts a)
    (hphrase : ∀ {us a}, phrase us a → ∃ c cs, us = c :: cs ∧ isBlank c = false ∧ c ≠ close) :
    GoesOn close ts := by
  obtain ⟨hb, h, -⟩ := h
  obtain ⟨c, cs, rfl, hc, hne⟩ := hphrase h
  exact ⟨_, c, _, rfl, hb, hc, hne⟩

theorem Keyed.goesOn {phrase : List Char → α → Prop} {ts : List Char} {m : String × α}
    (h : Keyed phrase ts m) : GoesOn '\x7d' ts := by
  obtain ⟨hk, -⟩ := h
  apply GoesOn.append
  apply hk.goesOn
  rintro _ k ⟨body, -, rfl⟩
  exact ⟨'"', _, rfl, by decide, by decide⟩

theorem Separated.goesOn {close : Char} {phrase : List Char → α → Prop} {ts : List Char} {as : List α}
    (h : Separated phrase ts as) (hphrase : ∀ {us a}, phrase us a → GoesOn close us) :
    GoesOn close ts := by
  cases h with
  | one h => exact hphrase h
  | more h hs => exact (hphrase h).append _

section

variable {phrase phrase' : List Char → α → Prop} {ts : List Char}

theorem Padded.imp {a : α} (h : Padded phrase ts a)
    (himp : ∀ {us}, us.length ≤ ts.length → phrase us a → phrase' us a) : Padded phrase' ts a := by
  obtain ⟨hb, h, ha⟩ := h
  exact .mk hb (himp (by simp; omega) h) ha

theorem Keyed.imp {m : String × α} (h : Keyed phrase ts m)
    (himp : ∀ {us}, us.length ≤ ts.length → phrase us m.2 → phrase' us m.2) : Keyed phrase' ts m := by
  obtain ⟨hk, h⟩ := h
  exact .mk hk (himp (by simp; omega) h)

theorem Separated.imp {as : List α} (h : Separated phrase ts as)
    (himp : ∀ {us a}, us.length ≤ ts.length → phrase us a → phrase' us a) :
    Separated phrase' ts as := by
  induction h with
  | one h => exact .one (himp (Nat.le_refl _) h)
  | more h hs ih =>
    refine .more (himp (by simp) h) (ih fun hle => himp (Nat.le_trans hle ?_))
    simp
    omega

theorem Closed.imp {close : Char} {as : List α} (h : Closed close phrase ts as)
    (himp : ∀ {us a}, us.length < ts.length → phrase us a → phrase' us a) :
    Closed close phrase' ts as := by
  cases h with
  | none h => exact .none h
  | some h =>
    refine .some (h.imp fun hle => himp (Nat.lt_of_le_of_lt hle ?_))
    simp

end

section

variable {phrase : List Char → α → Prop}

theorem unambiguous_padded (h : Unambiguous phrase (Stops isNumberChar))
    (hphrase : ∀ {ts a}, phrase ts a → ∀ r, Stops isBlank (ts ++ r)) :
    Unambiguous (Padded phrase) AtEnd := by
  rintro _ _ a b r s ⟨hb, ha, hc⟩ ⟨hb', ha', hc'⟩ hr hs heq
  simp only [List.append_assoc] at heq
  have hrest := hb.cancel hb' (hphrase ha _) (hphrase ha' _) heq
  obtain ⟨rfl, hend⟩ := h ha ha' (hc.stops hr) (hc'.stops hs) hrest
  exact ⟨rfl, hc.cancel hc' hr.blank hs.blank hend⟩

theorem atEnd_cons {c : Char} (h : (isBlank c || isNumberChar c) = false) (cs : List Char) :
    AtEnd (c :: cs) := stops_cons h cs

theorem unambiguous_keyed (h : Unambiguous phrase AtEnd) : Unambiguous (Keyed phrase) AtEnd := by
  have hkey : Unambiguous (Padded quoting.Quoted) AtEnd := by
    apply unambiguous_padded regular_quoting.quoted.anywhere
    rintro _ s ⟨body, -, rfl⟩ r
    exact stops_cons (by decide) _
  rintro _ _ m n r s ⟨hk, ha⟩ ⟨hk', ha'⟩ hr hs heq
  simp only [List.append_assoc, List.cons_append] at heq
  obtain ⟨rfl, hrest⟩ := hkey hk hk' (atEnd_cons (by decide) _) (atEnd_cons (by decide) _) heq
  obtain ⟨rfl, hend⟩ := h ha ha' hr hs (List.cons.inj hrest).2
  exact ⟨rfl, hend⟩

theorem unambiguous_separated {close : Char} (h : Unambiguous phrase AtEnd)
    (hclose : (isBlank close || isNumberChar close) = false) (hne : close ≠ ',') :
    Unambiguous (Separated phrase) (fun r => r.head? = some close) := by
  have hcomma : ∀ r : List Char, AtEnd (',' :: r) := atEnd_cons (by decide)
  have hend : ∀ {r : List Char}, r.head? = some close → AtEnd r := by
    intro r hr c hc
    rw [hr] at hc
    cases hc
    exact hclose
  intro ts us as bs r s has hbs hr hs heq
  induction has generalizing us bs with
  | one ha =>
    cases hbs with
    | one hb =>
      obtain ⟨rfl, hrest⟩ := h ha hb (hend hr) (hend hs) heq
      exact ⟨rfl, hrest⟩
    | more hb hbs =>
      rw [List.append_assoc] at heq
      obtain ⟨-, rfl⟩ := h ha hb (hend hr) (hcomma _) heq
      cases hr
      exact absurd rfl hne
  | more ha has ih =>
    rw [List.append_assoc] at heq
    cases hbs with
    | one hb =>
      obtain ⟨-, hrest⟩ := h ha hb (hcomma _) (hend hs) heq
      rw [← hrest] at hs
      cases hs
      exact absurd rfl hne
    | more hb hbs =>
      rw [List.append_assoc] at heq
      obtain ⟨rfl, hrest⟩ := h ha hb (hcomma _) (hcomma _) heq
      obtain ⟨rfl, hlast⟩ := ih hbs (List.cons.inj hrest).2
      exact ⟨rfl, hlast⟩

theorem unambiguous_closed {close : Char} (h : Unambiguous phrase AtEnd)
    (hphrase : ∀ {ts a}, phrase ts a → GoesOn close ts)
    (hclose : (isBlank close || isNumberChar close) = false) (hne : close ≠ ',') :
    Unambiguous (Closed close phrase) anyText := by
  have hblank := (Bool.or_eq_false_iff.mp hclose).1
  intro ts us as bs r s has hbs _ _ heq
  cases has with
  | none hg =>
    cases hbs with
    | none hg' =>
      simp only [List.append_assoc] at heq
      have hrest := hg.cancel hg' (stops_cons hblank r) (stops_cons hblank s) heq
      exact ⟨rfl, (List.cons.inj hrest).2⟩
    | some hb =>
      simp only [List.append_assoc] at heq
      exact absurd heq ((hb.goesOn hphrase).ne hg hblank r _)
  | some ha =>
    cases hbs with
    | none hg =>
      simp only [List.append_assoc] at heq
      exact absurd heq.symm ((ha.goesOn hphrase).ne hg hblank s _)
    | some hb =>
      simp only [List.append_assoc] at heq
      obtain ⟨rfl, hrest⟩ := unambiguous_separated h hclose hne ha hb rfl rfl heq
      exact ⟨rfl, (List.cons.inj hrest).2⟩

end

end

/-- The texts of a value that are shorter than `n`. -/
def Short (n : Nat) (ts : List Char) (d : Datum) : Prop := Value ts d ∧ ts.length < n

theorem Short.goesOn {n : Nat} {ts : List Char} {d : Datum} (h : Padded (Short n) ts d) :
    GoesOn ']' ts := by
  apply h.goesOn
  rintro us e ⟨he, -⟩
  obtain ⟨c, cs, rfl, -, hblank, hne⟩ := he.exists_cons
  exact ⟨c, cs, rfl, hblank, hne⟩

/-- By induction on the length: the values inside of a value have shorter texts. -/
theorem unambiguous_short (n : Nat) : Unambiguous (Short n) (Stops isNumberChar) := by
  induction n with
  | zero =>
    rintro ts us d e r s ⟨-, hlen⟩
    exact absurd hlen (Nat.not_lt_zero _)
  | succ n ih =>
    have hvalue : Unambiguous (Padded (Short n)) AtEnd :=
      unambiguous_padded ih fun h => h.1.stops
    have hitems : Unambiguous (Closed ']' (Padded (Short n))) anyText :=
      unambiguous_closed hvalue Short.goesOn (by decide) (by decide)
    have hmembers : Unambiguous (Closed '\x7d' (Keyed (Padded (Short n)))) anyText :=
      unambiguous_closed (unambiguous_keyed hvalue) Keyed.goesOn (by decide) (by decide)
    have hshort : ∀ {c : Char} {ts us : List Char} {d : Datum}, (c :: ts).length < n + 1 →
        us.length < ts.length → Padded Value us d → Padded (Short n) us d := by
      intro c ts us d hlen hlt h
      rw [List.length_cons] at hlen
      exact h.imp fun hle hv => ⟨hv, by omega⟩
    rintro ts us d e r s ⟨hd, hdlen⟩ ⟨he, helen⟩ hr hs h
    have hform := hd.form_eq he h
    cases hd with
    | null =>
      cases he with
      | null => exact ⟨rfl, List.append_cancel_left h⟩
      | _ => cases hform
    | isTrue =>
      cases he with
      | isTrue => exact ⟨rfl, List.append_cancel_left h⟩
      | _ => cases hform
    | isFalse =>
      cases he with
      | isFalse => exact ⟨rfl, List.append_cancel_left h⟩
      | _ => cases hform
    | number hn =>
      cases he with
      | number hn' =>
        obtain ⟨rfl, hrest⟩ := unambiguous_number ⟨rfl, hn⟩ ⟨rfl, hn'⟩ hr hs h
        exact ⟨rfl, hrest⟩
      | _ => cases hform
    | string hq =>
      cases he with
      | string hq' =>
        obtain ⟨rfl, hrest⟩ := regular_quoting.quoted hq hq' trivial trivial h
        exact ⟨rfl, hrest⟩
      | _ => cases hform
    | array hi =>
      cases he with
      | array hi' =>
        obtain ⟨rfl, hrest⟩ := hitems (hi.imp (hshort hdlen)) (hi'.imp (hshort helen)) trivial trivial
          (List.cons.inj h).2
        exact ⟨rfl, hrest⟩
      | _ => cases hform
    | object hm =>
      cases he with
      | object hm' =>
        have hd' := hm.imp fun hlt hk => hk.imp fun hle => hshort hdlen (Nat.lt_of_le_of_lt hle hlt)
        have he' := hm'.imp fun hlt hk => hk.imp fun hle => hshort helen (Nat.lt_of_le_of_lt hle hlt)
        obtain ⟨rfl, hrest⟩ := hmembers hd' he' trivial trivial (List.cons.inj h).2
        exact ⟨rfl, hrest⟩
      | _ => cases hform

/-- The text of a value tells the value. -/
theorem unambiguous_value : Unambiguous Value (Stops isNumberChar) := by
  intro ts us d e r s hd he
  have hts : ts.length < ts.length + us.length + 1 := by omega
  have hus : us.length < ts.length + us.length + 1 := by omega
  exact unambiguous_short _ ⟨hd, hts⟩ ⟨he, hus⟩

theorem unambiguous_element : Unambiguous (Padded Value) AtEnd :=
  unambiguous_padded unambiguous_value fun h => h.stops

end Netlab.Json
