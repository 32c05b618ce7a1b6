import Netlab.Error
import Netlab.Proofs.Draws
import Netlab.Proofs.Spelling
import Netlab.Proofs.Splitting

namespace Netlab

open Mac (number)

namespace Text

theorem exists_blanks_trim (s : String) :
    ∃ lead trail : List Char, (∀ c ∈ lead, isBlank c = true) ∧ (∀ c ∈ trail, isBlank c = true) ∧
      s.toList = lead ++ ((trim s).toList ++ trail) := by
  refine ⟨s.toList.takeWhile isBlank, ((trimLeft s.toList).reverse.takeWhile isBlank).reverse, ?_, ?_, ?_⟩
  · exact fun c hc => List.mem_takeWhile_imp hc
  · exact fun c hc => List.mem_takeWhile_imp (List.mem_reverse.mp hc)
  · have hback : (trim s).toList ++ ((trimLeft s.toList).reverse.takeWhile isBlank).reverse =
        trimLeft s.toList := by
      rw [trim, String.toList_ofList, ← List.reverse_append, trimLeft.eq_def (trimLeft s.toList).reverse,
        List.takeWhile_append_dropWhile, List.reverse_reverse]
    rw [hback, trimLeft, List.takeWhile_append_dropWhile]

theorem toList_trim {s : String} {lead core trail : List Char} (hlead : ∀ c ∈ lead, isBlank c = true)
    (htrail : ∀ c ∈ trail, isBlank c = true) (hne : core ≠ []) (hcore : ∀ c ∈ core, isBlank c = false)
    (hs : s.toList = lead ++ (core ++ trail)) : (trim s).toList = core := by
  have hleft : trimLeft s.toList = core ++ trail := by
    rw [hs, trimLeft]
    apply Lists.dropWhile_append hlead
    rw [List.head?_append_of_ne_nil _ hne]
    exact fun c hc => hcore c (List.mem_of_head? hc)
  have hright : trimLeft (core ++ trail).reverse = core.reverse := by
    rw [List.reverse_append, trimLeft]
    apply Lists.dropWhile_append
    · exact fun c hc => htrail c (List.mem_reverse.mp hc)
    · exact fun c hc => hcore c (List.mem_reverse.mp (List.mem_of_head? hc))
  rw [trim, String.toList_ofList, hleft, hright, List.reverse_reverse]

theorem isBlank_of_isDigit {c : Char} (h : c.isDigit = true) : isBlank c = false :=
  isBlank_of_isNameChar (isNameChar_of_isDigit h)

theorem Denotes.mem {s : String} {n : Nat} (h : Denotes s n) :
    ∀ c ∈ s.toList, c.isDigit = true ∨ c = '+' := by
  obtain ⟨ds, hs | hs, -, hd, -⟩ := h
  · rw [hs]
    exact fun c hc => .inl (hd c hc)
  · rw [hs, List.forall_mem_cons]
    exact ⟨.inr rfl, fun c hc => .inl (hd c hc)⟩

end Text

namespace Ipv4

/-- A byte in decimal. Only the zero itself starts with a zero. -/
structure OctetText (cs : List Char) (b : UInt8) : Prop where
  ne_nil : cs ≠ []
  digits : ∀ d ∈ cs, d.isDigit = true
  zero : cs.head? = some '0' → cs = ['0']
  value : Nat.ofDigitChars 10 cs 0 = b.toNat

theorem octet?_eq_some {cs : List Char} {b : UInt8} : octet? cs = some b ↔ OctetText cs b := by
  have hb : b.toNat ≤ 255 := Nat.le_of_lt_succ b.toNat_lt
  unfold octet?
  by_cases hform : cs = [] ∨ (cs.head? = some '0' ∧ cs ≠ ['0'])
  · rw [if_pos hform]
    refine iff_of_false (by simp) ?_
    intro h
    exact hform.elim h.ne_nil fun hlong => hlong.2 (h.zero hlong.1)
  · rw [if_neg hform]
    obtain ⟨hne, hzero⟩ := not_or.mp hform
    have hzero : cs.head? = some '0' → cs = ['0'] := fun h => not_not.mp fun hlong => hzero ⟨h, hlong⟩
    cases hn : Text.readDigits 255 0 cs with
    | error e =>
      refine iff_of_false (by simp [Except.toOption]) ?_
      intro h
      rw [(Text.readDigits_eq_ok (Nat.zero_le _)).mpr ⟨h.digits, h.value, hb⟩] at hn
      cases hn
    | ok n =>
      obtain ⟨hd, hv, hle⟩ := (Text.readDigits_eq_ok (Nat.zero_le _)).mp hn
      have hnat : (UInt8.ofNat n).toNat = n := UInt8.toNat_ofNat_of_lt' (Nat.lt_succ_of_le hle)
      rw [Except.toOption, Option.map_some, Option.some.injEq]
      constructor
      · rintro rfl
        exact ⟨hne, hd, hzero, hv.trans hnat.symm⟩
      · intro h
        apply UInt8.toNat.inj
        rw [hnat, ← hv, h.value]

theorem OctetText.not_mem {cs : List Char} {b : UInt8} (h : OctetText cs b) {c : Char}
    (hc : c.isDigit = false) : c ∉ cs := by
  intro hm
  rw [h.digits c hm] at hc
  cases hc

theorem octetText_toString (b : UInt8) : OctetText (toString b.toNat).toList b := by
  obtain ⟨c, cs, hs, hd, hv⟩ := Text.exists_digits b.toNat
  rw [hs]
  refine ⟨List.cons_ne_nil c cs, hd, ?_, hv⟩
  intro hzero
  rw [← hs, Nat.toString_eq_repr, Nat.toList_repr] at hzero ⊢
  have hb : b.toNat = 0 := by
    by_contra hne
    exact Text.head?_toDigits_ne_zero (Nat.pos_of_ne_zero hne) hzero
  rw [hb]
  rfl

/-- Four bytes in decimal with dots between them, the highest byte of the address first. -/
def DottedText (cs : List Char) (a : Ipv4) : Prop :=
  ∃ (fields : List (List Char)) (bs : List UInt8), List.Forall₂ OctetText fields bs ∧ bs.length = 4 ∧
    number bs = a.word.toNat ∧ cs = ['.'].intercalate fields

theorem DottedText.mem {cs : List Char} {a : Ipv4} (h : DottedText cs a) :
    ∀ c ∈ cs, c.isDigit = true ∨ c = '.' := by
  obtain ⟨fields, bs, hfields, -, -, rfl⟩ := h
  apply Lists.forall_mem_intercalate
  · exact fun c hc => .inr (List.mem_singleton.mp hc)
  · intro field hfield c hc
    obtain ⟨b, -, hb⟩ := Lists.exists_left_of_forall₂ hfields.flip hfield
    exact .inl (hb.digits c hc)

theorem eq_of_toNat_word {a b : Ipv4} (h : a.word.toNat = b.word.toNat) : a = b :=
  congrArg Ipv4.mk (UInt32.toNat.inj h)

theorem toNat_shiftLeft_toUInt32 (x : UInt8) {i : UInt32} (hi : i.toNat ≤ 24) :
    (x.toUInt32 <<< i).toNat = 2 ^ i.toNat * x.toNat := by
  have hx := x.toNat_lt
  have hpow : 2 ^ i.toNat ≤ 2 ^ 24 := Nat.pow_le_pow_right (by decide) hi
  have hfit : 2 ^ i.toNat * x.toNat < 2 ^ 32 := by
    calc 2 ^ i.toNat * x.toNat ≤ 2 ^ 24 * x.toNat := Nat.mul_le_mul_right _ hpow
      _ < 2 ^ 32 := by omega
  rw [UInt32.toNat_shiftLeft, UInt8.toNat_toUInt32, Nat.mod_eq_of_lt (Nat.lt_of_le_of_lt hi (by decide)),
    Nat.shiftLeft_eq, Nat.mul_comm, Nat.mod_eq_of_lt hfit]

theorem toNat_word_ofOctets (a b c d : UInt8) : (ofOctets a b c d).word.toNat = number [a, b, c, d] := by
  have hb := b.toNat_lt
  have hc := c.toNat_lt
  have hd := d.toNat_lt
  have hjoin : ∀ {i low : Nat} (high : Nat), low < 2 ^ i → 2 ^ i * high ||| low = 2 ^ i * high + low :=
    fun high h => (Nat.two_pow_add_eq_or_of_lt h high).symm
  rw [ofOctets, UInt32.toNat_or, UInt32.toNat_or, UInt32.toNat_or, toNat_shiftLeft_toUInt32 a (by decide),
    toNat_shiftLeft_toUInt32 b (by decide), toNat_shiftLeft_toUInt32 c (by decide), UInt8.toNat_toUInt32]
  have hupper : 2 ^ 24 * a.toNat + 2 ^ 16 * b.toNat = 2 ^ 16 * (2 ^ 8 * a.toNat + b.toNat) := by omega
  have hlower : 2 ^ 16 * (2 ^ 8 * a.toNat + b.toNat) + 2 ^ 8 * c.toNat =
      2 ^ 8 * (2 ^ 8 * (2 ^ 8 * a.toNat + b.toNat) + c.toNat) := by omega
  calc 2 ^ 24 * a.toNat ||| 2 ^ 16 * b.toNat ||| 2 ^ 8 * c.toNat ||| d.toNat
      = 2 ^ 16 * (2 ^ 8 * a.toNat + b.toNat) ||| 2 ^ 8 * c.toNat ||| d.toNat := by
        rw [hjoin a.toNat (by omega), hupper]
    _ = 2 ^ 8 * (2 ^ 8 * (2 ^ 8 * a.toNat + b.toNat) + c.toNat) ||| d.toNat := by
        rw [hjoin _ (by omega), hlower]
    _ = 2 ^ 8 * (2 ^ 8 * (2 ^ 8 * a.toNat + b.toNat) + c.toNat) + d.toNat := hjoin _ hd
    _ = number [a, b, c, d] := by
        simp only [number, List.length_cons, List.length_nil]
        omega

theorem ofText?_eq_some {cs : List Char} {a : Ipv4} : ofText? cs = some a ↔ DottedText cs a := by
  constructor
  · intro h
    unfold ofText? at h
    split at h
    · rename_i f₃ f₂ f₁ f₀ hsplit
      simp only [Option.bind_eq_bind, Option.bind_eq_some_iff, Option.pure_def, Option.some.injEq] at h
      obtain ⟨b₃, h₃, b₂, h₂, b₁, h₁, b₀, h₀, rfl⟩ := h
      refine ⟨[f₃, f₂, f₁, f₀], [b₃, b₂, b₁, b₀], ?_, rfl, (toNat_word_ofOctets ..).symm, ?_⟩
      · simp only [List.forall₂_cons, List.forall₂_nil_left_iff, and_true]
        exact ⟨octet?_eq_some.mp h₃, octet?_eq_some.mp h₂, octet?_eq_some.mp h₁, octet?_eq_some.mp h₀⟩
      · rw [← hsplit, Text.intercalate_split]
    · cases h
  · rintro ⟨fields, bs, hfields, hlength, hnumber, rfl⟩
    match bs, hlength with
    | [b₃, b₂, b₁, b₀], _ =>
      simp only [List.forall₂_cons_right_iff, List.forall₂_nil_right_iff] at hfields
      obtain ⟨f₃, _, h₃, ⟨f₂, _, h₂, ⟨f₁, _, h₁, ⟨f₀, _, h₀, rfl, rfl⟩, rfl⟩, rfl⟩, rfl⟩ := hfields
      have hdot : Char.isDigit '.' = false := by decide
      have hdots : ∀ f ∈ [f₃, f₂, f₁, f₀], '.' ∉ f := by
        simp only [List.forall_mem_cons]
        exact ⟨h₃.not_mem hdot, h₂.not_mem hdot, h₁.not_mem hdot, h₀.not_mem hdot, by simp⟩
      rw [ofText?, Text.split_intercalate hdots]
      simp only [octet?_eq_some.mpr h₃, octet?_eq_some.mpr h₂, octet?_eq_some.mpr h₁,
        octet?_eq_some.mpr h₀, Option.bind_eq_bind, Option.bind_some, Option.pure_def, Option.some.injEq]
      exact eq_of_toNat_word ((toNat_word_ofOctets ..).trans hnumber)

theorem dottedText_text (a : Ipv4) : DottedText a.text.toList a := by
  refine ⟨a.octets.map fun b => (toString b.toNat).toList, a.octets, ?_, rfl, ?_, ?_⟩
  · rw [List.forall₂_map_left_iff, List.forall₂_same]
    exact fun b _ => octetText_toString b
  · rw [octets_eq]
    exact Mac.number_digits a.word.toNat_lt
  · rw [text, String.toList_intercalate, List.map_map]
    rfl

end Ipv4

namespace Pool

/-- An address, a slash and a length in bits, with blanks around them or without. The length may have a
plus sign and zeros in front. -/
def Written (s : String) (base : Ipv4) (bits : Nat) : Prop :=
  ∃ lead address length trail : List Char, (∀ c ∈ lead, Text.isBlank c = true) ∧
    (∀ c ∈ trail, Text.isBlank c = true) ∧ s.toList = lead ++ ((address ++ '/' :: length) ++ trail) ∧
    Ipv4.DottedText address base ∧ Text.Denotes (String.ofList length) bits

theorem ofBase_eq_ok {base : Ipv4} {bits : Nat} {p : Pool} :
    ofBase base bits = .ok p ↔
      bits ≤ 31 ∧ 2 ^ (32 - bits) ∣ base.word.toNat ∧ p.base = base ∧ p.bits = bits := by
  unfold ofBase
  by_cases hb : bits < 32
  · rw [dif_pos hb]
    by_cases ha : base.word.toNat % blockSize bits = 0
    · rw [dif_pos ha]
      constructor
      · intro h
        cases h
        exact ⟨Nat.le_of_lt_succ hb, Nat.dvd_of_mod_eq_zero ha, rfl, rfl⟩
      · rintro ⟨-, -, rfl, rfl⟩
        rfl
    · rw [dif_neg ha]
      exact iff_of_false (by simp) fun h => ha (Nat.mod_eq_zero_of_dvd h.2.1)
  · rw [dif_neg hb]
    exact iff_of_false (by simp) fun h => hb (Nat.lt_succ_of_le h.1)

theorem ofText_eq_ok {s : String} {p : Pool} :
    ofText s = .ok p ↔ ∃ base bits, Written s base bits ∧ bits ≤ 31 ∧
      2 ^ (32 - bits) ∣ base.word.toNat ∧ p.base = base ∧ p.bits = bits := by
  constructor
  · intro h
    obtain ⟨lead, trail, hlead, htrail, hs⟩ := Text.exists_blanks_trim s
    unfold ofText at h
    split at h
    · cases h
    · rename_i address length hcut
      split at h
      · cases h
      · rename_i base hbase
        split at h
        · cases h
        · rename_i bits hbits
          obtain ⟨hcore, -⟩ := Text.cut?_eq_some hcut
          rw [hcore] at hs
          exact ⟨base, bits, ⟨lead, address, length, trail, hlead, htrail, hs,
            Ipv4.ofText?_eq_some.mp hbase, (Text.readDecimal_eq_ok.mp hbits).1⟩, ofBase_eq_ok.mp h⟩
  · rintro ⟨base, bits, ⟨lead, address, length, trail, hlead, htrail, hs, hbase, hbits⟩, hpool⟩
    have hle : bits ≤ 255 := Nat.le_trans hpool.1 (by decide)
    have hslash : '/' ∉ address := fun hm => absurd (hbase.mem '/' hm) (by decide)
    have hsolid : ∀ c ∈ address ++ '/' :: length, Text.isBlank c = false := by
      simp only [List.forall_mem_append, List.forall_mem_cons]
      refine ⟨?_, by decide, ?_⟩
      · rintro c hc
        rcases hbase.mem c hc with hd | rfl
        · exact Text.isBlank_of_isDigit hd
        · decide
      · rintro c hc
        rcases hbits.mem c (by rwa [String.toList_ofList]) with hd | rfl
        · exact Text.isBlank_of_isDigit hd
        · decide
    have hcore : (Text.trim s).toList = address ++ '/' :: length :=
      Text.toList_trim hlead htrail (by simp) hsolid hs
    simp only [ofText, hcore, Text.cut?_append_cons hslash, Ipv4.ofText?_eq_some.mpr hbase,
      Text.readDecimal_eq_ok.mpr ⟨hbits, hle⟩]
    exact ofBase_eq_ok.mpr hpool

theorem written_text (p : Pool) {lead trail : List Char} (hlead : ∀ c ∈ lead, Text.isBlank c = true)
    (htrail : ∀ c ∈ trail, Text.isBlank c = true) :
    Written (String.ofList (lead ++ (p.text.toList ++ trail))) p.base p.bits := by
  obtain ⟨c, cs, hs, hd, hv⟩ := Text.exists_digits p.bits
  refine ⟨lead, p.base.text.toList, (toString p.bits).toList, trail, hlead, htrail, ?_,
    p.base.dottedText_text, c :: cs, .inl ?_, List.cons_ne_nil c cs, hd, hv⟩
  · have hslash : "/".toList = ['/'] := rfl
    simp only [String.toList_ofList, text, String.toList_append, hslash, List.append_assoc,
      List.cons_append, List.nil_append]
  · rw [String.toList_ofList, hs]

example : standard.text = "10.0.0.0/22" := by decide

/-- The pools that are accepted and the texts that they are read from. What is printed for a pool is read
as that pool, and every text of another form is a fault of the configuration. -/
theorem ofText_inverts_text :
    (∀ (base : Ipv4) (bits : Nat) (p : Pool), ofBase base bits = .ok p →
        ∀ lead trail : List Char, (∀ c ∈ lead, Text.isBlank c = true) →
          (∀ c ∈ trail, Text.isBlank c = true) →
          ofText (String.ofList (lead ++ (p.text.toList ++ trail))) = .ok p) ∧
      (∀ (s : String) (p : Pool), ofText s = .ok p ↔
        ∃ base bits, Written s base bits ∧ bits ≤ 31 ∧ 2 ^ (32 - bits) ∣ base.word.toNat ∧
          p.base = base ∧ p.bits = bits) ∧
      ∀ s : String, (¬∃ base bits, Written s base bits ∧ bits ≤ 31 ∧ 2 ^ (32 - bits) ∣ base.word.toNat) →
        ∃ fault, ofText s = .error fault ∧ (Error.config (.pool fault)).label = "ConfigError" := by
  refine ⟨?_, fun s p => ofText_eq_ok, ?_⟩
  · intro base bits p h lead trail hlead htrail
    obtain ⟨hbits, haligned, rfl, rfl⟩ := ofBase_eq_ok.mp h
    exact ofText_eq_ok.mpr ⟨p.base, p.bits, p.written_text hlead htrail, hbits, haligned, rfl, rfl⟩
  · intro s hs
    cases hp : ofText s with
    | error fault => exact ⟨fault, rfl, rfl⟩
    | ok p =>
      obtain ⟨base, bits, hwritten, hbits, haligned, -⟩ := ofText_eq_ok.mp hp
      exact absurd ⟨base, bits, hwritten, hbits, haligned⟩ hs

theorem ofText_inverts_text_highest :
    ofText (String.ofList ([' ', '\u2003'] ++ (Program.pairPool.text.toList ++ ['\n']))) =
        .ok Program.pairPool ∧
      (∃ base bits, Written "255.255.255.254/+031" base bits ∧ bits ≤ 31 ∧
        2 ^ (32 - bits) ∣ base.word.toNat ∧ Program.pairPool.base = base ∧ Program.pairPool.bits = bits) ∧
      ∃ fault, ofText "255.255.255.254/30" = .error fault ∧
        (Error.config (.pool fault)).label = "ConfigError" := by
  obtain ⟨hprinted, hread, hother⟩ := ofText_inverts_text
  have hsigned : ofText "255.255.255.254/+031" = .ok Program.pairPool := by decide +kernel
  have hrefused : ofText "255.255.255.254/30" = .error (.unaligned ⟨0xFFFFFFFE⟩ 30) := by decide +kernel
  have hlead : ∀ c ∈ [' ', '\u2003'], Text.isBlank c = true := List.all_eq_true.mp (by decide)
  have htrail : ∀ c ∈ ['\n'], Text.isBlank c = true := List.all_eq_true.mp (by decide)
  refine ⟨hprinted ⟨0xFFFFFFFE⟩ 31 Program.pairPool rfl _ _ hlead htrail,
    (hread _ _).mp hsigned, hother _ ?_⟩
  rintro ⟨base, bits, hwritten, hbits, haligned⟩
  have hok := (hread _ ⟨base, bits, Nat.lt_succ_of_le hbits, Nat.mod_eq_zero_of_dvd haligned⟩).mpr
    ⟨base, bits, hwritten, hbits, haligned, rfl, rfl⟩
  cases hrefused.symm.trans hok

end Pool

end Netlab
