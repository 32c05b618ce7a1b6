import Netlab.Proofs.Assignment
import Netlab.Proofs.Lists

namespace Netlab

section

variable {γ α : Type} {next : γ → Except Exhausted α × γ} {state : Nat → γ} {item : Nat → α}
  {limit : Nat} {fault : Exhausted}

theorem Draws.run_succ (n : Nat) (g : γ) :
    Draws.run next (n + 1) g =
      (⟨(Draws.run next n g).1.drawn + (if (next (Draws.run next n g).2).1.toBool then 1 else 0),
        some (next (Draws.run next n g).2).1⟩, (next (Draws.run next n g).2).2) := by
  rw [Draws.run, Nat.fold_succ]
  rfl

namespace Supplies

variable (h : Supplies next state item limit fault)
include h

theorem next_min (n : Nat) :
    next (state (min n limit)) =
      (if n < limit then .ok (item (n + 1)) else .error fault, state (min (n + 1) limit)) := by
  by_cases hn : n < limit
  · rw [if_pos hn, Nat.min_eq_left (Nat.le_of_lt hn), Nat.min_eq_left hn]
    exact h.draw n hn
  · have hlimit : limit ≤ n := Nat.not_lt.mp hn
    rw [if_neg hn, Nat.min_eq_right hlimit, Nat.min_eq_right (Nat.le_succ_of_le hlimit)]
    exact h.stuck

theorem state_run (n : Nat) : (Draws.run next n (state 0)).2 = state (min n limit) := by
  induction n with
  | zero =>
    rw [Nat.zero_min]
    rfl
  | succ n ih => rw [Draws.run_succ, ih, h.next_min]

theorem last?_run (n : Nat) :
    (Draws.run next (n + 1) (state 0)).1.last? =
      some (if n < limit then .ok (item (n + 1)) else .error fault) := by
  rw [Draws.run_succ, h.state_run, h.next_min]

theorem skip {v : Nat} (hv : v ≤ limit) :
    Supplies next (fun k => state (v + k)) (fun k => item (v + k)) (limit - v) fault where
  draw k hk := h.draw (v + k) (by omega)
  stuck := by
    simp only [Nat.add_sub_cancel' hv]
    exact h.stuck

end Supplies

end

namespace Pool

/-- The addresses of a pool agree in the bits that the pool fixes. -/
theorem testBit_base_add (pool : Pool) {k i : Nat} (hk : k < pool.size) (hi : i < pool.bits) :
    (pool.base.word.toNat + k).testBit (31 - i) = pool.base.word.toNat.testBit (31 - i) := by
  have hbits := pool.bits_lt
  have hfixed : ¬31 - i < 32 - pool.bits := by omega
  obtain ⟨q, hq⟩ : 2 ^ (32 - pool.bits) ∣ pool.base.word.toNat := Nat.dvd_of_mod_eq_zero pool.aligned
  rw [hq, Nat.testBit_two_pow_mul_add q hk, Nat.testBit_two_pow_mul, if_neg hfixed,
    decide_eq_true (Nat.not_lt.mp hfixed), Bool.true_and]

end Pool

namespace IpGenerator

theorem toNat_index_afterDraws (pool : Pool) {k : Nat} (hk : k < pool.size) :
    (afterDraws pool k).index.toNat = k := by
  have hle := pool.size_le
  exact UInt64.toNat_ofNat_of_lt' (by change k < 18446744073709551616; omega)

/-- After any number `n` of draws, the next one gives the address that lies `n + 1` behind the base, if
the pool reaches so far, and neither of its additions wraps. If it does not, the draw fails and changes
nothing. -/
theorem draws_enumerate (pool : Pool) (n : Nat) :
    (Draws.run next n (ofPool pool)).2.index.toNat + 1 < 2 ^ 64 ∧
      (n + 1 < 2 ^ (32 - pool.bits) →
        pool.base.word.toNat + (n + 1) < 2 ^ 32 ∧
        ∃ a : Ipv4, (Draws.run next (n + 1) (ofPool pool)).1.last? = some (.ok a) ∧
          a.word.toNat = pool.base.word.toNat + (n + 1) ∧
          ∀ i < pool.bits, a.word.toNat.testBit (31 - i) = pool.base.word.toNat.testBit (31 - i)) ∧
      (2 ^ (32 - pool.bits) ≤ n + 1 →
        (Draws.run next (n + 1) (ofPool pool)).1.last? = some (.error (.ip pool)) ∧
        (Exhausted.ip pool).pool = "IP" ∧
        (Draws.run next (n + 1) (ofPool pool)).2 = (Draws.run next n (ofPool pool)).2) := by
  have htwo := pool.two_le_size
  have hle := pool.size_le
  have hcapacity : pool.capacity + 1 = pool.size := Nat.sub_add_cancel (Nat.le_of_succ_le htwo)
  have hstate : ∀ n, (Draws.run next n (ofPool pool)).2 = afterDraws pool (min n pool.capacity) :=
    (supplies pool).state_run
  have hlast : (Draws.run next (n + 1) (ofPool pool)).1.last? = _ := (supplies pool).last?_run n
  refine ⟨?_, ?_, ?_⟩
  · rw [hstate, toNat_index_afterDraws pool (by omega)]
    omega
  · intro hn
    change n + 1 < pool.size at hn
    have hword := toNat_word_address pool hn
    rw [if_pos (by omega)] at hlast
    refine ⟨pool.base_add_lt hn, address pool (n + 1), hlast, hword, fun i hi => ?_⟩
    rw [hword]
    exact pool.testBit_base_add hn hi
  · intro hn
    change pool.size ≤ n + 1 at hn
    rw [if_neg (by omega)] at hlast
    refine ⟨hlast, rfl, ?_⟩
    rw [hstate, hstate, Nat.min_eq_right (by omega), Nat.min_eq_right (by omega)]

def allAddresses : Pool := ⟨⟨0⟩, 0, by decide, by decide⟩

theorem draws_enumerate_allAddresses :
    (∃ a : Ipv4, (Draws.run next 4294967295 (ofPool allAddresses)).1.last? = some (.ok a) ∧
        a.word.toNat = 4294967295) ∧
      (Draws.run next 4294967296 (ofPool allAddresses)).1.last? = some (.error (.ip allAddresses)) := by
  obtain ⟨-, hlast, -⟩ := draws_enumerate allAddresses 4294967294
  obtain ⟨-, -, hend⟩ := draws_enumerate allAddresses 4294967295
  simp only [Nat.reduceAdd] at hlast hend
  obtain ⟨-, a, ha, hword, -⟩ := hlast (by decide)
  exact ⟨⟨a, ha, hword⟩, (hend (by decide)).1⟩

end IpGenerator

namespace Mac

/-- The number that bytes stand for, the highest of them first. -/
def number : List UInt8 → Nat
  | [] => 0
  | b :: bs => 256 ^ bs.length * b.toNat + number bs

def value (m : Mac) : Nat := number m.bytes

theorem number_lt (bs : List UInt8) : number bs < 256 ^ bs.length := by
  induction bs with
  | nil => exact Nat.one_pos
  | cons b bs ih =>
    have hb : b.toNat + 1 ≤ 256 := b.toNat_lt
    calc 256 ^ bs.length * b.toNat + number bs
        < 256 ^ bs.length * b.toNat + 256 ^ bs.length := Nat.add_lt_add_left ih _
      _ = 256 ^ bs.length * (b.toNat + 1) := (Nat.mul_succ _ _).symm
      _ ≤ 256 ^ bs.length * 256 := Nat.mul_le_mul_left _ hb
      _ = 256 ^ (b :: bs).length := (Nat.pow_succ ..).symm

theorem digits_number (bs : List UInt8) : digits bs.length (number bs) = bs := by
  induction bs with
  | nil => rfl
  | cons b bs ih => rw [List.length_cons, number, digits_succ (number_lt bs), ih, UInt8.ofNat_toNat]

theorem number_digits {width n : Nat} (hn : n < 256 ^ width) : number (digits width n) = n := by
  have hlt := number_lt (digits width n)
  rw [length_digits] at hlt
  apply digits_injective hlt hn
  have hback := digits_number (digits width n)
  rwa [length_digits] at hback

theorem value_lt (m : Mac) : m.value < 2 ^ 48 := by
  have hlt := number_lt m.bytes
  rwa [m.length_bytes] at hlt

theorem value_ofNat {n : Nat} (hn : n < 2 ^ 48) : (ofNat n).value = n := number_digits hn

theorem ofNat_value (m : Mac) : ofNat m.value = m := by
  have hbytes := digits_number m.bytes
  rw [m.length_bytes] at hbytes
  cases m
  simp only [ofNat, value, mk.injEq]
  exact hbytes

def spelled (bs : List UInt8) : List Char := bs.flatMap fun b => ':' :: (hex b).toList

theorem cons_toList_text (m : Mac) : ':' :: m.text.toList = spelled m.bytes := by
  obtain ⟨b, bs, hbytes⟩ := List.exists_cons_of_length_eq_add_one m.length_bytes
  rw [text, hbytes, String.toList_intercalate, List.map_cons, List.map_cons, Lists.intercalate_cons,
    List.map_map, List.flatMap_map]
  rfl

theorem hex_append_lt {b c : UInt8} (h : b < c) (r s : List Char) :
    (hex b).toList ++ r < (hex c).toList ++ s := by
  have hdigit : ∀ j < 16, ∀ i < j, Nat.digitChar i < Nat.digitChar j := by decide
  have hlt : b.toNat < c.toNat := UInt8.lt_iff_toNat_lt.mp h
  have hc := c.toNat_lt
  simp only [hex, String.toList_ofList, List.cons_append, List.nil_append, List.cons_lt_cons_iff]
  by_cases hhigh : b.toNat / 16 < c.toNat / 16
  · exact .inl (hdigit _ (by omega) _ hhigh)
  · have hsame : b.toNat / 16 = c.toNat / 16 := by omega
    exact .inr ⟨by rw [hsame], .inl (hdigit _ (by omega) _ (by omega))⟩

/-- The texts of numbers with equally many bytes are in the order of the numbers. -/
theorem spelled_digits_lt {width m n : Nat} (hmn : m < n) (hn : n < 256 ^ width) :
    spelled (digits width m) < spelled (digits width n) := by
  induction width generalizing m n with
  | zero =>
    rw [Nat.pow_zero] at hn
    omega
  | succ width ih =>
    have hpos : 0 < 256 ^ width := Nat.pow_pos (by decide)
    rw [Nat.pow_succ] at hn
    have hstep : ∀ k, spelled (digits (width + 1) k) =
        ':' :: ((hex (UInt8.ofNat (k / 256 ^ width))).toList ++ spelled (digits width (k % 256 ^ width))) :=
      fun _ => rfl
    rw [hstep, hstep, List.cons_lt_cons_iff]
    refine .inr ⟨rfl, ?_⟩
    -- The highest byte decides, unless both numbers have the same one.
    by_cases hhigh : m / 256 ^ width < n / 256 ^ width
    · apply hex_append_lt
      rw [UInt8.lt_iff_toNat_lt, UInt8.toNat_ofNat_of_lt' (Nat.div_lt_of_lt_mul (Nat.lt_trans hmn hn)),
        UInt8.toNat_ofNat_of_lt' (Nat.div_lt_of_lt_mul hn)]
      exact hhigh
    · have hsame : m / 256 ^ width = n / 256 ^ width :=
        Nat.le_antisymm (Nat.div_le_div_right (Nat.le_of_lt hmn)) (Nat.not_lt.mp hhigh)
      have hm := Nat.div_add_mod m (256 ^ width)
      have hn := Nat.div_add_mod n (256 ^ width)
      rw [hsame] at hm ⊢
      exact List.append_left_lt (ih (by omega) (Nat.mod_lt n hpos))

theorem text_ofNat_lt {m n : Nat} (hmn : m < n) (hn : n < 2 ^ 48) : (ofNat m).text < (ofNat n).text := by
  have hlt : spelled (ofNat m).bytes < spelled (ofNat n).bytes := spelled_digits_lt hmn hn
  rw [← cons_toList_text, ← cons_toList_text, List.cons_lt_cons_iff] at hlt
  rw [String.lt_iff]
  exact hlt.elim (fun h => absurd h (Nat.lt_irrefl _)) And.right

/-- Six pairs of lower-case hexadecimal digits with colons between them. -/
def HexPairs (s : String) : Prop :=
  s.length = 17 ∧ ∀ i c, s.toList[i]? = some c →
    if i % 3 = 2 then c = ':' else c ∈ "0123456789abcdef".toList

theorem getElem?_spelled {bs : List UInt8} {i : Nat} {c : Char} (h : (spelled bs)[i]? = some c) :
    if i % 3 = 0 then c = ':' else c ∈ "0123456789abcdef".toList := by
  have hdigit : ∀ d < 16, Nat.digitChar d ∈ "0123456789abcdef".toList := by decide
  induction bs generalizing i with
  | nil => cases h
  | cons b bs ih =>
    have hb := b.toNat_lt
    have hstep : spelled (b :: bs) = ':' :: Nat.digitChar (b.toNat / 16) ::
        Nat.digitChar (b.toNat % 16) :: spelled bs := by
      simp [spelled, hex]
    rw [hstep] at h
    rcases i with _ | _ | _ | i
    · cases h
      rfl
    · cases h
      exact hdigit _ (by omega)
    · cases h
      exact hdigit _ (by omega)
    · have hperiod : (i + 1 + 1 + 1) % 3 = i % 3 := Nat.add_mod_right i 3
      rw [hperiod]
      exact ih h

theorem hexPairs_text (m : Mac) : HexPairs m.text := by
  constructor
  · have hlength := congrArg List.length m.cons_toList_text
    rw [← String.length_toList]
    simpa [spelled, hex, m.length_bytes] using hlength
  · intro i c hc
    have hshift : (i + 1) % 3 = 0 ↔ i % 3 = 2 := by omega
    have hspelled : (spelled m.bytes)[i + 1]? = some c := by
      rw [← cons_toList_text]
      exact hc
    have h := getElem?_spelled hspelled
    simpa only [hshift] using h

end Mac

namespace MacGenerator

/-- After any number `n` of draws, the next one gives the number that lies `n + 1` behind the start, if
it still has six bytes, and its text comes behind all the texts before it. If it has more, the draw
fails and changes nothing. -/
theorem draws_count (m : Mac) (n : Nat) :
    (m.value + (n + 1) < 2 ^ 48 →
        ∃ a : Mac, (Draws.run next (n + 1) ⟨m⟩).1.last? = some (.ok a) ∧
          a.value = m.value + (n + 1) ∧ Mac.HexPairs a.text ∧
          ∀ i < n, ∃ b : Mac, (Draws.run next (i + 1) ⟨m⟩).1.last? = some (.ok b) ∧
            b.text < a.text ∧ b.text ≠ a.text) ∧
      (2 ^ 48 ≤ m.value + (n + 1) →
        (Draws.run next (n + 1) ⟨m⟩).1.last? = some (.error .mac) ∧
        Exhausted.mac.pool = "MAC" ∧ Exhausted.mac.message = "address range exceeded" ∧
        (Draws.run next n ⟨m⟩).2.current.bytes = List.replicate 6 255 ∧
        (Draws.run next (n + 1) ⟨m⟩).2 = (Draws.run next n ⟨m⟩).2) := by
  have hv := m.value_lt
  have hcapacity : capacity = 2 ^ 48 - 1 := rfl
  have hsupply := supplies.skip (v := m.value) (by omega)
  have hstart : afterDraws (m.value + 0) = ⟨m⟩ := congrArg MacGenerator.mk m.ofNat_value
  have hstate := hsupply.state_run
  have hlast := hsupply.last?_run
  simp only [hstart] at hstate hlast
  refine ⟨?_, ?_⟩
  · intro hn
    refine ⟨Mac.ofNat (m.value + (n + 1)), ?_, Mac.value_ofNat hn, Mac.hexPairs_text _, ?_⟩
    · rw [hlast, if_pos (by omega)]
    · intro i hi
      have hlt := Mac.text_ofNat_lt (Nat.add_lt_add_left (Nat.succ_lt_succ hi) m.value) hn
      refine ⟨Mac.ofNat (m.value + (i + 1)), ?_, hlt, String.ne_of_lt hlt⟩
      rw [hlast, if_pos (by omega)]
  · intro hn
    -- The supply has been used up before this draw, so that the state is the last number.
    have hfull : ∀ k, n ≤ k → m.value + min k (capacity - m.value) = capacity := by
      intro k hk
      omega
    refine ⟨?_, rfl, rfl, ?_, ?_⟩
    · rw [hlast, if_neg (by omega)]
    · rw [hstate, hfull n (Nat.le_refl n)]
      decide
    · rw [hstate, hstate, hfull n (Nat.le_refl n), hfull (n + 1) (Nat.le_succ n)]

def nearEnd : Mac := ⟨[0xFF, 0xFF, 0xFF, 0xFF, 0xFF, 0xFD], rfl⟩

theorem draws_count_nearEnd :
    (∃ a : Mac, (Draws.run next 2 ⟨nearEnd⟩).1.last? = some (.ok a) ∧ a.value = 2 ^ 48 - 1 ∧
        ∃ b : Mac, (Draws.run next 1 ⟨nearEnd⟩).1.last? = some (.ok b) ∧ b.text < a.text) ∧
      (Draws.run next 3 ⟨nearEnd⟩).1.last? = some (.error .mac) := by
  obtain ⟨hlast, -⟩ := draws_count nearEnd 1
  obtain ⟨-, hend⟩ := draws_count nearEnd 2
  obtain ⟨a, ha, hvalue, -, hbefore⟩ := hlast (by decide)
  obtain ⟨b, hb, hlt, -⟩ := hbefore 0 (by decide)
  exact ⟨⟨a, ha, hvalue, b, hb, hlt⟩, (hend (by decide)).1⟩

end MacGenerator

end Netlab
