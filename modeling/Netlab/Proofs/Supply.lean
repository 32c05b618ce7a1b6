import Mathlib.Algebra.Group.Nat.Defs
import Netlab.Address.Assign
import Netlab.Proofs.Except

namespace Netlab

/-- A generator that hands out `item 1`, `item 2` and so on up to `item limit`, and then fails. -/
structure Supplies {γ α : Type} (next : γ → Except Exhausted α × γ) (state : Nat → γ)
    (item : Nat → α) (limit : Nat) (fault : Exhausted) : Prop where
  draw : ∀ k < limit, next (state k) = (.ok (item (k + 1)), state (k + 1))
  stuck : next (state limit) = (.error fault, state limit)

namespace Pool

theorem two_le_size (p : Pool) : 2 ≤ p.size := by
  have hbits := p.bits_lt
  obtain ⟨n, hn⟩ : ∃ n, 32 - p.bits = n + 1 := ⟨31 - p.bits, by omega⟩
  have hpow : Nat.pow 2 (n + 1) = Nat.pow 2 n * 2 := rfl
  have hpos : 0 < Nat.pow 2 n := Nat.pow_pos (by decide)
  rw [size, blockSize, hn, hpow]
  omega

theorem size_le (p : Pool) : p.size ≤ 4294967296 := by
  have h : Nat.pow 2 (32 - p.bits) ≤ Nat.pow 2 32 := Nat.pow_le_pow_right (by decide) (Nat.sub_le _ _)
  exact h

def capacity (p : Pool) : Nat := p.size - 1

end Pool

namespace IpGenerator

def afterDraws (pool : Pool) (k : Nat) : IpGenerator := ⟨pool, UInt64.ofNat k⟩

def address (pool : Pool) (k : Nat) : Ipv4 := ⟨pool.base.word + UInt32.ofNat k⟩

theorem next_afterDraws (pool : Pool) {k : Nat} (hk : k < pool.size) :
    next (afterDraws pool k) =
      if pool.size ≤ k + 1 then (.error (.ip pool), afterDraws pool k)
      else (.ok (address pool (k + 1)), afterDraws pool (k + 1)) := by
  have hle := pool.size_le
  have hindex : UInt64.ofNat k + 1 = UInt64.ofNat (k + 1) := by simp
  have hnat : (UInt64.ofNat (k + 1)).toNat = k + 1 :=
    UInt64.toNat_ofNat_of_lt' (by change k + 1 < 18446744073709551616; omega)
  have hword : (UInt64.ofNat (k + 1)).toUInt32 = UInt32.ofNat (k + 1) := UInt64.toUInt32_ofNat' ..
  simp only [next, afterDraws, address, hindex, hnat, hword]

theorem supplies (pool : Pool) :
    Supplies next (afterDraws pool) (address pool) pool.capacity (.ip pool) := by
  have htwo := pool.two_le_size
  constructor
  · intro k hk
    rw [Pool.capacity] at hk
    rw [next_afterDraws pool (by omega), if_neg (by omega)]
  · rw [next_afterDraws pool (by rw [Pool.capacity]; omega), if_pos (by rw [Pool.capacity]; omega)]

end IpGenerator

namespace Mac

/-- The lowest `width` bytes of a number, the highest first. -/
def digits : Nat → Nat → List UInt8
  | 0, _ => []
  | width + 1, n => UInt8.ofNat (n / 256 ^ width) :: digits width (n % 256 ^ width)

@[simp] theorem length_digits (width n : Nat) : (digits width n).length = width := by
  induction width generalizing n with
  | zero => rfl
  | succ width ih => simp [digits, ih]

@[simp] theorem digits_zero (width : Nat) : digits width 0 = List.replicate width 0 := by
  induction width with
  | zero => rfl
  | succ width ih => simp [digits, ih, List.replicate_succ]

theorem digits_succ {width q r : Nat} (hr : r < 256 ^ width) :
    digits (width + 1) (256 ^ width * q + r) = UInt8.ofNat q :: digits width r := by
  have hpos : 0 < 256 ^ width := Nat.pow_pos (by decide)
  rw [digits, Nat.mul_add_div hpos, Nat.div_eq_of_lt hr, Nat.add_zero, Nat.mul_add_mod,
    Nat.mod_eq_of_lt hr]

theorem ofNat_eq_max_iff {q : Nat} (hq : q < 256) : UInt8.ofNat q = 255 ↔ q = 255 := by
  constructor
  · intro h
    have hnat := congrArg UInt8.toNat h
    rwa [UInt8.toNat_ofNat_of_lt' hq] at hnat
  · intro h
    rw [h]
    rfl

/-- Adding one to a number in bytes fails only at the largest number. -/
theorem increment?_digits {width n : Nat} (hn : n < 256 ^ width) :
    increment? (digits width n) =
      if n + 1 = 256 ^ width then none else some (digits width (n + 1)) := by
  induction width generalizing n with
  | zero => simp [digits, increment?, Nat.lt_one_iff.mp hn]
  | succ width ih =>
    have hpos : 0 < 256 ^ width := Nat.pow_pos (by decide)
    obtain ⟨q, r, hr, rfl⟩ : ∃ q r, r < 256 ^ width ∧ n = 256 ^ width * q + r :=
      ⟨n / 256 ^ width, n % 256 ^ width, Nat.mod_lt _ hpos, (Nat.div_add_mod n _).symm⟩
    have hq : q < 256 := by
      by_contra hge
      have hmul := Nat.mul_le_mul_left (256 ^ width) (Nat.not_lt.mp hge)
      rw [Nat.pow_succ] at hn
      omega
    rw [digits_succ hr, increment?, ih hr, Nat.pow_succ]
    by_cases hcarry : r + 1 = 256 ^ width
    · -- The lower bytes are full, so the highest byte takes the carry.
      have hnext : 256 ^ width * q + r + 1 = 256 ^ width * (q + 1) + 0 := by
        rw [Nat.mul_add]
        omega
      have hfull : 256 ^ width * (q + 1) + 0 = 256 ^ width * 256 ↔ q = 255 := by
        rw [Nat.add_zero, Nat.mul_left_cancel_iff hpos]
        omega
      rw [if_pos hcarry, hnext]
      simp only [hfull, ofNat_eq_max_iff hq]
      by_cases hmax : q = 255
      · rw [if_pos hmax, if_pos hmax]
      · rw [if_neg hmax, if_neg hmax, digits_succ hpos]
        simp
    · have hmul : 256 ^ width * (q + 1) ≤ 256 ^ width * 256 := Nat.mul_le_mul_left _ hq
      have hlast : 256 ^ width * q + r + 1 ≠ 256 ^ width * 256 := by
        rw [Nat.mul_add] at hmul
        omega
      rw [if_neg hcarry, if_neg hlast, Nat.add_assoc, digits_succ (by omega)]

def ofNat (n : Nat) : Mac := ⟨digits 6 n, length_digits 6 n⟩

theorem succ?_ofNat {n : Nat} (hn : n < 256 ^ 6) :
    (ofNat n).succ? = if n + 1 = 256 ^ 6 then none else some (ofNat (n + 1)) := by
  have h : increment? (ofNat n).bytes = _ := increment?_digits hn
  unfold succ?
  split
  · rename_i hnone
    rw [hnone] at h
    split at h
    · rw [if_pos ‹_›]
    · cases h
  · rename_i bytes hsome
    rw [hsome] at h
    split at h
    · cases h
    · rw [if_neg ‹_›]
      cases h
      rfl

end Mac

namespace MacGenerator

def afterDraws (k : Nat) : MacGenerator := ⟨Mac.ofNat k⟩

def capacity : Nat := 2 ^ 48 - 1

theorem capacity_add_one : capacity + 1 = 256 ^ 6 := rfl

theorem supplies : Supplies next afterDraws Mac.ofNat capacity .mac := by
  have hcapacity := capacity_add_one
  constructor
  · intro k hk
    rw [next, afterDraws, Mac.succ?_ofNat (by omega), if_neg (by omega)]
    rfl
  · rw [next, afterDraws, Mac.succ?_ofNat (by omega), if_pos hcapacity]

end MacGenerator

namespace Generators

section

variable {γ α : Type} {next : γ → Except Exhausted α × γ} {state : Nat → γ} {item : Nat → α}
  {limit k : Nat} {fault : Exhausted}

/-- What a field lacks: one address, or none if there is a text in it. -/
def lack (o : Option String) : Nat := if o.isNone then 1 else 0

theorem supply_ok (h : Supplies next state item limit fault) (text : α → String) {o : Option String}
    (hk : k + lack o ≤ limit) :
    supply next text (state k) o = .ok (o.getD (text (item (k + 1))), state (k + lack o)) := by
  cases o with
  | some written => rfl
  | none =>
    have hdraw := h.draw k hk
    simp only [supply, hdraw]
    rfl

theorem supply_error (h : Supplies next state item limit fault) (text : α → String) {o : Option String}
    (hk : k ≤ limit) (hlack : limit < k + lack o) :
    supply next text (state k) o = .error fault := by
  cases o with
  | some written => exact absurd hk (Nat.not_le.mpr hlack)
  | none =>
    obtain rfl : k = limit := Nat.le_antisymm hk (Nat.lt_succ_iff.mp hlack)
    simp only [supply, h.stuck]

end

def afterDraws (pool : Pool) (i m : Nat) : Generators :=
  ⟨IpGenerator.afterDraws pool i, MacGenerator.afterDraws m⟩

def filled (pool : Pool) (i m : Nat) (h : Host) : Host :=
  { h with
    ip := some (h.ip.getD (IpGenerator.address pool (i + 1)).text)
    mac := some (h.mac.getD (Mac.ofNat (m + 1)).text) }

variable {pool : Pool} {i m : Nat}

theorem fill_ok {h : Host} (hi : i + lack h.ip ≤ pool.capacity)
    (hm : m + lack h.mac ≤ MacGenerator.capacity) :
    (afterDraws pool i m).fill h =
      .ok (filled pool i m h, afterDraws pool (i + lack h.ip) (m + lack h.mac)) := by
  have hip := supply_ok (IpGenerator.supplies pool) Ipv4.text hi
  have hmac := supply_ok MacGenerator.supplies Mac.text hm
  simp only [fill, afterDraws, hip, hmac, bind, Except.bind]
  rfl

theorem fill_ip_exhausted {h : Host} (hi : i ≤ pool.capacity) (hlack : pool.capacity < i + lack h.ip) :
    (afterDraws pool i m).fill h = .error (.ip pool) := by
  have hip := supply_error (IpGenerator.supplies pool) Ipv4.text hi hlack
  simp only [fill, afterDraws, hip, bind, Except.bind]

theorem fill_mac_exhausted {h : Host} (hi : i + lack h.ip ≤ pool.capacity)
    (hm : m ≤ MacGenerator.capacity) (hlack : MacGenerator.capacity < m + lack h.mac) :
    (afterDraws pool i m).fill h = .error .mac := by
  have hip := supply_ok (IpGenerator.supplies pool) Ipv4.text hi
  have hmac := supply_error MacGenerator.supplies Mac.text hm hlack
  simp only [fill, afterDraws, hip, hmac, bind, Except.bind]

end Generators

namespace Program

def first (p : Program) (k : Nat) : Program := ⟨p.statements.take k⟩

def lacking (field : Host → Option String) (p : Program) : Nat :=
  p.hosts.countP fun h => (field h).isNone

/-- There is an address of the pool for every host that lacks one. -/
def Affordable (pool : Pool) (p : Program) : Prop :=
  p.lacking Host.ip ≤ pool.size - 1 ∧ p.lacking Host.mac ≤ 2 ^ 48 - 1

variable (field : Host → Option String) {s : Statement}

theorem lacking_cons (s : Statement) (ss : List Statement) :
    lacking field ⟨s :: ss⟩ = lacking field ⟨[s]⟩ + lacking field ⟨ss⟩ := by
  have happ : hosts ⟨s :: ss⟩ = hosts ⟨[s]⟩ ++ hosts ⟨ss⟩ := List.filterMap_append (l := [s])
  rw [lacking, happ, List.countP_append, lacking, lacking]

theorem lacking_host {h : Host} (hs : s.action = .host h) :
    lacking field ⟨[s]⟩ = Generators.lack (field h) := by
  simp [lacking, hosts, hs, Action.host?, List.countP_cons, Generators.lack]

theorem lacking_other (hs : s.action.host? = none) : lacking field ⟨[s]⟩ = 0 := by
  simp [lacking, hosts, hs]

theorem lacking_first_le (p : Program) (k : Nat) : (p.first k).lacking field ≤ p.lacking field := by
  apply List.Sublist.countP_le
  apply List.Sublist.filterMap
  exact List.take_sublist _ _

end Program

theorem Action.host?_eq_some {a : Action} {h : Host} (ha : a.host? = some h) : a = .host h := by
  cases a <;> cases ha
  rfl

namespace Statement

/-- A statement with addresses filled in. Nothing else of it differs. -/
structure Resolves (s t : Statement) : Prop where
  pos : t.pos = s.pos
  host : ∀ h, s.action = .host h →
    ∃ ip mac, t.action = .host { h with ip := some ip, mac := some mac }
  other : s.action.host? = none → t.action = s.action

def completed (pool : Pool) (i m : Nat) (s : Statement) : Statement :=
  match s.action with
  | .host h => { s with action := .host (Generators.filled pool i m h) }
  | _ => s

variable (pool : Pool) (i m : Nat) {s : Statement}

theorem completed_host {h : Host} (hs : s.action = .host h) :
    s.completed pool i m = { s with action := .host (Generators.filled pool i m h) } := by
  simp only [completed, hs]

theorem completed_other (hs : s.action.host? = none) : s.completed pool i m = s := by
  unfold completed
  split
  · rename_i h hh
    rw [hh] at hs
    cases hs
  · rfl

theorem host?_completed (s : Statement) :
    (s.completed pool i m).action.host? = s.action.host?.map (Generators.filled pool i m) := by
  cases hs : s.action.host? with
  | none => rw [completed_other pool i m hs, hs, Option.map_none]
  | some h =>
    rw [completed_host pool i m (Action.host?_eq_some hs)]
    rfl

theorem resolves_completed (s : Statement) : s.Resolves (s.completed pool i m) := by
  cases hs : s.action.host? with
  | none =>
    rw [completed_other pool i m hs]
    refine ⟨rfl, fun h hh => ?_, fun _ => rfl⟩
    rw [hh] at hs
    cases hs
  | some h =>
    have ha := Action.host?_eq_some hs
    rw [completed_host pool i m ha]
    refine ⟨rfl, fun h' hh => ?_, fun hnone => ?_⟩
    · cases ha.symm.trans hh
      exact ⟨_, _, rfl⟩
    · cases hs.symm.trans hnone

end Statement

namespace Generators

variable {pool : Pool} {i m : Nat} {s : Statement} {ss ts : List Statement}

theorem fillAll_host {g : Generators} {h : Host} (hs : s.action = .host h) :
    fillAll g (s :: ss) = do
      let (h, g) ← g.fill h
      return { s with action := .host h } :: (← fillAll g ss) := by
  rw [fillAll, hs]

theorem fillAll_other {g : Generators} (hs : s.action.host? = none) :
    fillAll g (s :: ss) = (fillAll g ss).map (s :: ·) := by
  rw [fillAll]
  split
  · rename_i h hh
    rw [hh] at hs
    cases hs
  · rfl

/-- One statement takes what it lacks from the two supplies, and the rest goes on from there. -/
theorem fillAll_cons (hi : i ≤ pool.capacity) (hm : m ≤ MacGenerator.capacity) :
    fillAll (afterDraws pool i m) (s :: ss) =
      if pool.capacity < i + Program.lacking Host.ip ⟨[s]⟩ then .error (.ip pool)
      else if MacGenerator.capacity < m + Program.lacking Host.mac ⟨[s]⟩ then .error .mac
      else
        (fillAll (afterDraws pool (i + Program.lacking Host.ip ⟨[s]⟩)
          (m + Program.lacking Host.mac ⟨[s]⟩)) ss).map (s.completed pool i m :: ·) := by
  cases hs : s.action.host? with
  | none =>
    rw [fillAll_other hs, s.completed_other pool i m hs, Program.lacking_other Host.ip hs,
      Program.lacking_other Host.mac hs, Nat.add_zero, Nat.add_zero,
      if_neg (Nat.not_lt.mpr hi), if_neg (Nat.not_lt.mpr hm)]
  | some h =>
    have ha := Action.host?_eq_some hs
    rw [fillAll_host ha, s.completed_host pool i m ha, Program.lacking_host Host.ip ha,
      Program.lacking_host Host.mac ha]
    by_cases hip : pool.capacity < i + lack h.ip
    · rw [if_pos hip, fill_ip_exhausted hi hip]
      rfl
    · rw [if_neg hip]
      by_cases hmac : MacGenerator.capacity < m + lack h.mac
      · rw [if_pos hmac, fill_mac_exhausted (Nat.not_lt.mp hip) hm hmac]
        rfl
      · rw [if_neg hmac, fill_ok (Nat.not_lt.mp hip) (Nat.not_lt.mp hmac)]
        rfl

/-- A filling that succeeds stays within the supplies, and what each statement becomes depends on the
hosts before it only. -/
theorem fillAll_eq_ok (hi : i ≤ pool.capacity) (hm : m ≤ MacGenerator.capacity)
    (h : fillAll (afterDraws pool i m) ss = .ok ts) :
    i + Program.lacking Host.ip ⟨ss⟩ ≤ pool.capacity ∧
      m + Program.lacking Host.mac ⟨ss⟩ ≤ MacGenerator.capacity ∧
      ∀ k, ts[k]? = ss[k]?.map (Statement.completed pool (i + Program.lacking Host.ip ⟨ss.take k⟩)
        (m + Program.lacking Host.mac ⟨ss.take k⟩)) := by
  induction ss generalizing i m ts with
  | nil =>
    cases h
    exact ⟨hi, hm, by simp⟩
  | cons s ss ih =>
    rw [fillAll_cons hi hm] at h
    split at h
    · cases h
    · rename_i hip
      split at h
      · cases h
      · rename_i hmac
        obtain ⟨us, hrest, rfl⟩ := map_eq_ok.mp h
        obtain ⟨hips, hmacs, hget⟩ := ih (Nat.not_lt.mp hip) (Nat.not_lt.mp hmac) hrest
        simp only [Nat.add_assoc, ← Program.lacking_cons] at hips hmacs hget
        refine ⟨hips, hmacs, fun k => ?_⟩
        cases k with
        | zero => rfl
        | succ k => exact hget k

/-- Filling fails at the first statement for which the supplies do not last. -/
theorem fillAll_exhausted {e : Exhausted} (hi : i ≤ pool.capacity) (hm : m ≤ MacGenerator.capacity)
    (h : fillAll (afterDraws pool i m) ss = .error e) :
    ∃ k, i + Program.lacking Host.ip ⟨ss.take k⟩ ≤ pool.capacity ∧
      m + Program.lacking Host.mac ⟨ss.take k⟩ ≤ MacGenerator.capacity ∧
      (e = .ip pool ∧ pool.capacity < i + Program.lacking Host.ip ⟨ss.take (k + 1)⟩ ∨
        e = .mac ∧ i + Program.lacking Host.ip ⟨ss.take (k + 1)⟩ ≤ pool.capacity ∧
          MacGenerator.capacity < m + Program.lacking Host.mac ⟨ss.take (k + 1)⟩) := by
  induction ss generalizing i m with
  | nil => cases h
  | cons s ss ih =>
    rw [fillAll_cons hi hm] at h
    split at h
    · rename_i hip
      cases h
      exact ⟨0, hi, hm, .inl ⟨rfl, hip⟩⟩
    · rename_i hip
      split at h
      · rename_i hmac
        cases h
        exact ⟨0, hi, hm, .inr ⟨rfl, Nat.not_lt.mp hip, hmac⟩⟩
      · rename_i hmac
        obtain ⟨k, hk⟩ := ih (Nat.not_lt.mp hip) (Nat.not_lt.mp hmac) (map_eq_error.mp h)
        simp only [Nat.add_assoc, ← Program.lacking_cons] at hk
        exact ⟨k + 1, hk⟩

end Generators

namespace Program

variable {pool : Pool} {p q : Program}

theorem assign_eq (p : Program) (pool : Pool) :
    p.assign pool = ((Generators.afterDraws pool 0 0).fillAll p.statements).map Program.mk := by
  have hstart : Generators.ofPool pool = Generators.afterDraws pool 0 0 := rfl
  rw [assign, hstart]
  cases (Generators.afterDraws pool 0 0).fillAll p.statements <;> rfl

theorem affordable_of_assign (h : p.assign pool = .ok q) : p.Affordable pool := by
  rw [assign_eq] at h
  obtain ⟨ts, hts, -⟩ := map_eq_ok.mp h
  obtain ⟨hip, hmac, -⟩ := Generators.fillAll_eq_ok (Nat.zero_le _) (Nat.zero_le _) hts
  rw [Nat.zero_add] at hip hmac
  exact ⟨hip, hmac⟩

theorem getElem?_of_assign (h : p.assign pool = .ok q) (i : Nat) :
    q.statements[i]? = p.statements[i]?.map (Statement.completed pool ((p.first i).lacking Host.ip)
      ((p.first i).lacking Host.mac)) := by
  rw [assign_eq] at h
  obtain ⟨ts, hts, rfl⟩ := map_eq_ok.mp h
  obtain ⟨-, -, hget⟩ := Generators.fillAll_eq_ok (Nat.zero_le _) (Nat.zero_le _) hts
  simp only [Nat.zero_add] at hget
  exact hget i

theorem length_of_assign (h : p.assign pool = .ok q) :
    q.statements.length = p.statements.length := by
  apply Nat.le_antisymm
  · apply List.getElem?_eq_none_iff.mp
    rw [getElem?_of_assign h, List.getElem?_eq_none (Nat.le_refl _), Option.map_none]
  · apply Nat.le_of_not_lt
    intro hlt
    have hnone : q.statements[q.statements.length]? = none := List.getElem?_eq_none (Nat.le_refl _)
    rw [getElem?_of_assign h, List.getElem?_eq_getElem hlt] at hnone
    cases hnone

/-- The first `k` statements get their addresses and the next one does not. Its network address is
asked for first. -/
inductive ExhaustedAt (pool : Pool) (p : Program) (k : Nat) : Exhausted → Prop
  | ip (h : (p.first k).Affordable pool) (hlack : pool.size - 1 < (p.first (k + 1)).lacking Host.ip) :
      ExhaustedAt pool p k (.ip pool)
  | mac (h : (p.first k).Affordable pool) (hip : (p.first (k + 1)).lacking Host.ip ≤ pool.size - 1)
      (hlack : 2 ^ 48 - 1 < (p.first (k + 1)).lacking Host.mac) : ExhaustedAt pool p k .mac

theorem exhaustedAt_of_assign {e : Exhausted} (h : p.assign pool = .error e) :
    ∃ k, p.ExhaustedAt pool k e := by
  rw [assign_eq] at h
  have hfill := map_eq_error.mp h
  obtain ⟨k, hip, hmac, hcase⟩ := Generators.fillAll_exhausted (Nat.zero_le _) (Nat.zero_le _) hfill
  simp only [Nat.zero_add] at hip hmac hcase
  refine ⟨k, ?_⟩
  obtain ⟨rfl, hlack⟩ | ⟨rfl, hip', hlack⟩ := hcase
  · exact .ip ⟨hip, hmac⟩ hlack
  · exact .mac ⟨hip, hmac⟩ hip' hlack

theorem ExhaustedAt.not_affordable {k : Nat} {e : Exhausted} (h : p.ExhaustedAt pool k e) :
    ¬p.Affordable pool := by
  rintro ⟨hip, hmac⟩
  cases h with
  | ip _ hlack => exact absurd (Nat.le_trans (p.lacking_first_le Host.ip _) hip) (Nat.not_le.mpr hlack)
  | mac _ _ hlack =>
    exact absurd (Nat.le_trans (p.lacking_first_le Host.mac _) hmac) (Nat.not_le.mpr hlack)

theorem assign_error (h : ¬p.Affordable pool) : ∃ e, p.assign pool = .error e := by
  cases hq : p.assign pool with
  | error e => exact ⟨e, rfl⟩
  | ok q => exact absurd (affordable_of_assign hq) h

/-- Where the addresses suffice, they are filled in and nothing else is changed. -/
theorem assign_ok (h : p.Affordable pool) :
    ∃ q, p.assign pool = .ok q ∧ List.Forall₂ Statement.Resolves p.statements q.statements := by
  cases hq : p.assign pool with
  | error e =>
    obtain ⟨k, hk⟩ := exhaustedAt_of_assign hq
    exact absurd h hk.not_affordable
  | ok q =>
    refine ⟨q, rfl, List.forall₂_iff_get.mpr ⟨(length_of_assign hq).symm, fun i hp hq' => ?_⟩⟩
    have hget := getElem?_of_assign hq i
    rw [List.getElem?_eq_getElem hp, List.getElem?_eq_getElem hq', Option.map_some,
      Option.some.injEq] at hget
    rw [List.get_eq_getElem, List.get_eq_getElem, hget]
    exact Statement.resolves_completed _ _ _ _

theorem assign_isOk_iff : (∃ q, p.assign pool = .ok q) ↔ p.Affordable pool := by
  constructor
  · rintro ⟨q, hq⟩
    exact affordable_of_assign hq
  · intro h
    obtain ⟨q, hq, -⟩ := assign_ok h
    exact ⟨q, hq⟩

end Program

end Netlab
