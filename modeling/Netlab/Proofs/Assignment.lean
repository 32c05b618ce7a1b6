import Mathlib.Logic.Function.Basic
import Netlab.Proofs.Decimal
import Netlab.Proofs.Supply

namespace Netlab

open Mac (digits)

/-- A number of four bytes as these are written in an address: in decimal, with dots between them. -/
def dottedQuad (n : Nat) : String := ".".intercalate ((digits 4 n).map fun b => toString b.toNat)

def colonHex (n : Nat) : String := ":".intercalate ((digits 6 n).map Mac.hex)

theorem Mac.digits_injective {width m n : Nat} (hm : m < 256 ^ width) (hn : n < 256 ^ width)
    (h : digits width m = digits width n) : m = n := by
  induction width generalizing m n with
  | zero =>
    rw [Nat.pow_zero, Nat.lt_one_iff] at hm hn
    rw [hm, hn]
  | succ width ih =>
    have hpos : 0 < 256 ^ width := Nat.pow_pos (by decide)
    rw [Nat.pow_succ] at hm hn
    obtain ⟨hhead, htail⟩ := List.cons.inj h
    have hdiv : m / 256 ^ width = n / 256 ^ width := by
      have hnat := congrArg UInt8.toNat hhead
      rwa [UInt8.toNat_ofNat_of_lt' (Nat.div_lt_of_lt_mul hm),
        UInt8.toNat_ofNat_of_lt' (Nat.div_lt_of_lt_mul hn)] at hnat
    have hmod := ih (Nat.mod_lt m hpos) (Nat.mod_lt n hpos) htail
    rw [← Nat.div_add_mod m (256 ^ width), hdiv, hmod, Nat.div_add_mod]

/-- Where bytes are spelled without the separator between them, the number can be read off. -/
theorem intercalate_digits_injective {separator : Char} {spell : UInt8 → String}
    (hmark : ∀ b, separator ∉ (spell b).toList) (hspell : Function.Injective spell) {width m n : Nat}
    (hm : m < 256 ^ (width + 1)) (hn : n < 256 ^ (width + 1))
    (h : (String.singleton separator).intercalate ((digits (width + 1) m).map spell) =
      (String.singleton separator).intercalate ((digits (width + 1) n).map spell)) : m = n := by
  have hsplit : ∀ k, ([separator].intercalate (((digits (width + 1) k).map spell).map
      String.toList)).splitOn separator = ((digits (width + 1) k).map spell).map String.toList := by
    intro k
    apply List.splitOn_intercalate
    · intro cs hcs
      simp only [List.mem_map] at hcs
      obtain ⟨_, ⟨b, -, rfl⟩, rfl⟩ := hcs
      exact hmark b
    · simp [digits]
  have hlists := congrArg String.toList h
  rw [String.toList_intercalate, String.toList_intercalate, String.toList_singleton] at hlists
  have hspelled := congrArg (List.splitOn separator) hlists
  rw [hsplit, hsplit] at hspelled
  have hbytes : digits (width + 1) m = digits (width + 1) n := by
    apply List.map_injective_iff.mpr hspell
    apply List.map_injective_iff.mpr fun _ _ => String.toList_injective
    exact hspelled
  exact Mac.digits_injective hm hn hbytes

theorem toString_toNat_injective : Function.Injective fun b : UInt8 => toString b.toNat := by
  intro b c h
  obtain ⟨d, ds, hb, -, hvb⟩ := Text.exists_digits b.toNat
  obtain ⟨e, es, hc, -, hvc⟩ := Text.exists_digits c.toNat
  have hlist : d :: ds = e :: es := hb.symm.trans ((congrArg String.toList h).trans hc)
  apply UInt8.toNat.inj
  rw [← hvb, ← hvc, hlist]

theorem dottedQuad_injective {m n : Nat} (hm : m < 2 ^ 32) (hn : n < 2 ^ 32)
    (h : dottedQuad m = dottedQuad n) : m = n := by
  refine @intercalate_digits_injective '.' _ ?_ toString_toNat_injective 3 m n hm hn h
  intro b hb
  obtain ⟨d, ds, hd, hdigit, -⟩ := Text.exists_digits b.toNat
  rw [hd] at hb
  exact absurd (hdigit _ hb) (by decide)

theorem Mac.hex_injective : Function.Injective hex := by
  have hdigit : ∀ i < 16, ∀ j < 16, Nat.digitChar i = Nat.digitChar j → i = j := by decide
  intro b c h
  have hb := b.toNat_lt
  have hc := c.toNat_lt
  have hlist := congrArg String.toList h
  simp only [hex, String.toList_ofList, List.cons.injEq, and_true] at hlist
  have hhigh := hdigit _ (by omega) _ (by omega) hlist.1
  have hlow := hdigit _ (by omega) _ (by omega) hlist.2
  apply UInt8.toNat.inj
  omega

theorem colonHex_injective {m n : Nat} (hm : m < 2 ^ 48) (hn : n < 2 ^ 48)
    (h : colonHex m = colonHex n) : m = n := by
  have hdigit : ∀ i < 16, Nat.digitChar i ≠ ':' := by decide
  refine @intercalate_digits_injective ':' _ ?_ Mac.hex_injective 5 m n hm hn h
  intro b hb
  have hlt := b.toNat_lt
  simp only [Mac.hex, String.toList_ofList, List.mem_cons, List.not_mem_nil, or_false] at hb
  rcases hb with hb | hb
  · exact hdigit _ (by omega) hb.symm
  · exact hdigit _ (by omega) hb.symm

namespace Ipv4

theorem octets_eq (a : Ipv4) : a.octets = digits 4 a.word.toNat := by
  have hlt := a.word.toNat_lt
  simp only [octets, digits, List.cons.injEq, and_true]
  refine ⟨?_, ?_, ?_, ?_⟩
  · apply UInt8.toNat.inj
    simp [Nat.shiftRight_eq_div_pow]
  · apply UInt8.toNat.inj
    simp [Nat.shiftRight_eq_div_pow]
    omega
  · apply UInt8.toNat.inj
    simp [Nat.shiftRight_eq_div_pow]
    omega
  · apply UInt8.toNat.inj
    simp

theorem text_eq (a : Ipv4) : a.text = dottedQuad a.word.toNat := by
  rw [text, octets_eq, dottedQuad]

end Ipv4

/-- The base is a multiple of the size, so no address of a pool is beyond the last of all. -/
theorem Pool.base_add_lt (pool : Pool) {k : Nat} (hk : k < pool.size) :
    pool.base.word.toNat + k < 2 ^ 32 := by
  have hbase := pool.base.word.toNat_lt
  have hall : pool.size ∣ 2 ^ 32 := Nat.pow_dvd_pow 2 (Nat.sub_le 32 pool.bits)
  have hmultiple : pool.size ∣ pool.base.word.toNat := Nat.dvd_of_mod_eq_zero pool.aligned
  have hend : pool.base.word.toNat + pool.size ≤ 2 ^ 32 := by
    apply Nat.le_of_lt_add_of_dvd _ (Nat.dvd_add hmultiple (Nat.dvd_refl _)) hall
    omega
  omega

theorem IpGenerator.toNat_word_address (pool : Pool) {k : Nat} (hk : k < pool.size) :
    (address pool k).word.toNat = pool.base.word.toNat + k := by
  have hlt := pool.base_add_lt hk
  have hword : (UInt32.ofNat k).toNat = k := UInt32.toNat_ofNat_of_lt' (by change k < 2 ^ 32; omega)
  rw [address, UInt32.toNat_add, hword, Nat.mod_eq_of_lt hlt]

theorem IpGenerator.text_address (pool : Pool) {k : Nat} (hk : k < pool.size) :
    (address pool k).text = dottedQuad (pool.base.word.toNat + k) := by
  rw [Ipv4.text_eq, toNat_word_address pool hk]

namespace Program

/-- The host that the statement with the given index declares, if it declares one. -/
def host? (p : Program) (i : Nat) : Option Host := p.statements[i]?.bind fun s => s.action.host?

def fieldAt? (field : Host → Option String) (p : Program) (i : Nat) : Option String :=
  (p.host? i).bind field

def Lacks (field : Host → Option String) (p : Program) (i : Nat) : Prop :=
  ∃ h, p.host? i = some h ∧ field h = none

/-- The place among the hosts that leave a field out, counted from one. -/
def rank (field : Host → Option String) (p : Program) (i : Nat) : Nat := (p.first i).lacking field + 1

section

variable {field : Host → Option String} {p : Program} {i j : Nat}

theorem lacking_first_succ (h : p.Lacks field i) :
    (p.first (i + 1)).lacking field = (p.first i).lacking field + 1 := by
  obtain ⟨host, hh, hf⟩ := h
  obtain ⟨s, hs, ha⟩ := Option.bind_eq_some_iff.mp hh
  simp [first, lacking, hosts, List.take_add_one, hs, ha, hf]

theorem lacking_first_mono (hij : i ≤ j) : (p.first i).lacking field ≤ (p.first j).lacking field := by
  apply List.Sublist.countP_le
  apply List.Sublist.filterMap
  exact (List.take_prefix_take_left hij).sublist

theorem rank_lt_rank (hi : p.Lacks field i) (hij : i < j) : p.rank field i < p.rank field j := by
  have hmono : (p.first (i + 1)).lacking field ≤ (p.first j).lacking field := lacking_first_mono hij
  rw [lacking_first_succ hi] at hmono
  rw [rank, rank]
  omega

theorem rank_injective (hi : p.Lacks field i) (hj : p.Lacks field j)
    (h : p.rank field i = p.rank field j) : i = j := by
  rcases Nat.lt_trichotomy i j with hlt | heq | hlt
  · exact absurd h (Nat.ne_of_lt (rank_lt_rank hi hlt))
  · exact heq
  · exact absurd h.symm (Nat.ne_of_lt (rank_lt_rank hj hlt))

theorem rank_le (hi : p.Lacks field i) : p.rank field i ≤ p.lacking field := by
  rw [rank, ← lacking_first_succ hi]
  exact p.lacking_first_le field _

end

end Program

namespace Program

/-- The program `q` is `p` with addresses where they were left out: the hosts that lack one get the
addresses of the pool and the numbers from one on, in their order. -/
structure Completion (pool : Pool) (p q : Program) : Prop where
  length_eq : q.statements.length = p.statements.length
  other : ∀ {i : Nat} {s : Statement}, p.statements[i]? = some s → s.action.host? = none →
    q.statements[i]? = some s
  host : ∀ {i : Nat} {s : Statement} {h : Host}, p.statements[i]? = some s → s.action = .host h →
    q.statements[i]? = some
      { s with
        action := .host
          { h with
            ip := some (h.ip.getD (dottedQuad (pool.base.word.toNat + p.rank Host.ip i)))
            mac := some (h.mac.getD (colonHex (p.rank Host.mac i))) } }
  resolved : ∀ h ∈ q.hosts, h.ip.isSome ∧ h.mac.isSome
  ip_distinct : ∀ {i j}, p.Lacks Host.ip i → p.Lacks Host.ip j →
    q.fieldAt? Host.ip i = q.fieldAt? Host.ip j → i = j
  ip_inside : ∀ {i}, p.Lacks Host.ip i → ∃ n, q.fieldAt? Host.ip i = some (dottedQuad n) ∧
    pool.base.word.toNat ≤ n ∧ n < pool.base.word.toNat + pool.size
  ip_ne_base : ∀ {i}, p.Lacks Host.ip i → q.fieldAt? Host.ip i ≠ some pool.base.text
  mac_distinct : ∀ {i j}, p.Lacks Host.mac i → p.Lacks Host.mac j →
    q.fieldAt? Host.mac i = q.fieldAt? Host.mac j → i = j
  mac_ne_zero : ∀ {i}, p.Lacks Host.mac i → q.fieldAt? Host.mac i ≠ some Mac.zero.text

section

variable {pool : Pool} {p q : Program} (h : p.assign pool = .ok q)
include h

theorem rank_ip_lt {i : Nat} (hi : p.Lacks Host.ip i) : p.rank Host.ip i < pool.size := by
  have hle : p.rank Host.ip i ≤ p.lacking Host.ip := rank_le hi
  have hfit := (affordable_of_assign h).1
  have htwo := pool.two_le_size
  omega

theorem rank_mac_lt {i : Nat} (hi : p.Lacks Host.mac i) : p.rank Host.mac i < 2 ^ 48 := by
  have hle : p.rank Host.mac i ≤ p.lacking Host.mac := rank_le hi
  have hfit := (affordable_of_assign h).2
  omega

theorem host_of_assign {i : Nat} {s : Statement} {host : Host} (hs : p.statements[i]? = some s)
    (ha : s.action = .host host) :
    q.statements[i]? = some
      { s with
        action := .host
          { host with
            ip := some (host.ip.getD (dottedQuad (pool.base.word.toNat + p.rank Host.ip i)))
            mac := some (host.mac.getD (colonHex (p.rank Host.mac i))) } } := by
  have hat : p.host? i = some host := by simp [host?, hs, ha, Action.host?]
  have hip : host.ip.getD (IpGenerator.address pool (p.rank Host.ip i)).text =
      host.ip.getD (dottedQuad (pool.base.word.toNat + p.rank Host.ip i)) := by
    cases hnone : host.ip with
    | some written => rfl
    | none => exact IpGenerator.text_address pool (rank_ip_lt h ⟨host, hat, hnone⟩)
  rw [getElem?_of_assign h, hs, Option.map_some, Statement.completed, ha, ← hip]
  rfl

theorem other_of_assign {i : Nat} {s : Statement} (hs : p.statements[i]? = some s)
    (ha : s.action.host? = none) : q.statements[i]? = some s := by
  rw [getElem?_of_assign h, hs, Option.map_some, s.completed_other _ _ _ ha]

theorem fieldAt?_of_assign {i : Nat} {host : Host} (hi : p.host? i = some host) :
    q.fieldAt? Host.ip i =
        some (host.ip.getD (dottedQuad (pool.base.word.toNat + p.rank Host.ip i))) ∧
      q.fieldAt? Host.mac i = some (host.mac.getD (colonHex (p.rank Host.mac i))) := by
  obtain ⟨s, hs, ha⟩ := Option.bind_eq_some_iff.mp hi
  have hq := host_of_assign h hs (Action.host?_eq_some ha)
  simp [fieldAt?, host?, hq, Action.host?]

theorem ip_of_assign {i : Nat} (hi : p.Lacks Host.ip i) :
    q.fieldAt? Host.ip i = some (dottedQuad (pool.base.word.toNat + p.rank Host.ip i)) := by
  obtain ⟨host, hhost, hnone⟩ := hi
  rw [(fieldAt?_of_assign h hhost).1, hnone, Option.getD_none]

theorem mac_of_assign {i : Nat} (hi : p.Lacks Host.mac i) :
    q.fieldAt? Host.mac i = some (colonHex (p.rank Host.mac i)) := by
  obtain ⟨host, hhost, hnone⟩ := hi
  rw [(fieldAt?_of_assign h hhost).2, hnone, Option.getD_none]

theorem completion_of_assign : Completion pool p q where
  length_eq := length_of_assign h
  other := other_of_assign h
  host := host_of_assign h
  resolved := by
    intro host hm
    obtain ⟨t, ht, hhost⟩ := List.mem_filterMap.mp hm
    obtain ⟨i, hi⟩ := List.mem_iff_getElem?.mp ht
    rw [getElem?_of_assign h] at hi
    obtain ⟨s, -, rfl⟩ := Option.map_eq_some_iff.mp hi
    rw [Statement.host?_completed] at hhost
    obtain ⟨-, -, rfl⟩ := Option.map_eq_some_iff.mp hhost
    exact ⟨rfl, rfl⟩
  ip_distinct := by
    intro i j hi hj he
    rw [ip_of_assign h hi, ip_of_assign h hj, Option.some.injEq] at he
    have hsum := dottedQuad_injective (pool.base_add_lt (rank_ip_lt h hi))
      (pool.base_add_lt (rank_ip_lt h hj)) he
    exact rank_injective hi hj (Nat.add_left_cancel hsum)
  ip_inside := by
    intro i hi
    refine ⟨_, ip_of_assign h hi, Nat.le_add_right _ _, ?_⟩
    exact Nat.add_lt_add_left (rank_ip_lt h hi) _
  ip_ne_base := by
    intro i hi he
    rw [ip_of_assign h hi, Option.some.injEq, Ipv4.text_eq] at he
    have hsum := dottedQuad_injective (pool.base_add_lt (rank_ip_lt h hi)) pool.base.word.toNat_lt he
    rw [rank] at hsum
    omega
  mac_distinct := by
    intro i j hi hj he
    rw [mac_of_assign h hi, mac_of_assign h hj, Option.some.injEq] at he
    exact rank_injective hi hj (colonHex_injective (rank_mac_lt h hi) (rank_mac_lt h hj) he)
  mac_ne_zero := by
    intro i hi he
    rw [mac_of_assign h hi, Option.some.injEq] at he
    have hzero : p.rank Host.mac i = 0 := colonHex_injective (rank_mac_lt h hi) (by decide) he
    cases hzero

end

/-- Addresses are assigned if there are enough of them, and then to the hosts that lack one, in their
order, and to nothing else. If there are not, the supply is named that runs out first. -/
theorem assign_exact (p : Program) (pool : Pool) :
    ((∃ q, p.assign pool = .ok q) ↔ p.lacking Host.ip ≤ pool.size - 1 ∧ p.lacking Host.mac ≤ 2 ^ 48 - 1) ∧
      (∀ q, p.assign pool = .ok q → p.Completion pool q) ∧
      ∀ e, p.assign pool = .error e → ∃ k, p.ExhaustedAt pool k e :=
  ⟨assign_isOk_iff, fun _ => completion_of_assign, fun _ => exhaustedAt_of_assign⟩

def mixedHosts : Program :=
  ⟨[⟨⟨1, 1⟩, .host ⟨"a", some "10.9.9.9", "i", none, [], [], [], []⟩⟩, ⟨⟨2, 1⟩, .up⟩,
    ⟨⟨3, 1⟩, .host ⟨"b", none, "i", none, [], [], [], []⟩⟩,
    ⟨⟨4, 1⟩, .host ⟨"c", some "x", "i", some "y", [], [], [], []⟩⟩]⟩

def pairPool : Pool := ⟨⟨0xFFFFFFFE⟩, 31, by decide, by decide⟩

theorem assign_exact_mixedHosts :
    (∃ q, mixedHosts.assign pairPool = .ok q ∧ mixedHosts.Completion pairPool q ∧
        q.fieldAt? Host.ip 2 = some "255.255.255.255" ∧
        q.fieldAt? Host.mac 2 = some "00:00:00:00:00:02") ∧
      assign ⟨mixedHosts.statements ++ mixedHosts.statements⟩ pairPool = .error (.ip pairPool) ∧
      ∃ k, ExhaustedAt pairPool ⟨mixedHosts.statements ++ mixedHosts.statements⟩ k (.ip pairPool) := by
  obtain ⟨hok, hdone, -⟩ := assign_exact mixedHosts pairPool
  obtain ⟨q, hq⟩ := hok.mpr (by decide)
  have hc := hdone q hq
  have hhost := hc.host (i := 2) (by rfl) (by rfl)
  refine ⟨⟨q, hq, hc, ?_⟩, ?_⟩
  · simp only [fieldAt?, host?, hhost]
    decide +kernel
  · obtain ⟨-, -, hfail⟩ := assign_exact ⟨mixedHosts.statements ++ mixedHosts.statements⟩ pairPool
    have he : assign ⟨mixedHosts.statements ++ mixedHosts.statements⟩ pairPool =
        .error (.ip pairPool) := by decide +kernel
    exact ⟨he, hfail _ he⟩

end Program

end Netlab
