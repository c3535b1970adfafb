import Mathlib.Algebra.BigOperators.Intervals
import ExtFieldPcg.Runtime
import ExtFieldPcg.Lib.Buffer
import ExtFieldPcg.Lib.Ternary

/-! `FoleageUtils.h`: vectors of 32 ternary digits, two bits each in a 64-bit word, and the integer powers
    and logarithms of three. -/

namespace ExtFieldPcg

structure F3x32 where
  mVal : BitVec 64
deriving DecidableEq, Repr

namespace F3x32

instance : Inhabited F3x32 := ⟨⟨0⟩⟩

/-- `t[i]`, digit `i`. -/
def digit (t : F3x32) (i : ℕ) : ℕ := ((t.mVal >>> (i * 2)) &&& 3#64).toNat

/-- `mVal |= c << (i * 2)` for each of the 32 digits `c`. -/
def pack (c : ℕ → ℕ) : F3x32 := ⟨Loop.run 32 (fun i r => r ||| (BitVec.ofNat 64 (c i) <<< (i * 2))) 0#64⟩

/-- `operator+`. -/
instance : Add F3x32 := ⟨fun s t => pack fun i => (t.digit i + s.digit i) % 3⟩

/-- `fromInt(v)`; before round `i` the loop has divided `v` by three `i` times. -/
def fromInt (v : ℕ) : F3x32 := pack fun i => v / 3 ^ i % 3

/-- `toInt()`, from the top digit down. -/
def toInt (t : F3x32) : ℕ := Loop.run 32 (fun j r => r * 3 + t.digit (31 - j)) 0

/-! ### Digits -/

theorem digit_eq (t : F3x32) (i : ℕ) : t.digit i = t.mVal.toNat / 4 ^ i % 4 := by
  rw [digit, BitVec.toNat_and, BitVec.toNat_ushiftRight, Nat.shiftRight_eq_div_pow, pow_mul',
    (by decide : 2 ^ 2 = 4)]
  exact Nat.and_two_pow_sub_one_eq_mod _ 2

/-- One more digit above the `n` digits of `r`. -/
theorem digit_above {r c n : ℕ} (hr : r < 4 ^ n) (hc : c < 4) {j : ℕ} (hj : j ≤ n) :
    (c * 4 ^ n + r) / 4 ^ j % 4 = if j = n then c else r / 4 ^ j % 4 := by
  have hpos : 0 < 4 ^ j := Nat.pow_pos (by omega)
  by_cases h : j = n
  · subst h
    rw [if_pos rfl, Nat.add_comm, Nat.add_mul_div_right _ _ hpos, Nat.div_eq_of_lt hr, zero_add, Nat.mod_eq_of_lt hc]
  · have hn : 4 ^ n = 4 ^ j * 4 * 4 ^ (n - j - 1) := by
      rw [← pow_succ, ← pow_add]
      congr 1
      omega
    have hsplit : c * 4 ^ n + r = r + 4 ^ j * (4 * (c * 4 ^ (n - j - 1))) := by
      rw [hn]
      ring
    rw [if_neg h, hsplit, Nat.add_mul_div_left _ _ hpos, Nat.add_mul_mod_self_left]

theorem toNat_or_digit {r : BitVec 64} {c n : ℕ} (hr : r.toNat < 4 ^ n) (hc : c < 4) (hn : n < 32) :
    (r ||| (BitVec.ofNat 64 c <<< (n * 2))).toNat = c * 4 ^ n + r.toNat := by
  have hpow : (4 : ℕ) ^ n * 4 ≤ 2 ^ 64 := by
    calc (4 : ℕ) ^ n * 4 = 4 ^ (n + 1) := (pow_succ 4 n).symm
      _ ≤ 4 ^ 32 := Nat.pow_le_pow_right (by omega) (by omega)
      _ = 2 ^ 64 := by norm_num
  have hmul : c * 4 ^ n ≤ 3 * 4 ^ n := Nat.mul_le_mul_right _ (by omega)
  have hpos : 0 < 4 ^ n := Nat.pow_pos (by omega)
  have hshift : c <<< (n * 2) = c * 4 ^ n := by
    rw [Nat.shiftLeft_eq, pow_mul', (by decide : 2 ^ 2 = 4)]
  have hle : c * 4 ^ n < 2 ^ 64 := by omega
  rw [BitVec.toNat_or, BitVec.toNat_shiftLeft, BitVec.toNat_ofNat, Nat.mod_eq_of_lt (by omega : c < 2 ^ 64), hshift,
    Nat.mod_eq_of_lt hle, Nat.or_comm, ← hshift, Nat.shiftLeft_add_eq_or_of_lt]
  rwa [pow_mul', (by decide : 2 ^ 2 = 4)]

theorem digit_pack {c : ℕ → ℕ} (hc : ∀ i, c i < 4) {i : ℕ} (h : i < 32) : (pack c).digit i = c i := by
  have hrun : (Loop.run 32 (fun i r => r ||| (BitVec.ofNat 64 (c i) <<< (i * 2))) 0#64).toNat < 4 ^ 32 ∧
      ∀ j < 32, (Loop.run 32 (fun i r => r ||| (BitVec.ofNat 64 (c i) <<< (i * 2))) 0#64).toNat / 4 ^ j % 4 = c j := by
    refine Loop.run_induct (fun n r => BitVec.toNat r < 4 ^ n ∧ ∀ j < n, r.toNat / 4 ^ j % 4 = c j)
      ⟨by simp, by simp⟩ ?_
    rintro n hn r ⟨hlt, hdigits⟩
    have hcn := hc n
    have hmul : c n * 4 ^ n ≤ 3 * 4 ^ n := Nat.mul_le_mul_right _ (by omega)
    rw [toNat_or_digit hlt hcn hn]
    refine ⟨by rw [pow_succ]; omega, fun j hj => ?_⟩
    rw [digit_above hlt hcn (Nat.lt_succ_iff.mp hj)]
    by_cases h : j = n
    · rw [if_pos h, h]
    · rw [if_neg h, hdigits j (by omega)]
  rw [digit_eq]
  exact hrun.2 i h

theorem digit_add (s t : F3x32) {i : ℕ} (h : i < 32) : (s + t).digit i = (s.digit i + t.digit i) % 3 := by
  have hpack : (s + t).digit i = (t.digit i + s.digit i) % 3 := digit_pack (fun i => by omega) h
  rw [hpack, Nat.add_comm]

theorem digit_fromInt (v : ℕ) {i : ℕ} (h : i < 32) : (fromInt v).digit i = v / 3 ^ i % 3 :=
  digit_pack (fun i => by omega) h

theorem toInt_eq (t : F3x32) : t.toInt = ∑ i ∈ Finset.range 32, t.digit i * 3 ^ i := by
  have hrun : t.toInt * 3 ^ (32 - 32) = ∑ i ∈ Finset.range 32, t.digit (31 - i) * 3 ^ (31 - i) := by
    refine Loop.run_induct
      (fun n r => n ≤ 32 → r * 3 ^ (32 - n) = ∑ i ∈ Finset.range n, t.digit (31 - i) * 3 ^ (31 - i))
      (by simp) ?_ (Nat.le_refl 32)
    intro n hn r ih _
    rw [Finset.sum_range_succ, ← ih (by omega), add_mul, mul_assoc, ← pow_succ',
      (by omega : 32 - (n + 1) + 1 = 32 - n), (by omega : 32 - (n + 1) = 31 - n)]
  rw [Nat.sub_self, pow_zero, mul_one] at hrun
  rw [hrun]
  exact Finset.sum_range_reflect (fun i => t.digit i * 3 ^ i) 32

/-- A vector of digits below three. -/
def Valid (t : F3x32) : Prop := ∀ i < 32, t.digit i < 3

theorem fromInt_valid (v : ℕ) : (fromInt v).Valid := fun i hi => by
  rw [digit_fromInt v hi]
  omega

theorem add_valid (s t : F3x32) : (s + t).Valid := fun i hi => by
  rw [digit_add s t hi]
  omega

def vec (t : F3x32) (k : ℕ) : Fin k → ZMod 3 := fun i => (t.digit i : ℕ)

theorem vec_add (s t : F3x32) {k : ℕ} (hk : k ≤ 32) : (s + t).vec k = s.vec k + t.vec k := by
  funext i
  rw [Pi.add_apply, vec, vec, vec, digit_add s t (by omega), ZMod.natCast_mod, Nat.cast_add]

theorem Valid.toInt_eq {t : F3x32} (h : t.Valid) : t.toInt = Ternary.ofDigits 32 (t.vec 32) := by
  rw [F3x32.toInt_eq, Finset.sum_range, Ternary.ofDigits]
  refine Finset.sum_congr rfl fun i _ => ?_
  rw [vec, ZMod.val_natCast, Nat.mod_eq_of_lt (h i i.isLt)]

theorem Valid.digits_toInt {t : F3x32} (h : t.Valid) {k : ℕ} (hk : k ≤ 32) : Ternary.digits k t.toInt = t.vec k := by
  funext i
  have hvec := Ternary.digits_ofDigits (t.vec 32)
  rw [← h.toInt_eq] at hvec
  exact congrFun hvec ⟨i, by omega⟩

theorem Valid.digit_eq {t : F3x32} (h : t.Valid) {i : ℕ} (hi : i < 32) : t.digit i = t.toInt / 3 ^ i % 3 := by
  have hvec := congrArg ZMod.val (congrFun (h.digits_toInt le_rfl) ⟨i, hi⟩)
  rw [Ternary.digits_val, vec, ZMod.val_natCast, Nat.mod_eq_of_lt (h i hi)] at hvec
  exact hvec.symm

/-- Below `3^k` the low `k` digits are the whole value. -/
theorem Valid.toInt_eq_ofDigits {t : F3x32} (h : t.Valid) {k : ℕ} (hk : k ≤ 32) (hlt : t.toInt < 3 ^ k) :
    t.toInt = Ternary.ofDigits k (t.vec k) := by
  rw [← h.digits_toInt hk, Ternary.ofDigits_digits hlt]

/-- A value whose digits from `k` on vanish is below `3^k`. -/
theorem Valid.toInt_lt {t : F3x32} (h : t.Valid) {k : ℕ} (hk : k ≤ 32)
    (hzero : ∀ i < 32, k ≤ i → t.digit i = 0) : t.toInt < 3 ^ k := by
  have hsum : t.toInt = ∑ i ∈ Finset.range k, t.digit i * 3 ^ i := by
    rw [F3x32.toInt_eq]
    refine (Finset.sum_subset (Finset.range_mono hk) fun i hi hik => ?_).symm
    rw [Finset.mem_range] at hi hik
    rw [hzero i hi (by omega), zero_mul]
  have hdigits : t.toInt = Ternary.ofDigits k (t.vec k) := by
    rw [hsum, Finset.sum_range, Ternary.ofDigits]
    refine Finset.sum_congr rfl fun i _ => ?_
    rw [vec, ZMod.val_natCast, Nat.mod_eq_of_lt (h i (by omega))]
  rw [hdigits]
  exact Ternary.ofDigits_lt _

theorem Valid.digit_eq_zero {t : F3x32} (h : t.Valid) {k i : ℕ} (hlt : t.toInt < 3 ^ k) (hi : i < 32)
    (hk : k ≤ i) : t.digit i = 0 := by
  rw [h.digit_eq hi, Nat.div_eq_of_lt (hlt.trans_le (Nat.pow_le_pow_right (by omega) hk)), Nat.zero_mod]

theorem toNat_lt {t : F3x32} {k : ℕ} (hk : k ≤ 32) (hzero : ∀ i < 32, k ≤ i → t.digit i = 0) :
    t.mVal.toNat < 4 ^ k := by
  have hdown : ∀ j, j ≤ 32 - k → t.mVal.toNat < 4 ^ (32 - j) := by
    intro j
    induction j with
    | zero => exact fun _ => t.mVal.isLt
    | succ j ih =>
      intro hj
      have hlt := ih (by omega)
      have hdigit := hzero (32 - (j + 1)) (by omega) (by omega)
      rw [F3x32.digit_eq] at hdigit
      rw [(by omega : 32 - j = 32 - (j + 1) + 1), pow_succ] at hlt
      rw [Nat.mod_eq_of_lt (Nat.div_lt_of_lt_mul hlt)] at hdigit
      exact (Nat.div_eq_zero_iff_lt (Nat.pow_pos (by omega))).mp hdigit
  have h := hdown (32 - k) le_rfl
  rwa [(by omega : 32 - (32 - k) = k)] at h

/-- Sums of values below `3^k` add their `k` low digits and stay below `3^k`. -/
theorem toInt_add {s t : F3x32} (hs : s.Valid) (ht : t.Valid) {k : ℕ} (hk : k ≤ 32) (hs' : s.toInt < 3 ^ k)
    (ht' : t.toInt < 3 ^ k) : (s + t).toInt = Ternary.digitAdd k s.toInt t.toInt := by
  have hlt : (s + t).toInt < 3 ^ k := (add_valid s t).toInt_lt hk fun i hi hki => by
    rw [digit_add s t hi, hs.digit_eq_zero hs' hi hki, ht.digit_eq_zero ht' hi hki]
  rw [(add_valid s t).toInt_eq_ofDigits hk hlt, vec_add s t hk, Ternary.digitAdd, hs.digits_toInt hk,
    ht.digits_toInt hk]

theorem toInt_fromInt {v : ℕ} {k : ℕ} (hk : k ≤ 32) (h : v < 3 ^ k) : (fromInt v).toInt = v := by
  have hlt : (fromInt v).toInt < 3 ^ k := (fromInt_valid v).toInt_lt hk fun i hi hki => by
    rw [digit_fromInt v hi, Nat.div_eq_of_lt (h.trans_le (Nat.pow_le_pow_right (by omega) hki)), Nat.zero_mod]
  rw [(fromInt_valid v).toInt_eq_ofDigits hk hlt, ← Ternary.ofDigits_digits h]
  congr 1
  funext i
  rw [Ternary.ofDigits_digits h, vec, digit_fromInt v (by omega), ZMod.natCast_mod, Ternary.digits]

/-- `F3x32` adds indices digit by digit. -/
theorem toInt_fromInt_add {i j k : ℕ} (hk : k ≤ 32) (hi : i < 3 ^ k) (hj : j < 3 ^ k) :
    (fromInt i + fromInt j).toInt = Ternary.digitAdd k i j := by
  have hi' := toInt_fromInt hk hi
  have hj' := toInt_fromInt hk hj
  rw [toInt_add (fromInt_valid i) (fromInt_valid j) hk (by omega) (by omega), hi', hj']

end F3x32
end ExtFieldPcg

namespace ExtFieldPcg

/-! ### Powers and logarithms -/

/-- The rounds of `log3ceil`. A fuel of 64 exceeds the 40 rounds that `v` takes to pass `3^40`. -/
def log3ceilFrom (x : ℕ) : ℕ → ℕ → ℕ → ℕ
  | 0, _, i => i
  | fuel + 1, v, i => if v < x then log3ceilFrom x fuel (v * 3 % u64) (i + 1) else i

def log3ceil (x : ℕ) : ℕ := if x = 0 then 0 else log3ceilFrom x 64 1 0

/-- The rounds of `ipow`; an exponent of 64 bits takes at most 64. -/
def ipowFrom : ℕ → ℕ → ℕ → ℕ → ℕ
  | 0, _, _, result => result
  | fuel + 1, base, exp, result =>
    let result := if exp % 2 = 1 then result * base % u64 else result
    if exp / 2 = 0 then result else ipowFrom fuel (base * base % u64) (exp / 2) result

/-- `ipow(base, exp)`, in 64 bits. -/
def ipow (base exp : ℕ) : ℕ := if exp = 1 then base else if exp = 0 then 1 else ipowFrom 64 base exp 1

theorem ipowFrom_mod : ∀ (fuel base exp result : ℕ), exp < 2 ^ fuel → 0 < exp → result < u64 →
    ipowFrom fuel base exp result = result * base ^ exp % u64
  | 0, _, exp, _, hexp, hpos, _ => by omega
  | fuel + 1, base, exp, result, hexp, hpos, hres => by
    have hmod : (if exp % 2 = 1 then result * base % u64 else result) = result * base ^ (exp % 2) % u64 := by
      rcases Nat.mod_two_eq_zero_or_one exp with h | h
      · rw [h, if_neg (by omega), pow_zero, mul_one, Nat.mod_eq_of_lt hres]
      · rw [h, if_pos rfl, pow_one]
    have hexp' : exp = exp % 2 + 2 * (exp / 2) := by omega
    rw [ipowFrom, hmod]
    split
    · rw [(by omega : exp % 2 = exp)]
    · have hlt : result * base ^ (exp % 2) % u64 < u64 := Nat.mod_lt _ (by decide)
      rw [ipowFrom_mod fuel _ _ _ (by omega) (by omega) hlt]
      calc result * base ^ (exp % 2) % u64 * (base * base % u64) ^ (exp / 2) % u64
          = result * base ^ (exp % 2) * (base * base) ^ (exp / 2) % u64 := by
            rw [Nat.mul_mod, Nat.mod_mod, Nat.pow_mod, Nat.mod_mod, ← Nat.pow_mod, ← Nat.mul_mod]
        _ = result * base ^ exp % u64 := by
            conv_rhs => rw [hexp', pow_add, pow_mul, ← mul_assoc, pow_two]

theorem ipow_eq {base exp : ℕ} (hbase : base < u64) (hexp : exp < u64) : ipow base exp = base ^ exp % u64 := by
  rw [ipow]
  split_ifs with h1 h0
  · rw [h1, pow_one, Nat.mod_eq_of_lt hbase]
  · rw [h0, pow_zero, Nat.mod_eq_of_lt (by decide)]
  · rw [ipowFrom_mod 64 _ _ _ hexp (by omega) (by decide), one_mul]

theorem exp_le_forty {exp : ℕ} (h : 3 ^ exp < u64) : exp ≤ 40 := by
  by_contra hlt
  exact absurd ((Nat.pow_le_pow_right (by omega) (by omega : 41 ≤ exp)).trans_lt h) (by decide)

theorem ipow_three {exp : ℕ} (h : exp ≤ 40) : ipow 3 exp = 3 ^ exp := by
  have hlt : 3 ^ exp < u64 := (Nat.pow_le_pow_right (by omega) h).trans_lt (by decide)
  rw [ipow_eq (by decide) (h.trans_lt (by decide)), Nat.mod_eq_of_lt hlt]

/-- A power of three is odd, also when it wraps around. -/
theorem ipow_three_pos {exp : ℕ} (h : exp < u64) : 0 < ipow 3 exp := by
  have hodd : 3 ^ exp % 2 = 1 := Nat.odd_iff.mp (Odd.pow (by decide))
  have hmod : ipow 3 exp % 2 = 1 := by rw [ipow_eq (by decide) h, Nat.mod_mod_of_dvd _ (by decide), hodd]
  omega

theorem log3ceilFrom_spec {x : ℕ} (hx : x ≤ 3 ^ 40) : ∀ (fuel i : ℕ), 40 < fuel + i → i ≤ 40 →
    (∀ j < i, 3 ^ j < x) →
    x ≤ 3 ^ log3ceilFrom x fuel (3 ^ i) i ∧ ∀ j < log3ceilFrom x fuel (3 ^ i) i, 3 ^ j < x
  | 0, i, hfuel, hi, _ => by omega
  | fuel + 1, i, hfuel, hi, hlow => by
    rw [log3ceilFrom]
    split
    · have hi40 : i ≠ 40 := by
        rintro rfl
        omega
      have hpow : 3 ^ (i + 1) < u64 := (Nat.pow_le_pow_right (by omega) (by omega : i + 1 ≤ 40)).trans_lt (by decide)
      rw [← pow_succ, Nat.mod_eq_of_lt hpow]
      refine log3ceilFrom_spec hx fuel (i + 1) (by omega) (by omega) fun j hj => ?_
      rcases Nat.lt_succ_iff_lt_or_eq.mp hj with hj | rfl
      · exact hlow j hj
      · assumption
    · exact ⟨by omega, hlow⟩

/-- The least exponent whose power of three reaches `x`. -/
theorem log3ceil_spec {x : ℕ} (hpos : 0 < x) (hx : x ≤ 3 ^ 40) :
    x ≤ 3 ^ log3ceil x ∧ ∀ j < log3ceil x, 3 ^ j < x := by
  have h := log3ceilFrom_spec hx 64 0 (by omega) (by omega) (by omega)
  rwa [log3ceil, if_neg (by omega)]

theorem log3ceil_pow {m : ℕ} (h : m ≤ 40) : log3ceil (3 ^ m) = m := by
  obtain ⟨hle, hlow⟩ := log3ceil_spec (Nat.pow_pos (by omega)) (Nat.pow_le_pow_right (by omega) h)
  refine Nat.le_antisymm ?_ ((Nat.pow_le_pow_iff_right (by omega)).mp hle)
  by_contra hlt
  exact Nat.lt_irrefl _ (hlow m (by omega))

end ExtFieldPcg
