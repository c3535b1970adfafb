import Mathlib.Algebra.CharP.Two
import Mathlib.Data.ZMod.Basic
import Mathlib.Algebra.Polynomial.Coeff
import Mathlib.Algebra.Polynomial.Degree.Lemmas
import Mathlib.RingTheory.AdjoinRoot

/-! Words as polynomials: bit `i` of a word is the coefficient of `X^i`, over any commutative ring of
    characteristic two. XOR is addition, a shift multiplies by a power of `X`, and the carry-less product
    is the product of polynomials. -/

open Polynomial

namespace Word

/-- The word whose bit `i` is `f i`. -/
def ofBits (w : ℕ) (f : ℕ → Bool) : BitVec w := (BitVec.iunfoldr (fun i (_ : Unit) => ((), f i)) ()).2

@[simp] theorem getLsbD_ofBits {w i : ℕ} (f : ℕ → Bool) (h : i < w) : (ofBits w f).getLsbD i = f i :=
  BitVec.iunfoldr_getLsbD (fun _ => ()) ⟨i, h⟩ fun _ => rfl

/-- Carry-less product: the XOR of the shifts of `a` at the set bits of `b`. -/
def clmul {w : ℕ} (a b : BitVec w) : BitVec (w + w) :=
  (List.range w).foldl (fun acc i => if b.getLsbD i then acc ^^^ a.setWidth (w + w) <<< i else acc) 0

section Poly
variable (R : Type*) [CommRing R] {w : ℕ}

def bit (b : Bool) : R := if b then 1 else 0

theorem bit_xor [CharP R 2] (a b : Bool) : bit R (a ^^ b) = bit R a + bit R b := by
  cases a <;> cases b <;> simp [bit, CharTwo.add_self_eq_zero]

noncomputable def poly (x : BitVec w) : R[X] := ∑ i ∈ Finset.range w, C (bit R (x.getLsbD i)) * X ^ i

theorem coeff_poly (x : BitVec w) (n : ℕ) : (poly R x).coeff n = bit R (x.getLsbD n) := by
  simp only [poly, finsetSum_coeff, coeff_C_mul, coeff_X_pow, mul_ite, mul_one, mul_zero, Finset.sum_ite_eq,
    Finset.mem_range]
  split
  · rfl
  · rw [BitVec.getLsbD_of_ge x n (by omega)]
    rfl

theorem degree_poly_lt (x : BitVec w) : (poly R x).degree < w := by
  refine (degree_lt_iff_coeff_zero _ _).mpr fun m hm => ?_
  rw [coeff_poly, BitVec.getLsbD_of_ge x m hm]
  rfl

@[simp] theorem poly_zero : poly R (0#w) = 0 := by
  ext n
  simp [coeff_poly, bit]

@[simp] theorem poly_xor [CharP R 2] (x y : BitVec w) : poly R (x ^^^ y) = poly R x + poly R y := by
  ext n
  simp [coeff_poly, bit_xor]

/-- The polynomial of a word with known set bits. -/
theorem poly_eq_sum (x : BitVec w) (s : Finset ℕ) (hset : ∀ i ∈ s, x.getLsbD i = true)
    (hrest : ∀ i < w, i ∉ s → x.getLsbD i = false) : poly R x = ∑ i ∈ s, X ^ i := by
  ext n
  rw [coeff_poly, finsetSum_coeff]
  simp only [coeff_X_pow, Finset.sum_ite_eq]
  by_cases hn : n ∈ s
  · rw [if_pos hn, hset n hn]
    rfl
  · have hbit : x.getLsbD n = false := by
      by_cases hw : n < w
      · exact hrest n hw hn
      · exact BitVec.getLsbD_of_ge x n (Nat.le_of_not_lt hw)
    rw [if_neg hn, hbit]
    rfl

theorem poly_injective [Nontrivial R] : Function.Injective (poly R : BitVec w → R[X]) := by
  intro x y h
  refine BitVec.eq_of_getLsbD_eq fun i _ => ?_
  have hc : bit R (x.getLsbD i) = bit R (y.getLsbD i) := by rw [← coeff_poly, ← coeff_poly, h]
  cases hx : x.getLsbD i <;> cases hy : y.getLsbD i <;> simp [bit, hx, hy] at hc ⊢

/-- A shift into a word wide enough to hold it multiplies by a power of `X`. -/
theorem poly_setWidth_shiftLeft {v s : ℕ} (x : BitVec w) (h : w + s ≤ v) :
    poly R (x.setWidth v <<< s) = poly R x * X ^ s := by
  ext n
  rw [coeff_poly, coeff_mul_X_pow', BitVec.getLsbD_shiftLeft, BitVec.getLsbD_setWidth]
  by_cases hs : s ≤ n
  · by_cases hn : n < v
    · simp [hs, hn, coeff_poly, Nat.not_lt.mpr hs, (by omega : n - s < v)]
    · simp [hs, hn, coeff_poly, BitVec.getLsbD_of_ge x (n - s) (by omega)]
  · simp [hs, bit, Nat.lt_of_not_le hs]

/-- A shift by one multiplies by `X`, and loses the top bit. -/
theorem poly_shiftLeft_one (x : BitVec w) (hw : 0 < w) :
    poly R (x <<< 1) + C (bit R (x.getLsbD (w - 1))) * X ^ w = poly R x * X := by
  ext n
  rw [coeff_add, coeff_poly, coeff_C_mul, coeff_X_pow]
  rcases n with - | n
  · simp [bit, hw.ne]
  · rw [coeff_mul_X, coeff_poly, BitVec.getLsbD_shiftLeft]
    rcases lt_trichotomy (n + 1) w with hlt | rfl | hgt
    · simp [hlt, hlt.ne]
    · simp [bit]
    · simp [bit, hgt.not_gt, hgt.ne', BitVec.getLsbD_of_ge x n (by omega)]

theorem poly_clmul_foldl [CharP R 2] (a b : BitVec w) : ∀ n ≤ w,
    poly R ((List.range n).foldl
      (fun acc i => if b.getLsbD i then acc ^^^ a.setWidth (w + w) <<< i else acc) (0 : BitVec (w + w))) =
      poly R a * ∑ i ∈ Finset.range n, C (bit R (b.getLsbD i)) * X ^ i
  | 0, _ => by simp
  | n + 1, hn => by
    rw [List.range_succ, List.foldl_append, Finset.sum_range_succ, mul_add,
      ← poly_clmul_foldl a b n (by omega)]
    cases hb : b.getLsbD n
    · simp [hb, bit]
    · simp [hb, bit, poly_setWidth_shiftLeft R a (by omega : w + n ≤ w + w)]

theorem poly_clmul [CharP R 2] (a b : BitVec w) : poly R (clmul a b) = poly R a * poly R b :=
  poly_clmul_foldl R a b w le_rfl

end Poly

theorem clmul_zero {w : ℕ} (a : BitVec w) : clmul a 0#w = 0#(w + w) :=
  poly_injective (ZMod 2) (by rw [poly_clmul, poly_zero, poly_zero, mul_zero])

theorem zero_clmul {w : ℕ} (b : BitVec w) : clmul 0#w b = 0#(w + w) :=
  poly_injective (ZMod 2) (by rw [poly_clmul, poly_zero, poly_zero, zero_mul])

/-- A polynomial below the modulus is the remainder of every polynomial of its class. -/
theorem eq_modByMonic {R : Type*} [CommRing R] [Nontrivial R] {m p q : R[X]} (hm : m.Monic) (hp : p.degree < m.degree)
    (h : AdjoinRoot.mk m p = AdjoinRoot.mk m q) : p = q %ₘ m := by
  rw [← (modByMonic_eq_self_iff hm).mpr hp]
  exact modByMonic_eq_of_dvd_sub hm (AdjoinRoot.mk_eq_mk.mp h)

/-! ### Words modulo a polynomial -/

section Modulus
variable {R : Type*} [CommRing R] {v w n : ℕ}

/-- `X^n` with the terms of a word below it. -/
noncomputable def modulus (R : Type*) [CommRing R] (n : ℕ) (m : BitVec v) : R[X] := X ^ n + poly R m

theorem modulus_eq {m : BitVec v} {p : R[X]} (h : poly R m = p) : modulus R n m = X ^ n + p := by rw [modulus, h]

theorem monic_modulus {m : BitVec v} (h : v ≤ n) : (modulus R n m).Monic :=
  monic_X_pow_add ((degree_poly_lt R m).trans_le (Nat.cast_le.mpr h))

theorem degree_modulus [Nontrivial R] {m : BitVec v} (h : v ≤ n) : (modulus R n m).degree = n := by
  have hlt : (poly R m).degree < (X ^ n : R[X]).degree := by
    rw [degree_X_pow]
    exact (degree_poly_lt R m).trans_le (Nat.cast_le.mpr h)
  rw [modulus, degree_add_eq_left_of_degree_lt hlt, degree_X_pow]

theorem mk_X_pow [CharP R 2] (m : BitVec v) :
    AdjoinRoot.mk (modulus R n m) (X ^ n) = AdjoinRoot.mk (modulus R n m) (poly R m) := by
  refine AdjoinRoot.mk_eq_mk.mpr ⟨1, ?_⟩
  rw [mul_one, modulus, CharTwo.sub_eq_add]

/-- Words below the modulus are determined by their class. -/
theorem mk_poly_injective [Nontrivial R] {m : BitVec v} (h : v ≤ n) (hw : w ≤ n) :
    Function.Injective fun x : BitVec w => AdjoinRoot.mk (modulus R n m) (poly R x) := by
  have hdeg (z : BitVec w) : (poly R z).degree < (modulus R n m).degree := by
    rw [degree_modulus h]
    exact (degree_poly_lt R z).trans_le (Nat.cast_le.mpr hw)
  intro x y hxy
  have hrem := eq_modByMonic (monic_modulus h) (hdeg x) hxy
  rw [(modByMonic_eq_self_iff (monic_modulus h)).mpr (hdeg y)] at hrem
  exact poly_injective R hrem

end Modulus

variable {w : ℕ}

theorem clmul_xor_left (a b c : BitVec w) : clmul (a ^^^ b) c = clmul a c ^^^ clmul b c := by
  apply poly_injective (ZMod 2)
  simp only [poly_xor, poly_clmul, add_mul]

/-- A carry-less product of factors below `X^m` and `X^n` stays below `X^(m + n - 1)`. -/
theorem getLsbD_clmul_of_lt {a b : BitVec w} {m n i : ℕ} (ha : ∀ j, m ≤ j → a.getLsbD j = false)
    (hb : ∀ j, n ≤ j → b.getLsbD j = false) (hi : m + n ≤ i + 1) : (clmul a b).getLsbD i = false := by
  have hcoeff : (poly (ZMod 2) a * poly (ZMod 2) b).coeff i = 0 := by
    rw [coeff_mul]
    refine Finset.sum_eq_zero fun p hp => ?_
    have hsum := Finset.HasAntidiagonal.mem_antidiagonal.mp hp
    rw [coeff_poly, coeff_poly]
    by_cases hm : m ≤ p.1
    · simp [ha _ hm, bit]
    · simp [hb p.2 (by omega), bit]
  rw [← poly_clmul, coeff_poly] at hcoeff
  cases hx : (clmul a b).getLsbD i
  · rfl
  · simp [bit, hx] at hcoeff

end Word
