import Mathlib.FieldTheory.Finite.Extension
import Mathlib.RingTheory.AdjoinRoot

/-! A test of irreducibility over a finite field: the Frobenius map fixes the root of a polynomial after as many steps as
    its degree, a prime power, but moves it by a unit after a prime fraction of them. -/

open Polynomial

namespace Rabin

variable {k : Type*} [Field k] [Finite k] {f : k[X]} {ℓ e : ℕ}

/-- An irreducible factor has the degree that is left: it divides the prime power, and not its largest proper divisor. -/
theorem natDegree_of_dvd (hℓ : ℓ.Prime) (hdvd : f ∣ X ^ Nat.card k ^ ℓ ^ (e + 1) - X)
    (hcop : IsCoprime f (X ^ Nat.card k ^ ℓ ^ e - X)) {g : k[X]} (hg : Irreducible g) (hgf : g ∣ f) :
    g.natDegree = ℓ ^ (e + 1) := by
  have hle := hg.natDegree_dvd_of_dvd_X_pow_card_pow_sub_X (hgf.trans hdvd)
  by_contra hne
  have hproper : g.natDegree ∣ ℓ ^ e := by
    obtain ⟨i, hi, hpow⟩ := (Nat.dvd_prime_pow hℓ).mp hle
    rw [hpow] at hne ⊢
    have hlt : i ≠ e + 1 := fun h => hne (by rw [h])
    exact pow_dvd_pow ℓ (by omega)
  have hfix := hg.natDegree_dvd_iff_dvd_X_pow_card_pow_sub_X.mp hproper
  exact hg.not_isUnit (hcop.isUnit_of_dvd' hgf hfix)

theorem irreducible_of_frobenius (hℓ : ℓ.Prime) (hdegree : f.natDegree = ℓ ^ (e + 1))
    (hdvd : f ∣ X ^ Nat.card k ^ ℓ ^ (e + 1) - X) (hcop : IsCoprime f (X ^ Nat.card k ^ ℓ ^ e - X)) : Irreducible f := by
  have hpos : 0 < f.natDegree := hdegree ▸ pow_pos hℓ.pos _
  have hne : f ≠ 0 := by
    rintro rfl
    simp at hpos
  obtain ⟨g, hg, hgf⟩ := WfDvdMonoid.exists_irreducible_factor (not_isUnit_of_natDegree_pos f hpos) hne
  have hassoc : Associated g f :=
    associated_of_dvd_of_natDegree_le hgf hne (hdegree.trans (natDegree_of_dvd hℓ hdvd hcop hg hgf).symm).le
  exact hassoc.irreducible hg

/-- The test in the ring of the root: `root ^ q ^ ℓ ^ (e + 1)` is the root again, and its difference to
    `root ^ q ^ ℓ ^ e` has an inverse. -/
theorem irreducible_of_root {q : ℕ} (hq : Nat.card k = q) (hℓ : ℓ.Prime) (hdegree : f.natDegree = ℓ ^ (e + 1))
    (hfix : AdjoinRoot.root f ^ q ^ ℓ ^ (e + 1) = AdjoinRoot.root f) {u : AdjoinRoot f}
    (hunit : (AdjoinRoot.root f ^ q ^ ℓ ^ e - AdjoinRoot.root f) * u = 1) : Irreducible f := by
  subst hq
  refine irreducible_of_frobenius hℓ hdegree ?_ ?_
  · rw [← AdjoinRoot.mk_eq_zero, map_sub, map_pow, AdjoinRoot.mk_X, hfix, sub_self]
  · obtain ⟨v, rfl⟩ := AdjoinRoot.mk_surjective u
    have hdvd : f ∣ (X ^ Nat.card k ^ ℓ ^ e - X) * v - 1 := by
      rw [← AdjoinRoot.mk_eq_zero, map_sub, map_mul, map_sub, map_pow, AdjoinRoot.mk_X, hunit, map_one, sub_self]
    obtain ⟨w, hw⟩ := hdvd
    exact ⟨-w, v, by linear_combination hw⟩

end Rabin
