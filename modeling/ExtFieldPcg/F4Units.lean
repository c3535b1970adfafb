import ExtFieldPcg.CoeffCtx
import ExtFieldPcg.F4Ring

/-! Which blocks `F4_mul` can be inverted at. The modulus is a multiple of `X + 1`, so the ring of
    `F4Ring.lean` is not a field; the constant of `mulConst` is one of its units. -/

open Polynomial

namespace ExtFieldPcg

theorem f4Mul_surjective {x : Block} (h : ∀ y, y ≠ 0 → f4Mul x y ≠ 0) : Function.Surjective (f4Mul x) := by
  refine Finite.surjective_of_injective fun y z hyz => ?_
  by_contra hne
  refine h (y + z) (fun h0 => hne (Block.add_eq_zero_iff.mp h0)) ?_
  rw [f4Mul_add, hyz, Block.add_self]

theorem isCoprime_of_f4Mul_eq_one {x y : Block} (h : f4Mul x y = 1) : IsCoprime (toPoly x) modulus := by
  have hmk : AdjoinRoot.mk modulus (toPoly x * toPoly y) = AdjoinRoot.mk modulus 1 := by
    rw [map_mul, ← toRing_apply, ← toRing_apply, ← toRing_f4Mul, h, toRing_one, map_one]
  obtain ⟨q, hq⟩ := AdjoinRoot.mk_eq_mk.mp hmk
  exact ⟨toPoly y, -q, by linear_combination hq⟩

theorem f4Mul_ne_zero {x y : Block} (h : IsCoprime (toPoly x) modulus) (hy : y ≠ 0) : f4Mul x y ≠ 0 := by
  intro h0
  have hdvd : modulus ∣ toPoly x * toPoly y := by
    rw [← AdjoinRoot.mk_eq_zero, map_mul, ← toRing_apply, ← toRing_apply, ← toRing_f4Mul, h0, map_zero]
  have hmk : toRing y = 0 := AdjoinRoot.mk_eq_zero.mpr (h.symm.dvd_of_dvd_mul_left hdvd)
  exact hy (toRing_injective (hmk.trans toRing.map_zero.symm))

/-- `F4_mul` by a nonzero block has no zero divisors, and has an inverse, exactly when its polynomial is
    coprime to the modulus. -/
theorem f4Mul_field_iff (x : Block) :
    ((x ≠ 0 → ∀ y, y ≠ 0 → f4Mul x y ≠ 0) ↔ x = 0 ∨ IsCoprime (toPoly x) modulus) ∧
      ((x ≠ 0 → ∃ y, f4Mul x y = block 0 1) ↔ x = 0 ∨ IsCoprime (toPoly x) modulus) := by
  constructor
  · constructor
    · intro h
      by_cases hx : x = 0
      · exact .inl hx
      · obtain ⟨y, hy⟩ := f4Mul_surjective (h hx) 1
        exact .inr (isCoprime_of_f4Mul_eq_one hy)
    · rintro (rfl | h)
      · exact fun h0 => absurd rfl h0
      · exact fun _ y => f4Mul_ne_zero h
  · constructor
    · intro h
      by_cases hx : x = 0
      · exact .inl hx
      · obtain ⟨y, hy⟩ := h hx
        exact .inr (isCoprime_of_f4Mul_eq_one hy)
    · rintro (rfl | h)
      · exact fun h0 => absurd rfl h0
      · exact fun _ => f4Mul_surjective (fun y => f4Mul_ne_zero h) 1

/-- `X + 1` times its cofactor in the modulus. -/
theorem f4Mul_zero_divisor :
    ¬ ∀ x y : Block, x ≠ 0 → y ≠ 0 → f4Mul x y ≠ 0 := by
  intro h
  refine h (block 0 0x5) (block 0x5555555555555555 0x555555555555557d) (by decide) (by decide) ?_
  decide +kernel

/-! ### Multiplication by a constant -/

theorem f4Mul_bijective_iff (y : Block) : Function.Bijective (f4Mul · y) ↔ IsCoprime (toPoly y) modulus := by
  have hcomm : (f4Mul · y) = f4Mul y := funext fun x => f4Mul_comm x y
  rw [hcomm]
  constructor
  · intro h
    obtain ⟨z, hz⟩ := h.surjective 1
    exact isCoprime_of_f4Mul_eq_one hz
  · intro h
    have hsurj := f4Mul_surjective fun x => f4Mul_ne_zero h
    exact ⟨Finite.injective_iff_surjective.mpr hsurj, hsurj⟩

theorem isCoprime_mulConst : IsCoprime (toPoly (block 0 4234123421)) modulus :=
  isCoprime_of_f4Mul_eq_one (by decide +kernel : f4Mul _ (block 0x1e84b8d5475dc23a 0x97549bb1d4933902) = 1)

/-- `mulConst` mixes the components linearly and loses nothing. -/
theorem mulConstF4_bijective :
    Function.Bijective mulConstF4 ∧
      (∀ x x', f4Mul x (block 0 4234123421) = f4Mul x' (block 0 4234123421) → x = x') ∧
      IsLinearMap GF4 mulConstF4 ∧ IsCoprime (toPoly (block 0 4234123421)) modulus := by
  have hbijective := (f4Mul_bijective_iff _).mpr isCoprime_mulConst
  exact ⟨hbijective, fun x x' h => hbijective.injective h,
    ⟨fun x x' => add_f4Mul x x' _, fun c x => smul_f4Mul c x _⟩, isCoprime_mulConst⟩

end ExtFieldPcg
