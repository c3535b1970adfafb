import ExtFieldPcg.PprfReceiver

/-! Where the leaves of the punctured PRF land in its output: the formats of `Tools/Pprf/PprfUtil.h`. -/

open Buffer

namespace ExtFieldPcg
namespace Pprf

/-- Where leaf `c` of tree `j` lies among the leaves of `count` trees. -/
def place (oFormat : PprfOutputFormat) (mDomain count j c : ℕ) : ℕ :=
  match oFormat with
  | .byLeafIndex => c * count + j
  | .byTreeIndex => j * mDomain + c
  | .interleaved => RegularPprfReceiver.interleave mDomain j c

variable {oFormat : PprfOutputFormat} {mDomain count j c : ℕ}

theorem place_inj {i d : ℕ} (hi : i < count) (hj : j < count) (hc : c < mDomain) (hd : d < mDomain)
    (h : place oFormat mDomain count i c = place oFormat mDomain count j d) : i = j ∧ c = d := by
  cases oFormat with
  | byLeafIndex => exact ((Loop.grid_inj hi hj).mp h).symm
  | byTreeIndex => exact (Loop.grid_inj hc hd).mp h
  | interleaved => exact RegularPprfReceiver.interleave_inj hc hd h

theorem place_lt (hformat : oFormat = .interleaved → count % 8 = 0) (hj : j < count) (hc : c < mDomain) :
    place oFormat mDomain count j c < mDomain * count := by
  cases oFormat with
  | byLeafIndex => exact Loop.grid_lt hc hj
  | byTreeIndex => exact (Loop.grid_lt hj hc).trans_eq (Nat.mul_comm _ _)
  | interleaved => exact RegularPprfReceiver.interleave_lt hc (hformat rfl) hj

/-- The leaves fill the output. -/
theorem place_surj (hformat : oFormat = .interleaved → count % 8 = 0) {x : ℕ} (hx : x < mDomain * count) :
    ∃ j < count, ∃ c < mDomain, place oFormat mDomain count j c = x := by
  have hdomain : 0 < mDomain := Nat.pos_of_ne_zero fun h => by simp [h] at hx
  have hcount : 0 < count := Nat.pos_of_ne_zero fun h => by simp [h] at hx
  cases oFormat with
  | byLeafIndex =>
    exact ⟨x % count, Nat.mod_lt x hcount, x / count, (Nat.div_lt_iff_lt_mul hcount).mpr hx, Nat.div_add_mod' x count⟩
  | byTreeIndex =>
    rw [mul_comm] at hx
    exact ⟨x / mDomain, (Nat.div_lt_iff_lt_mul hdomain).mpr hx, x % mDomain, Nat.mod_lt x hdomain,
      Nat.div_add_mod' x mDomain⟩
  | interleaved =>
    have height := hformat rfl
    have hbatch : x / 8 / mDomain < count / 8 := by
      rw [Nat.div_lt_iff_lt_mul hdomain, Nat.div_lt_iff_lt_mul (by decide), mul_right_comm,
        Nat.div_mul_cancel (Nat.dvd_of_mod_eq_zero height), mul_comm]
      exact hx
    refine ⟨8 * (x / 8 / mDomain) + x % 8, by omega, x / 8 % mDomain, Nat.mod_lt _ hdomain, ?_⟩
    have hdiv : (8 * (x / 8 / mDomain) + x % 8) / 8 = x / 8 / mDomain := by omega
    have hmod : (8 * (x / 8 / mDomain) + x % 8) % 8 = x % 8 := by omega
    rw [place, RegularPprfReceiver.interleave, hdiv, hmod, Nat.div_add_mod', Nat.div_add_mod']

theorem place_interleaved {b i : ℕ} (hi : i < 8) (count : ℕ) :
    place .interleaved mDomain count (8 * b + i) c = 8 * b * mDomain + c * 8 + i := by
  have hdiv : (8 * b + i) / 8 = b := by omega
  have hmod : (8 * b + i) % 8 = i := by omega
  rw [place, RegularPprfReceiver.interleave, hdiv, hmod, Nat.add_mul, mul_assoc 8 b, mul_comm 8]

/-- The number of points of the sender and the receiver, in the formats that take any. -/
theorem validateFormat_ok (hformat : oFormat = .interleaved → count % 8 = 0) :
    validateFormat oFormat (mDomain * count) mDomain count = .ok () := by
  rw [validateFormat]
  split
  next h => rw [validateExpandFormat, if_neg (by have := hformat h; omega), if_neg (by simp)]
  next => rw [if_neg (by simp)]

variable {F : Type} [Inhabited F]

/-- Trees `8 * b` and up are copied to their places, and no other place is written. -/
theorem copyOut_spec (hne : oFormat ≠ .interleaved) {leaf output : Array F} {b rem : ℕ} (hb : 8 * b ≤ count)
    (hleaf : leaf.size = mDomain * 8) (houtput : output.size = mDomain * count) (hrem : min (count - 8 * b) 8 = rem) :
    ∃ output', copyOut leaf output count (8 * b) oFormat = .ok output' ∧ output'.size = output.size ∧
      (∀ i < rem, ∀ c < mDomain, read output' (place oFormat mDomain count (8 * b + i) c) = read leaf (c * 8 + i)) ∧
      ∀ j < 8 * b, ∀ c < mDomain,
        read output' (place oFormat mDomain count j c) = read output (place oFormat mDomain count j c) := by
  have hdomain : leaf.size / 8 = mDomain := by omega
  have hcell : ∀ x < mDomain * rem, 0 < rem ∧ x % rem < rem ∧ x / rem < mDomain := fun x hx => by
    have hpos : 0 < rem := Nat.pos_of_ne_zero fun h => by simp [h] at hx
    exact ⟨hpos, Nat.mod_lt x hpos, (Nat.div_lt_iff_lt_mul hpos).mpr hx⟩
  obtain ⟨hsize, hread, hrest⟩ := run_writeAt_spec
    (fun x => place oFormat mDomain count (8 * b + x % rem) (x / rem)) (fun x => read leaf (x / rem * 8 + x % rem))
    (n := mDomain * rem) (a := output)
    (fun x hx => by
      obtain ⟨-, hmod, hdiv⟩ := hcell x hx
      rw [houtput]
      exact place_lt (fun h => absurd h hne) (by omega) hdiv)
    (fun x hx y hy h => by
      obtain ⟨-, hmodx, hdivx⟩ := hcell x hx
      obtain ⟨-, hmody, hdivy⟩ := hcell y hy
      obtain ⟨hmod, hdiv⟩ := place_inj (by omega) (by omega) hdivx hdivy h
      rw [← Nat.div_add_mod x rem, ← Nat.div_add_mod y rem, hdiv, (by omega : x % rem = y % rem)])
  have hrun : copyOut leaf output count (8 * b) oFormat = .ok (Loop.run (mDomain * rem) (fun x output =>
      write output (place oFormat mDomain count (8 * b + x % rem) (x / rem)) (read leaf (x / rem * 8 + x % rem))) output) := by
    rw [← Loop.run_nested mDomain rem (fun c i output =>
      write output (place oFormat mDomain count (8 * b + i) c) (read leaf (c * 8 + i)))]
    cases oFormat with
    | byLeafIndex =>
      simp only [copyOut, hdomain, hrem, place, Nat.add_assoc, Nat.mul_comm count]
    | byTreeIndex => simp only [copyOut, hdomain, hrem, place]
    | interleaved => exact absurd rfl hne
  refine ⟨_, hrun, hsize, fun i hi c hc => ?_, fun j hj c hc => hrest _ fun x hx h => ?_⟩
  · have hcell := hread _ (Loop.grid_lt hc hi)
    rwa [Loop.grid_div hi, Loop.grid_mod hi] at hcell
  · obtain ⟨-, hmod, hdiv⟩ := hcell x hx
    have hj := (place_inj (by omega) (by omega) hdiv hc h).1
    omega

omit [Inhabited F] in
theorem ExpandState.target_fits (hformat : oFormat = .interleaved → count % 8 = 0) (st : ExpandState F) {b : ℕ}
    (hb : 8 * b < count) (hlevel : st.leafLevel.size = mDomain * 8) (houtput : st.output.size = mDomain * count) :
    (st.target oFormat mDomain (8 * b)).2 + mDomain * 8 ≤ (st.target oFormat mDomain (8 * b)).1.size := by
  by_cases h : oFormat = .interleaved
  · have hcount := hformat h
    have hle : 8 * b + 8 ≤ count := by omega
    simp only [target, if_pos h, houtput]
    calc 8 * b * mDomain + mDomain * 8 = mDomain * (8 * b + 8) := by ring
      _ ≤ mDomain * count := Nat.mul_le_mul_left _ hle
  · simp only [target, if_neg h, hlevel, Nat.zero_add, le_refl]

/-- The state after the leaves of eight trees are stored, for any state with the same leaves and output: their places
    in the output hold them. -/
theorem ExpandState.store_spec (hformat : oFormat = .interleaved → count % 8 = 0) (st : ExpandState F) {leaf : Array F}
    {b rem : ℕ} (hb : 8 * b < count) (hleaf : leaf.size = (st.target oFormat mDomain (8 * b)).1.size)
    (hframe : ∀ x, x < (st.target oFormat mDomain (8 * b)).2 ∨
      (st.target oFormat mDomain (8 * b)).2 + mDomain * 8 ≤ x →
        read leaf x = read (st.target oFormat mDomain (8 * b)).1 x)
    (hlevel : st.leafLevel.size = mDomain * 8) (houtput : st.output.size = mDomain * count)
    (hrem : min 8 (count - 8 * b) = rem) :
    ∃ leafLevel output, (∀ st' : ExpandState F, st'.output = st.output → st'.leafLevel = st.leafLevel →
        st'.store oFormat count (8 * b) leaf = .ok { st' with leafLevel := leafLevel, output := output }) ∧
      leafLevel.size = mDomain * 8 ∧ output.size = mDomain * count ∧
      (∀ i < rem, ∀ c < mDomain, read output (place oFormat mDomain count (8 * b + i) c) =
        read leaf ((st.target oFormat mDomain (8 * b)).2 + c * 8 + i)) ∧
      ∀ j < 8 * b, ∀ c < mDomain,
        read output (place oFormat mDomain count j c) = read st.output (place oFormat mDomain count j c) := by
  by_cases h : oFormat = .interleaved
  · subst h
    rw [target, if_pos rfl] at hleaf hframe ⊢
    refine ⟨st.leafLevel, leaf, fun st' _ hlev => by rw [store, if_pos rfl, ← hlev], hlevel, hleaf.trans houtput,
      fun i hi c _ => ?_, fun j hj c hc => hframe _ (.inl ?_)⟩
    · rw [place_interleaved (by omega)]
    · have hlt : place .interleaved mDomain (8 * b) j c < mDomain * (8 * b) := place_lt (fun _ => by omega) hj hc
      exact hlt.trans_eq (mul_comm _ _)
  · rw [target, if_neg h] at hleaf hframe ⊢
    obtain ⟨output, hok, hsize, hread, hrest⟩ := copyOut_spec h hb.le (hleaf.trans hlevel) houtput
      (by omega : min (count - 8 * b) 8 = rem)
    refine ⟨leaf, output, fun st' hout _ => by rw [store, if_neg h, hout, hok, ok_bind], hleaf.trans hlevel, hsize.trans houtput,
      fun i hi c hc => ?_, hrest⟩
    rw [Nat.zero_add]
    exact hread i hi c hc

end Pprf
end ExtFieldPcg
