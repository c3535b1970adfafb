import ExtFieldPcg.BlockCtx

/-! Runs of the punctured PRF from the configuration of both parties on. -/

open Buffer

namespace ExtFieldPcg
namespace Pprf

/-- Both parties are configured, the receiver draws its points from `words`, and both get the base OTs `ot`. -/
def setup (domain count : ℕ) (words : ℕ → ℕ) (ot : ℕ → Block × Block) :
    Except Err (RegularPprfReceiver × RegularPprf (Block × Block)) := do
  let recv ← RegularPprf.configure domain count
  let send ← RegularPprf.configure domain count
  let recv := ({ toRegularPprf := recv } : RegularPprfReceiver).sampleChoiceBits words
  let msg := Array.ofFn fun i : Fin send.baseOtCount => ot i
  let recvMsg := Array.ofFn fun i : Fin recv.baseOtCount => pick (ot i) (recv.mBaseChoices (i / recv.mDepth) (i % recv.mDepth))
  let send ← send.setBase count msg
  let base ← recv.setBase (roundUpTo count 8) recvMsg
  .ok ({ recv with toRegularPprf := base }, send)

theorem setBase_ok {β : Type} [Inhabited β] (g : RegularPprf β) (rows : ℕ) (f : ℕ → β) (hrows : g.mPntCount ≤ rows) :
    ∃ ots, g.setBase rows (Array.ofFn fun i : Fin g.baseOtCount => f i) = .ok { g with mBaseOTs := ots } ∧
      ∀ i < g.mPntCount, ∀ k < g.mDepth, read ots (i * g.mDepth + k) = f (i * g.mDepth + k) := by
  refine ⟨_, by rw [RegularPprf.setBase, if_neg (by simp)], fun i hi k hk => ?_⟩
  have hlt : i * g.mDepth + k < g.mDepth * g.mPntCount := (Loop.grid_lt hi hk).trans_eq (mul_comm _ _)
  have hrow : i * g.mDepth + k < rows * g.mDepth := Loop.grid_lt (hi.trans_le hrows) hk
  exact (read_ofFn (fun i => read (Array.ofFn fun j : Fin g.baseOtCount => f j) i) hrow).trans (read_ofFn f hlt)

theorem setup_ok {domain : ℕ} (heven : domain % 2 = 0) (htwo : 2 ≤ domain) (count : ℕ) (words : ℕ → ℕ)
    (ot : ℕ → Block × Block) : ∃ gr gs, setup domain count words ot = .ok (gr, gs) ∧ PprfPaired gr gs ∧
      gr.mDomain = domain ∧ gr.mPntCount = count ∧ ∀ j, gr.leafPoint j = words j % domain := by
  obtain ⟨recv, hrecv⟩ : ∃ recv, RegularPprfReceiver.sampleChoiceBits
      { toRegularPprf := ⟨domain, log2ceil domain, count, #[]⟩ } words = recv := ⟨_, rfl⟩
  obtain ⟨sendOts, hsend, hreadS⟩ := setBase_ok ⟨domain, log2ceil domain, count, #[]⟩ count ot le_rfl
  obtain ⟨recvOts, hbase, hreadR⟩ := setBase_ok recv.toRegularPprf (roundUpTo count 8)
    (fun i => pick (ot i) (recv.mBaseChoices (i / recv.mDepth) (i % recv.mDepth))) (by
      rw [← hrecv]
      exact (divCeil_le_iff (by decide) count _).mp le_rfl)
  have hpoint (j : ℕ) : recv.leafPoint j = words j % domain := by
    rw [← hrecv]
    exact RegularPprfReceiver.leafPoint_sampleChoiceBits _ words (by dsimp only; omega) rfl j
  refine ⟨{ recv with mBaseOTs := recvOts }, ⟨domain, log2ceil domain, count, sendOts⟩, ?_, ?_, ?_, ?_, hpoint⟩
  · subst hrecv
    simp only [setup, RegularPprf.configure_ok heven htwo, ok_bind, hsend]
    exact bind_eq_ok.mpr ⟨_, hbase, rfl⟩
  · subst hrecv
    refine ⟨rfl, rfl, rfl, heven, htwo, rfl, fun j _ => (hpoint j).trans_lt (Nat.mod_lt _ (by omega)), fun i hi k hk => ?_⟩
    refine (hreadR i hi k hk).trans ?_
    rw [Loop.grid_div hk, Loop.grid_mod hk]
    exact congrArg (pick · _) (hreadS i hi k hk).symm
  · rw [← hrecv]
    rfl
  · rw [← hrecv]
    rfl

variable {F : Type} {M : Type*} [Inhabited F] [AddCommGroup M] {ctx : PprfCtx F} {val : F → M} {oFormat : PprfOutputFormat}

/-- A programmed run, from the configuration on: the output of the receiver is the output of the sender plus a vector
    that holds value `j` at the point of tree `j` and zero elsewhere. -/
theorem run_programmed (A : PprfAes) (E : ctx.Exact val) {domain count : ℕ} (heven : domain % 2 = 0) (htwo : 2 ≤ domain)
    (hformat : oFormat = .interleaved → count % 8 = 0) (mEagerSend : Bool) (hcount : mEagerSend = false → 0 < count)
    (words : ℕ → ℕ) (ot : ℕ → Block × Block) (seed : Block) {value : Array F}
    (hvalue : value.size = 1 ∨ value.size = count) {output : Array F × Array F}
    (hrecv : output.1.size = domain * count) (hsend : output.2.size = domain * count) (scratch : Scratch F × Scratch F) :
    ∃ gr gs a b, setup domain count words ot = .ok (gr, gs) ∧
      run A ctx gr gs value seed oFormat true mEagerSend output scratch = .ok (a, b) ∧ ∀ x < domain * count,
        val (read a x) = val (read b x) + ∑ j ∈ Finset.range count,
          if place oFormat domain count j (words j % domain) = x then val (valueAt value j) else 0 := by
  obtain ⟨gr, gs, hsetup, P, rfl, rfl, hpoint⟩ := setup_ok heven htwo count words ot
  obtain ⟨mValue, hprog, hread⟩ := setValue_ok (g := gs) (by rwa [P.count])
  obtain ⟨a, b, hrun, -, -, hleaves⟩ := run_leaves A E P hformat true mEagerSend seed value hprog hrecv hsend scratch
  refine ⟨gr, gs, a, b, hsetup, hrun, fun x hx => ?_⟩
  obtain ⟨j, hj, c, hc, rfl⟩ := place_surj hformat hx
  obtain ⟨hb, ha⟩ := hleaves j hj c hc
  have hterm (i : ℕ) (hi : i ∈ Finset.range gr.mPntCount) (hne : i ≠ j) :
      (if place oFormat gr.mDomain gr.mPntCount i (words i % gr.mDomain) = place oFormat gr.mDomain gr.mPntCount j c then
        val (valueAt value i) else 0) = 0 := by
    refine if_neg fun h => hne ?_
    exact (place_inj (Finset.mem_range.mp hi) hj (Nat.mod_lt _ (by omega)) hc h).1
  rw [ha, hb, Finset.sum_eq_single_of_mem j (Finset.mem_range.mpr hj) hterm, RegularPprfReceiver.deliveredAt, hpoint]
  by_cases hpt : c = words j % gr.mDomain
  · rw [if_pos hpt, if_pos rfl, hread j (by rwa [P.count]), if_pos (by rw [hpt])]
  · rw [if_neg hpt, if_neg fun h => hpt (place_inj hj hj (Nat.mod_lt _ (by omega)) hc h).2.symm, add_zero]

/-- Eight trees of four leaves, one value for all. -/
theorem run_programmed_eight : ∃ gr gs a b,
    setup 4 8 id (fun i => (block 0 i, block 1 i)) = .ok (gr, gs) ∧
    run default coeffCtxGF128.pprf gr gs #[block 0 5] 0 .interleaved true false
      (Array.replicate 32 0, Array.replicate 32 0) (⟨fun _ _ => 0, fun _ => 0⟩, ⟨fun _ _ => 0, fun _ => 0⟩) = .ok (a, b) ∧
    ∀ x < 32, read a x = read b x + ∑ j ∈ Finset.range 8,
      if place .interleaved 4 8 j (j % 4) = x then valueAt #[block 0 5] j else 0 :=
  run_programmed default coeffCtxGF128_xor.pprf_exact (by decide) (by decide) (fun _ => rfl) false (fun _ => by decide) id _ 0
    (.inl rfl) Array.size_replicate Array.size_replicate _

/-- A run without programming: the receiver has the leaves of the sender, and zero at its points. -/
theorem run_unprogrammed (A : PprfAes) (E : ctx.Exact val) {domain count : ℕ} (heven : domain % 2 = 0) (htwo : 2 ≤ domain)
    (hformat : oFormat = .interleaved → count % 8 = 0) (mEagerSend : Bool) (hcount : mEagerSend = false → 0 < count)
    (words : ℕ → ℕ) (ot : ℕ → Block × Block) (seed : Block) (value : Array F) {output : Array F × Array F}
    (hrecv : output.1.size = domain * count) (hsend : output.2.size = domain * count) (scratch : Scratch F × Scratch F) :
    ∃ gr gs a b, setup domain count words ot = .ok (gr, gs) ∧
      run A ctx gr gs value seed oFormat false mEagerSend output scratch = .ok (a, b) ∧ ∀ x < domain * count,
        ((∃ j < count, place oFormat domain count j (words j % domain) = x) → val (read a x) = 0) ∧
        ((∀ j < count, place oFormat domain count j (words j % domain) ≠ x) → val (read a x) = val (read b x)) := by
  obtain ⟨gr, gs, hsetup, P, rfl, rfl, hpoint⟩ := setup_ok heven htwo count words ot
  obtain ⟨a, b, hrun, -, -, hleaves⟩ := run_leaves A E P hformat false mEagerSend seed value rfl hrecv hsend scratch
  refine ⟨gr, gs, a, b, hsetup, hrun, fun x hx => ⟨?_, fun hne => ?_⟩⟩
  · rintro ⟨j, hj, rfl⟩
    obtain ⟨-, ha⟩ := hleaves j hj (words j % gr.mDomain) (Nat.mod_lt _ (by omega))
    rw [ha, RegularPprfReceiver.deliveredAt, hpoint, if_pos rfl, if_neg (by decide)]
  · obtain ⟨j, hj, c, hc, rfl⟩ := place_surj hformat hx
    obtain ⟨hb, ha⟩ := hleaves j hj c hc
    rw [ha, hb, RegularPprfReceiver.deliveredAt, hpoint, if_neg]
    rintro rfl
    exact hne j hj rfl

theorem run_unprogrammed_eight : ∃ gr gs a b,
    setup 4 8 id (fun i => (block 0 i, block 1 i)) = .ok (gr, gs) ∧
    run default coeffCtxGF128.pprf gr gs #[] 0 .byLeafIndex false true
      (Array.replicate 32 0, Array.replicate 32 0) (⟨fun _ _ => 0, fun _ => 0⟩, ⟨fun _ _ => 0, fun _ => 0⟩) = .ok (a, b) ∧
    ∀ x < 32, ((∃ j < 8, place .byLeafIndex 4 8 j (j % 4) = x) → read a x = 0) ∧
      ((∀ j < 8, place .byLeafIndex 4 8 j (j % 4) ≠ x) → read a x = read b x) :=
  run_unprogrammed default coeffCtxGF128_xor.pprf_exact (by decide) (by decide) (by simp) true (by simp) id _ 0 #[]
    Array.size_replicate Array.size_replicate _

/-- Output format, order of the messages and old memory are no part of what a run delivers. -/
theorem run_formats (A : PprfAes) (E : ctx.Exact val) {domain count : ℕ} (heven : domain % 2 = 0) (htwo : 2 ≤ domain)
    {oFormat' : PprfOutputFormat} (hformat : oFormat = .interleaved → count % 8 = 0)
    (hformat' : oFormat' = .interleaved → count % 8 = 0) (hcount : 0 < count) (programPuncturedPoint mEagerSend mEagerSend' : Bool)
    (words : ℕ → ℕ) (ot : ℕ → Block × Block) (seed : Block) {value : Array F}
    (hvalue : programPuncturedPoint = true → value.size = 1 ∨ value.size = count) {output output' : Array F × Array F}
    (hrecv : output.1.size = domain * count) (hsend : output.2.size = domain * count)
    (hrecv' : output'.1.size = domain * count) (hsend' : output'.2.size = domain * count)
    (scratch scratch' : Scratch F × Scratch F) :
    ∃ gr gs a b a' b', setup domain count words ot = .ok (gr, gs) ∧
      run A ctx gr gs value seed oFormat programPuncturedPoint mEagerSend output scratch = .ok (a, b) ∧
      run A ctx gr gs value seed oFormat' programPuncturedPoint mEagerSend' output' scratch' = .ok (a', b') ∧
      ∀ j < count, ∀ c < domain,
        val (read a (place oFormat domain count j c)) = val (read a' (place oFormat' domain count j c)) ∧
        read b (place oFormat domain count j c) = read b' (place oFormat' domain count j c) := by
  obtain ⟨gr, gs, hsetup, P, rfl, rfl, -⟩ := setup_ok heven htwo count words ot
  obtain ⟨mValue, hprog⟩ : ∃ mValue, gs.programValue programPuncturedPoint value = .ok mValue := by
    cases programPuncturedPoint with
    | false => exact ⟨_, rfl⟩
    | true =>
      obtain ⟨mValue, h, -⟩ := setValue_ok (g := gs) (by rw [P.count]; exact hvalue rfl)
      exact ⟨mValue, h⟩
  obtain ⟨a, b, hrun, -, -, hleaves⟩ := run_leaves A E P hformat programPuncturedPoint mEagerSend seed value hprog hrecv
    hsend scratch
  obtain ⟨a', b', hrun', -, -, hleaves'⟩ := run_leaves A E P hformat' programPuncturedPoint mEagerSend' seed value hprog
    hrecv' hsend' scratch'
  refine ⟨gr, gs, a, b, a', b', hsetup, hrun, hrun', fun j hj c hc => ?_⟩
  obtain ⟨hb, ha⟩ := hleaves j hj c hc
  obtain ⟨hb', ha'⟩ := hleaves' j hj c hc
  exact ⟨ha.trans ha'.symm, hb.trans hb'.symm⟩

theorem run_formats_eight : ∃ gr gs a b a' b',
    setup 4 8 id (fun i => (block 0 i, block 1 i)) = .ok (gr, gs) ∧
    run default coeffCtxGF128.pprf gr gs #[block 0 5] 0 .byTreeIndex true true
      (Array.replicate 32 0, Array.replicate 32 0) (⟨fun _ _ => 0, fun _ => 0⟩, ⟨fun _ _ => 0, fun _ => 0⟩) = .ok (a, b) ∧
    run default coeffCtxGF128.pprf gr gs #[block 0 5] 0 .interleaved true false
      (Array.replicate 32 (block 0 7), Array.replicate 32 (block 0 7)) (⟨fun _ _ => 0, fun _ => 0⟩, ⟨fun _ _ => 0, fun _ => 0⟩) = .ok (a', b') ∧
    ∀ j < 8, ∀ c < 4, read a (place .byTreeIndex 4 8 j c) = read a' (place .interleaved 4 8 j c) ∧
      read b (place .byTreeIndex 4 8 j c) = read b' (place .interleaved 4 8 j c) :=
  run_formats default coeffCtxGF128_xor.pprf_exact (by decide) (by decide) (by simp) (fun _ => rfl) (by decide) true true false
    id _ 0 (fun _ => .inl rfl) Array.size_replicate Array.size_replicate Array.size_replicate Array.size_replicate _ _

end Pprf
end ExtFieldPcg
