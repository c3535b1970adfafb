import ExtFieldPcg.TernaryDpf

/-! What the loops of `TernaryDpf.h` leave in the matrices: each level in closed form, whichever trees go
    through the batches of eight and whichever one by one. -/

open Buffer

namespace ExtFieldPcg
namespace TernaryDpf

/-! ### Tags -/

def tagOf (b : Block) : Block := if b.bit 0 then Block.allSame 0xFF else 0

theorem lsb_eq (b : Block) : lsb b = if b.bit 0 then 1 else 0 := by
  have hbit : ∀ i < 8, (1 : BitVec 8).getLsbD i = decide (i = 0) := by decide
  refine BitVec.eq_of_getLsbD_eq fun i hi => ?_
  rw [lsb, BitVec.getLsbD_and, hbit i hi, BitVec.getLsbD_extractLsb', decide_eq_true hi, Bool.true_and, zero_add]
  by_cases h : i = 0
  · subst h
    rw [decide_eq_true rfl, Bool.and_true, Block.bit]
    cases b.bits.getLsbD 0 <;> rfl
  · rw [decide_eq_false h, Bool.and_false]
    split
    · rw [hbit i hi, decide_eq_false h]
    · simp

theorem allSame_neg_lsb (b : Block) : Block.allSame (-lsb b) = tagOf b := by
  rw [lsb_eq, tagOf]
  split
  · rfl
  · decide +kernel

/-- The batches and the single trees take the tag of a seed in two ways. -/
theorem tagBit_eq (b : Block) : tagBit b = tagOf b := by
  have hbit : ∀ i < 128, (block 0 1).bit i = decide (i = 0) := by decide
  have hand : b &&& block 0 1 = if b.bit 0 then block 0 1 else 0 := by
    refine Block.ext_bit fun i hi => ?_
    rw [Block.bit_and, hbit i hi]
    by_cases h : i = 0
    · subst h
      by_cases hb : b.bit 0 = true
      · rw [if_pos hb, hbit 0 hi, hb]
        rfl
      · rw [if_neg hb, Block.bit_zero, Bool.eq_false_of_not_eq_true hb, Bool.false_and]
    · split
      · rw [hbit i hi, decide_eq_false h, Bool.and_false]
      · rw [decide_eq_false h, Bool.and_false, Block.bit_zero]
  simp only [tagBit, hand, tagOf]
  split
  · decide +kernel
  · decide +kernel

/-! ### Setting the entries of one row -/

theorem Rows.run_set {α : Type} (i k : ℕ) (f : ℕ → α → α) (m : Rows α) (n : ℕ) :
    Loop.run n (fun q m => m.set i (k + q) (f q (m i (k + q)))) m =
      fun i' k' => if i' = i ∧ k ≤ k' ∧ k' < k + n then f (k' - k) (m i' k') else m i' k' := by
  refine Loop.run_induct (fun n t => t = fun i' k' =>
    if i' = i ∧ k ≤ k' ∧ k' < k + n then f (k' - k) (m i' k') else m i' k') ?_ ?_
  · funext i' k'
    rw [if_neg (by omega)]
  · rintro q - t rfl
    funext i' k'
    refine Loop.ite_append (by omega) ?_
    rintro ⟨rfl, rfl⟩
    rw [Nat.add_sub_cancel_left]
    exact congrArg (f q) (if_neg (by omega))

/-! ### One node -/

/-- The corrected seed of node `r` in tree `c`. -/
def corrected (parent sigma seed : Rows Block) (r c : ℕ) : Block :=
  seed r c ^^^ (parent (r / 3) c &&& sigma (r % 3) c)

/-- The level with node `r` expanded in the trees from `k` up to `k + n`, from its corrected seeds `s`. -/
def expanded (A : Aes) (r k n : ℕ) (s : ℕ → Block) (st : Level) : Level where
  seed := fun r' c => if r' = r ∧ k ≤ c ∧ c < k + n then tagOf (s c) else st.seed r' c
  child := fun r' c => if 3 * r ≤ r' ∧ r' < 3 * r + 3 ∧ k ≤ c ∧ c < k + n then A.hashBlock (r' - 3 * r) (s c)
    else st.child r' c
  z := fun i c => if i < 3 ∧ k ≤ c ∧ c < k + n then st.z i c + A.hashBlock i (s c) else st.z i c

theorem Level.ext {x y : Level} (hseed : ∀ r c, x.seed r c = y.seed r c) (hchild : ∀ r c, x.child r c = y.child r c)
    (hz : ∀ i c, x.z i c = y.z i c) : x = y := by
  cases x
  cases y
  simp only [Level.mk.injEq]
  exact ⟨funext₂ hseed, funext₂ hchild, funext₂ hz⟩

theorem run_hash (A : Aes) (r k n : ℕ) (s : ℕ → Block) (st : Level) :
    Loop.run 3 (fun i st => { st with
      child := Loop.run n (fun q m => m.set (3 * r + i) (k + q) (A.hashBlock i (s (k + q)))) st.child
      z := Loop.run n (fun q m => m.set i (k + q) (m i (k + q) ^^^ A.hashBlock i (s (k + q)))) st.z }) st =
    { expanded A r k n s st with seed := st.seed } := by
  have hrun := Loop.run_induct (n := 3) (s := st)
    (f := fun i st => { st with
      child := Loop.run n (fun q m => m.set (3 * r + i) (k + q) (A.hashBlock i (s (k + q)))) st.child
      z := Loop.run n (fun q m => m.set i (k + q) (m i (k + q) ^^^ A.hashBlock i (s (k + q)))) st.z })
    (fun i t => t = ⟨st.seed,
      fun r' c => if 3 * r ≤ r' ∧ r' < 3 * r + i ∧ k ≤ c ∧ c < k + n then A.hashBlock (r' - 3 * r) (s c)
        else st.child r' c,
      fun i' c => if i' < i ∧ k ≤ c ∧ c < k + n then st.z i' c + A.hashBlock i' (s c) else st.z i' c⟩) ?_ ?_
  · exact hrun
  · refine Level.ext (fun _ _ => rfl) (fun r' c => ?_) fun i' c => ?_
    · simp only [if_neg (by omega : ¬ (3 * r ≤ r' ∧ r' < 3 * r + 0 ∧ k ≤ c ∧ c < k + n))]
    · simp only [if_neg (by omega : ¬ (i' < 0 ∧ k ≤ c ∧ c < k + n))]
  · rintro i - t rfl
    refine Level.ext (fun _ _ => rfl) (fun r' c => ?_) fun i' c => ?_
    · simp only [Rows.run_set (3 * r + i) k fun q _ => A.hashBlock i (s (k + q))]
      refine Loop.ite_append (by omega) fun h => ?_
      rw [(by omega : k + (c - k) = c), (by omega : r' - 3 * r = i)]
    · simp only [Rows.run_set i k fun q x => x ^^^ A.hashBlock i (s (k + q))]
      refine Loop.ite_append (by omega) fun h => ?_
      rw [if_neg (by omega), (by omega : k + (c - k) = c), h.1, Block.xor_eq_add]

theorem expandBatch_eq (A : Aes) (parent sigma : Rows Block) {L j : ℕ} (hj : j < 3) (k : ℕ) (st : Level) :
    expandBatch A parent sigma L j k st = expanded A (3 * L + j) k 8 (corrected parent sigma st.seed (3 * L + j)) st := by
  have hdiv : (3 * L + j) / 3 = L := by omega
  have hmod : (3 * L + j) % 3 = j := by omega
  have hrow (i : ℕ) : 9 * L + (j * 3 + i) = 3 * (3 * L + j) + i := by ring
  have hs (c : ℕ) : corrected parent sigma st.seed (3 * L + j) c =
      st.seed (3 * L + j) c ^^^ (parent L c &&& sigma j c) := by rw [corrected, hdiv, hmod]
  simp only [expandBatch, simd8, ← hs, hrow]
  rw [run_hash A (3 * L + j) k 8 (corrected parent sigma st.seed (3 * L + j)) st]
  refine Level.ext (fun r' c => ?_) (fun _ _ => rfl) fun _ _ => rfl
  simp only [tagBit_eq, expanded,
    Rows.run_set (3 * L + j) k fun q _ => tagOf (corrected parent sigma st.seed (3 * L + j) (k + q))]
  by_cases h : r' = 3 * L + j ∧ k ≤ c ∧ c < k + 8
  · rw [if_pos h, if_pos h, (by omega : k + (c - k) = c)]
  · rw [if_neg h, if_neg h]

theorem expandOne_eq (A : Aes) (parent sigma : Rows Block) {L j : ℕ} (hj : j < 3) (k : ℕ) (st : Level) :
    expandOne A parent sigma L j k st = expanded A (3 * L + j) k 1 (corrected parent sigma st.seed (3 * L + j)) st := by
  have hdiv : (3 * L + j) / 3 = L := by omega
  have hmod : (3 * L + j) % 3 = j := by omega
  have hrow (i : ℕ) : 9 * L + (j * 3 + i) = 3 * (3 * L + j) + i := by ring
  have hs : corrected parent sigma st.seed (3 * L + j) k =
      st.seed (3 * L + j) k ^^^ (parent L k &&& sigma j k) := by rw [corrected, hdiv, hmod]
  have hrun := run_hash A (3 * L + j) k 1 (corrected parent sigma st.seed (3 * L + j)) st
  simp only [Loop.run_succ 0, Loop.run_zero, add_zero] at hrun
  simp only [expandOne, ← hs, hrow, allSame_neg_lsb, hrun]
  refine Level.ext (fun r' c => ?_) (fun _ _ => rfl) fun _ _ => rfl
  simp only [Rows.set, expanded]
  by_cases h : r' = 3 * L + j ∧ c = k
  · rw [if_pos h, if_pos (by omega), h.2]
  · rw [if_neg h, if_neg (by omega)]

theorem expanded_zero (A : Aes) (r k : ℕ) (s : ℕ → Block) (st : Level) : expanded A r k 0 s st = st := by
  refine Level.ext (fun r' c => ?_) (fun r' c => ?_) fun i c => ?_
  · simp only [expanded, if_neg (by omega : ¬ (r' = r ∧ k ≤ c ∧ c < k + 0))]
  · simp only [expanded, if_neg (by omega : ¬ (3 * r ≤ r' ∧ r' < 3 * r + 3 ∧ k ≤ c ∧ c < k + 0))]
  · simp only [expanded, if_neg (by omega : ¬ (i < 3 ∧ k ≤ c ∧ c < k + 0))]

/-- Trees expanded one after the other are expanded together: a tree's column is read before it is written. -/
theorem expanded_expanded (A : Aes) (parent sigma : Rows Block) (r k n : ℕ) (st : Level) :
    expanded A r k n (corrected parent sigma (expanded A r 0 k (corrected parent sigma st.seed r) st).seed r)
      (expanded A r 0 k (corrected parent sigma st.seed r) st) =
    expanded A r 0 (k + n) (corrected parent sigma st.seed r) st := by
  have hs (c : ℕ) (h : k ≤ c) :
      corrected parent sigma (expanded A r 0 k (corrected parent sigma st.seed r) st).seed r c =
        corrected parent sigma st.seed r c := by
    have hseed : (expanded A r 0 k (corrected parent sigma st.seed r) st).seed r c = st.seed r c :=
      if_neg (by omega)
    rw [corrected, hseed, corrected]
  refine Level.ext (fun r' c => ?_) (fun r' c => ?_) fun i c => ?_
  · exact Loop.ite_append (by omega) fun h => congrArg tagOf (hs c h.2.1)
  · exact Loop.ite_append (by omega) fun h => congrArg (A.hashBlock (r' - 3 * r)) (hs c h.2.2.1)
  · refine Loop.ite_append (by omega) fun h => ?_
    rw [hs c h.2.1]
    exact congrArg (· + _) (if_neg (by omega))

theorem expandNode_eq (A : Aes) (numPoints : ℕ) (parent sigma : Rows Block) {L j : ℕ} (hj : j < 3) (st : Level) :
    expandNode A numPoints parent sigma L j st =
      expanded A (3 * L + j) 0 numPoints (corrected parent sigma st.seed (3 * L + j)) st := by
  have hrun := Loop.run_batches (w := 8) (n := numPoints) (f := expandBatch A parent sigma L j)
    (g := expandOne A parent sigma L j)
    (fun k => expanded A (3 * L + j) 0 k (corrected parent sigma st.seed (3 * L + j)) st) (fun k => ?_) fun k => ?_
  · rwa [expanded_zero] at hrun
  · rw [expandBatch_eq A parent sigma hj, expanded_expanded]
  · rw [expandOne_eq A parent sigma hj, expanded_expanded]

/-! ### One level -/

/-- `m` nodes of a level expanded from the corrected seeds `C`. -/
structure Expanded (A : Aes) (numPoints : ℕ) (C : ℕ → ℕ → Block) (st : Level) (m : ℕ) (t : Level) : Prop where
  seed : ∀ r < m, ∀ c < numPoints, t.seed r c = tagOf (C r c)
  rest : ∀ r, m ≤ r → ∀ c, t.seed r c = st.seed r c
  child : ∀ r < m, ∀ i < 3, ∀ c < numPoints, t.child (3 * r + i) c = A.hashBlock i (C r c)
  z : ∀ i < 3, ∀ c < numPoints, t.z i c = ∑ r ∈ Finset.range m, A.hashBlock i (C r c)

theorem Expanded.step {A : Aes} {numPoints : ℕ} {parent sigma : Rows Block} {st t : Level} {m : ℕ}
    (E : Expanded A numPoints (corrected parent sigma st.seed) st m t) :
    Expanded A numPoints (corrected parent sigma st.seed) st (m + 1)
      (expanded A m 0 numPoints (corrected parent sigma t.seed m) t) := by
  have hC (c : ℕ) : corrected parent sigma t.seed m c = corrected parent sigma st.seed m c := by
    rw [corrected, corrected, E.rest m le_rfl]
  constructor
  · intro r hr c hc
    rcases Nat.lt_succ_iff_lt_or_eq.mp hr with hr | rfl
    · rw [← E.seed r hr c hc]
      exact if_neg (by omega)
    · rw [← hC]
      exact if_pos (by omega)
  · intro r hr c
    rw [← E.rest r (by omega) c]
    exact if_neg (by omega)
  · intro r hr i hi c hc
    rcases Nat.lt_succ_iff_lt_or_eq.mp hr with hr | rfl
    · rw [← E.child r hr i hi c hc]
      exact if_neg (by omega)
    · refine (if_pos (by omega)).trans ?_
      rw [hC, Nat.add_sub_cancel_left]
  · intro i hi c hc
    rw [Finset.sum_range_succ, ← E.z i hi c hc, ← hC]
    exact if_pos (by omega)

theorem expandLevel_eq (A : Aes) (numPoints size : ℕ) (parent sigma : Rows Block) (st : Level) :
    expandLevel A numPoints size parent sigma st =
      Loop.run (3 * ((size + 2) / 3)) (fun r t => expanded A r 0 numPoints (corrected parent sigma t.seed r) t)
        { st with z := fun i k => if i < 3 then 0 else st.z i k } := by
  have hchunks := Loop.run_chunks 3 (3 * ((size + 2) / 3))
    (fun r t => expanded A r 0 numPoints (corrected parent sigma t.seed r) t)
    { st with z := fun i k => if i < 3 then 0 else st.z i k } ((size + 2) / 3)
  rw [Nat.min_self] at hchunks
  rw [expandLevel, ← hchunks]
  refine Loop.run_congr (fun L hL t => ?_) _
  rw [Nat.min_eq_left (by omega)]
  exact Loop.run_congr (fun j hj t => expandNode_eq A numPoints parent sigma hj t) t

theorem expandLevel_spec (A : Aes) (numPoints size : ℕ) (parent sigma : Rows Block) (st : Level) :
    Expanded A numPoints (corrected parent sigma st.seed) st (3 * ((size + 2) / 3))
      (expandLevel A numPoints size parent sigma st) := by
  rw [expandLevel_eq]
  refine Loop.run_induct (Expanded A numPoints (corrected parent sigma st.seed) st) ?_ fun m _ t E => E.step
  exact ⟨by simp, fun _ _ _ => rfl, by simp, fun i hi c _ => if_pos hi⟩

/-! ### The last layer -/

/-- The leaves with leaf `l` done in the trees from `k` up to `k + n`, from its corrected seeds `s`. -/
def leafed (A : Aes) (l k n : ℕ) (s : ℕ → Block) (st : Leaves) : Leaves where
  t := fun l' c => if l' = l ∧ k ≤ c ∧ c < k + n then lsb (s c) else st.t l' c
  sums := fun c => if k ≤ c ∧ c < k + n then st.sums c + A.roundFn (s c) (s c) else st.sums c
  leafVals := fun x => if st.leafIter ≤ x ∧ x < st.leafIter + n then
      A.roundFn (s (k + (x - st.leafIter))) (s (k + (x - st.leafIter))) else st.leafVals x
  leafIter := st.leafIter + n

theorem Leaves.ext {x y : Leaves} (ht : ∀ l c, x.t l c = y.t l c) (hsums : ∀ c, x.sums c = y.sums c)
    (hvals : ∀ i, x.leafVals i = y.leafVals i) (hiter : x.leafIter = y.leafIter) : x = y := by
  cases x
  cases y
  simp only [Leaves.mk.injEq]
  exact ⟨funext₂ ht, funext hsums, funext hvals, hiter⟩

theorem leafBatch_eq (A : Aes) (parent seed sigma : Rows Block) {L j : ℕ} (hj : j < 3) (k : ℕ) (st : Leaves) :
    leafBatch A parent seed sigma L j k st = leafed A (3 * L + j) k 8 (corrected parent sigma seed (3 * L + j)) st := by
  have hdiv : (3 * L + j) / 3 = L := by omega
  have hmod : (3 * L + j) % 3 = j := by omega
  have hs (c : ℕ) : corrected parent sigma seed (3 * L + j) c =
      seed (3 * L + j) c ^^^ (parent L c &&& sigma j c) := by rw [corrected, hdiv, hmod]
  generalize corrected parent sigma seed (3 * L + j) = s at hs ⊢
  simp only [leafBatch, simd8, ← hs]
  simp only [Rows.run_set (3 * L + j) k fun q _ => lsb (s (k + q)),
    Loop.run_update st.leafIter fun q _ => A.roundFn (s (k + q)) (s (k + q))]
  refine Leaves.ext (fun l' c => ?_) (fun c => ?_) (fun x => ?_) rfl
  · simp only [leafed]
    by_cases h : l' = 3 * L + j ∧ k ≤ c ∧ c < k + 8
    · rw [if_pos h, if_pos h, (by omega : k + (c - k) = c)]
    · rw [if_neg h, if_neg h]
  · refine (congrFun (Loop.run_update k (fun q x => x ^^^ _) st.sums 8) c).trans ?_
    simp only [leafed]
    by_cases h : k ≤ c ∧ c < k + 8
    · rw [if_pos h, if_pos h, if_pos (by omega), Nat.add_sub_cancel_left, (by omega : k + (c - k) = c)]
      rfl
    · rw [if_neg h, if_neg h]
  · rfl

theorem leafOne_eq (A : Aes) (parent seed sigma : Rows Block) {L j : ℕ} (hj : j < 3) (k : ℕ) (st : Leaves) :
    leafOne A parent seed sigma L j k st = leafed A (3 * L + j) k 1 (corrected parent sigma seed (3 * L + j)) st := by
  have hdiv : (3 * L + j) / 3 = L := by omega
  have hmod : (3 * L + j) % 3 = j := by omega
  have hs : corrected parent sigma seed (3 * L + j) k =
      seed (3 * L + j) k ^^^ (parent L k &&& sigma j k) := by rw [corrected, hdiv, hmod]
  generalize corrected parent sigma seed (3 * L + j) = s at hs ⊢
  simp only [leafOne, ← hs, Function.update_self]
  refine Leaves.ext (fun l' c => ?_) (fun c => ?_) (fun x => ?_) rfl
  · simp only [Rows.set, leafed]
    by_cases h : l' = 3 * L + j ∧ c = k
    · rw [if_pos h, if_pos (by omega), h.2]
    · rw [if_neg h, if_neg (by omega)]
  · simp only [leafed]
    by_cases h : c = k
    · rw [h, Function.update_self, if_pos (by omega), Block.xor_eq_add]
    · rw [Function.update_of_ne h, if_neg (by omega)]
  · simp only [leafed]
    by_cases h : x = st.leafIter
    · rw [h, Function.update_self, if_pos (by omega), Nat.sub_self, add_zero]
    · rw [Function.update_of_ne h, if_neg (by omega)]

theorem leafed_zero (A : Aes) (l k : ℕ) (s : ℕ → Block) (st : Leaves) : leafed A l k 0 s st = st := by
  refine Leaves.ext (fun l' c => ?_) (fun c => ?_) (fun x => ?_) rfl
  · simp only [leafed, if_neg (by omega : ¬ (l' = l ∧ k ≤ c ∧ c < k + 0))]
  · simp only [leafed, if_neg (by omega : ¬ (k ≤ c ∧ c < k + 0))]
  · simp only [leafed, if_neg (by omega : ¬ (st.leafIter ≤ x ∧ x < st.leafIter + 0))]

theorem leafed_leafed (A : Aes) (l k n : ℕ) (s : ℕ → Block) (st : Leaves) :
    leafed A l k n s (leafed A l 0 k s st) = leafed A l 0 (k + n) s st := by
  refine Leaves.ext (fun l' c => ?_) (fun c => ?_) (fun x => ?_) ?_
  · exact Loop.ite_append (by omega) fun _ => rfl
  · exact Loop.ite_append (by omega) fun h => congrArg (· + _) (if_neg (by omega))
  · have hiter : (leafed A l 0 k s st).leafIter = st.leafIter + k := rfl
    refine Loop.ite_append (by omega) fun h => ?_
    rw [(by omega : k + (x - (leafed A l 0 k s st).leafIter) = 0 + (x - st.leafIter))]
  · exact Nat.add_assoc st.leafIter k n

theorem leafNode_eq (A : Aes) (numPoints : ℕ) (parent seed sigma : Rows Block) {L j : ℕ} (hj : j < 3) (st : Leaves) :
    leafNode A numPoints parent seed sigma L j st =
      leafed A (3 * L + j) 0 numPoints (corrected parent sigma seed (3 * L + j)) st := by
  have hrun := Loop.run_batches (w := 8) (n := numPoints) (f := leafBatch A parent seed sigma L j)
    (g := leafOne A parent seed sigma L j)
    (fun k => leafed A (3 * L + j) 0 k (corrected parent sigma seed (3 * L + j)) st) (fun k => ?_) fun k => ?_
  · rwa [leafed_zero] at hrun
  · rw [leafBatch_eq A parent seed sigma hj, leafed_leafed]
  · rw [leafOne_eq A parent seed sigma hj, leafed_leafed]

/-- `m` leaves of the last layer done from the corrected seeds `C`. -/
structure Leafed (A : Aes) (numPoints : ℕ) (C : ℕ → ℕ → Block) (m : ℕ) (t : Leaves) : Prop where
  tag : ∀ l < m, ∀ c < numPoints, t.t l c = lsb (C l c)
  sums : ∀ c < numPoints, t.sums c = ∑ l ∈ Finset.range m, A.roundFn (C l c) (C l c)
  leafVals : ∀ l < m, ∀ c < numPoints, t.leafVals (l * numPoints + c) = A.roundFn (C l c) (C l c)
  leafIter : t.leafIter = m * numPoints

theorem Leafed.step {A : Aes} {numPoints : ℕ} {C : ℕ → ℕ → Block} {t : Leaves} {m : ℕ}
    (E : Leafed A numPoints C m t) : Leafed A numPoints C (m + 1) (leafed A m 0 numPoints (C m) t) := by
  have hiter := E.leafIter
  constructor
  · intro l hl c hc
    rcases Nat.lt_succ_iff_lt_or_eq.mp hl with hl | rfl
    · rw [← E.tag l hl c hc]
      exact if_neg (by omega)
    · exact if_pos (by omega)
  · intro c hc
    rw [Finset.sum_range_succ, ← E.sums c hc]
    exact if_pos (by omega)
  · intro l hl c hc
    rcases Nat.lt_succ_iff_lt_or_eq.mp hl with hl | rfl
    · have hmul : (l + 1) * numPoints ≤ m * numPoints := Nat.mul_le_mul_right _ hl
      rw [← E.leafVals l hl c hc]
      rw [Nat.succ_mul] at hmul
      exact if_neg (by omega)
    · refine (if_pos (by omega)).trans ?_
      rw [hiter, Nat.add_sub_cancel_left, zero_add]
  · show t.leafIter + numPoints = (m + 1) * numPoints
    rw [hiter, Nat.succ_mul]

theorem lastLayer_spec (A : Aes) (numPoints domain : ℕ) (parent seed sigma : Rows Block) (st : Leaves)
    (hsums : ∀ c, st.sums c = 0) (hiter : st.leafIter = 0) :
    Leafed A numPoints (corrected parent sigma seed) domain
      (lastLayer A numPoints domain parent seed sigma st) := by
  have hchunks := Loop.run_chunks 3 domain
    (fun l t => leafed A l 0 numPoints (corrected parent sigma seed l) t) st ((domain + 2) / 3)
  rw [Nat.min_eq_right (by omega)] at hchunks
  have hrun : lastLayer A numPoints domain parent seed sigma st =
      Loop.run domain (fun l t => leafed A l 0 numPoints (corrected parent sigma seed l) t) st := by
    rw [lastLayer, ← hchunks]
    refine Loop.run_congr (fun L _ t => ?_) _
    exact Loop.run_congr (fun j hj t => leafNode_eq A numPoints parent seed sigma (by omega) t) t
  rw [hrun]
  refine Loop.run_induct (Leafed A numPoints (corrected parent sigma seed)) ?_ fun m _ t E => E.step
  exact ⟨by simp, fun c _ => hsums c, by simp, by rw [hiter, Nat.zero_mul]⟩

end TernaryDpf
end ExtFieldPcg
