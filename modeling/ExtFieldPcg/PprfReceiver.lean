import ExtFieldPcg.PprfSender

/-! What the receiver of the punctured PRF computes from the messages of the sender: the levels of the same trees with
    the path to its point left out, and the leaves of the sender but for that point. -/

open Buffer

namespace ExtFieldPcg
open Pprf

/-- Receiver and sender are configured for the same trees, and each base OT of the receiver is the one that its
    choice bit selects. -/
structure PprfPaired (gr : RegularPprfReceiver) (gs : RegularPprf (Block × Block)) : Prop where
  domain : gs.mDomain = gr.mDomain
  depth : gs.mDepth = gr.mDepth
  count : gs.mPntCount = gr.mPntCount
  even : gr.mDomain % 2 = 0
  two_le : 2 ≤ gr.mDomain
  log : gr.mDepth = log2ceil gr.mDomain
  leaf : ∀ j < gr.mPntCount, gr.leafPoint j < gr.mDomain
  base : ∀ i < gr.mPntCount, ∀ k < gr.mDepth, gr.baseOt i k = pick (gs.baseOt i k) (gr.mBaseChoices i k)

/-! ### Points and lanes -/

namespace RegularPprfReceiver

theorem run_or_testBit_lt (f : ℕ → Bool) (n : ℕ) : Loop.run n (fun k p => p ||| (f k).toNat <<< k) 0 < 2 ^ n ∧
    ∀ k < n, (Loop.run n (fun k p => p ||| (f k).toNat <<< k) 0).testBit k = f k := by
  induction n with
  | zero => simp
  | succ n ih =>
    have hbit : (f n).toNat <<< n < 2 ^ (n + 1) := by
      rw [Nat.shiftLeft_eq, pow_succ, mul_comm]
      exact Nat.mul_lt_mul_of_pos_left (by cases f n <;> decide) (by positivity)
    rw [Loop.run_succ]
    refine ⟨Nat.or_lt_two_pow (ih.1.trans_le (Nat.pow_le_pow_right (by decide) (Nat.le_succ n))) hbit, fun k hk => ?_⟩
    rw [Nat.testBit_or, Nat.testBit_shiftLeft]
    rcases Nat.lt_succ_iff_lt_or_eq.mp hk with hlt | rfl
    · rw [ih.2 k hlt, decide_eq_false (by omega), Bool.false_and, Bool.or_false]
    · rw [Nat.testBit_lt_two_pow ih.1, Nat.sub_self]
      cases f k <;> simp

theorem eq_toNat_testBit {n : ℕ} (h : n < 2) : n = (n.testBit 0).toNat := by
  rcases (by omega : n = 0 ∨ n = 1) with rfl | rfl <;> rfl

theorem leafPoint_testBit (g : RegularPprfReceiver) (j : ℕ) {k : ℕ} (hk : k < g.mDepth) :
    (g.leafPoint j).testBit k = g.mBaseChoices j k := (run_or_testBit_lt (g.mBaseChoices j) g.mDepth).2 k hk

theorem leafPoint_lt_two_pow (g : RegularPprfReceiver) (j : ℕ) : g.leafPoint j < 2 ^ g.mDepth :=
  (run_or_testBit_lt (g.mBaseChoices j) g.mDepth).1

end RegularPprfReceiver

namespace Pprf

theorem size_setLane (mem : Array (Lanes Block)) (start i j : ℕ) (v : Block) : (setLane mem start i j v).size = mem.size :=
  size_write ..

theorem read_setLane {mem : Array (Lanes Block)} {start i : ℕ} (h : start + i < mem.size) (j : ℕ) (v : Block) (c : ℕ)
    (k : Fin 8) : read (setLane mem start i j v) (start + c) k =
      if c = i ∧ k = lane j then v else read mem (start + c) k := by
  by_cases hc : c = i
  · subst hc
    rw [setLane, read_write_self h, Function.update_apply]
    simp
  · rw [setLane, read_write_ne (by omega), if_neg fun h => hc h.1]

/-- The loop that corrects the path of every tree on one level. -/
theorem run_setLane_spec (s m : ℕ → ℕ) (v : ℕ → Block) (start cnt : ℕ) {n : ℕ} (mem : Array (Lanes Block)) (hn : n ≤ 8)
    (hfit : start + cnt ≤ mem.size) (hs : ∀ j < n, s j < cnt) (hm : ∀ j < n, m j < cnt) :
    let mem' := Loop.run n (fun i mem => setLane (setLane mem start (s i) i (v i)) start (m i) i 0) mem
    mem'.size = mem.size ∧ ∀ j < n, ∀ c < cnt, read mem' (start + c) (lane j) =
      if c = m j then 0 else if c = s j then v j else read mem (start + c) (lane j) := by
  intro mem'
  have hrun := Loop.run_induct (fun t (mem' : Array (Lanes Block)) => mem'.size = mem.size ∧
      (∀ j < t, ∀ c < cnt, read mem' (start + c) (lane j) =
        if c = m j then 0 else if c = s j then v j else read mem (start + c) (lane j)) ∧
      ∀ j, t ≤ j → j < 8 → ∀ c < cnt, read mem' (start + c) (lane j) = read mem (start + c) (lane j))
    (f := fun i mem => setLane (setLane mem start (s i) i (v i)) start (m i) i 0) (n := n) (s := mem)
    ⟨rfl, by simp, fun _ _ _ _ _ => rfl⟩ ?_
  · exact ⟨hrun.1, hrun.2.1⟩
  · rintro t ht mem' ⟨hsize, hdone, hrest⟩
    have hst := hs t ht
    have hmt := hm t ht
    have hread (c : ℕ) (k : Fin 8) : read (setLane (setLane mem' start (s t) t (v t)) start (m t) t 0) (start + c) k =
        if c = m t ∧ k = lane t then 0 else if c = s t ∧ k = lane t then v t else read mem' (start + c) k := by
      rw [read_setLane (by rw [size_setLane]; omega), read_setLane (by omega)]
    refine ⟨by rw [size_setLane, size_setLane, hsize], fun j hj c hc => ?_, fun j hj hj8 c hc => ?_⟩
    · rw [hread]
      rcases Nat.lt_succ_iff_lt_or_eq.mp hj with hlt | rfl
      · have hne : lane j ≠ lane t := fun h => hlt.ne (lane_inj (by omega) (by omega) h)
        rw [if_neg fun h => hne h.2, if_neg fun h => hne h.2, hdone j hlt c hc]
      · simp only [and_true]
        rw [hrest j le_rfl (by omega) c hc]
    · have hne : lane j ≠ lane t := fun h => absurd (lane_inj hj8 (by omega) h) (by omega)
      rw [hread, if_neg fun h => hne h.2, if_neg fun h => hne h.2, hrest j (by omega) hj8 c hc]

theorem child_zero (A : PprfAes) (b : Bool) : A.child b 0 = pick (A.roundEnc (A.ecbEncBlock 0) 0, A.ecbEncBlock 0) b := by
  cases b
  · rfl
  · exact Block.addEpi64_zero _

theorem sum_child_range_one (A : PprfAes) (root : Block) (b : Bool) : sideSum A root 1 0 b = A.child b root :=
  Finset.sum_range_one _

end Pprf

theorem RegularPprf.pick_maskedSums (A : PprfAes) (g : RegularPprf (Block × Block)) (root : Lanes Block) (treeIdx d j : ℕ)
    (b : Bool) : pick (g.maskedSums A root treeIdx d j) b =
      sideSum A (root (lane j)) (width g.mDomain g.mDepth d) d b + pick (g.baseOt (treeIdx + j) (g.mDepth - 1 - d)) (!b) := by
  cases b <;> rfl

/-! ### The inner levels -/

namespace RegularPprfReceiver

variable {F : Type} {M : Type*} [Inhabited F] [AddCommGroup M] {A : PprfAes} {ctx : PprfCtx F} {val : F → M}
  {gr : RegularPprfReceiver} {gs : RegularPprf (Block × Block)} {root : Lanes Block} {mValue : Array F}
  {treeIdx rem encOffset leafMsgOffset size d : ℕ} {programPuncturedPoint : Bool} {levels : Array Span}
  {mem : Array (Lanes Block)} {buff : ExpandBuffer}

/-- Level `d` of the first `rem` trees is in memory, with zero on the path to each point. -/
structure RecvLevels (A : PprfAes) (gr : RegularPprfReceiver) (root : Lanes Block) (treeIdx rem size : ℕ)
    (levels : Array Span) (d : ℕ) (mem : Array (Lanes Block)) : Prop where
  sizeMem : mem.size = size
  node : ∀ j < rem, ∀ i < (read levels d).size, read mem ((read levels d).start + i) (lane j) =
    Ggm.punctured A.child (root (lane j)) 0 d (gr.leafPoint (j + treeIdx) >>> (gr.mDepth - d)) i

theorem firstLevel_spec (P : PprfPaired gr gs)
    (S : gs.Sent A ctx val root mValue treeIdx rem encOffset leafMsgOffset programPuncturedPoint buff)
    (T : TreeLayout gr.mDomain gr.mDepth size levels) (hmem : mem.size = size) (hrem : rem ≤ 8)
    (htrees : treeIdx + rem ≤ gr.mPntCount) (hdepth : 1 < gr.mDepth) :
    RecvLevels A gr root treeIdx rem size levels 1 (firstLevel gr treeIdx rem encOffset levels buff.sums mem) := by
  have hone : width gr.mDomain gr.mDepth 0 = 1 := width_zero (by have := P.two_le; omega) ((log2ceil_le_iff _ _).mp P.log.ge)
  have hsize : (read levels 1).size = 2 := by rw [T.succ 0 hdepth, hone]
  have hfits := T.fits 1 hdepth
  obtain ⟨hsize', hread⟩ := run_setLane_spec (fun i => (!gr.mBaseChoices (i + treeIdx) (gr.mDepth - 1)).toNat)
    (fun i => (gr.mBaseChoices (i + treeIdx) (gr.mDepth - 1)).toNat)
    (fun i => gr.baseOt (i + treeIdx) (gr.mDepth - 1) ^^^
      pick (read buff.sums (encOffset + i)) (!gr.mBaseChoices (i + treeIdx) (gr.mDepth - 1)))
    (read levels 1).start 2 mem hrem (by omega) (fun _ _ => Nat.lt_succ_of_le (Bool.toNat_le _))
    (fun _ _ => Nat.lt_succ_of_le (Bool.toNat_le _))
  refine ⟨hsize'.trans hmem, fun j hj i hi => ?_⟩
  rw [hsize] at hi
  set active := gr.mBaseChoices (j + treeIdx) (gr.mDepth - 1) with hactive
  have hpath : gr.leafPoint (j + treeIdx) >>> (gr.mDepth - 1) = active.toNat := by
    have hlt : gr.leafPoint (j + treeIdx) >>> (gr.mDepth - 1) < 2 := by
      rw [Nat.shiftRight_eq_div_pow, Nat.div_lt_iff_lt_mul (by positivity), ← pow_succ',
        Nat.sub_add_cancel (by omega)]
      exact gr.leafPoint_lt_two_pow _
    have hbit : (gr.leafPoint (j + treeIdx) >>> (gr.mDepth - 1)).testBit 0 = active := by
      rw [Nat.testBit_shiftRight, Nat.add_zero, gr.leafPoint_testBit _ (by omega)]
    rw [eq_toNat_testBit hlt, hbit]
  rw [hpath]
  refine (hread j hj i hi).trans ?_
  by_cases hi' : i = active.toNat
  · rw [if_pos hi', hi', Ggm.punctured_self]
  · have hother : i = (!active).toNat := by
      cases h : active <;> simp only [h, Bool.toNat_true, Bool.toNat_false, Bool.not_true, Bool.not_false] at hi' ⊢ <;> omega
    have hbit : i.testBit 0 = !active := by
      rw [hother]
      cases active <;> rfl
    have hsums := S.sums 0 (by rw [P.depth]; exact hdepth) j hj
    rw [Nat.zero_mul, Nat.add_zero] at hsums
    rw [if_neg hi', if_pos hother, Ggm.punctured_ne hi', hsums, gs.pick_maskedSums, P.domain, P.depth, hone,
      sum_child_range_one, Bool.not_not, Nat.sub_zero, P.base _ (by omega) _ (by omega), ← hactive, add_comm j treeIdx,
      Ggm.node_succ, hbit, Block.xor_eq_add, add_comm, Block.add_add_cancel_right]
    rfl

/-- The sum of the sender, less what the receiver has summed up, is the child next to the path. -/
theorem sibling_eq (P : PprfPaired gr gs) {j a : ℕ} (hd : d < gr.mDepth) (hj : treeIdx + j < gr.mPntCount)
    (ha : gr.leafPoint (treeIdx + j) >>> (gr.mDepth - 1 - d) = a) (hlt : a / 2 < width gr.mDomain gr.mDepth d)
    (b : Bool) (hb : b = !a.testBit 0) :
    pick (gs.maskedSums A root treeIdx d j) b + (A.child b 0 + ∑ q ∈ Finset.range (width gr.mDomain gr.mDepth d),
      A.child b (Ggm.punctured A.child (root (lane j)) 0 d (a / 2) q)) + gr.baseOt (treeIdx + j) (gr.mDepth - 1 - d) =
        Ggm.node A.child (root (lane j)) (d + 1) (a ^^^ 1) := by
  have hchoice : gr.mBaseChoices (treeIdx + j) (gr.mDepth - 1 - d) = !b := by
    rw [← gr.leafPoint_testBit _ (by omega), hb, Bool.not_not, ← ha, Nat.testBit_shiftRight, Nat.add_zero]
  have hrecover := Ggm.recover A.child (root (lane j)) 0 d (A.child b) hlt
  rw [gs.pick_maskedSums, P.domain, P.depth, P.base _ hj _ (by omega), hchoice, Ggm.node_succ, Ggm.xor_one_div_two,
    Ggm.testBit_xor_one, ← hb, ← hrecover]
  simp only [sideSum, Block.sub_eq_add]
  have hneg : -(A.child b 0) = A.child b 0 := rfl
  rw [hneg, add_right_comm, add_assoc _ (pick _ _) (pick _ _), Block.add_self, add_zero]

theorem RecvLevels.step (R : RecvLevels A gr root treeIdx rem size levels d mem) (P : PprfPaired gr gs)
    (S : gs.Sent A ctx val root mValue treeIdx rem encOffset leafMsgOffset programPuncturedPoint buff)
    (T : TreeLayout gr.mDomain gr.mDepth size levels) (hrem : rem ≤ 8) (htrees : treeIdx + rem ≤ gr.mPntCount)
    (hd : d + 1 < gr.mDepth) :
    RecvLevels A gr root treeIdx rem size levels (d + 1) (recvLevel A gr treeIdx rem encOffset levels buff.sums d mem) := by
  obtain rfl := R.sizeMem
  have htwo := P.two_le
  have hle : gr.mDomain ≤ 2 ^ gr.mDepth := (log2ceil_le_iff _ _).mp P.log.ge
  have hwidth := T.width_le (by omega) hle (by omega : d < gr.mDepth)
  have hsize := T.succ d hd
  have hfits := T.fits (d + 1) hd
  have G := T.expandLevel_spec A (mem, fun _ => A.roundEnc (A.ecbEncBlock 0) 0, fun _ => A.ecbEncBlock 0) (by omega) hle hd
  set level := expandLevel A (width gr.mDomain gr.mDepth d) (read levels d).start (read levels (d + 1)).start
    (mem, fun _ => A.roundEnc (A.ecbEncBlock 0) 0, fun _ => A.ecbEncBlock 0)
  have hpath (j : ℕ) : gr.leafPoint (j + treeIdx) >>> (gr.mDepth - 1 - d) / 2 =
      gr.leafPoint (j + treeIdx) >>> (gr.mDepth - d) := by
    rw [← Nat.shiftRight_succ]
    congr 1
    omega
  have hlt (j : ℕ) (hj : j < rem) : gr.leafPoint (j + treeIdx) >>> (gr.mDepth - 1 - d) / 2 <
      width gr.mDomain gr.mDepth d := by
    rw [hpath]
    exact shiftRight_lt_width (P.leaf _ (by omega)) d
  have hsum (j : ℕ) (hj : j < rem) (b : Bool) : pick level.2 b (lane j) = A.child b 0 +
      ∑ q ∈ Finset.range (width gr.mDomain gr.mDepth d), A.child b (Ggm.punctured A.child (root (lane j)) 0 d
        (gr.leafPoint (j + treeIdx) >>> (gr.mDepth - 1 - d) / 2) q) := by
    have hnode : ∀ q ∈ Finset.range (width gr.mDomain gr.mDepth d), A.child b (read mem ((read levels d).start + q) (lane j)) =
        A.child b (Ggm.punctured A.child (root (lane j)) 0 d (gr.leafPoint (j + treeIdx) >>> (gr.mDepth - 1 - d) / 2) q) :=
      fun q hq => by rw [R.node j hj q (by have := Finset.mem_range.mp hq; omega), hpath]
    rw [pick_sums G b (lane j), child_zero, ← Finset.sum_congr rfl hnode]
    cases b <;> rfl
  obtain ⟨hsize', hread⟩ := run_setLane_spec (fun i => gr.leafPoint (i + treeIdx) >>> (gr.mDepth - 1 - d) ^^^ 1)
    (fun i => gr.leafPoint (i + treeIdx) >>> (gr.mDepth - 1 - d))
    (fun i => pick (read buff.sums (encOffset + d * rem + i))
        ((gr.leafPoint (i + treeIdx) >>> (gr.mDepth - 1 - d) ^^^ 1).testBit 0) ^^^
      pick level.2 ((gr.leafPoint (i + treeIdx) >>> (gr.mDepth - 1 - d) ^^^ 1).testBit 0) (lane i) ^^^
      gr.baseOt (i + treeIdx) (gr.mDepth - 1 - d))
    (read levels (d + 1)).start (read levels (d + 1)).size level.1 hrem
    (by rw [G.size]; exact hfits)
    (fun j hj => by
      have hdiv := Ggm.xor_one_div_two (gr.leafPoint (j + treeIdx) >>> (gr.mDepth - 1 - d))
      have := hlt j hj
      omega)
    (fun j hj => by
      have := hlt j hj
      omega)
  refine ⟨hsize'.trans G.size, fun j hj i hi => ?_⟩
  have hexp : gr.mDepth - (d + 1) = gr.mDepth - 1 - d := by omega
  rw [hexp, Ggm.punctured_succ]
  refine (hread j hj i hi).trans ?_
  refine if_congr Iff.rfl rfl (if_congr Iff.rfl ?_ ?_)
  · rw [S.sums d (by rw [P.depth]; exact hd) j hj, hsum j hj]
    have hj' := hlt j hj
    rw [add_comm j treeIdx] at hj' ⊢
    exact sibling_eq P (by omega) (by omega) rfl hj' _ (Ggm.testBit_xor_one _)
  · rw [hsize] at hi
    refine (congrFun (G.child i hi) (lane j)).trans ?_
    rw [R.node j hj _ (by omega), hpath]

/-! ### The leaves -/

/-- The leaves are those of the sender except next to the path, and the sums lack just what is there. -/
structure RecvLeaves (A : PprfAes) (ctx : PprfCtx F) (val : F → M) (gr : RegularPprfReceiver) (root : Lanes Block)
    (treeIdx rem off : ℕ) (leafLevel : Array F) (st : LeafState F) : Prop where
  size : st.out.size = leafLevel.size
  leaf : ∀ j < rem, ∀ c < gr.mDomain, c / 2 ≠ gr.leafPoint (j + treeIdx) / 2 →
    read st.out (off + c * 8 + j) = leafAt A ctx gr.mDepth (root (lane j)) c
  frame : ∀ x, x < off ∨ off + gr.mDomain * 8 ≤ x → read st.out x = read leafLevel x
  sums : ∀ j < rem, ∀ b, leafSum A ctx val gr.mDomain gr.mDepth (root (lane j)) b - val (pick (st.sum0, st.sum1) b (lane j)) =
    val (leafOf A ctx b (Ggm.node A.child (root (lane j)) (gr.mDepth - 1) (gr.leafPoint (j + treeIdx) / 2)))

/-- The part of `expandOne` before the leaf messages. -/
theorem inner_spec (E : ctx.Exact val) (P : PprfPaired gr gs)
    (S : gs.Sent A ctx val root mValue treeIdx rem encOffset leafMsgOffset programPuncturedPoint buff)
    (T : TreeLayout gr.mDomain gr.mDepth mem.size levels) (hrem : rem ≤ 8) (htrees : treeIdx + rem ≤ gr.mPntCount)
    {off : ℕ} {leafLevel : Array F} (hfit : off + gr.mDomain * 8 ≤ leafLevel.size) (hdepth : 1 < gr.mDepth) :
    let mem' := Loop.run (gr.mDepth - 2) (fun k => recvLevel A gr treeIdx rem encOffset levels buff.sums (k + 1))
      (firstLevel gr treeIdx rem encOffset levels buff.sums mem)
    mem'.size = mem.size ∧ RecvLeaves A ctx val gr root treeIdx rem off leafLevel
      (expandLeaves A ctx (width gr.mDomain gr.mDepth (gr.mDepth - 1)) (read levels (gr.mDepth - 1)).start off mem'
        ⟨leafLevel, fun _ => inactiveLeaf A ctx false, fun _ => inactiveLeaf A ctx true⟩) := by
  intro mem'
  have htwo := P.two_le
  have hle : gr.mDomain ≤ 2 ^ gr.mDepth := (log2ceil_le_iff _ _).mp P.log.ge
  have hrun := Loop.run_induct (fun k mem' => RecvLevels A gr root treeIdx rem mem.size levels (k + 1) mem')
    (f := fun k => recvLevel A gr treeIdx rem encOffset levels buff.sums (k + 1)) (n := gr.mDepth - 2)
    (firstLevel_spec P S T rfl hrem htrees hdepth) fun k hk t R => R.step P S T hrem htrees (by omega)
  have hexp : gr.mDepth - 2 + 1 = gr.mDepth - 1 := by omega
  rw [hexp] at hrun
  refine ⟨hrun.sizeMem, ?_⟩
  have hlast := two_mul_width_last P.even (by omega : gr.mDepth - 1 + 1 = gr.mDepth)
  have hwidth := T.width_le (d := gr.mDepth - 1) (by omega) hle (by omega)
  have L := expandLeaves_spec A E.plus (width gr.mDomain gr.mDepth (gr.mDepth - 1)) (read levels (gr.mDepth - 1)).start off
    mem' ⟨leafLevel, fun _ => inactiveLeaf A ctx false, fun _ => inactiveLeaf A ctx true⟩ (by rw [hlast]; exact hfit)
  have hone : gr.mDepth - (gr.mDepth - 1) = 1 := by omega
  have hnode (j : ℕ) (hj : j < rem) (q : ℕ) (hq : q < width gr.mDomain gr.mDepth (gr.mDepth - 1)) :
      read mem' ((read levels (gr.mDepth - 1)).start + q) (lane j) =
        Ggm.punctured A.child (root (lane j)) 0 (gr.mDepth - 1) (gr.leafPoint (j + treeIdx) / 2) q := by
    rw [hrun.node j hj q (by omega), hone, Nat.shiftRight_one]
  have hinactive (b : Bool) : val (inactiveLeaf A ctx b) = -val (leafOf A ctx b 0) := by
    rw [inactiveLeaf, E.minus, E.zero, zero_sub]
    rfl
  refine ⟨L.size, fun j hj c hc hne => ?_, fun x hx => L.frame x (by omega), fun j hj b => ?_⟩
  · rw [L.leaf c (by omega) j (by omega), hnode j hj _ (by omega), Ggm.punctured_ne hne]
    rfl
  · have hpoint := P.leaf (j + treeIdx) (by omega)
    have hrecover := Ggm.recover A.child (root (lane j)) 0 (gr.mDepth - 1) (fun x => val (leafOf A ctx b x))
      (by omega : gr.leafPoint (j + treeIdx) / 2 < width gr.mDomain gr.mDepth (gr.mDepth - 1))
    rw [← hrecover, leafSum, ← hinactive]
    refine congrArg (_ - ·) ?_
    have hsum := Finset.sum_congr rfl fun q (hq : q ∈ Finset.range (width gr.mDomain gr.mDepth (gr.mDepth - 1))) =>
      congrArg (fun x => val (leafOf A ctx b x)) (hnode j hj q (Finset.mem_range.mp hq))
    cases b
    · exact (L.sum0 (lane j)).trans (congrArg _ hsum)
    · exact (L.sum1 (lane j)).trans (congrArg _ hsum)

/-- A tree of depth one has no inner levels: both leaves lie on the path. -/
theorem inner_one (E : ctx.Exact val) (P : PprfPaired gr gs) (root : Lanes Block) (htrees : treeIdx + rem ≤ gr.mPntCount)
    (off : ℕ) (leafLevel : Array F) (hdepth : gr.mDepth = 1) :
    RecvLeaves A ctx val gr root treeIdx rem off leafLevel ⟨leafLevel, fun _ => ctx.zero, fun _ => ctx.zero⟩ := by
  have htwo : gr.mDomain = 2 := by
    have hle := (log2ceil_le_iff gr.mDomain 1).mp (by rw [← P.log, hdepth])
    have := P.two_le
    omega
  have hwidth : width gr.mDomain gr.mDepth (gr.mDepth - 1) = 1 := by
    rw [hdepth, htwo]
    rfl
  refine ⟨rfl, fun j hj c hc hne => ?_, fun _ _ => rfl, fun j hj b => ?_⟩
  · have hpoint := P.leaf (j + treeIdx) (by omega)
    omega
  · have hpoint := P.leaf (j + treeIdx) (by omega)
    have hhalf : gr.leafPoint (j + treeIdx) / 2 = 0 := by omega
    have hzero : val (pick ((fun _ => ctx.zero : Lanes F), fun _ => ctx.zero) b (lane j)) = 0 := by
      cases b <;> exact E.zero
    rw [hzero, sub_zero, leafSum, hwidth, Finset.sum_range_one, hhalf]

/-- The elements that the receiver opens for tree `treeIdx + j`. -/
def opened (A : PprfAes) (ctx : PprfCtx F) (gr : RegularPprfReceiver) (treeIdx leafMsgOffset : ℕ)
    (programPuncturedPoint : Bool) (leafMsg : Array (BitVec 8)) (j : ℕ) : ℕ → F :=
  let offset := leafMsgOffset + (j * 2 + ((gr.leafPoint (j + treeIdx) ^^^ 1).testBit 0).toNat) *
    messageSize ctx programPuncturedPoint
  deserialize ctx fun i => read leafMsg (offset + i) ^^^ A.prng (gr.baseOt (j + treeIdx) 0) i

/-- The leaf on side `b` of the parent of the point. -/
def pathLeaf (A : PprfAes) (ctx : PprfCtx F) (gr : RegularPprfReceiver) (treeIdx leafMsgOffset : ℕ)
    (programPuncturedPoint : Bool) (leafMsg : Array (BitVec 8)) (sum0 sum1 : Lanes F) (j : ℕ) (b : Bool) : F :=
  let ots := opened A ctx gr treeIdx leafMsgOffset programPuncturedPoint leafMsg j
  if programPuncturedPoint then ctx.minus (ots b.toNat) (pick (sum0, sum1) b (lane j))
  else if b = (gr.leafPoint (j + treeIdx) ^^^ 1).testBit 0 then ctx.minus (ots 0) (pick (sum0, sum1) b (lane j))
  else ctx.zero

theorem recvLeaf_spec (A : PprfAes) (ctx : PprfCtx F) (gr : RegularPprfReceiver) (treeIdx off leafMsgOffset : ℕ)
    (programPuncturedPoint : Bool) (leafMsg : Array (BitVec 8)) (sum0 sum1 : Lanes F) (j : ℕ) (leafLevel : Array F)
    (hfit : (gr.leafPoint (j + treeIdx) / 2 * 2 + 1) * 8 + j + off < leafLevel.size) :
    let out := recvLeaf A ctx gr treeIdx off leafMsgOffset programPuncturedPoint leafMsg sum0 sum1 j leafLevel
    out.size = leafLevel.size ∧
      (∀ b : Bool, read out (off + (gr.leafPoint (j + treeIdx) / 2 * 2 + b.toNat) * 8 + j) =
        pathLeaf A ctx gr treeIdx leafMsgOffset programPuncturedPoint leafMsg sum0 sum1 j b) ∧
      ∀ x, (∀ b : Bool, x ≠ off + (gr.leafPoint (j + treeIdx) / 2 * 2 + b.toNat) * 8 + j) → read out x = read leafLevel x := by
  intro out
  obtain ⟨p, hp⟩ : ∃ p, gr.leafPoint (j + treeIdx) / 2 * 2 = p := ⟨_, rfl⟩
  rw [hp] at hfit ⊢
  have hpos (b : Bool) : pick (p * 8 + j + off, (p + 1) * 8 + j + off) b = off + (p + b.toNat) * 8 + j := by
    cases b
    · rw [Bool.toNat_false, pick, if_neg (by decide)]
      omega
    · rw [Bool.toNat_true, pick, if_pos rfl]
      omega
  have hne (b : Bool) : off + (p + (!b).toNat) * 8 + j ≠ off + (p + b.toNat) * 8 + j := by
    cases b
    · rw [Bool.not_false, Bool.toNat_true, Bool.toNat_false]
      omega
    · rw [Bool.not_true, Bool.toNat_true, Bool.toNat_false]
      omega
  have hlt (b : Bool) : off + (p + b.toNat) * 8 + j < leafLevel.size := by
    have hle := Bool.toNat_le b
    omega
  set leaf := pathLeaf A ctx gr treeIdx leafMsgOffset programPuncturedPoint leafMsg sum0 sum1 j with hleaf
  obtain ⟨first, hout⟩ : ∃ first : Bool, out = write (write leafLevel (off + (p + first.toNat) * 8 + j) (leaf first))
      (off + (p + (!first).toNat) * 8 + j) (leaf (!first)) := by
    simp only [← hpos]
    cases programPuncturedPoint with
    | true =>
      refine ⟨false, ?_⟩
      simp only [out, recvLeaf, hp, if_true, hleaf, pathLeaf]
      rfl
    | false =>
      refine ⟨(gr.leafPoint (j + treeIdx) ^^^ 1).testBit 0, ?_⟩
      simp only [out, recvLeaf, hp, hleaf, pathLeaf, Bool.false_eq_true, if_false, if_true]
      rw [if_neg (by simp)]
      rfl
  rw [hout]
  refine ⟨by rw [size_write, size_write], fun b => ?_, fun x hx => ?_⟩
  · rcases Bool.eq_or_eq_not b first with rfl | rfl
    · rw [read_write_ne (hne b), read_write_self (hlt b)]
    · rw [read_write_self (by rw [size_write]; exact hlt _)]
  · rw [read_write_ne (hx _).symm, read_write_ne (hx _).symm]

theorem deserialize_serialize (E : ctx.Exact val) (ots : Array F) {bytes : ℕ → BitVec 8} {n e : ℕ} (he : e < n)
    (h : ∀ i < n * ctx.byteSize, bytes i = serialize ctx ots i) : deserialize ctx bytes e = read ots e := by
  refine E.ofBytes _ _ fun i hi => ?_
  rw [h _ (Loop.grid_lt he hi), serialize, Loop.grid_div hi, Loop.grid_mod hi]

/-- The base OT of the lowest choice bit opens the message for the side off the path. -/
theorem opened_eq (E : ctx.Exact val) (P : PprfPaired gr gs) {sum0 sum1 : Lanes F} {leafMsgs : Array (BitVec 8)}
    (hmsgs : ∀ j < rem, ∀ k < 2, ∀ i < messageSize ctx programPuncturedPoint,
      read leafMsgs (leafMsgOffset + ((j * 2 + k) * messageSize ctx programPuncturedPoint + i)) =
        serialize ctx (RegularPprf.messageOts ctx mValue treeIdx programPuncturedPoint sum0 sum1 j k) i ^^^
          A.prng (pick (gs.baseOt (treeIdx + j) 0) (k == 0)) i)
    (htrees : treeIdx + rem ≤ gr.mPntCount) {j e : ℕ} (hj : j < rem) (he : e < if programPuncturedPoint then 2 else 1) :
    opened A ctx gr treeIdx leafMsgOffset programPuncturedPoint leafMsgs j e =
      read (RegularPprf.messageOts ctx mValue treeIdx programPuncturedPoint sum0 sum1 j
        (!(gr.leafPoint (j + treeIdx)).testBit 0).toNat) e := by
  have hpos : 0 < gr.mDepth := by
    rw [P.log]
    exact Nat.size_pos.mpr (by have := P.two_le; omega)
  rw [opened]
  refine deserialize_serialize E _ he fun i hi => ?_
  have hkey : gr.baseOt (j + treeIdx) 0 =
      pick (gs.baseOt (treeIdx + j) 0) ((!(gr.leafPoint (j + treeIdx)).testBit 0).toNat == 0) := by
    rw [P.base _ (by omega) 0 hpos, gr.leafPoint_testBit _ hpos, add_comm j]
    cases gr.mBaseChoices (treeIdx + j) 0 <;> rfl
  rw [Ggm.testBit_xor_one, Nat.add_assoc, hmsgs j hj _ (Nat.lt_succ_of_le (Bool.toNat_le _)) i hi, hkey, BitVec.xor_assoc,
    BitVec.xor_self, BitVec.xor_zero]

theorem read_messageOts (sum0 sum1 : Lanes F) (mValue : Array F) (treeIdx j : ℕ) (a b : Bool) :
    read (RegularPprf.messageOts ctx mValue treeIdx true sum0 sum1 j (!a).toNat) b.toNat =
      if b = a then ctx.plus (pick (sum0, sum1) b (lane j)) (read mValue (treeIdx + j)) else pick (sum0, sum1) b (lane j) := by
  cases a <;> cases b <;> rfl

theorem read_messageOts_unprogrammed (sum0 sum1 : Lanes F) (mValue : Array F) (treeIdx j : ℕ) (b : Bool) :
    read (RegularPprf.messageOts ctx mValue treeIdx false sum0 sum1 j b.toNat) 0 = pick (sum0, sum1) b (lane j) := by
  cases b <;> rfl

/-- What the receiver gets for leaf `c` of tree `treeIdx + j`. -/
def delivered (A : PprfAes) (ctx : PprfCtx F) (val : F → M) (gr : RegularPprfReceiver) (root : Lanes Block)
    (mValue : Array F) (treeIdx : ℕ) (programPuncturedPoint : Bool) (j c : ℕ) : M :=
  if c = gr.leafPoint (j + treeIdx) then
    if programPuncturedPoint then val (leafAt A ctx gr.mDepth (root (lane j)) c) + val (read mValue (treeIdx + j)) else 0
  else val (leafAt A ctx gr.mDepth (root (lane j)) c)

theorem val_pathLeaf (E : ctx.Exact val) (P : PprfPaired gr gs) {sum0 sum1 : Lanes F} {off : ℕ} {leafLevel : Array F}
    {st : LeafState F} {leafMsgs : Array (BitVec 8)} (R : RecvLeaves A ctx val gr root treeIdx rem off leafLevel st)
    (hsum0 : ∀ i, val (sum0 i) = leafSum A ctx val gr.mDomain gr.mDepth (root i) false)
    (hsum1 : ∀ i, val (sum1 i) = leafSum A ctx val gr.mDomain gr.mDepth (root i) true)
    (hmsgs : ∀ j < rem, ∀ k < 2, ∀ i < messageSize ctx programPuncturedPoint,
      read leafMsgs (leafMsgOffset + ((j * 2 + k) * messageSize ctx programPuncturedPoint + i)) =
        serialize ctx (RegularPprf.messageOts ctx mValue treeIdx programPuncturedPoint sum0 sum1 j k) i ^^^
          A.prng (pick (gs.baseOt (treeIdx + j) 0) (k == 0)) i)
    (htrees : treeIdx + rem ≤ gr.mPntCount) {j : ℕ} (hj : j < rem) (b : Bool) :
    val (pathLeaf A ctx gr treeIdx leafMsgOffset programPuncturedPoint leafMsgs st.sum0 st.sum1 j b) =
      delivered A ctx val gr root mValue treeIdx programPuncturedPoint j
        (gr.leafPoint (j + treeIdx) / 2 * 2 + b.toNat) := by
  obtain ⟨a, ha⟩ : ∃ a, (gr.leafPoint (j + treeIdx)).testBit 0 = a := ⟨_, rfl⟩
  have hval (b : Bool) : val (pick (sum0, sum1) b (lane j)) - val (pick (st.sum0, st.sum1) b (lane j)) =
      val (leafAt A ctx gr.mDepth (root (lane j)) (gr.leafPoint (j + treeIdx) / 2 * 2 + b.toNat)) := by
    have hsum : val (pick (sum0, sum1) b (lane j)) = leafSum A ctx val gr.mDomain gr.mDepth (root (lane j)) b := by
      cases b
      · exact hsum0 _
      · exact hsum1 _
    have hdiv : (gr.leafPoint (j + treeIdx) / 2 * 2 + b.toNat) / 2 = gr.leafPoint (j + treeIdx) / 2 := by
      have := Bool.toNat_le b
      cases b <;> simp only [Bool.toNat_false, Bool.toNat_true] <;> omega
    have hbit : (gr.leafPoint (j + treeIdx) / 2 * 2 + b.toNat).testBit 0 = b := by
      cases b <;> simp
    rw [hsum, R.sums j hj b, leafAt, hdiv, hbit]
  have hactive : gr.leafPoint (j + treeIdx) / 2 * 2 + b.toNat = gr.leafPoint (j + treeIdx) ↔ b = a := by
    have hdiv := Nat.div_add_mod (gr.leafPoint (j + treeIdx)) 2
    rw [← ha, Nat.testBit_zero]
    cases b <;> simp <;> omega
  have hopen (e : ℕ) (he : e < if programPuncturedPoint then 2 else 1) := opened_eq E P hmsgs htrees hj he
  simp only [ha] at hopen
  rw [delivered, if_congr hactive rfl rfl, pathLeaf]
  cases programPuncturedPoint with
  | true =>
    rw [if_pos rfl, if_pos rfl, hopen _ (Nat.lt_succ_of_le (Bool.toNat_le b)), read_messageOts, E.minus]
    by_cases hb : b = a
    · rw [if_pos hb, if_pos hb, E.plus, ← hval b]
      abel
    · rw [if_neg hb, if_neg hb, hval b]
  | false =>
    simp only [Bool.false_eq_true, if_false, Ggm.testBit_xor_one, ha, hopen 0 Nat.zero_lt_one,
      read_messageOts_unprogrammed]
    by_cases hb : b = a
    · rw [if_neg (by rw [hb]; cases a <;> decide), if_pos hb, E.zero]
    · obtain rfl : b = !a := (Bool.eq_or_eq_not b a).resolve_left hb
      rw [if_pos rfl, if_neg hb, E.minus, hval (!a)]

/-- What one call of `expandOne` leaves in its leaves and its memory. -/
structure Received (A : PprfAes) (ctx : PprfCtx F) (val : F → M) (gr : RegularPprfReceiver) (root : Lanes Block)
    (mValue : Array F) (treeIdx rem off : ℕ) (programPuncturedPoint : Bool) (mem : Array (Lanes Block))
    (leafLevel : Array F) (st : Array (Lanes Block) × Array F) : Prop where
  sizeMem : st.1.size = mem.size
  sizeLeaf : st.2.size = leafLevel.size
  leaf : ∀ j < rem, ∀ c < gr.mDomain, val (read st.2 (off + c * 8 + j)) =
    delivered A ctx val gr root mValue treeIdx programPuncturedPoint j c
  frame : ∀ x, x < off ∨ off + gr.mDomain * 8 ≤ x → read st.2 x = read leafLevel x

/-- The leaves on the paths, written over what the loop over the leaves has left there. -/
theorem run_recvLeaf (E : ctx.Exact val) (P : PprfPaired gr gs)
    (S : gs.Sent A ctx val root mValue treeIdx rem encOffset leafMsgOffset programPuncturedPoint buff) {off : ℕ}
    {leafLevel : Array F} {st : LeafState F} (R : RecvLeaves A ctx val gr root treeIdx rem off leafLevel st) (hrem : rem ≤ 8)
    (htrees : treeIdx + rem ≤ gr.mPntCount) (hfit : off + gr.mDomain * 8 ≤ leafLevel.size) :
    let out := Loop.run rem (recvLeaf A ctx gr treeIdx off leafMsgOffset programPuncturedPoint buff.leafMsgs st.sum0 st.sum1)
      st.out
    out.size = leafLevel.size ∧
      (∀ j < rem, ∀ c < gr.mDomain, val (read out (off + c * 8 + j)) =
        delivered A ctx val gr root mValue treeIdx programPuncturedPoint j c) ∧
      ∀ x, x < off ∨ off + gr.mDomain * 8 ≤ x → read out x = read leafLevel x := by
  obtain ⟨sum0, sum1, hsum0, hsum1, hmsgs⟩ := S.leafMsgs
  rw [P.domain, P.depth] at hsum0 hsum1
  intro out
  have hrun := Loop.run_induct (fun t (out : Array F) => out.size = leafLevel.size ∧
      (∀ j < t, ∀ c < gr.mDomain, val (read out (off + c * 8 + j)) =
        delivered A ctx val gr root mValue treeIdx programPuncturedPoint j c) ∧
      (∀ j, t ≤ j → j < 8 → ∀ c < gr.mDomain, read out (off + c * 8 + j) = read st.out (off + c * 8 + j)) ∧
      ∀ x, x < off ∨ off + gr.mDomain * 8 ≤ x → read out x = read leafLevel x)
    (f := recvLeaf A ctx gr treeIdx off leafMsgOffset programPuncturedPoint buff.leafMsgs st.sum0 st.sum1) (n := rem)
    (s := st.out) ⟨R.size, by simp, fun _ _ _ _ _ => rfl, R.frame⟩ ?_
  · exact ⟨hrun.1, hrun.2.1, hrun.2.2.2⟩
  · rintro t ht out ⟨hsize, hdone, hrest, hframe⟩
    have hpoint := P.leaf (t + treeIdx) (by omega)
    have heven := P.even
    obtain ⟨hsize', hpath, hother⟩ := recvLeaf_spec A ctx gr treeIdx off leafMsgOffset programPuncturedPoint buff.leafMsgs
      st.sum0 st.sum1 t out (by omega)
    have hlane {c j : ℕ} (hj : j < 8) (hne : j ≠ t ∨ c / 2 ≠ gr.leafPoint (t + treeIdx) / 2) (b : Bool) :
        off + c * 8 + j ≠ off + (gr.leafPoint (t + treeIdx) / 2 * 2 + b.toNat) * 8 + t := by
      have := Bool.toNat_le b
      omega
    refine ⟨hsize'.trans hsize, fun j hj c hc => ?_, fun j hj hj8 c hc => ?_, fun x hx => ?_⟩
    · rcases Nat.lt_succ_iff_lt_or_eq.mp hj with hlt | rfl
      · rw [hother _ (hlane (by omega) (.inl hlt.ne)), hdone j hlt c hc]
      · by_cases hc' : c / 2 = gr.leafPoint (j + treeIdx) / 2
        · have hside : c = gr.leafPoint (j + treeIdx) / 2 * 2 + (c.testBit 0).toNat := by
            rw [Nat.toNat_testBit, pow_zero, Nat.div_one, ← hc']
            omega
          rw [hside, hpath, val_pathLeaf E P R hsum0 hsum1 hmsgs htrees ht]
        · have hne : c ≠ gr.leafPoint (j + treeIdx) := fun h => hc' (by rw [h])
          rw [hother _ (hlane (by omega) (.inr hc')), hrest j le_rfl (by omega) c hc, R.leaf j ht c hc hc', delivered,
            if_neg hne]
    · rw [hother _ (hlane hj8 (.inl (by omega))), hrest j (by omega) hj8 c hc]
    · rw [hother x fun b => by have := Bool.toNat_le b; omega, hframe x hx]

theorem expandOne_spec (E : ctx.Exact val) (P : PprfPaired gr gs)
    (S : gs.Sent A ctx val root mValue treeIdx rem encOffset leafMsgOffset programPuncturedPoint buff)
    (T : TreeLayout gr.mDomain gr.mDepth mem.size levels) (hrem : min 8 (gr.mPntCount - treeIdx) = rem)
    (htrees : treeIdx + rem ≤ gr.mPntCount) {off : ℕ} {leafLevel : Array F} (hfit : off + gr.mDomain * 8 ≤ leafLevel.size) :
    Received A ctx val gr root mValue treeIdx rem off programPuncturedPoint mem leafLevel
      (gr.expandOne A ctx treeIdx programPuncturedPoint levels off encOffset leafMsgOffset buff mem leafLevel) := by
  have hpos : 0 < gr.mDepth := by
    rw [P.log]
    exact Nat.size_pos.mpr (by have := P.two_le; omega)
  by_cases hdepth : gr.mDepth > 1
  · obtain ⟨hsize, R⟩ := inner_spec E P S T (by omega) htrees hfit hdepth
    obtain ⟨hout, hleaf, hframe⟩ := run_recvLeaf E P S R (by omega) htrees hfit
    rw [expandOne, hrem, if_pos hdepth]
    exact ⟨hsize, hout, hleaf, hframe⟩
  · have R := inner_one (A := A) E P root htrees off leafLevel (by omega)
    obtain ⟨hout, hleaf, hframe⟩ := run_recvLeaf E P S R (by omega) htrees hfit
    rw [expandOne, hrem, if_neg hdepth]
    exact ⟨rfl, hout, hleaf, hframe⟩

end RegularPprfReceiver
end ExtFieldPcg
