import ExtFieldPcg.PprfExpand

/-! What the sender of the punctured PRF computes: its levels are the levels of the trees under its seeds, and its
    messages hide their sums. -/

open Buffer

namespace ExtFieldPcg

/-- `val` reads the elements of the context in a group where its operations are exact, and the bytes of an element
    give it back. -/
structure PprfCtx.Exact {F : Type} {M : Type*} [AddCommGroup M] (ctx : PprfCtx F) (val : F → M) : Prop where
  zero : val ctx.zero = 0
  plus : ∀ x y, val (ctx.plus x y) = val x + val y
  minus : ∀ x y, val (ctx.minus x y) = val x - val y
  ofBytes : ∀ x bytes, (∀ i < ctx.byteSize, bytes i = ctx.toBytes x i) → ctx.ofBytes bytes = x

@[simp] theorem lane_val {i : ℕ} (h : i < 8) : (lane i).val = i := Nat.mod_eq_of_lt h

@[simp] theorem lane_coe (i : Fin 8) : lane i.val = i := Fin.ext (lane_val i.isLt)

theorem lane_inj {i j : ℕ} (hi : i < 8) (hj : j < 8) (h : lane i = lane j) : i = j := by
  rw [← lane_val hi, ← lane_val hj, h]

namespace Pprf

variable {F : Type} {M : Type*} [Inhabited F] [AddCommGroup M] {A : PprfAes} {ctx : PprfCtx F} {val : F → M}

/-! ### The loops of both parties -/

theorem TreeLayout.width_le {mDomain mDepth size d : ℕ} {levels : Array Span} (T : TreeLayout mDomain mDepth size levels)
    (hpos : 0 < mDomain) (hle : mDomain ≤ 2 ^ mDepth) (hd : d < mDepth) :
    width mDomain mDepth d ≤ (read levels d).size := by
  rcases d with _ | d
  · rw [T.root, width_zero hpos hle]
  · have hwidth : width mDomain mDepth d = _ := width_succ (by omega)
    rw [T.succ d hd]
    omega

/-- The loop over the level `d` of a layout writes the children of that level. -/
theorem TreeLayout.expandLevel_spec (A : PprfAes) {mDomain mDepth d : ℕ} {levels : Array Span}
    (st : Array (Lanes Block) × Lanes Block × Lanes Block) (T : TreeLayout mDomain mDepth st.1.size levels)
    (hpos : 0 < mDomain) (hle : mDomain ≤ 2 ^ mDepth) (hd : d + 1 < mDepth) :
    Ggm.Grown (fun b (x : Lanes Block) i => A.child b (x i)) (read levels d).start (read levels (d + 1)).start st
      (width mDomain mDepth d)
      (expandLevel A (width mDomain mDepth d) (read levels d).start (read levels (d + 1)).start st) := by
  have hsize := T.succ d hd
  have hwidth := T.width_le hpos hle (by omega : d < mDepth)
  have hfits := T.fits (d + 1) hd
  have hdisj := T.disjoint d hd
  exact Ggm.grown_run _ st (by omega) (by omega)

/-- The sums of a level, tree by tree. -/
theorem pick_sums {src dst w : ℕ} {st st' : Array (Lanes Block) × Lanes Block × Lanes Block}
    (G : Ggm.Grown (fun b (x : Lanes Block) i => A.child b (x i)) src dst st w st') (b : Bool) (k : Fin 8) :
    pick st'.2 b k = pick st.2 b k + ∑ p ∈ Finset.range w, A.child b (read st.1 (src + p) k) := by
  cases b
  · exact (congrFun G.left k).trans (by rw [Pi.add_apply, Finset.sum_apply]; rfl)
  · exact (congrFun G.right k).trans (by rw [Pi.add_apply, Finset.sum_apply]; rfl)

/-- The leaf that a node gives on side `keep`. -/
def leafOf (A : PprfAes) (ctx : PprfCtx F) (keep : Bool) (x : Block) : F := ctx.fromBlock (A.hashBlock keep x)

/-- After `w` parents their leaves are written, and added to the sums. -/
structure Leaves (A : PprfAes) (ctx : PprfCtx F) (val : F → M) (src off : ℕ) (mem : Array (Lanes Block)) (st : LeafState F)
    (w : ℕ) (st' : LeafState F) : Prop where
  size : st'.out.size = st.out.size
  leaf : ∀ c < 2 * w, ∀ i < 8,
    read st'.out (off + c * 8 + i) = leafOf A ctx (c.testBit 0) (read mem (src + c / 2) (lane i))
  frame : ∀ x, x < off ∨ off + 2 * w * 8 ≤ x → read st'.out x = read st.out x
  sum0 : ∀ i, val (st'.sum0 i) = val (st.sum0 i) + ∑ p ∈ Finset.range w, val (leafOf A ctx false (read mem (src + p) i))
  sum1 : ∀ i, val (st'.sum1 i) = val (st.sum1 i) + ∑ p ∈ Finset.range w, val (leafOf A ctx true (read mem (src + p) i))

theorem hashLeaf_spec (A : PprfAes) (ctx : PprfCtx F) (off c : ℕ) (keep : Bool) (parent : Lanes Block) (out : Array F)
    (hfit : off + c * 8 + 8 ≤ out.size) :
    (hashLeaf A ctx off c keep parent out).size = out.size ∧
      (∀ i < 8, read (hashLeaf A ctx off c keep parent out) (off + c * 8 + i) = leafOf A ctx keep (parent (lane i))) ∧
      ∀ x, x < off + c * 8 ∨ off + c * 8 + 8 ≤ x → read (hashLeaf A ctx off c keep parent out) x = read out x := by
  obtain ⟨hsize, hread⟩ := run_write_spec (fun i => leafOf A ctx keep (parent (lane i))) (off + c * 8) hfit
  refine ⟨hsize, fun i hi => ?_, fun x hx => (hread x).trans (if_neg (by omega))⟩
  exact (hread _).trans (by rw [if_pos (by omega), Nat.add_sub_cancel_left])

theorem Leaves.step (hplus : ∀ x y, val (ctx.plus x y) = val x + val y) {src off j : ℕ} {mem : Array (Lanes Block)}
    {st t : LeafState F} (L : Leaves A ctx val src off mem st j t) (hfit : off + 2 * (j + 1) * 8 ≤ st.out.size) :
    let parent := read mem (src + j)
    let out0 := hashLeaf A ctx off (2 * j) false parent t.out
    let out1 := hashLeaf A ctx off (2 * j + 1) true parent out0
    Leaves A ctx val src off mem st (j + 1)
      ⟨out1, addLeaf ctx off (2 * j) out0 t.sum0, addLeaf ctx off (2 * j + 1) out1 t.sum1⟩ := by
  intro parent out0 out1
  have hsize := L.size
  obtain ⟨hsize0, hleaf0, hframe0⟩ := hashLeaf_spec A ctx off (2 * j) false parent t.out (by omega)
  obtain ⟨hsize1, hleaf1, hframe1⟩ := hashLeaf_spec A ctx off (2 * j + 1) true parent out0
    (by rw [hsize0]; omega)
  refine ⟨by rw [hsize1, hsize0, hsize], fun c hc i hi => ?_, fun x hx => ?_, fun i => ?_, fun i => ?_⟩
  · rcases lt_or_ge c (2 * j) with hlt | hge
    · rw [hframe1 _ (by omega), hframe0 _ (by omega), L.leaf c hlt i hi]
    · rcases (by omega : c = 2 * j ∨ c = 2 * j + 1) with rfl | rfl
      · rw [hframe1 _ (by omega), hleaf0 i hi, Nat.mul_div_cancel_left j (by decide)]
        simp [parent]
      · have hdiv : (2 * j + 1) / 2 = j := by omega
        rw [hleaf1 i hi, hdiv]
        simp [parent]
  · rw [hframe1 x (by omega), hframe0 x (by omega), L.frame x (by omega)]
  · have hread := hleaf0 i i.isLt
    rw [lane_coe] at hread
    refine (hplus _ _).trans ?_
    rw [L.sum0 i, hread, Finset.sum_range_succ, add_assoc]
  · have hread := hleaf1 i i.isLt
    rw [lane_coe] at hread
    refine (hplus _ _).trans ?_
    rw [L.sum1 i, hread, Finset.sum_range_succ, add_assoc]

theorem expandLeaves_spec (A : PprfAes) (hplus : ∀ x y, val (ctx.plus x y) = val x + val y) (w src off : ℕ) (mem : Array (Lanes Block))
    (st : LeafState F) (hfit : off + 2 * w * 8 ≤ st.out.size) :
    Leaves A ctx val src off mem st w (expandLeaves A ctx w src off mem st) := by
  refine Loop.run_induct (Leaves A ctx val src off mem st) ⟨rfl, by simp, fun _ _ => rfl, by simp, by simp⟩ ?_
  exact fun j hj t L => L.step hplus (by omega)

/-- The sum of the children on side `b` of the first `w` nodes of level `d`. -/
def sideSum (A : PprfAes) (root : Block) (w d : ℕ) (b : Bool) : Block :=
  ∑ p ∈ Finset.range w, A.child b (Ggm.node A.child root d p)

/-- The value of leaf `c` of a tree of this depth. -/
def leafAt (A : PprfAes) (ctx : PprfCtx F) (mDepth : ℕ) (root : Block) (c : ℕ) : F :=
  leafOf A ctx (c.testBit 0) (Ggm.node A.child root (mDepth - 1) (c / 2))

/-- The sum of the leaves on side `b` of a tree. -/
def leafSum (A : PprfAes) (ctx : PprfCtx F) (val : F → M) (mDomain mDepth : ℕ) (root : Block) (b : Bool) : M :=
  ∑ p ∈ Finset.range (width mDomain mDepth (mDepth - 1)), val (leafOf A ctx b (Ggm.node A.child root (mDepth - 1) p))

end Pprf

/-! ### The sender -/

namespace RegularPprf
open Pprf

variable {F : Type} {M : Type*} [Inhabited F] [AddCommGroup M] {A : PprfAes} {ctx : PprfCtx F} {val : F → M}
  {g : RegularPprf (Block × Block)} {root : Lanes Block} {treeIdx encOffset leafMsgOffset rem size d : ℕ}
  {levels : Array Span} {mem : Array (Lanes Block)} {sums : Array (Block × Block)}

/-- The sums of level `d` of tree `treeIdx + j`, each under the base OT that selects the other side. -/
def maskedSums (A : PprfAes) (g : RegularPprf (Block × Block)) (root : Lanes Block) (treeIdx d j : ℕ) : Block × Block :=
  let w := width g.mDomain g.mDepth d
  let ot := g.baseOt (treeIdx + j) (g.mDepth - 1 - d)
  (sideSum A (root (lane j)) w d false + ot.2, sideSum A (root (lane j)) w d true + ot.1)

/-- After `d` rounds the nodes of level `d` are in memory, and the sums of the levels above are written. -/
structure SentLevels (A : PprfAes) (g : RegularPprf (Block × Block)) (root : Lanes Block)
    (treeIdx encOffset rem size : ℕ) (levels : Array Span) (sums : Array (Block × Block)) (d : ℕ)
    (st : Array (Lanes Block) × Array (Block × Block)) : Prop where
  sizeMem : st.1.size = size
  sizeSums : st.2.size = sums.size
  node : ∀ i < (read levels d).size, ∀ k, read st.1 ((read levels d).start + i) k = Ggm.node A.child (root k) d i
  masked : ∀ d' < d, ∀ j < rem, read st.2 (encOffset + d' * rem + j) = maskedSums A g root treeIdx d' j
  frame : ∀ x, x < encOffset ∨ encOffset + d * rem ≤ x → read st.2 x = read sums x

theorem SentLevels.step {st : Array (Lanes Block) × Array (Block × Block)}
    (S : SentLevels A g root treeIdx encOffset rem size levels sums d st) (T : TreeLayout g.mDomain g.mDepth size levels)
    (hpos : 0 < g.mDomain) (hle : g.mDomain ≤ 2 ^ g.mDepth) (hd : d + 1 < g.mDepth)
    (hsums : encOffset + (d + 1) * rem ≤ sums.size) :
    SentLevels A g root treeIdx encOffset rem size levels sums (d + 1)
      (sendLevel A g treeIdx rem encOffset levels d st) := by
  obtain ⟨mem, sums'⟩ := st
  obtain rfl := S.sizeMem
  have G := T.expandLevel_spec A (mem, 0, 0) hpos hle hd
  have hwidth := T.width_le hpos hle (by omega : d < g.mDepth)
  have hsize := S.sizeSums
  set level := expandLevel A (width g.mDomain g.mDepth d) (read levels d).start (read levels (d + 1)).start (mem, 0, 0)
  have hchild : ∀ p < width g.mDomain g.mDepth d, ∀ k, read mem ((read levels d).start + p) k =
      Ggm.node A.child (root k) d p := fun p hp k => S.node p (by omega) k
  have hsum (b : Bool) (k : Fin 8) : pick level.2 b k = sideSum A (root k) (width g.mDomain g.mDepth d) d b := by
    rw [pick_sums G b k, sideSum, Finset.sum_congr rfl fun p hp => by rw [hchild p (Finset.mem_range.mp hp) k]]
    cases b <;> exact zero_add _
  rw [Nat.succ_mul] at hsums
  obtain ⟨hsize', hread⟩ := run_write_spec (fun j => (level.2.1 (lane j) ^^^ (g.baseOt (treeIdx + j) (g.mDepth - 1 - d)).2,
    level.2.2 (lane j) ^^^ (g.baseOt (treeIdx + j) (g.mDepth - 1 - d)).1)) (encOffset + d * rem) (n := rem) (a := sums')
    (by dsimp only at hsize; omega)
  refine ⟨G.size, hsize'.trans hsize, fun i hi k => ?_, fun d' hd' j hj => ?_, fun x hx => ?_⟩
  · rw [T.succ d hd] at hi
    refine (congrFun (G.child i hi) k).trans ?_
    rw [hchild _ (by omega) k]
    rfl
  · rcases Nat.lt_succ_iff_lt_or_eq.mp hd' with hlt | rfl
    · have hbelow := Loop.grid_lt hlt hj
      refine (hread _).trans ?_
      rw [if_neg (by omega)]
      exact S.masked d' hlt j hj
    · refine (hread _).trans ?_
      rw [if_pos (by omega), Nat.add_sub_cancel_left]
      exact Prod.ext (congrArg (· + _) (hsum false (lane j))) (congrArg (· + _) (hsum true (lane j)))
  · rw [Nat.succ_mul] at hx
    refine (hread x).trans ?_
    rw [if_neg (by omega)]
    exact S.frame x (by omega)

/-- The elements of message `k` for tree `treeIdx + j`. -/
def messageOts (ctx : PprfCtx F) (mValue : Array F) (treeIdx : ℕ) (programPuncturedPoint : Bool) (sum0 sum1 : Lanes F)
    (j k : ℕ) : Array F :=
  leafOts ctx programPuncturedPoint (sum0 (lane j)) (sum1 (lane j)) (read mValue (treeIdx + j)) (k == 1)

theorem sendLeaves_spec (A : PprfAes) (ctx : PprfCtx F) (g : RegularPprf (Block × Block)) (mValue : Array F)
    (treeIdx leafMsgOffset rem : ℕ) (programPuncturedPoint : Bool) (leaves : LeafState F) {leafMsgs : Array (BitVec 8)}
    (hfit : leafMsgOffset + rem * 2 * messageSize ctx programPuncturedPoint ≤ leafMsgs.size) :
    let sent := sendLeaves A ctx g mValue treeIdx rem leafMsgOffset programPuncturedPoint leaves leafMsgs
    sent.size = leafMsgs.size ∧
      (∀ j < rem, ∀ k < 2, ∀ i < messageSize ctx programPuncturedPoint,
        read sent (leafMsgOffset + ((j * 2 + k) * messageSize ctx programPuncturedPoint + i)) =
          serialize ctx (messageOts ctx mValue treeIdx programPuncturedPoint leaves.sum0 leaves.sum1 j k) i ^^^
            A.prng (pick (g.baseOt (treeIdx + j) 0) (k == 0)) i) ∧
      ∀ x, x < leafMsgOffset ∨ leafMsgOffset + rem * 2 * messageSize ctx programPuncturedPoint ≤ x →
        read sent x = read leafMsgs x := by
  intro sent
  have hflat : sent = Loop.run (rem * 2) (fun r leafMsgs => Loop.run (messageSize ctx programPuncturedPoint)
      (fun i leafMsgs => write leafMsgs (leafMsgOffset + (r * messageSize ctx programPuncturedPoint + i))
        (serialize ctx (messageOts ctx mValue treeIdx programPuncturedPoint leaves.sum0 leaves.sum1 (r / 2) (r % 2)) i ^^^
          A.prng (pick (g.baseOt (treeIdx + r / 2) 0) (r % 2 == 0)) i)) leafMsgs) leafMsgs := by
    refine (Loop.run_nested rem 2 _ leafMsgs).trans (Loop.run_congr (fun r _ t => ?_) leafMsgs)
    rw [Nat.div_add_mod']
    rfl
  obtain ⟨hsize, hread, hframe⟩ := run_rows_spec (fun r i =>
    serialize ctx (messageOts ctx mValue treeIdx programPuncturedPoint leaves.sum0 leaves.sum1 (r / 2) (r % 2)) i ^^^
      A.prng (pick (g.baseOt (treeIdx + r / 2) 0) (r % 2 == 0)) i) leafMsgOffset
    (messageSize ctx programPuncturedPoint) hfit
  rw [hflat]
  refine ⟨hsize, fun j hj k hk i hi => ?_, hframe⟩
  rw [hread _ (Loop.grid_lt hj hk) i hi, Loop.grid_div hk, Loop.grid_mod hk]

/-- What one call of `expandOne` sends: the receiver reads no more of the buffer than this. -/
structure Sent (A : PprfAes) (ctx : PprfCtx F) (val : F → M) (g : RegularPprf (Block × Block)) (root : Lanes Block)
    (mValue : Array F) (treeIdx rem encOffset leafMsgOffset : ℕ) (programPuncturedPoint : Bool) (buff : ExpandBuffer) :
    Prop where
  sums : ∀ d, d + 1 < g.mDepth → ∀ j < rem, read buff.sums (encOffset + d * rem + j) = maskedSums A g root treeIdx d j
  leafMsgs : ∃ sum0 sum1 : Lanes F, (∀ i, val (sum0 i) = leafSum A ctx val g.mDomain g.mDepth (root i) false) ∧
    (∀ i, val (sum1 i) = leafSum A ctx val g.mDomain g.mDepth (root i) true) ∧
    ∀ j < rem, ∀ k < 2, ∀ i < messageSize ctx programPuncturedPoint,
      read buff.leafMsgs (leafMsgOffset + ((j * 2 + k) * messageSize ctx programPuncturedPoint + i)) =
        serialize ctx (messageOts ctx mValue treeIdx programPuncturedPoint sum0 sum1 j k) i ^^^
          A.prng (pick (g.baseOt (treeIdx + j) 0) (k == 0)) i

/-- What one call of `expandOne` leaves in its leaves, its buffer and its memory. -/
structure Expanded (A : PprfAes) (ctx : PprfCtx F) (val : F → M) (g : RegularPprf (Block × Block)) (root : Lanes Block)
    (mValue : Array F) (treeIdx rem leafOffset encOffset leafMsgOffset : ℕ) (programPuncturedPoint : Bool)
    (mem : Array (Lanes Block)) (leafLevel : Array F) (buff : ExpandBuffer)
    (st : Array (Lanes Block) × Array F × ExpandBuffer) : Prop where
  sizeMem : st.1.size = mem.size
  sizeLeaf : st.2.1.size = leafLevel.size
  sizeSums : st.2.2.sums.size = buff.sums.size
  sizeMsgs : st.2.2.leafMsgs.size = buff.leafMsgs.size
  leaf : ∀ c < g.mDomain, ∀ i < 8, read st.2.1 (leafOffset + c * 8 + i) = leafAt A ctx g.mDepth (root (lane i)) c
  frameLeaf : ∀ x, x < leafOffset ∨ leafOffset + g.mDomain * 8 ≤ x → read st.2.1 x = read leafLevel x
  sent : Sent A ctx val g root mValue treeIdx rem encOffset leafMsgOffset programPuncturedPoint st.2.2
  frameSums : ∀ x, x < encOffset → read st.2.2.sums x = read buff.sums x
  frameMsgs : ∀ x, x < leafMsgOffset → read st.2.2.leafMsgs x = read buff.leafMsgs x

theorem expandOne_spec (E : ctx.Exact val) (T : TreeLayout g.mDomain g.mDepth mem.size levels)
    (heven : g.mDomain % 2 = 0) (htwo : 2 ≤ g.mDomain) (hdepth : g.mDepth = log2ceil g.mDomain) (mValue : Array F)
    (aesSeed : Block) {leafOffset : ℕ} (programPuncturedPoint : Bool) {leafLevel : Array F} {buff : ExpandBuffer}
    (hrem : min 8 (g.mPntCount - treeIdx) = rem) (hleaf : leafOffset + g.mDomain * 8 ≤ leafLevel.size)
    (hsums : encOffset + (g.mDepth - 1) * rem ≤ buff.sums.size)
    (hmsgs : leafMsgOffset + rem * 2 * messageSize ctx programPuncturedPoint ≤ buff.leafMsgs.size) :
    Expanded A ctx val g (A.roots aesSeed treeIdx) mValue treeIdx rem leafOffset encOffset leafMsgOffset
      programPuncturedPoint mem leafLevel buff (g.expandOne A ctx mValue aesSeed treeIdx programPuncturedPoint levels
        leafOffset encOffset leafMsgOffset mem leafLevel buff) := by
  have hpos : 0 < g.mDepth := by
    rw [hdepth]
    exact Nat.size_pos.mpr (by omega)
  have hle : g.mDomain ≤ 2 ^ g.mDepth := (log2ceil_le_iff _ _).mp hdepth.ge
  set root := A.roots aesSeed treeIdx with hroot
  have hstart : SentLevels A g root treeIdx encOffset rem mem.size levels buff.sums 0
      (write mem (read levels 0).start root, buff.sums) := by
    have hfits := T.fits 0 hpos
    have hone := T.root
    refine ⟨size_write .., rfl, fun i hi k => ?_, by simp, fun _ _ => rfl⟩
    obtain rfl : i = 0 := by omega
    exact congrFun (read_write_self (by omega) root) k
  have hinner := Loop.run_induct (SentLevels A g root treeIdx encOffset rem mem.size levels buff.sums)
    (f := sendLevel A g treeIdx rem encOffset levels) (n := g.mDepth - 1) hstart fun d hd st S => by
      have hrows : (d + 1) * rem ≤ (g.mDepth - 1) * rem := Nat.mul_le_mul_right rem hd
      exact S.step T (by omega) hle (by omega) (by omega)
  set inner := Loop.run (g.mDepth - 1) (sendLevel A g treeIdx rem encOffset levels)
    (write mem (read levels 0).start root, buff.sums) with hrun
  have hlast := two_mul_width_last heven (by omega : g.mDepth - 1 + 1 = g.mDepth)
  have hwidth := T.width_le (d := g.mDepth - 1) (by omega) hle (by omega)
  have L := expandLeaves_spec A E.plus (width g.mDomain g.mDepth (g.mDepth - 1)) (read levels (g.mDepth - 1)).start
    leafOffset inner.1 ⟨leafLevel, fun _ => ctx.zero, fun _ => ctx.zero⟩ (by rw [hlast]; exact hleaf)
  have hnode : ∀ p < width g.mDomain g.mDepth (g.mDepth - 1), ∀ k,
      read inner.1 ((read levels (g.mDepth - 1)).start + p) k = Ggm.node A.child (root k) (g.mDepth - 1) p :=
    fun p hp k => hinner.node p (by omega) k
  set leaves := expandLeaves A ctx (width g.mDomain g.mDepth (g.mDepth - 1)) (read levels (g.mDepth - 1)).start leafOffset
    inner.1 ⟨leafLevel, fun _ => ctx.zero, fun _ => ctx.zero⟩ with hleaves
  obtain ⟨hsizeMsgs, hread, hframe⟩ := sendLeaves_spec A ctx g mValue treeIdx leafMsgOffset rem programPuncturedPoint leaves
    hmsgs
  have hexpand : g.expandOne A ctx mValue aesSeed treeIdx programPuncturedPoint levels leafOffset encOffset leafMsgOffset
      mem leafLevel buff = (inner.1, leaves.out, ⟨inner.2, sendLeaves A ctx g mValue treeIdx rem leafMsgOffset
        programPuncturedPoint leaves buff.leafMsgs⟩) := by
    rw [hleaves, hrun, ← hrem]
    rfl
  rw [hexpand]
  refine ⟨hinner.sizeMem, L.size, hinner.sizeSums, hsizeMsgs, fun c hc i hi => ?_, fun x hx => ?_,
    ⟨fun d hd j hj => hinner.masked d (by omega) j hj, leaves.sum0, leaves.sum1, fun i => ?_, fun i => ?_, hread⟩,
    fun x hx => hinner.frame x (.inl hx), fun x hx => hframe x (.inl hx)⟩
  · rw [L.leaf c (by omega) i hi, hnode _ (by omega)]
    rfl
  · exact L.frame x (by omega)
  · rw [L.sum0, E.zero, zero_add]
    exact Finset.sum_congr rfl fun p hp => by rw [hnode p (Finset.mem_range.mp hp)]
  · rw [L.sum1, E.zero, zero_add]
    exact Finset.sum_congr rfl fun p hp => by rw [hnode p (Finset.mem_range.mp hp)]

end RegularPprf
end ExtFieldPcg
