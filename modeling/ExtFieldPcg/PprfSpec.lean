import Mathlib.Data.List.GetD
import ExtFieldPcg.PprfOutput

/-! A run of the punctured PRF: both parties expand all their trees, and the outputs differ at the points of the receiver
    alone. -/

open Buffer

namespace ExtFieldPcg
open Pprf

namespace Pprf

/-- The root of tree `j`. -/
def treeRoot (A : PprfAes) (seed : Block) (j : ℕ) : Block := A.roots seed (8 * (j / 8)) (lane (j % 8))

theorem treeRoot_batch (A : PprfAes) (seed : Block) (b : ℕ) {i : ℕ} (hi : i < 8) :
    treeRoot A seed (8 * b + i) = A.roots seed (8 * b) (lane i) := by
  have hdiv : (8 * b + i) / 8 = b := by omega
  have hmod : (8 * b + i) % 8 = i := by omega
  rw [treeRoot, hdiv, hmod]

variable {F : Type} {M : Type*} [Inhabited F] [AddCommGroup M] (ctx : PprfCtx F)

/-- Where the messages for the eight trees from `8 * b` on lie in what is sent: in a buffer of their own, or at an
    offset of the only one. -/
def view (mEagerSend programPuncturedPoint : Bool) (mDepth : ℕ) (chl : List ExpandBuffer) (b : ℕ) : ExpandBuffer × ℕ × ℕ :=
  if mEagerSend then (chl.getD b default, 0, 0)
  else (chl.getD 0 default, (mDepth - 1) * (8 * b), messageSize ctx programPuncturedPoint * 2 * (8 * b))

variable {ctx}

omit [Inhabited F] in
theorem size_allocateExpandBuffer (ctx : PprfCtx F) (depth numTrees : ℕ) (programPuncturedPoint : Bool) :
    (allocateExpandBuffer ctx depth numTrees programPuncturedPoint).sums.size = depth * numTrees ∧
      (allocateExpandBuffer ctx depth numTrees programPuncturedPoint).leafMsgs.size =
        messageSize ctx programPuncturedPoint * 2 * numTrees := by
  refine ⟨Array.size_replicate, Array.size_replicate.trans ?_⟩
  cases programPuncturedPoint
  · simp only [messageSize, Bool.toNat_false, Bool.false_eq_true, if_false]
    ring
  · simp only [messageSize, Bool.toNat_true, if_true]
    ring

omit [Inhabited F] in
theorem ExpandState.advance_eq (st : ExpandState F) (mDepth : ℕ) {numTrees : ℕ} (hpos : 0 < numTrees) (min : ℕ)
    (programPuncturedPoint : Bool) : st.advance ctx mDepth numTrees min programPuncturedPoint =
      { st with encOffset := st.encOffset + (mDepth - 1) * min,
                leafOffset := st.leafOffset + messageSize ctx programPuncturedPoint * 2 * min } := by
  obtain ⟨hsums, hmsgs⟩ := size_allocateExpandBuffer ctx (mDepth - 1) numTrees programPuncturedPoint
  simp only [advance, hsums, hmsgs, Nat.mul_div_cancel _ hpos]

end Pprf

/-! ### The sender -/

namespace RegularPprf

variable {F : Type} {M : Type*} [Inhabited F] [AddCommGroup M] {A : PprfAes} {ctx : PprfCtx F} {val : F → M}
  {g : RegularPprf (Block × Block)} {seed : Block} {mValue : Array F} {oFormat : PprfOutputFormat}
  {programPuncturedPoint mEagerSend : Bool} {levels : Array Span} {size b : ℕ} {st : ExpandState F}

/-- The messages for the eight trees from `8 * b` on are in what is sent. -/
def BatchSent (A : PprfAes) (ctx : PprfCtx F) (val : F → M) (g : RegularPprf (Block × Block)) (seed : Block)
    (mValue : Array F) (programPuncturedPoint mEagerSend : Bool) (chl : List ExpandBuffer) (b : ℕ) : Prop :=
  let v := view ctx mEagerSend programPuncturedPoint g.mDepth chl b
  g.Sent A ctx val (A.roots seed (8 * b)) mValue (8 * b) (min 8 (g.mPntCount - 8 * b)) v.2.1 v.2.2 programPuncturedPoint v.1

theorem Sent.of_frame {root : Lanes Block} {treeIdx rem encOffset leafMsgOffset : ℕ} {buff buff' : ExpandBuffer}
    (S : g.Sent A ctx val root mValue treeIdx rem encOffset leafMsgOffset programPuncturedPoint buff)
    (hsums : ∀ x < encOffset + (g.mDepth - 1) * rem, read buff'.sums x = read buff.sums x)
    (hmsgs : ∀ x < leafMsgOffset + rem * 2 * messageSize ctx programPuncturedPoint,
      read buff'.leafMsgs x = read buff.leafMsgs x) :
    g.Sent A ctx val root mValue treeIdx rem encOffset leafMsgOffset programPuncturedPoint buff' := by
  obtain ⟨sum0, sum1, hsum0, hsum1, hread⟩ := S.leafMsgs
  refine ⟨fun d hd j hj => ?_, sum0, sum1, hsum0, hsum1, fun j hj k hk i hi => ?_⟩
  · have hlt := Loop.grid_lt (by omega : d < g.mDepth - 1) hj
    rw [hsums _ (by omega), S.sums d hd j hj]
  · have hlt := Loop.grid_lt (Loop.grid_lt hj hk) hi
    rw [hmsgs _ (by omega), hread j hj k hk i hi]

/-- Another buffer is sent after `b` of them. -/
theorem BatchSent.append {chl : List ExpandBuffer} {buff : ExpandBuffer} (hlen : chl.length = b)
    (hold : ∀ b' < b, BatchSent A ctx val g seed mValue programPuncturedPoint true chl b')
    (hnew : g.Sent A ctx val (A.roots seed (8 * b)) mValue (8 * b) (min 8 (g.mPntCount - 8 * b)) 0 0
      programPuncturedPoint buff) :
    ∀ b' < b + 1, BatchSent A ctx val g seed mValue programPuncturedPoint true (chl ++ [buff]) b' := by
  intro b' hb'
  rcases Nat.lt_succ_iff_lt_or_eq.mp hb' with hlt | rfl
  · have S := hold b' hlt
    simp only [BatchSent, view, if_true] at S ⊢
    rwa [List.getD_append _ _ _ _ (by omega)]
  · simp only [BatchSent, view, if_true]
    rwa [List.getD_append_right _ _ _ _ (by omega), hlen, Nat.sub_self]

/-- After `b` rounds of the loop in `expand`. -/
structure SendRun (A : PprfAes) (ctx : PprfCtx F) (val : F → M) (g : RegularPprf (Block × Block)) (seed : Block)
    (mValue : Array F) (oFormat : PprfOutputFormat) (programPuncturedPoint mEagerSend : Bool) (size b : ℕ)
    (st : ExpandState F) : Prop where
  sizeMem : st.mem.size = size
  sizeLevel : st.leafLevel.size = g.mDomain * 8
  sizeOutput : st.output.size = g.mDomain * g.mPntCount
  leaf : ∀ j < g.mPntCount, j < 8 * b → ∀ c < g.mDomain, read st.output (place oFormat g.mDomain g.mPntCount j c) =
    leafAt A ctx g.mDepth (treeRoot A seed j) c
  sent : ∀ b' < b, BatchSent A ctx val g seed mValue programPuncturedPoint mEagerSend
    (if mEagerSend then st.chl else [st.buff]) b'
  eager : mEagerSend = true → st.chl.length = b
  sizeSums : mEagerSend = false → st.buff.sums.size = (g.mDepth - 1) * g.mPntCount
  sizeMsgs : mEagerSend = false → st.buff.leafMsgs.size = messageSize ctx programPuncturedPoint * 2 * g.mPntCount
  encOffset : mEagerSend = false → st.encOffset = (g.mDepth - 1) * min (8 * b) g.mPntCount
  leafOffset : mEagerSend = false → st.leafOffset = messageSize ctx programPuncturedPoint * 2 * min (8 * b) g.mPntCount
  chl : mEagerSend = false → st.chl = []

/-- The call of `expandOne` for the trees from `8 * b` on, with its leaves stored. -/
theorem one_spec (A : PprfAes) (seed : Block) (mValue : Array F) (programPuncturedPoint : Bool) (st : ExpandState F)
    (E : ctx.Exact val) (T : TreeLayout g.mDomain g.mDepth size levels) (heven : g.mDomain % 2 = 0)
    (htwo : 2 ≤ g.mDomain) (hdepth : g.mDepth = log2ceil g.mDomain)
    (hformat : oFormat = .interleaved → g.mPntCount % 8 = 0) (hb : 8 * b < g.mPntCount) {rem : ℕ}
    (hrem : min 8 (g.mPntCount - 8 * b) = rem) (hmem : st.mem.size = size) (hlevel : st.leafLevel.size = g.mDomain * 8)
    (houtput : st.output.size = g.mDomain * g.mPntCount)
    (hsums : st.encOffset + (g.mDepth - 1) * rem ≤ st.buff.sums.size)
    (hmsgs : st.leafOffset + rem * 2 * messageSize ctx programPuncturedPoint ≤ st.buff.leafMsgs.size) :
    let target := st.target oFormat g.mDomain (8 * b)
    let one := g.expandOne A ctx mValue seed (8 * b) programPuncturedPoint levels target.2 st.encOffset st.leafOffset st.mem
      target.1 st.buff
    Expanded A ctx val g (A.roots seed (8 * b)) mValue (8 * b) rem target.2 st.encOffset st.leafOffset
        programPuncturedPoint st.mem target.1 st.buff one ∧
      ∃ leafLevel output, (∀ st' : ExpandState F, st'.output = st.output → st'.leafLevel = st.leafLevel →
          st'.store oFormat g.mPntCount (8 * b) one.2.1 = .ok { st' with leafLevel := leafLevel, output := output }) ∧
        leafLevel.size = g.mDomain * 8 ∧ output.size = g.mDomain * g.mPntCount ∧
        (∀ i < rem, ∀ c < g.mDomain, read output (place oFormat g.mDomain g.mPntCount (8 * b + i) c) =
          leafAt A ctx g.mDepth (treeRoot A seed (8 * b + i)) c) ∧
        ∀ j < 8 * b, ∀ c < g.mDomain, read output (place oFormat g.mDomain g.mPntCount j c) =
          read st.output (place oFormat g.mDomain g.mPntCount j c) := by
  intro target one
  subst hmem
  have hfits := ExpandState.target_fits hformat st hb hlevel houtput
  have X := expandOne_spec (A := A) E T heven htwo hdepth mValue seed programPuncturedPoint hrem hfits hsums hmsgs
  refine ⟨X, ?_⟩
  obtain ⟨leafLevel, output, hok, hsize, hsize', hread, hrest⟩ := ExpandState.store_spec hformat st hb X.sizeLeaf
    X.frameLeaf hlevel houtput hrem
  refine ⟨leafLevel, output, hok, hsize, hsize', fun i hi c hc => ?_, hrest⟩
  rw [hread i hi c hc, treeRoot_batch A seed b (by omega)]
  exact X.leaf c hc i (by omega)

theorem SendRun.step (R : SendRun A ctx val g seed mValue oFormat programPuncturedPoint mEagerSend size b st)
    (E : ctx.Exact val) (T : TreeLayout g.mDomain g.mDepth size levels) (heven : g.mDomain % 2 = 0) (htwo : 2 ≤ g.mDomain)
    (hdepth : g.mDepth = log2ceil g.mDomain) (hformat : oFormat = .interleaved → g.mPntCount % 8 = 0)
    (hb : 8 * b < g.mPntCount) :
    ∃ st', g.expandBatch A ctx mValue seed oFormat programPuncturedPoint mEagerSend levels b st = .ok st' ∧
      SendRun A ctx val g seed mValue oFormat programPuncturedPoint mEagerSend size (b + 1) st' := by
  obtain ⟨rem, hrem⟩ : ∃ rem, min 8 (g.mPntCount - 8 * b) = rem := ⟨_, rfl⟩
  have hpos : 0 < rem := by omega
  have hleaf {output output' : Array F} (hold : ∀ j < 8 * b, ∀ c < g.mDomain,
        read output' (place oFormat g.mDomain g.mPntCount j c) = read output (place oFormat g.mDomain g.mPntCount j c))
      (hnew : ∀ i < rem, ∀ c < g.mDomain, read output' (place oFormat g.mDomain g.mPntCount (8 * b + i) c) =
        leafAt A ctx g.mDepth (treeRoot A seed (8 * b + i)) c) (hout : st.output = output) :
      ∀ j < g.mPntCount, j < 8 * (b + 1) → ∀ c < g.mDomain,
        read output' (place oFormat g.mDomain g.mPntCount j c) = leafAt A ctx g.mDepth (treeRoot A seed j) c := by
    intro j hj hlt c hc
    rcases lt_or_ge j (8 * b) with hbelow | hge
    · rw [hold j hbelow c hc, ← hout, R.leaf j hj hbelow c hc]
    · obtain ⟨i, rfl⟩ := Nat.exists_eq_add_of_le hge
      exact hnew i (by omega) c hc
  cases mEagerSend with
  | true =>
    obtain ⟨hsums, hmsgs⟩ := size_allocateExpandBuffer ctx (g.mDepth - 1) rem programPuncturedPoint
    obtain ⟨X, leafLevel, output, hstore, hlevel, hsize, hnew, hold⟩ := one_spec A seed mValue programPuncturedPoint
      { st with buff := allocateExpandBuffer ctx (g.mDepth - 1) rem programPuncturedPoint, encOffset := 0, leafOffset := 0 }
      E T heven htwo hdepth hformat hb hrem R.sizeMem R.sizeLevel R.sizeOutput (by simp [hsums]) (by
        simp only [hmsgs, Nat.zero_add]
        exact le_of_eq (by ring))
    simp only [expandBatch, if_true, hrem]
    rw [hstore]
    · refine ⟨_, rfl, X.sizeMem.trans R.sizeMem, hlevel, hsize, hleaf hold hnew rfl,
        BatchSent.append (R.eager rfl) R.sent (hrem ▸ X.sent), fun _ => ?_, by simp, by simp, by simp, by simp, by simp⟩
      rw [← R.eager rfl]
      exact List.length_append
    · rfl
    · rfl
  | false =>
    have hmin : min (8 * b) g.mPntCount = 8 * b := by omega
    have hmin' : min (8 * (b + 1)) g.mPntCount = 8 * b + rem := by omega
    have henc := R.encOffset rfl
    have hoff := R.leafOffset rfl
    rw [hmin] at henc hoff
    obtain ⟨X, leafLevel, output, hstore, hlevel, hsize, hnew, hold⟩ := one_spec A seed mValue programPuncturedPoint st
      E T heven htwo hdepth hformat hb hrem R.sizeMem R.sizeLevel R.sizeOutput
      (by
        rw [R.sizeSums rfl, henc, ← Nat.mul_add]
        exact Nat.mul_le_mul_left _ (by omega))
      (by
        rw [R.sizeMsgs rfl, hoff, mul_assoc rem, mul_comm rem, mul_comm 2, ← Nat.mul_add]
        exact Nat.mul_le_mul_left _ (by omega))
    simp only [expandBatch, Bool.false_eq_true, if_false, hrem]
    rw [hstore]
    · refine ⟨_, rfl, X.sizeMem.trans R.sizeMem, hlevel, hsize, hleaf hold hnew rfl, fun b' hb' => ?_,
        by simp, fun _ => X.sizeSums.trans (R.sizeSums rfl), fun _ => X.sizeMsgs.trans (R.sizeMsgs rfl), fun _ => ?_, fun _ => ?_, fun _ => R.chl rfl⟩
      · rcases Nat.lt_succ_iff_lt_or_eq.mp hb' with hlt | rfl
        · have S := R.sent b' hlt
          have hrem' : min 8 (g.mPntCount - 8 * b') = 8 := by omega
          simp only [BatchSent, view, Bool.false_eq_true, if_false, hrem'] at S ⊢
          have hrow : 8 * b' + 8 ≤ 8 * b := by omega
          refine Sent.of_frame S (fun x hx => X.frameSums x (hx.trans_le ?_)) fun x hx => X.frameMsgs x (hx.trans_le ?_)
          · rw [henc, ← Nat.mul_add]
            exact Nat.mul_le_mul_left _ hrow
          · rw [hoff]
            calc messageSize ctx programPuncturedPoint * 2 * (8 * b') + 8 * 2 * messageSize ctx programPuncturedPoint
                = messageSize ctx programPuncturedPoint * 2 * (8 * b' + 8) := by ring
              _ ≤ messageSize ctx programPuncturedPoint * 2 * (8 * b) := Nat.mul_le_mul_left _ hrow
        · simp only [BatchSent, view, Bool.false_eq_true, if_false, hrem]
          rw [← henc, ← hoff]
          exact X.sent
      · rw [ExpandState.advance_eq _ _ (by omega), henc, hmin', Nat.mul_add]
      · rw [ExpandState.advance_eq _ _ (by omega), hoff, hmin', Nat.mul_add]
    · rfl
    · rfl

/-- The number of calls of `expandOne`. -/
theorem lt_batches {b count : ℕ} : b < divCeil count 8 ↔ 8 * b < count := by
  rw [lt_divCeil_iff (by decide), mul_comm]

/-- `expand` succeeds, its output holds every leaf in its place, and every eight trees have sent their messages. -/
theorem expand_spec (A : PprfAes) (g : RegularPprf (Block × Block)) (seed : Block) (mEagerSend : Bool) (E : ctx.Exact val)
    (heven : g.mDomain % 2 = 0) (htwo : 2 ≤ g.mDomain) (hdepth : g.mDepth = log2ceil g.mDomain)
    (hformat : oFormat = .interleaved → g.mPntCount % 8 = 0) {value output : Array F}
    (hvalue : g.programValue programPuncturedPoint value = .ok mValue)
    (houtput : output.size = g.mDomain * g.mPntCount) (scratch : Scratch F) :
    ∃ output' chl, g.expand A ctx value seed output oFormat programPuncturedPoint mEagerSend scratch =
        .ok ({ g with mBaseOTs := #[] }, output', chl) ∧ output'.size = g.mDomain * g.mPntCount ∧
      chl.length = (if mEagerSend then divCeil g.mPntCount 8 else 1) ∧
      (∀ j < g.mPntCount, ∀ c < g.mDomain, read output' (place oFormat g.mDomain g.mPntCount j c) =
        leafAt A ctx g.mDepth (treeRoot A seed j) c) ∧
      ∀ b < divCeil g.mPntCount 8, BatchSent A ctx val g seed mValue programPuncturedPoint mEagerSend chl b := by
  obtain ⟨size, levels, halloc, T⟩ := allocateExpandTree_ok heven htwo
  rw [← hdepth] at T
  obtain ⟨hsums, hmsgs⟩ := size_allocateExpandBuffer ctx (g.mDepth - 1) g.mPntCount programPuncturedPoint
  obtain ⟨st, hrun, R⟩ := Loop.tryRun_induct
    (SendRun A ctx val g seed mValue oFormat programPuncturedPoint mEagerSend size) (n := divCeil g.mPntCount 8)
    (f := g.expandBatch A ctx mValue seed oFormat programPuncturedPoint mEagerSend levels)
    (s := ExpandState.start scratch size g.mDomain output (if mEagerSend then default else
      allocateExpandBuffer ctx (g.mDepth - 1) g.mPntCount programPuncturedPoint) [])
    ⟨Array.size_ofFn, Array.size_ofFn, houtput, fun j _ hj => by omega, fun b hb => by omega, fun _ => rfl,
      by rintro rfl; exact hsums, by rintro rfl; exact hmsgs, by simp [ExpandState.start], by simp [ExpandState.start],
      fun _ => rfl⟩
    fun b hb st R => R.step E T heven htwo hdepth hformat (lt_batches.mp hb)
  have hdone : ∀ j < g.mPntCount, j < 8 * divCeil g.mPntCount 8 := fun j hj => by
    have hle := (divCeil_le_iff (by decide : 0 < 8) g.mPntCount _).mp le_rfl
    omega
  have hok : g.expand A ctx value seed output oFormat programPuncturedPoint mEagerSend scratch =
      .ok ({ g with mBaseOTs := #[] }, st.output, if mEagerSend then st.chl else st.chl ++ [st.buff]) := by
    simp only [expand, hvalue, ok_bind, houtput, validateFormat_ok hformat, halloc, hrun]
  have hchl : (if mEagerSend then st.chl else st.chl ++ [st.buff]) = if mEagerSend then st.chl else [st.buff] := by
    cases mEagerSend with
    | true => rfl
    | false => rw [R.chl rfl]; rfl
  rw [hchl] at hok
  refine ⟨_, _, hok, R.sizeOutput, ?_, fun j hj c hc => R.leaf j hj (hdone j hj) c hc, R.sent⟩
  cases mEagerSend with
  | true => exact R.eager rfl
  | false => rfl

end RegularPprf
/-! ### The receiver -/

namespace RegularPprfReceiver

variable {F : Type} {M : Type*} [Inhabited F] [AddCommGroup M] {A : PprfAes} {ctx : PprfCtx F} {val : F → M}
  {gr : RegularPprfReceiver} {gs : RegularPprf (Block × Block)} {seed : Block} {mValue : Array F}
  {oFormat : PprfOutputFormat} {programPuncturedPoint mEagerSend : Bool} {levels : Array Span} {size b : ℕ}
  {st : ExpandState F} {chl : List ExpandBuffer}

/-- What the receiver gets for leaf `c` of tree `j`. -/
def deliveredAt (A : PprfAes) (ctx : PprfCtx F) (val : F → M) (gr : RegularPprfReceiver) (seed : Block) (mValue : Array F)
    (programPuncturedPoint : Bool) (j c : ℕ) : M :=
  if c = gr.leafPoint j then
    if programPuncturedPoint then val (leafAt A ctx gr.mDepth (treeRoot A seed j) c) + val (read mValue j) else 0
  else val (leafAt A ctx gr.mDepth (treeRoot A seed j) c)

theorem delivered_batch {i c : ℕ} (hi : i < 8) :
    delivered A ctx val gr (A.roots seed (8 * b)) mValue (8 * b) programPuncturedPoint i c =
      deliveredAt A ctx val gr seed mValue programPuncturedPoint (8 * b + i) c := by
  rw [delivered, deliveredAt, treeRoot_batch A seed b hi, add_comm i]

/-- After `b` rounds of the loop in `expand`. -/
structure RecvRun (A : PprfAes) (ctx : PprfCtx F) (val : F → M) (gr : RegularPprfReceiver) (seed : Block)
    (mValue : Array F) (oFormat : PprfOutputFormat) (programPuncturedPoint mEagerSend : Bool) (chl : List ExpandBuffer)
    (size b : ℕ) (st : ExpandState F) : Prop where
  sizeMem : st.mem.size = size
  sizeLevel : st.leafLevel.size = gr.mDomain * 8
  sizeOutput : st.output.size = gr.mDomain * gr.mPntCount
  leaf : ∀ j < gr.mPntCount, j < 8 * b → ∀ c < gr.mDomain,
    val (read st.output (place oFormat gr.mDomain gr.mPntCount j c)) =
      deliveredAt A ctx val gr seed mValue programPuncturedPoint j c
  eager : mEagerSend = true → st.chl = chl.drop b
  buff : mEagerSend = false → st.buff = chl.getD 0 default
  encOffset : mEagerSend = false → st.encOffset = (gr.mDepth - 1) * min (8 * b) gr.mPntCount
  leafOffset : mEagerSend = false → st.leafOffset = messageSize ctx programPuncturedPoint * 2 * min (8 * b) gr.mPntCount

/-- The call of `expandOne` for the trees from `8 * b` on, with its leaves stored. -/
theorem one_spec (E : ctx.Exact val) (P : PprfPaired gr gs) (T : TreeLayout gr.mDomain gr.mDepth size levels)
    (hformat : oFormat = .interleaved → gr.mPntCount % 8 = 0) (hb : 8 * b < gr.mPntCount) (st : ExpandState F)
    (hmem : st.mem.size = size) (hlevel : st.leafLevel.size = gr.mDomain * 8)
    (houtput : st.output.size = gr.mDomain * gr.mPntCount)
    (S : gs.Sent A ctx val (A.roots seed (8 * b)) mValue (8 * b) (min 8 (gr.mPntCount - 8 * b)) st.encOffset st.leafOffset
      programPuncturedPoint st.buff) :
    let target := st.target oFormat gr.mDomain (8 * b)
    let one := gr.expandOne A ctx (8 * b) programPuncturedPoint levels target.2 st.encOffset st.leafOffset st.buff st.mem
      target.1
    one.1.size = size ∧
      ∃ leafLevel output, (∀ st' : ExpandState F, st'.output = st.output → st'.leafLevel = st.leafLevel →
          st'.store oFormat gr.mPntCount (8 * b) one.2 = .ok { st' with leafLevel := leafLevel, output := output }) ∧
        leafLevel.size = gr.mDomain * 8 ∧ output.size = gr.mDomain * gr.mPntCount ∧
        (∀ i < min 8 (gr.mPntCount - 8 * b), ∀ c < gr.mDomain,
          val (read output (place oFormat gr.mDomain gr.mPntCount (8 * b + i) c)) =
            deliveredAt A ctx val gr seed mValue programPuncturedPoint (8 * b + i) c) ∧
        ∀ j < 8 * b, ∀ c < gr.mDomain, read output (place oFormat gr.mDomain gr.mPntCount j c) =
          read st.output (place oFormat gr.mDomain gr.mPntCount j c) := by
  intro target one
  subst hmem
  have hfits := ExpandState.target_fits hformat st hb hlevel houtput
  have X := expandOne_spec E P S T rfl (by omega) hfits
  obtain ⟨leafLevel, output, hok, hsize, hsize', hread, hrest⟩ := ExpandState.store_spec hformat st hb X.sizeLeaf X.frame
    hlevel houtput rfl
  refine ⟨X.sizeMem, leafLevel, output, hok, hsize, hsize', fun i hi c hc => ?_, hrest⟩
  rw [hread i hi c hc, ← delivered_batch (by omega)]
  exact X.leaf i hi c hc

theorem RecvRun.step
    (R : RecvRun A ctx val gr seed mValue oFormat programPuncturedPoint mEagerSend chl size b st)
    (E : ctx.Exact val) (P : PprfPaired gr gs) (T : TreeLayout gr.mDomain gr.mDepth size levels)
    (hformat : oFormat = .interleaved → gr.mPntCount % 8 = 0) (hb : 8 * b < gr.mPntCount)
    (hlen : mEagerSend = true → b < chl.length)
    (S : RegularPprf.BatchSent A ctx val gs seed mValue programPuncturedPoint mEagerSend chl b) :
    ∃ st', gr.expandBatch A ctx oFormat programPuncturedPoint mEagerSend levels b st = .ok st' ∧
      RecvRun A ctx val gr seed mValue oFormat programPuncturedPoint mEagerSend chl size (b + 1) st' := by
  have hleaf {output' : Array F} (hold : ∀ j < 8 * b, ∀ c < gr.mDomain,
        read output' (place oFormat gr.mDomain gr.mPntCount j c) =
          read st.output (place oFormat gr.mDomain gr.mPntCount j c))
      (hnew : ∀ i < min 8 (gr.mPntCount - 8 * b), ∀ c < gr.mDomain,
        val (read output' (place oFormat gr.mDomain gr.mPntCount (8 * b + i) c)) =
          deliveredAt A ctx val gr seed mValue programPuncturedPoint (8 * b + i) c) :
      ∀ j < gr.mPntCount, j < 8 * (b + 1) → ∀ c < gr.mDomain,
        val (read output' (place oFormat gr.mDomain gr.mPntCount j c)) =
          deliveredAt A ctx val gr seed mValue programPuncturedPoint j c := by
    intro j hj hlt c hc
    rcases lt_or_ge j (8 * b) with hbelow | hge
    · rw [hold j hbelow c hc, R.leaf j hj hbelow c hc]
    · obtain ⟨i, rfl⟩ := Nat.exists_eq_add_of_le hge
      exact hnew i (by omega) c hc
  cases mEagerSend with
  | true =>
    have hlen := hlen rfl
    have hchl : st.chl = chl.getD b default :: chl.drop (b + 1) := by
      rw [R.eager rfl, List.drop_eq_getElem_cons hlen, List.getD_eq_getElem _ _ hlen]
    simp only [RegularPprf.BatchSent, view, if_true, P.count] at S
    obtain ⟨hmem, leafLevel, output, hstore, hlevel, hsize, hnew, hold⟩ := one_spec E P T hformat hb
      { st with buff := chl.getD b default, encOffset := 0, leafOffset := 0, chl := chl.drop (b + 1) }
      R.sizeMem R.sizeLevel R.sizeOutput S
    simp only [expandBatch, hchl, ok_bind, if_true]
    rw [hstore]
    · exact ⟨_, rfl, hmem, hlevel, hsize, hleaf hold hnew, fun _ => rfl, by simp, by simp, by simp⟩
    · rfl
    · rfl
  | false =>
    have hmin : min (8 * b) gr.mPntCount = 8 * b := by omega
    have hmin' : min (8 * (b + 1)) gr.mPntCount = 8 * b + min 8 (gr.mPntCount - 8 * b) := by omega
    have henc := R.encOffset rfl
    have hoff := R.leafOffset rfl
    rw [hmin] at henc hoff
    simp only [RegularPprf.BatchSent, view, Bool.false_eq_true, if_false, P.count, P.depth] at S
    rw [← henc, ← hoff, ← R.buff rfl] at S
    obtain ⟨hmem, leafLevel, output, hstore, hlevel, hsize, hnew, hold⟩ := one_spec E P T hformat hb st
      R.sizeMem R.sizeLevel R.sizeOutput S
    simp only [expandBatch, ok_bind, Bool.false_eq_true, if_false]
    rw [hstore]
    · refine ⟨_, rfl, hmem, hlevel, hsize, hleaf hold hnew, by simp, fun _ => R.buff rfl, fun _ => ?_, fun _ => ?_⟩
      · rw [ExpandState.advance_eq _ _ (by omega), henc, hmin', Nat.mul_add]
      · rw [ExpandState.advance_eq _ _ (by omega), hoff, hmin', Nat.mul_add]
    · rfl
    · rfl

/-- `expand` succeeds on what the sender has sent. -/
theorem expand_spec (E : ctx.Exact val) (P : PprfPaired gr gs)
    (hformat : oFormat = .interleaved → gr.mPntCount % 8 = 0) {output : Array F}
    (houtput : output.size = gr.mDomain * gr.mPntCount) (scratch : Scratch F)
    (hlen : chl.length = if mEagerSend then divCeil gr.mPntCount 8 else 1)
    (S : ∀ b < divCeil gr.mPntCount 8,
      RegularPprf.BatchSent A ctx val gs seed mValue programPuncturedPoint mEagerSend chl b) :
    ∃ output', gr.expand A ctx chl output oFormat programPuncturedPoint mEagerSend scratch =
        .ok ({ gr with mBaseOTs := #[] }, output') ∧ output'.size = gr.mDomain * gr.mPntCount ∧
      ∀ j < gr.mPntCount, ∀ c < gr.mDomain, val (read output' (place oFormat gr.mDomain gr.mPntCount j c)) =
        deliveredAt A ctx val gr seed mValue programPuncturedPoint j c := by
  obtain ⟨size, levels, halloc, T⟩ := allocateExpandTree_ok P.even P.two_le
  rw [← P.log] at T
  have hstart (buff : ExpandBuffer) (rest : List ExpandBuffer) (hrest : mEagerSend = true → rest = chl)
      (hbuff : mEagerSend = false → buff = chl.getD 0 default) :
      RecvRun A ctx val gr seed mValue oFormat programPuncturedPoint mEagerSend chl size 0
        (ExpandState.start scratch size gr.mDomain output buff rest) :=
    ⟨Array.size_ofFn, Array.size_ofFn, houtput, fun j _ hj => by omega, hrest, hbuff, by simp [ExpandState.start],
      by simp [ExpandState.start]⟩
  have hrun (start : ExpandState F)
      (h : RecvRun A ctx val gr seed mValue oFormat programPuncturedPoint mEagerSend chl size 0 start) :=
    Loop.tryRun_induct (RecvRun A ctx val gr seed mValue oFormat programPuncturedPoint mEagerSend chl size)
      (n := divCeil gr.mPntCount 8) (f := gr.expandBatch A ctx oFormat programPuncturedPoint mEagerSend levels) h
      fun b hb st R => R.step E P T hformat (RegularPprf.lt_batches.mp hb) (by rintro rfl; exact hb.trans_eq hlen.symm)
        (S b hb)
  have hdone : ∀ j < gr.mPntCount, j < 8 * divCeil gr.mPntCount 8 := fun j hj => by
    have hle := (divCeil_le_iff (by decide : 0 < 8) gr.mPntCount _).mp le_rfl
    omega
  cases mEagerSend with
  | true =>
    obtain ⟨st, hst, R⟩ := hrun _ (hstart default chl (fun _ => rfl) (by simp))
    refine ⟨st.output, ?_, R.sizeOutput, fun j hj c hc => R.leaf j hj (hdone j hj) c hc⟩
    simp only [expand, houtput, validateFormat_ok hformat, halloc, ok_bind, hst]
  | false =>
    obtain ⟨buff, rfl⟩ := List.length_eq_one_iff.mp hlen
    obtain ⟨st, hst, R⟩ := hrun _ (hstart buff [] (by simp) (fun _ => rfl))
    refine ⟨st.output, ?_, R.sizeOutput, fun j hj c hc => R.leaf j hj (hdone j hj) c hc⟩
    simp only [expand, houtput, validateFormat_ok hformat, halloc, ok_bind, hst]

end RegularPprfReceiver

/-! ### Both parties -/

namespace Pprf

variable {F : Type} {M : Type*} [Inhabited F] [AddCommGroup M] {ctx : PprfCtx F} {val : F → M}
  {gr : RegularPprfReceiver} {gs : RegularPprf (Block × Block)} {oFormat : PprfOutputFormat}

/-- What a run leaves: leaf by leaf, the receiver has what it is delivered of the tree of the sender. -/
theorem run_leaves (A : PprfAes) (E : ctx.Exact val) (P : PprfPaired gr gs)
    (hformat : oFormat = .interleaved → gr.mPntCount % 8 = 0) (programPuncturedPoint mEagerSend : Bool) (seed : Block)
    (value : Array F) {mValue : Array F} (hvalue : gs.programValue programPuncturedPoint value = .ok mValue) {output : Array F × Array F}
    (hrecv : output.1.size = gr.mDomain * gr.mPntCount) (hsend : output.2.size = gr.mDomain * gr.mPntCount)
    (scratch : Scratch F × Scratch F) :
    ∃ a b, run A ctx gr gs value seed oFormat programPuncturedPoint mEagerSend output scratch = .ok (a, b) ∧
      a.size = gr.mDomain * gr.mPntCount ∧ b.size = gr.mDomain * gr.mPntCount ∧
      ∀ j < gr.mPntCount, ∀ c < gr.mDomain,
        read b (place oFormat gr.mDomain gr.mPntCount j c) = leafAt A ctx gr.mDepth (treeRoot A seed j) c ∧
        val (read a (place oFormat gr.mDomain gr.mPntCount j c)) =
          RegularPprfReceiver.deliveredAt A ctx val gr seed mValue programPuncturedPoint j c := by
  obtain ⟨b, chl, hb, hsizeB, hlen, hleaf, hsent⟩ := RegularPprf.expand_spec A gs seed mEagerSend E
    (by rw [P.domain]; exact P.even) (by rw [P.domain]; exact P.two_le) (by rw [P.depth, P.domain, P.log])
    (by rw [P.count]; exact hformat) hvalue (by rw [P.domain, P.count]; exact hsend) scratch.2
  rw [P.count] at hlen hsent
  obtain ⟨a, ha, hsizeA, hread⟩ := RegularPprfReceiver.expand_spec E P hformat hrecv scratch.1 hlen hsent
  refine ⟨a, b, by rw [run, hb, ok_bind, ha]; rfl, hsizeA, ?_, fun j hj c hc => ⟨?_, hread j hj c hc⟩⟩
  · rw [hsizeB, P.domain, P.count]
  · have hleaf := hleaf j (by rw [P.count]; exact hj) c (by rw [P.domain]; exact hc)
    rwa [P.domain, P.count, P.depth] at hleaf

/-- The value that the sender programs at the point of tree `j`. -/
def valueAt {F : Type} [Inhabited F] (value : Array F) (j : ℕ) : F := if value.size = 1 then read value 0 else read value j

theorem setValue_ok {F : Type} [Inhabited F] {g : RegularPprf (Block × Block)} {value : Array F}
    (h : value.size = 1 ∨ value.size = g.mPntCount) :
    ∃ mValue, g.programValue true value = .ok mValue ∧ ∀ j < g.mPntCount, read mValue j = valueAt value j := by
  rw [RegularPprf.programValue, if_pos rfl, RegularPprf.setValue]
  by_cases hone : value.size = 1
  · exact ⟨_, if_pos hone, fun j hj => by rw [read_replicate hj, valueAt, if_pos hone]⟩
  · rw [if_neg hone, if_neg (by simpa using h.resolve_left hone)]
    exact ⟨value, rfl, fun j _ => by rw [valueAt, if_neg hone]⟩

end Pprf
end ExtFieldPcg
