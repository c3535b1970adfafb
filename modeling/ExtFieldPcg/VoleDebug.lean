import Mathlib.Data.List.Sort
import ExtFieldPcg.VoleProtocol

/-! Sessions with `mDebug`: the sender opens its vectors, and `checkRT` of the receiver compares them with its own. It
    accepts exactly the states that hold the correlation which the session is meant to have before its encoding. -/

open Buffer

namespace ExtFieldPcg

/-! ### The code -/

/-- The variables of the last loop of `checkRT`. -/
structure RtState where
  iIter : ℕ
  leafIdx : ℕ
  failed : Bool

namespace SilentWalshVoleReceiver

/-- `index`, sorted by the points. Where two points agree their order does not matter: the check throws. -/
def rtIndex (r : SilentWalshVoleReceiver) : Array ℕ :=
  ((List.range r.mS.size).insertionSort fun i j => read r.mS i ≤ read r.mS j).toArray

/-- One round of the loop over the base VOLE. -/
def rtBase (ctx : CoeffCtx Block) (r : SilentWalshVoleReceiver) (delta : Block) (baseB : Array Block) (i : ℕ) :
    Except Err Unit :=
  if ctx.eq (ctx.plus (read baseB i) (read r.mBaseA i)) (ctx.mul delta (read r.mBaseC i)) = false then .error .rteLoc
  else if i < r.mNumPartitions then
    if ctx.eq (read r.mBaseC i) (r.mC.get (read r.mS i)) = false then .error .rteLoc
    else if 0 < i ∧ read r.mS (read r.rtIndex i) ≤ read r.mS (read r.rtIndex (i - 1)) then .error .rteLoc
    else .ok ()
  else .ok ()

/-- One round of the loop over the vectors. -/
def rtLeaf (ctx : CoeffCtx Block) (r : SilentWalshVoleReceiver) (delta : Block) (B : Array Block) (j : ℕ) (st : RtState) :
    Except Err RtState :=
  let act := ctx.plus (ctx.mul delta (r.mC.get j)) (read B j)
  let failed := st.failed || r.mA.get j != act
  if j = st.leafIdx then
    let iIter := st.iIter + 1
    .ok ⟨iIter, if iIter ≠ r.rtIndex.size then read r.mS (read r.rtIndex iIter) else st.leafIdx, failed⟩
  else if ctx.eq ctx.zero (r.mC.get j) = false then .error .rteLoc
  else .ok { st with failed := failed }

/-- `checkRT(chl)` on what the sender opens. -/
def checkRT (ctx : CoeffCtx Block) (r : SilentWalshVoleReceiver) (delta : Block) (B baseB : Array Block) :
    Except Err Unit := do
  Loop.tryRun r.mBaseA.size (fun i _ => r.rtBase ctx delta baseB i) ()
  let st ← Loop.tryRun r.mA.size (r.rtLeaf ctx delta B) ⟨0, read r.mS (read r.rtIndex 0), false⟩
  if st.failed then .error .rteLoc else .ok ()

end SilentWalshVoleReceiver

/-! ### Sorted points -/

namespace SilentWalshVoleReceiver
variable {r : SilentWalshVoleReceiver} {N : ℕ}

/-- Point `k` in the order of `index`. -/
def sortedPoint (r : SilentWalshVoleReceiver) (k : ℕ) : ℕ := read r.mS (read r.rtIndex k)

theorem size_rtIndex : r.rtIndex.size = r.mS.size := by simp [rtIndex]

theorem rtIndex_perm : r.rtIndex.toList.Perm (List.range r.mS.size) := List.perm_insertionSort _ _

theorem read_rtIndex {k : ℕ} (hk : k < r.mS.size) :
    read r.rtIndex k = r.rtIndex.toList.get ⟨k, by simpa [size_rtIndex] using hk⟩ := by
  have hk' : k < r.rtIndex.size := size_rtIndex.symm ▸ hk
  simp [Buffer.read, hk']

theorem read_rtIndex_lt {k : ℕ} (hk : k < r.mS.size) : read r.rtIndex k < r.mS.size := by
  rw [read_rtIndex hk]
  exact List.mem_range.mp (rtIndex_perm.mem_iff.mp (List.getElem_mem _))

theorem exists_read_rtIndex {i : ℕ} (hi : i < r.mS.size) : ∃ k < r.mS.size, read r.rtIndex k = i := by
  obtain ⟨k, hk, hget⟩ := List.getElem_of_mem (rtIndex_perm.mem_iff.mpr (List.mem_range.mpr hi))
  have hk' : k < r.mS.size := by simpa [size_rtIndex] using hk
  exact ⟨k, hk', (read_rtIndex hk').trans hget⟩

theorem read_rtIndex_inj {i j : ℕ} (hi : i < r.mS.size) (hj : j < r.mS.size) (h : read r.rtIndex i = read r.rtIndex j) :
    i = j := by
  rw [read_rtIndex hi, read_rtIndex hj] at h
  exact (rtIndex_perm.nodup_iff.mpr List.nodup_range).getElem_inj_iff.mp h

theorem sortedPoint_le {i j : ℕ} (hij : i < j) (hj : j < r.mS.size) : r.sortedPoint i ≤ r.sortedPoint j := by
  have hsorted : r.rtIndex.toList.Pairwise fun i j => read r.mS i ≤ read r.mS j := List.pairwise_insertionSort _ _
  rw [sortedPoint, sortedPoint, read_rtIndex (hij.trans hj), read_rtIndex hj]
  exact List.pairwise_iff_getElem.mp hsorted i j _ _ hij

/-- Neighbours that differ make all points differ. -/
theorem sortedPoint_lt (hadj : ∀ i, 0 < i → i < r.mS.size → r.sortedPoint (i - 1) < r.sortedPoint i) {i j : ℕ} (hij : i < j)
    (hj : j < r.mS.size) : r.sortedPoint i < r.sortedPoint j := by
  have hnext := hadj (i + 1) (Nat.succ_pos i) (by omega)
  rw [Nat.add_sub_cancel] at hnext
  rcases Nat.lt_or_eq_of_le (Nat.succ_le_of_lt hij) with hlt | rfl
  · exact hnext.trans_le (sortedPoint_le hlt hj)
  · exact hnext

/-- The comparisons of neighbours succeed exactly on points that are all different. -/
theorem sortedPoint_adjacent_iff : (∀ i, 0 < i → i < r.mS.size → r.sortedPoint (i - 1) < r.sortedPoint i) ↔
    ∀ i < r.mS.size, ∀ j < r.mS.size, read r.mS i = read r.mS j → i = j := by
  constructor
  · intro hadj i hi j hj h
    obtain ⟨a, ha, rfl⟩ := exists_read_rtIndex hi
    obtain ⟨b, hb, rfl⟩ := exists_read_rtIndex hj
    rcases lt_trichotomy a b with hab | rfl | hab
    · exact absurd h (sortedPoint_lt hadj hab hb).ne
    · rfl
    · exact absurd h (sortedPoint_lt hadj hab ha).ne'
  · intro hinj i hpos hi
    refine (sortedPoint_le (by omega) hi).lt_of_ne fun h => ?_
    have heq := read_rtIndex_inj (by omega) hi (hinj _ (read_rtIndex_lt (by omega)) _ (read_rtIndex_lt hi) h)
    omega

/-! ### What the check accepts -/

/-- The correlation that a session is meant to have before its encoding. -/
structure RtValid (ctx : CoeffCtx Block) (r : SilentWalshVoleReceiver) (delta : Block) (B baseB : Array Block) : Prop where
  base : ∀ i < r.mBaseA.size, ctx.plus (read baseB i) (read r.mBaseA i) = ctx.mul delta (read r.mBaseC i)
  noise : ∀ i < r.mS.size, r.mC.get (read r.mS i) = read r.mBaseC i
  points : ∀ i < r.mS.size, ∀ j < r.mS.size, read r.mS i = read r.mS j → i = j
  zero : ∀ j < r.mA.size, (∀ i < r.mS.size, read r.mS i ≠ j) → r.mC.get j = ctx.zero
  corr : ∀ j < r.mA.size, r.mA.get j = ctx.plus (ctx.mul delta (r.mC.get j)) (read B j)

variable {ctx : CoeffCtx Block} {delta : Block} {B baseB : Array Block}

/-- What round `i` of the loop over the base VOLE asks for. -/
def BaseGood (ctx : CoeffCtx Block) (r : SilentWalshVoleReceiver) (delta : Block) (baseB : Array Block) (i : ℕ) : Prop :=
  ctx.plus (read baseB i) (read r.mBaseA i) = ctx.mul delta (read r.mBaseC i) ∧ (i < r.mNumPartitions →
    r.mC.get (read r.mS i) = read r.mBaseC i ∧ (0 < i → r.sortedPoint (i - 1) < r.sortedPoint i))

theorem rtBase_eq (heq : ∀ x y, ctx.eq x y = true ↔ x = y) (i : ℕ) [Decidable (BaseGood ctx r delta baseB i)] :
    r.rtBase ctx delta baseB i = if BaseGood ctx r delta baseB i then .ok () else .error .rteLoc := by
  have hne (x y : Block) : ctx.eq x y = false ↔ x ≠ y := by rw [← Bool.not_eq_true, heq]
  rw [rtBase]
  simp only [hne]
  split
  next h => rw [if_neg fun G => h G.1]
  next h =>
    split
    next hi =>
      split
      next hc => rw [if_neg fun G => hc (G.2 hi).1.symm]
      next hc =>
        split
        next hp => rw [if_neg fun G => hp.2.not_gt ((G.2 hi).2 hp.1)]
        next hp => rw [if_pos ⟨not_not.mp h, fun _ => ⟨(not_not.mp hc).symm, fun hpos => not_le.mp fun hle => hp ⟨hpos, hle⟩⟩⟩]
    next hi => rw [if_pos ⟨not_not.mp h, fun hlt => absurd hlt hi⟩]

/-- Before round `j` of the loop over the vectors `iIter` is the first point from `j` on. -/
structure RtScan (ctx : CoeffCtx Block) (r : SilentWalshVoleReceiver) (delta : Block) (B : Array Block) (j : ℕ)
    (st : RtState) : Prop where
  before : ∀ i < st.iIter, r.sortedPoint i < j
  after : ∀ i, st.iIter ≤ i → i < r.mS.size → j ≤ r.sortedPoint i
  iIter : st.iIter ≤ r.mS.size
  leaf : st.leafIdx = if st.iIter < r.mS.size then r.sortedPoint st.iIter else r.sortedPoint (r.mS.size - 1)
  failed : st.failed = true ↔ ∃ i < j, r.mA.get i ≠ ctx.plus (ctx.mul delta (r.mC.get i)) (read B i)

/-- What round `j` of the loop over the vectors asks for. -/
def LeafGood (ctx : CoeffCtx Block) (r : SilentWalshVoleReceiver) (j : ℕ) : Prop :=
  (∀ i < r.mS.size, r.sortedPoint i ≠ j) → r.mC.get j = ctx.zero

variable {st : RtState} {j : ℕ}

theorem RtScan.failed_step (S : RtScan ctx r delta B j st) :
    (st.failed || r.mA.get j != ctx.plus (ctx.mul delta (r.mC.get j)) (read B j)) = true ↔
      ∃ i < j + 1, r.mA.get i ≠ ctx.plus (ctx.mul delta (r.mC.get i)) (read B i) := by
  rw [Bool.or_eq_true, S.failed, bne_iff_ne]
  constructor
  · rintro (⟨i, hi, h⟩ | h)
    · exact ⟨i, by omega, h⟩
    · exact ⟨j, by omega, h⟩
  · rintro ⟨i, hi, h⟩
    rcases Nat.lt_succ_iff_lt_or_eq.mp hi with hlt | rfl
    · exact .inl ⟨i, hlt, h⟩
    · exact .inr h

/-- A round at a point moves on to the next one. -/
theorem RtScan.step_point (S : RtScan ctx r delta B j st)
    (hlt : ∀ i k, i < k → k < r.mS.size → r.sortedPoint i < r.sortedPoint k) (hiter : st.iIter < r.mS.size)
    (hj : r.sortedPoint st.iIter = j) :
    ∃ st', r.rtLeaf ctx delta B j st = .ok st' ∧ RtScan ctx r delta B (j + 1) st' := by
  have hleaf : j = st.leafIdx := by rw [S.leaf, if_pos hiter, hj]
  refine ⟨_, if_pos hleaf, fun i hi => ?_, fun i hi hi' => ?_, hiter, ?_, S.failed_step⟩
  · rcases Nat.lt_succ_iff_lt_or_eq.mp hi with hi | rfl
    · exact (S.before i hi).trans (Nat.lt_succ_self j)
    · rw [hj]
      exact Nat.lt_succ_self j
  · rw [← hj]
    exact hlt _ _ hi hi'
  · rw [size_rtIndex]
    split
    next hne =>
      exact (if_pos (by omega : st.iIter + 1 < r.mS.size)).symm
    next heq =>
      have hlast : r.mS.size - 1 = st.iIter := by omega
      rw [← hleaf, hlast, hj, if_neg (by omega : ¬ st.iIter + 1 < r.mS.size)]

theorem RtScan.off_point (S : RtScan ctx r delta B j st) (hoff : ∀ i < r.mS.size, r.sortedPoint i ≠ j) (hN : 0 < r.mS.size) :
    j ≠ st.leafIdx := by
  rw [S.leaf]
  split
  next h => exact (hoff _ h).symm
  next => exact (hoff _ (by omega)).symm

/-- A round elsewhere compares with zero. -/
theorem RtScan.step_off (S : RtScan ctx r delta B j st) (hoff : ∀ i < r.mS.size, r.sortedPoint i ≠ j) (hN : 0 < r.mS.size)
    (heq : ctx.eq ctx.zero (r.mC.get j) = true) :
    ∃ st', r.rtLeaf ctx delta B j st = .ok st' ∧ RtScan ctx r delta B (j + 1) st' := by
  have hstep : r.rtLeaf ctx delta B j st = .ok { st with
      failed := st.failed || r.mA.get j != ctx.plus (ctx.mul delta (r.mC.get j)) (read B j) } := by
    rw [rtLeaf, if_neg (S.off_point hoff hN), if_neg (by rw [heq]; decide)]
  refine ⟨_, hstep, fun i hi => ?_, fun i hi hi' => ?_, S.iIter, S.leaf, S.failed_step⟩
  · exact (S.before i hi).trans (Nat.lt_succ_self j)
  · exact (S.after i hi hi').lt_of_ne (hoff i hi').symm

/-- The point of a round, where it has one. -/
theorem RtScan.eq_iIter (S : RtScan ctx r delta B j st)
    (hlt : ∀ i k, i < k → k < r.mS.size → r.sortedPoint i < r.sortedPoint k) {i : ℕ} (hi : i < r.mS.size)
    (hj : r.sortedPoint i = j) : i = st.iIter := by
  rcases lt_trichotomy i st.iIter with h | h | h
  · exact absurd hj (S.before i h).ne
  · exact h
  · have hle := S.after st.iIter le_rfl (h.trans hi)
    have hnext := hlt _ _ h hi
    omega

/-- The loop over the vectors ends where every entry off the points is zero, and then knows of a wrong entry. -/
theorem rtLeaf_run (delta : Block) (B : Array Block) (heq : ∀ x y, ctx.eq x y = true ↔ x = y) (hN : 0 < r.mS.size)
    (hlt : ∀ i k, i < k → k < r.mS.size → r.sortedPoint i < r.sortedPoint k) :
    let start : RtState := ⟨0, read r.mS (read r.rtIndex 0), false⟩
    (∃ st, Loop.tryRun r.mA.size (r.rtLeaf ctx delta B) start = .ok st ∧ RtScan ctx r delta B r.mA.size st ∧
        ∀ j < r.mA.size, LeafGood ctx r j) ∨
      (Loop.tryRun r.mA.size (r.rtLeaf ctx delta B) start = .error .rteLoc ∧ ∃ j < r.mA.size, ¬ LeafGood ctx r j) := by
  refine Loop.tryRun_ok_iff (RtScan ctx r delta B) (LeafGood ctx r) ?_ (fun j hj st S hgood => ?_) fun j hj st S hbad => ?_
  · exact ⟨by simp, by simp, Nat.zero_le _, (if_pos hN).symm, by simp⟩
  · by_cases h : ∃ i < r.mS.size, r.sortedPoint i = j
    · obtain ⟨i, hi, hpoint⟩ := h
      obtain rfl := S.eq_iIter hlt hi hpoint
      exact S.step_point hlt hi hpoint
    · have hoff : ∀ i < r.mS.size, r.sortedPoint i ≠ j := fun i hi h' => h ⟨i, hi, h'⟩
      exact S.step_off hoff hN ((heq _ _).mpr (hgood hoff).symm)
  · rw [LeafGood, Classical.not_imp] at hbad
    obtain ⟨hoff, hne⟩ := hbad
    have hfalse : ctx.eq ctx.zero (r.mC.get j) = false := by
      rw [← Bool.not_eq_true, heq]
      exact fun h => hne h.symm
    rw [rtLeaf, if_neg (S.off_point hoff hN), if_pos hfalse]

/-- The loop over the base VOLE ends where the base VOLE and the noise are right and no points agree. -/
theorem forall_baseGood_iff (hcount : r.mNumPartitions = r.mS.size) (hle : r.mS.size ≤ r.mBaseA.size) :
    (∀ i < r.mBaseA.size, BaseGood ctx r delta baseB i) ↔
      (∀ i < r.mBaseA.size, ctx.plus (read baseB i) (read r.mBaseA i) = ctx.mul delta (read r.mBaseC i)) ∧
      (∀ i < r.mS.size, r.mC.get (read r.mS i) = read r.mBaseC i) ∧
      ∀ i, 0 < i → i < r.mS.size → r.sortedPoint (i - 1) < r.sortedPoint i := by
  constructor
  · intro G
    have hpart (i : ℕ) (hi : i < r.mS.size) := (G i (hi.trans_le hle)).2 (hcount.symm ▸ hi)
    exact ⟨fun i hi => (G i hi).1, fun i hi => (hpart i hi).1, fun i hpos hi => (hpart i hi).2 hpos⟩
  · rintro ⟨hbase, hnoise, hadj⟩ i hi
    exact ⟨hbase i hi, fun hlt => ⟨hnoise i (hcount ▸ hlt), fun hpos => hadj i hpos (hcount ▸ hlt)⟩⟩

theorem rtBase_run (r : SilentWalshVoleReceiver) (delta : Block) (baseB : Array Block) (heq : ∀ x y, ctx.eq x y = true ↔ x = y) :
    (Loop.tryRun r.mBaseA.size (fun i _ => r.rtBase ctx delta baseB i) () = .ok () ∧
        ∀ i < r.mBaseA.size, BaseGood ctx r delta baseB i) ∨
      (Loop.tryRun r.mBaseA.size (fun i _ => r.rtBase ctx delta baseB i) () = .error .rteLoc ∧
        ∃ i < r.mBaseA.size, ¬ BaseGood ctx r delta baseB i) := by
  classical
  obtain ⟨t, ht, -, hgood⟩ | hbad := Loop.tryRun_ok_iff (fun _ _ => True) (BaseGood ctx r delta baseB) (n := r.mBaseA.size)
    (f := fun i _ => r.rtBase ctx delta baseB i) (s := ()) (e := Err.rteLoc) trivial
    (fun i _ _ _ hgood => ⟨(), by rw [rtBase_eq heq, if_pos hgood], trivial⟩)
    fun i _ _ _ hbad => by rw [rtBase_eq heq, if_neg hbad]
  · exact .inl ⟨ht, hgood⟩
  · exact .inr hbad

/-- Off the sorted points is off the points. -/
theorem forall_sortedPoint_ne_iff {j : ℕ} :
    (∀ i < r.mS.size, r.sortedPoint i ≠ j) ↔ ∀ i < r.mS.size, read r.mS i ≠ j := by
  constructor
  · intro h i hi
    obtain ⟨k, hk, rfl⟩ := exists_read_rtIndex hi
    exact h k hk
  · exact fun h i hi => h _ (read_rtIndex_lt hi)

/-- The sizes after an expansion: all that the check reads is there. -/
structure RtShaped (r : SilentWalshVoleReceiver) (B baseB : Array Block) : Prop where
  pos : 0 < r.mS.size
  count : r.mNumPartitions = r.mS.size
  le : r.mS.size ≤ r.mBaseA.size
  baseC : r.mBaseC.size = r.mBaseA.size
  baseB : baseB.size = r.mBaseA.size
  mC : r.mC.size = r.mA.size
  B : B.size = r.mA.size
  point : ∀ i < r.mS.size, read r.mS i < r.mA.size

theorem RtValid.checkRT_ok (V : RtValid ctx r delta B baseB) (heq : ∀ x y, ctx.eq x y = true ↔ x = y)
    (shaped : RtShaped r B baseB) : r.checkRT ctx delta B baseB = .ok () := by
  have hadj := sortedPoint_adjacent_iff.mpr V.points
  rw [checkRT]
  obtain ⟨hrun, -⟩ | ⟨-, i, hi, hbad⟩ := rtBase_run r delta baseB heq
  · obtain ⟨st, hst, S, -⟩ | ⟨-, j, hj, hbad⟩ :=
      rtLeaf_run delta B heq shaped.pos fun i k => sortedPoint_lt hadj
    · rw [hrun, ok_bind, hst, ok_bind]
      refine if_neg fun hf => ?_
      obtain ⟨j, hj, hne⟩ := S.failed.mp hf
      exact hne (V.corr j hj)
    · exact absurd (fun hoff => V.zero j hj (forall_sortedPoint_ne_iff.mp hoff)) hbad
  · exact absurd ((forall_baseGood_iff shaped.count shaped.le).mpr ⟨V.base, V.noise, hadj⟩ i hi) hbad

theorem rtValid_of_checkRT (heq : ∀ x y, ctx.eq x y = true ↔ x = y) (shaped : RtShaped r B baseB)
    (h : r.checkRT ctx delta B baseB = .ok ()) : RtValid ctx r delta B baseB := by
  obtain ⟨⟨⟩, hrun, h⟩ := bind_eq_ok.mp h
  obtain ⟨-, hgood⟩ | ⟨herror, -⟩ := rtBase_run r delta baseB heq
  · obtain ⟨hbase, hnoise, hadj⟩ := (forall_baseGood_iff shaped.count shaped.le).mp hgood
    obtain ⟨st, hst, h⟩ := bind_eq_ok.mp h
    obtain ⟨st', hst', S, hzero⟩ | ⟨herror, -⟩ :=
      rtLeaf_run delta B heq shaped.pos fun i k => sortedPoint_lt hadj
    · obtain rfl := Except.ok.inj (hst.symm.trans hst')
      refine ⟨hbase, hnoise, sortedPoint_adjacent_iff.mp hadj, fun j hj hoff => ?_, fun j hj => ?_⟩
      · exact hzero j hj (forall_sortedPoint_ne_iff.mpr hoff)
      · by_contra hne
        rw [if_pos (S.failed.mpr ⟨j, hj, hne⟩)] at h
        cases h
    · cases hst.symm.trans herror
  · cases hrun.symm.trans herror

/-- `checkRT` accepts exactly the states with the correlation of a session. -/
theorem checkRT_iff (heq : ∀ x y, ctx.eq x y = true ↔ x = y) (shaped : RtShaped r B baseB) :
    r.checkRT ctx delta B baseB = .ok () ↔ RtValid ctx r delta B baseB :=
  ⟨rtValid_of_checkRT heq shaped, fun V => V.checkRT_ok heq shaped⟩

/-- A vector of four blocks with noise at its third. -/
theorem checkRT_iff_four :
    let r : SilentWalshVoleReceiver := { mNumPartitions := 1
                                         mS := #[2]
                                         mBaseA := #[block 0 5]
                                         mBaseC := #[block 0 1]
                                         mA := ⟨#[0, 0, block 0 2, 0], 4, le_rfl⟩
                                         mC := ⟨#[0, 0, block 0 1, 0], 4, le_rfl⟩ }
    r.checkRT coeffCtxGF128 (block 0 2) #[0, 0, 0, 0] #[block 0 7] = .ok () ↔
      RtValid coeffCtxGF128 r (block 0 2) #[0, 0, 0, 0] #[block 0 7] :=
  checkRT_iff (fun _ _ => beq_iff_eq) ⟨by decide, rfl, by decide, rfl, rfl, rfl, rfl, by decide⟩

end SilentWalshVoleReceiver

/-! ### Honest sessions -/

section Honest
variable {ctx : CoeffCtx Block} {A : PprfAes} {g : ProtocolDraws ctx} {delta : Block} {domain : ℕ} {P P' : Parties}

/-- The sizes of base OTs and base VOLE. -/
structure BaseSizes (P : Parties) : Prop where
  mS : P.recv.mS.size = 64
  mBaseC : P.recv.mBaseC.size = 64
  mBaseA : P.recv.mBaseA.size = 64
  mBaseB : P.send.mBaseB.size = 64

theorem setSilentBaseOts_recv {r r' : SilentWalshVoleReceiver} {ots a : Array Block} (h : r.setSilentBaseOts ots a = .ok r') :
    r'.mBaseA = a ∧ r'.mBaseC = r.mBaseC ∧ r'.mS = r.mS := by
  rw [SilentWalshVoleReceiver.setSilentBaseOts] at h
  split at h
  · cases h
  · split at h
    · cases h
    · obtain ⟨gen, -, h⟩ := bind_eq_ok.mp h
      cases h
      exact ⟨rfl, rfl, rfl⟩

theorem setSilentBaseOts_send {s s' : SilentWalshVoleSender} {ots : Array (Block × Block)} {b : Array Block}
    (h : s.setSilentBaseOts ctx ots b = .ok s') : s'.mBaseB.size = b.size := by
  rw [SilentWalshVoleSender.setSilentBaseOts] at h
  split at h
  · cases h
  · split at h
    · cases h
    · split at h
      · cases h
      · obtain ⟨gen, -, h⟩ := bind_eq_ok.mp h
        cases h
        exact Array.size_ofFn

theorem Configured.baseSizes (C : Configured domain P) {L : LibOTe ctx} {g : SessionDraws ctx}
    (h : P.ensureBaseOts L g delta = .ok P') : BaseSizes P' := by
  have hrecv : P.recv.mGen.hasBaseOts = false := by simp [RegularPprf.hasBaseOts, C.recvGen]
  have hsend : P.send.mGen.hasBaseOts = false := by simp [RegularPprf.hasBaseOts, C.sendGen]
  rw [Parties.ensureBaseOts, hrecv, hsend] at h
  dsimp only at h
  rw [Parties.genSilentBaseOts, ← bind_assoc, C.sample_ok g, ok_bind] at h
  obtain ⟨r, hr, h⟩ := bind_eq_ok.mp h
  obtain ⟨s, hs, h⟩ := bind_eq_ok.mp h
  cases h
  obtain ⟨hA, hC, hS⟩ := setSilentBaseOts_recv hr
  have hsize : (sampled domain g P.recv).mBaseC.size = 64 := Array.size_ofFn
  have hvole := L.noisyVole_size (sampled domain g P.recv).mBaseC delta
  refine ⟨?_, ?_, ?_, ?_⟩
  · exact (congrArg Array.size hS).trans Array.size_ofFn
  · exact (congrArg Array.size hC).trans hsize
  · exact (congrArg Array.size hA).trans (hvole.1.trans hsize)
  · exact (setSilentBaseOts_send hs).trans (hvole.2.trans hsize)

/-- What the sender opens in the check. -/
def Parties.checkRT (ctx : CoeffCtx Block) (P : Parties) (delta : Block) : Except Err Unit :=
  P.recv.checkRT ctx delta (copyOut P.send.mB.size P.send.mB) P.send.mBaseB

/-- The expansions of honest parties are what the check asks for. -/
theorem Expanded.rtValid (E : Expanded ctx g.toSessionDraws delta domain P) (B : BitCtx ctx) (hdomain : 0 < domain)
    (hS : P.recv.mS.size = 64)
    (hbase : ∀ i < P.recv.mBaseA.size, read P.recv.mBaseA i + read P.send.mBaseB i = ctx.mul (read P.recv.mBaseC i) delta) :
    P.recv.RtValid ctx delta (copyOut P.send.mB.size P.send.mB) P.send.mBaseB := by
  have hpoint (i : ℕ) (hi : i < P.recv.mS.size) : read P.recv.mS i = noisePoint domain g.words i := E.point i (hS ▸ hi)
  refine ⟨fun i hi => ?_, fun i hi => ?_, fun i hi j hj h => ?_, fun j hj hoff => ?_, fun j hj => ?_⟩
  · rw [B.plus, add_comm, hbase i hi, B.mul_comm]
  · rw [hpoint i hi, E.noise i (hS ▸ hi), E.baseC i (hS ▸ hi)]
  · rw [hpoint i hi, hpoint j hj] at h
    exact noisePoint_inj hdomain h
  · rw [B.zero]
    refine E.zero j (E.sizeA ▸ hj) fun i hi h => hoff i (hS.symm ▸ hi) ?_
    rw [hpoint i (hS.symm ▸ hi), h]
  · have hj : j < domain * 64 := E.sizeA ▸ hj
    rw [read_copyOut _ (E.sizeB.symm ▸ hj), E.corr j hj, B.plus, B.mul_comm delta, add_comm]

theorem Expanded.rtShaped (E : Expanded ctx g.toSessionDraws delta domain P) (hdomain : 0 < domain)
    (hcount : P.recv.mNumPartitions = 64) (S : BaseSizes P) :
    P.recv.RtShaped (copyOut P.send.mB.size P.send.mB) P.send.mBaseB := by
  refine ⟨by rw [S.mS]; decide, hcount.trans S.mS.symm, (S.mS.trans S.mBaseA.symm).le, S.mBaseC.trans S.mBaseA.symm,
    S.mBaseB.trans S.mBaseA.symm, E.sizeC.trans E.sizeA.symm, ?_, fun i hi => ?_⟩
  · exact Array.size_ofFn.trans (E.sizeB.trans E.sizeA.symm)
  · rw [S.mS] at hi
    rw [E.point i hi, E.sizeA]
    exact noisePoint_lt g.words hdomain hi

/-- With `mDebug` an honest session passes its check. -/
theorem Idle.checkRT_honest (I : Idle P) (B : BitCtx ctx) (heq : ∀ x y, ctx.eq x y = true ↔ x = y) (A : PprfAes)
    (g : ProtocolDraws ctx) (delta : Block) (heven : domain % 2 = 0) (htwo : 2 ≤ domain) (hmem : domain * 64 ≤ maxBlocks) :
    ∃ P', Protocol.beforeEncoding A g delta (domain * 64) P = .ok P' ∧ P'.checkRT ctx delta = .ok () := by
  let L : LibOTe ctx := .ofRun A B g
  have hdomain : 0 < domain := by omega
  obtain ⟨P₁, hstart, C⟩ := I.start_ok heven htwo
  obtain ⟨P₂, hbase, W⟩ := C.ensureBaseOts_ok B.toXorCtx L g.toSessionDraws delta hdomain
  obtain ⟨P₃, hexpand, E⟩ := W.expand_ok B.toXorCtx L hdomain hmem
  have hcode : Protocol.expand A g P₂ = .ok P₃ :=
    (Protocol.expand_eq fun _ => ⟨W.matched, ((I.started hstart).ensureBaseOts hbase).valid, W.size_baseB⟩).trans hexpand
  have hbefore : P.beforeEncoding L g.toSessionDraws delta (domain * 64) = .ok P₃ := by
    rw [Parties.beforeEncoding, hstart, ok_bind, hbase, ok_bind, hexpand]
  rw [← Protocol.beforeEncoding_eq I] at hbefore
  refine ⟨P₃, hbefore, ?_⟩
  obtain ⟨hA, hC, hS, hcount, hB⟩ := Protocol.expand_frame hcode
  obtain ⟨sizeS, sizeC, sizeA, sizeB⟩ := C.baseSizes hbase
  have S : BaseSizes P₃ :=
    ⟨(congrArg _ hS).trans sizeS, (congrArg _ hC).trans sizeC, (congrArg _ hA).trans sizeA, (congrArg _ hB).trans sizeB⟩
  refine (E.rtValid B hdomain S.mS fun i hi => ?_).checkRT_ok heq (E.rtShaped hdomain (hcount.trans W.recvCount) S)
  rw [S.mBaseA] at hi
  have hread : read P₂.send.baseB i = read P₂.send.mBaseB i := read_ofFn _ (W.sendCount.symm ▸ hi)
  rw [hA, hB, hC, ← hread]
  exact W.base i hi

theorem Idle.checkRT_honest_two :
    let g : ProtocolDraws coeffCtxGF128 := ⟨.ones coeffCtxGF128 rfl, fun i => (block 1 i, block 2 i), block 0 7, true,
      ⟨fun _ _ => 0, fun _ => 0⟩, ⟨fun _ _ => 0, fun _ => 0⟩⟩
    ∃ P', Protocol.beforeEncoding default g (block 0 3) (2 * 64) {} = .ok P' ∧
      P'.checkRT coeffCtxGF128 (block 0 3) = .ok () :=
  Idle.checkRT_honest ⟨rfl, rfl, rfl, rfl, rfl⟩ coeffCtxGF128_bit (fun _ _ => beq_iff_eq) _ _ _ rfl le_rfl (by decide)

end Honest
end ExtFieldPcg
