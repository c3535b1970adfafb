import Mathlib.RingTheory.AdjoinRoot
import ExtFieldPcg.Lib.Pdep
import ExtFieldPcg.Block

/-! The multiplication of blocks read as polynomials over GF(4) (`F4.h`). -/

open Polynomial

namespace ExtFieldPcg

/-! ### The code -/

/-- `odd_mask`, the lower bits of the GF(4) lanes. -/
def oddMask : BitVec 64 := 0x5555555555555555

/-- `even_mask`, the upper bits of the GF(4) lanes. -/
def evenMask : BitVec 64 := 0xAAAAAAAAAAAAAAAA

def interleave (a b : BitVec 64) : Block :=
  let evenPartLow := Word.pdep b evenMask
  let oddPartLow := Word.pdep a oddMask
  let low64 := evenPartLow ||| oddPartLow
  let high64 := Word.pdep (b >>> 32) evenMask ||| Word.pdep (a >>> 32) oddMask
  block high64 low64

/-- The bits of both words of `x` at the set positions of `mask`, the high word's above the low word's. -/
def bitExtraction (mask : BitVec 64) (x : Block) : BitVec 64 :=
  let tempA := Word.pext x.lo64 mask
  let tempB := Word.pext x.hi64 mask
  (tempB <<< 32) ||| tempA

def oddBitExtraction (x : Block) : BitVec 64 := bitExtraction oddMask x

def evenBitExtraction (x : Block) : BitVec 64 := bitExtraction evenMask x

/-- `mod`: `h2` in the high word and `h1` in the low word. -/
def mod : Block := block 0b1010 0b1

def f4Reduce (odd even : Block) : Block :=
  let t1 := odd.clmulEpi64 mod 0x01
  let t2 := odd.clmulEpi64 mod 0x11
  let t3 := even.clmulEpi64 mod 0x01
  let t4 := even.clmulEpi64 mod 0x11
  let reducedOdd := t1 ^^^ t4
  let reducedEven := t2 ^^^ t3 ^^^ t4
  let t1' := reducedOdd.clmulEpi64 mod 0x01
  let t2' := reducedOdd.clmulEpi64 mod 0x11
  let t3' := reducedEven.clmulEpi64 mod 0x01
  let t4' := reducedEven.clmulEpi64 mod 0x11
  let finalReducedOdd := t1' ^^^ t4'
  let finalReducedEven := t2' ^^^ t3' ^^^ t4'
  let odd64 := (odd ^^^ finalReducedOdd ^^^ reducedOdd).lo64
  let even64 := (even ^^^ finalReducedEven ^^^ reducedEven).lo64
  interleave odd64 even64

def f4Mul (x y : Block) : Block :=
  let tempX := block (evenBitExtraction x) (oddBitExtraction x)
  let tempY := block (evenBitExtraction y) (oddBitExtraction y)
  let t1 := tempX.clmulEpi64 tempY 0x00
  let t2 := tempX.clmulEpi64 tempY 0x10
  let t3 := tempX.clmulEpi64 tempY 0x01
  let t4 := tempX.clmulEpi64 tempY 0x11
  let prodOdd := t1 ^^^ t4
  let prodEven := (t2 ^^^ t3) ^^^ t4
  f4Reduce prodOdd prodEven

/-! ### Splitting and merging the lanes -/

/-- Positions `e`, `e + 2`, … of a word, one in each GF(4) lane. -/
structure LaneMask (mask : BitVec 64) (e : ℕ) : Prop where
  positions : ∀ k < 32, (Word.positions mask)[k]? = some (2 * k + e)
  length : (Word.positions mask).length = 32

theorem laneMask_oddMask : LaneMask oddMask 0 := ⟨by decide, by decide⟩

theorem laneMask_evenMask : LaneMask evenMask 1 := ⟨by decide, by decide⟩

theorem LaneMask.getLsbD_pext {mask : BitVec 64} {e : ℕ} (M : LaneMask mask e) (x : BitVec 64) {k : ℕ}
    (h : k < 64) : (Word.pext x mask).getLsbD k = (decide (k < 32) && x.getLsbD (2 * k + e)) := by
  rw [Word.getLsbD_pext _ _ h]
  by_cases hk : k < 32
  · simp [M.positions k hk, hk]
  · rw [List.getElem?_eq_none (by rw [M.length]; omega)]
    simp [hk]

theorem LaneMask.getLsbD_bitExtraction {mask : BitVec 64} {e : ℕ} (M : LaneMask mask e) (he : e < 2) (x : Block)
    {k : ℕ} (h : k < 64) : (bitExtraction mask x).getLsbD k = x.bit (2 * k + e) := by
  simp only [bitExtraction, BitVec.getLsbD_or, BitVec.getLsbD_shiftLeft, h, decide_true, Bool.true_and]
  rw [M.getLsbD_pext _ h, M.getLsbD_pext _ (by omega)]
  by_cases hk : k < 32
  · simp only [hk, decide_true, Bool.not_true, Bool.false_and, Bool.false_or, Bool.true_and]
    rw [Block.getLsbD_lo64 _ (by omega)]
  · have hk' : k - 32 < 32 := by omega
    simp only [hk, hk', decide_true, decide_false, Bool.not_false, Bool.true_and, Bool.false_and, Bool.or_false]
    rw [Block.getLsbD_hi64 _ (by omega), (by omega : 64 + (2 * (k - 32) + e) = 2 * k + e)]

theorem getLsbD_oddBitExtraction (x : Block) {k : ℕ} (h : k < 64) :
    (oddBitExtraction x).getLsbD k = x.bit (2 * k) :=
  laneMask_oddMask.getLsbD_bitExtraction (by decide) x h

theorem getLsbD_evenBitExtraction (x : Block) {k : ℕ} (h : k < 64) :
    (evenBitExtraction x).getLsbD k = x.bit (2 * k + 1) :=
  laneMask_evenMask.getLsbD_bitExtraction (by decide) x h

theorem rank_oddMask : ∀ m < 64, Word.rank oddMask m = (m + 1) / 2 := by decide

theorem rank_evenMask : ∀ m < 64, Word.rank evenMask m = m / 2 := by decide

theorem getLsbD_oddMask : ∀ m < 64, oddMask.getLsbD m = decide (m % 2 = 0) := by decide

theorem getLsbD_evenMask : ∀ m < 64, evenMask.getLsbD m = decide (m % 2 = 1) := by decide

theorem getLsbD_pdep_or (a b : BitVec 64) {m : ℕ} (h : m < 64) :
    (Word.pdep b evenMask ||| Word.pdep a oddMask).getLsbD m =
      if m % 2 = 0 then a.getLsbD (m / 2) else b.getLsbD (m / 2) := by
  rw [BitVec.getLsbD_or, Word.getLsbD_pdep _ _ h, Word.getLsbD_pdep _ _ h, getLsbD_oddMask m h,
    getLsbD_evenMask m h, rank_oddMask m h, rank_evenMask m h]
  split
  · simp [‹m % 2 = 0›, (by omega : (m + 1) / 2 = m / 2)]
  · have hm : m % 2 = 1 := by omega
    simp [hm]

theorem bit_interleave (a b : BitVec 64) {i : ℕ} (h : i < 128) :
    (interleave a b).bit i = if i % 2 = 0 then a.getLsbD (i / 2) else b.getLsbD (i / 2) := by
  simp only [interleave]
  rw [Block.bit_block]
  split
  · exact getLsbD_pdep_or a b ‹_›
  · rw [getLsbD_pdep_or _ _ (by omega), BitVec.getLsbD_ushiftRight, BitVec.getLsbD_ushiftRight,
      (by omega : 32 + (i - 64) / 2 = i / 2), (by omega : (i - 64) % 2 = i % 2)]

@[simp] theorem oddBitExtraction_interleave (a b : BitVec 64) : oddBitExtraction (interleave a b) = a := by
  refine BitVec.eq_of_getLsbD_eq fun k hk => ?_
  rw [getLsbD_oddBitExtraction _ hk, bit_interleave _ _ (by omega), if_pos (by omega),
    (by omega : 2 * k / 2 = k)]

@[simp] theorem evenBitExtraction_interleave (a b : BitVec 64) : evenBitExtraction (interleave a b) = b := by
  refine BitVec.eq_of_getLsbD_eq fun k hk => ?_
  rw [getLsbD_evenBitExtraction _ hk, bit_interleave _ _ (by omega), if_neg (by omega),
    (by omega : (2 * k + 1) / 2 = k)]

/-! ### Blocks as vectors over GF(4) -/

namespace Block

/-- Lane `k` of a block as an element of GF(4). -/
def lane (x : Block) (k : ℕ) : GF4 := ⟨x.bit (2 * k), x.bit (2 * k + 1)⟩

theorem ext_lane {x y : Block} (h : ∀ k < 64, x.lane k = y.lane k) : x = y := by
  refine ext_bit fun i hi => ?_
  have hk := h (i / 2) (by omega)
  rcases Nat.mod_two_eq_zero_or_one i with h0 | h1
  · have hlo := congrArg GF4.lo hk
    simpa [lane, (by omega : 2 * (i / 2) = i)] using hlo
  · have hhi := congrArg GF4.hi hk
    simpa [lane, (by omega : 2 * (i / 2) + 1 = i)] using hhi

@[simp] theorem lane_add (x y : Block) (k : ℕ) : (x + y).lane k = x.lane k + y.lane k := by
  simp [lane, GF4.ext_iff]

@[simp] theorem lane_zero (k : ℕ) : (0 : Block).lane k = 0 := by simp [lane, GF4.ext_iff]

def ofLanes (f : ℕ → GF4) : Block :=
  ⟨Word.ofBits 128 fun i => if i % 2 = 0 then (f (i / 2)).lo else (f (i / 2)).hi⟩

@[simp] theorem lane_ofLanes (f : ℕ → GF4) {k : ℕ} (h : k < 64) : (ofLanes f).lane k = f k := by
  have hlo : (ofLanes f).bit (2 * k) = (f k).lo := by
    rw [bit, ofLanes, Word.getLsbD_ofBits _ (by omega), if_pos (by omega), (by omega : 2 * k / 2 = k)]
  have hhi : (ofLanes f).bit (2 * k + 1) = (f k).hi := by
    rw [bit, ofLanes, Word.getLsbD_ofBits _ (by omega), if_neg (by omega), (by omega : (2 * k + 1) / 2 = k)]
  rw [lane, hlo, hhi]

/-- GF(4) scales a block lane by lane. -/
instance : SMul GF4 Block := ⟨fun c x => ofLanes fun k => c * x.lane k⟩

@[simp] theorem lane_smul (c : GF4) (x : Block) {k : ℕ} (h : k < 64) : (c • x).lane k = c * x.lane k :=
  lane_ofLanes _ h

instance : Module GF4 Block where
  one_smul x := ext_lane fun k hk => by simp [hk]
  mul_smul c d x := ext_lane fun k hk => by simp [hk, mul_assoc]
  smul_zero c := ext_lane fun k hk => by simp [hk]
  smul_add c x y := ext_lane fun k hk => by simp [hk, mul_add]
  add_smul c d x := ext_lane fun k hk => by simp [hk, add_mul]
  zero_smul x := ext_lane fun k hk => by simp [hk]

end Block

end ExtFieldPcg
