import ExtFieldPcg.PprfTree
import ExtFieldPcg.Prng

/-! The indices that the codes draw (`ExpanderModd` of `Tools/EACode/Util.h`): words of a buffer, modulo the size of the
    code. -/

open Buffer

namespace ExtFieldPcg

/-! ### The code -/

/-- What the codes compute with. -/
structure CodeAes where
  aes : Block → Block → Block
  roundEnc : Block → Block → Block
  /-- `libdivide_u64_do(x, libdivide_u64_gen(m))`. -/
  libdivide : BitVec 64 → BitVec 64 → BitVec 64

/-- `mBuffer` of `PRNG(seed, 256)`. -/
def prngBuffer (A : CodeAes) (seed : Block) : Array Block :=
  ecbEncCounterMode (A.aes seed) (block 0 0) (Array.replicate 256 default)

/-- The rounds on the buffer in `refill`, eight blocks at a time, with the eight blocks before them as keys. -/
def refillBuffer (A : CodeAes) (mBuffer : Array Block) : Array Block :=
  Loop.run 32 (fun t mBuffer => Loop.run 8 (fun e mBuffer =>
    write mBuffer (8 * t + e) (A.roundEnc (read mBuffer (8 * t + e)) (read mBuffer ((8 * t + 248) % 256 + e)))) mBuffer) mBuffer

def bufferWord (mBuffer : Array Block) (i : ℕ) : BitVec 64 :=
  if i % 2 = 0 then (read mBuffer (i / 2)).lo64 else (read mBuffer (i / 2)).hi64

def log2floor (x : ℕ) : ℕ := Nat.size x - 1

structure ExpanderModd where
  mBuffer : Array Block := #[]
  modVal : BitVec 64 := 0
  idx : ℕ := 0
  vals : Array (BitVec 64) := #[]
  mIsPow2 : Bool := false
  mPow2Mask : BitVec 64 := 0
deriving Inhabited

namespace ExpanderModd
variable (A : CodeAes)

/-- `doMod32(vals + i, &mod, modVal)`. -/
def doMod32 (modVal : BitVec 64) (i : ℕ) (vals : Array (BitVec 64)) : Array (BitVec 64) :=
  Loop.run 32 (fun e vals => write vals (i + e) (read vals (i + e) - A.libdivide (read vals (i + e)) modVal * modVal)) vals

/-- The words of the buffer, reduced with a mask or by division. -/
def reduce (g : ExpanderModd) (mBuffer : Array Block) : Array (BitVec 64) :=
  if g.mIsPow2 then
    Loop.run 256 (fun i dst =>
      let masked := read mBuffer i &&& block g.mPow2Mask g.mPow2Mask
      write (write dst (2 * i) masked.lo64) (2 * i + 1) masked.hi64) g.vals
  else
    let dst := Loop.run 512 (fun i dst => write dst i (bufferWord mBuffer i)) g.vals
    Loop.run 16 (fun i vals => doMod32 A g.modVal (32 * i) vals) dst

def refill (g : ExpanderModd) : ExpanderModd :=
  let mBuffer := refillBuffer A g.mBuffer
  { g with idx := 0, mBuffer := mBuffer, vals := g.reduce A mBuffer }

def init (seed : Block) (m : ℕ) : ExpanderModd :=
  refill A {
    mBuffer := prngBuffer A seed
    modVal := BitVec.ofNat 64 m
    mIsPow2 := log2ceil m == log2floor m
    mPow2Mask := BitVec.ofNat 64 m - 1
    vals := Array.replicate 512 0 }

def get (g : ExpanderModd) : ℕ × ExpanderModd :=
  let g := if g.idx = g.vals.size then g.refill A else g
  ((read g.vals g.idx).toNat, { g with idx := g.idx + 1 })

end ExpanderModd

/-! ### The draws -/

theorem size_prngBuffer (A : CodeAes) (seed : Block) : (prngBuffer A seed).size = 256 := by
  have hsize := (Prng.ecbEncCounterMode_spec (A.aes seed) 0 (Array.replicate 256 (default : Block))).1
  exact hsize.trans Array.size_replicate

def refilled (A : CodeAes) (seed : Block) (r : ℕ) : Array Block := Loop.run r (fun _ => refillBuffer A) (prngBuffer A seed)

/-- The library divides. -/
def CodeAes.Divides (A : CodeAes) : Prop := ∀ x m, m ≠ 0 → A.libdivide x m = x / m

theorem mod_of_size {m : ℕ} (hpos : 0 < m) (hpow : log2ceil m = log2floor m) (x : ℕ) : x &&& (m - 1) = x % m := by
  have hm : m = 2 ^ log2floor m := by
    have hle := (Pprf.log2ceil_le_iff m _).mp hpow.le
    have hge : 2 ^ log2floor m ≤ m := Nat.lt_size.mp (by
      have hsize := Nat.size_pos.mpr hpos
      rw [log2floor]
      omega)
    omega
  rw [hm, Nat.and_two_pow_sub_one_eq_mod]

namespace ExpanderModd

def draw (A : CodeAes) (seed : Block) (m k : ℕ) : ℕ := (bufferWord (refilled A seed (k / 512 + 1)) (k % 512)).toNat % m

theorem draw_lt (A : CodeAes) (seed : Block) {m : ℕ} (hm : 0 < m) (k : ℕ) : draw A seed m k < m := Nat.mod_lt _ hm

variable {A : CodeAes} {seed : Block} {m k : ℕ} {g : ExpanderModd}

theorem toNat_sub_mul_div (x y : BitVec 64) : (x - x / y * y).toNat = x.toNat % y.toNat := by
  have hle : x / y * y ≤ x := by
    rw [BitVec.le_def, BitVec.toNat_mul, BitVec.toNat_udiv]
    exact (Nat.mod_le _ _).trans (Nat.div_mul_le_self _ _)
  have hlt : x.toNat / y.toNat * y.toNat < 2 ^ 64 := (Nat.div_mul_le_self _ _).trans_lt x.isLt
  rw [BitVec.toNat_sub_of_le hle, BitVec.toNat_mul, BitVec.toNat_udiv, Nat.mod_eq_of_lt hlt, mul_comm]
  exact Nat.sub_eq_of_eq_add (Nat.mod_add_div _ _).symm

/-- The fields that `init` sets. -/
structure Set (m : ℕ) (g : ExpanderModd) : Prop where
  pos : 0 < m
  lt : m < 2 ^ 64
  modVal : g.modVal = BitVec.ofNat 64 m
  pow2 : g.mIsPow2 = (log2ceil m == log2floor m)
  mask : g.mPow2Mask = BitVec.ofNat 64 m - 1
  size : g.vals.size = 512

theorem Set.toNat_modVal (S : Set m g) : g.modVal.toNat = m := by
  rw [S.modVal, BitVec.toNat_ofNat, Nat.mod_eq_of_lt S.lt]

theorem Set.toNat_and_mask (S : Set m g) (hpow : g.mIsPow2 = true) (x : BitVec 64) :
    (x &&& g.mPow2Mask).toNat = x.toNat % m := by
  rw [S.pow2, beq_iff_eq] at hpow
  have hone : BitVec.ofNat 64 m - 1 = BitVec.ofNat 64 (m - 1) := by
    have hpos := S.pos
    have hlt := S.lt
    have hone : (1 : BitVec 64).toNat = 1 := rfl
    apply BitVec.eq_of_toNat_eq
    rw [BitVec.toNat_sub, BitVec.toNat_ofNat, BitVec.toNat_ofNat, hone]
    omega
  rw [S.mask, hone, BitVec.toNat_and, BitVec.toNat_ofNat, Nat.mod_eq_of_lt ((Nat.sub_le m 1).trans_lt S.lt),
    mod_of_size S.pos hpow]

theorem run_mask (mBuffer : Array Block) (mask : BitVec 64) {dst : Array (BitVec 64)} (hsize : dst.size = 512) :
    let vals := Loop.run 256 (fun i dst =>
      let masked := read mBuffer i &&& block mask mask
      write (write dst (2 * i) masked.lo64) (2 * i + 1) masked.hi64) dst
    vals.size = 512 ∧ ∀ i < 512, read vals i = bufferWord mBuffer i &&& mask := by
  have hlo (x : Block) : (x &&& block mask mask).lo64 = x.lo64 &&& mask := by
    refine BitVec.eq_of_getLsbD_eq fun i hi => ?_
    rw [Block.getLsbD_lo64 _ hi, Block.bit_and, Block.bit_block, if_pos hi, BitVec.getLsbD_and, Block.getLsbD_lo64 _ hi]
  have hhi (x : Block) : (x &&& block mask mask).hi64 = x.hi64 &&& mask := by
    refine BitVec.eq_of_getLsbD_eq fun i hi => ?_
    rw [Block.getLsbD_hi64 _ hi, Block.bit_and, Block.bit_block, if_neg (by omega), Nat.add_sub_cancel_left,
      BitVec.getLsbD_and, Block.getLsbD_hi64 _ hi]
  have hrun := Loop.run_induct (fun n (t : Array (BitVec 64)) => t.size = 512 ∧
      ∀ i < 2 * n, read t i = bufferWord mBuffer i &&& mask) (n := 256) (s := dst)
    (f := fun i dst =>
      let masked := read mBuffer i &&& block mask mask
      write (write dst (2 * i) masked.lo64) (2 * i + 1) masked.hi64) ⟨hsize, by simp⟩ ?_
  · exact hrun
  · rintro n hn t ⟨ht, hread⟩
    refine ⟨by rw [size_write, size_write, ht], fun i hi => ?_⟩
    rcases (by omega : i = 2 * n + 1 ∨ i = 2 * n ∨ i < 2 * n) with rfl | rfl | hlt
    · have hodd : (2 * n + 1) / 2 = n := by omega
      rw [read_write_self (by rw [size_write]; omega), bufferWord, if_neg (by omega), hodd, hhi]
    · have heven : 2 * n / 2 = n := by omega
      rw [read_write_ne (by omega), read_write_self (by omega), bufferWord, if_pos (by omega), heven, hlo]
    · rw [read_write_ne (by omega), read_write_ne (by omega), hread i hlt]

/-- The words less their quotients, thirty-two at a time. -/
theorem run_doMod32 (modVal : BitVec 64) {vals : Array (BitVec 64)} (hsize : vals.size = 512) :
    let out := Loop.run 16 (fun i vals => doMod32 A modVal (32 * i) vals) vals
    out.size = 512 ∧ ∀ i < 512, read out i = read vals i - A.libdivide (read vals i) modVal * modVal := by
  have hflat : Loop.run 16 (fun i vals => doMod32 A modVal (32 * i) vals) vals =
      Loop.run 512 (fun i vals => write vals (0 + i) (read vals (0 + i) - A.libdivide (read vals (0 + i)) modVal * modVal))
        vals := by
    refine (Loop.run_nested 16 32 (fun i e vals => write vals (32 * i + e)
      (read vals (32 * i + e) - A.libdivide (read vals (32 * i + e)) modVal * modVal)) vals).trans (Loop.run_congr ?_ vals)
    intro x _ t
    rw [Nat.div_add_mod, Nat.zero_add]
  obtain ⟨hout, hread⟩ := run_modify_spec (fun _ v => v - A.libdivide v modVal * modVal) 0
    ((Nat.zero_add 512).trans_le hsize.ge)
  rw [hflat]
  refine ⟨hout.trans hsize, fun i hi => ?_⟩
  rw [hread, if_pos ⟨Nat.zero_le i, by omega⟩]

theorem Set.reduce (S : Set m g) (hdiv : A.Divides) (mBuffer : Array Block) :
    (g.reduce A mBuffer).size = 512 ∧ ∀ i < 512, (read (g.reduce A mBuffer) i).toNat = (bufferWord mBuffer i).toNat % m := by
  rw [ExpanderModd.reduce]
  cases hpow : g.mIsPow2 with
  | true =>
    rw [if_pos rfl]
    obtain ⟨hsize, hread⟩ := run_mask mBuffer g.mPow2Mask S.size
    exact ⟨hsize, fun i hi => by rw [hread i hi, S.toNat_and_mask hpow]⟩
  | false =>
    rw [if_neg (by decide)]
    obtain ⟨hsize, hread⟩ := read_run_write (bufferWord mBuffer) (n := 512) S.size.ge
    obtain ⟨hsize', hread'⟩ := run_doMod32 (A := A) g.modVal (hsize.trans S.size)
    have hne : g.modVal ≠ 0 := fun h => by
      have hzero := congrArg BitVec.toNat h
      rw [S.toNat_modVal] at hzero
      exact S.pos.ne' hzero
    refine ⟨hsize', fun i hi => ?_⟩
    rw [hread' i hi, hread i hi, hdiv _ _ hne, toNat_sub_mul_div, S.toNat_modVal]

/-- The generator has given the draws before `k`. -/
structure At (A : CodeAes) (seed : Block) (m k : ℕ) (g : ExpanderModd) : Prop extends Set m g where
  idx : g.idx ≤ 512
  buffer : ∃ r, k = 512 * r + g.idx ∧ g.mBuffer = refilled A seed (r + 1) ∧
    ∀ i < 512, (read g.vals i).toNat = (bufferWord (refilled A seed (r + 1)) i).toNat % m

section Refill
variable (A : CodeAes) (g : ExpanderModd)

@[simp] theorem refill_mBuffer : (g.refill A).mBuffer = refillBuffer A g.mBuffer := by rw [refill]
@[simp] theorem refill_vals : (g.refill A).vals = g.reduce A (refillBuffer A g.mBuffer) := by rw [refill]
@[simp] theorem refill_idx : (g.refill A).idx = 0 := by rw [refill]
@[simp] theorem refill_modVal : (g.refill A).modVal = g.modVal := by rw [refill]
@[simp] theorem refill_mIsPow2 : (g.refill A).mIsPow2 = g.mIsPow2 := by rw [refill]
@[simp] theorem refill_mPow2Mask : (g.refill A).mPow2Mask = g.mPow2Mask := by rw [refill]

end Refill

theorem Set.refill (S : Set m g) (hdiv : A.Divides) {r : ℕ} (hbuffer : g.mBuffer = refilled A seed r) :
    At A seed m (512 * r) (g.refill A) := by
  obtain ⟨hsize, hread⟩ := S.reduce hdiv (refillBuffer A g.mBuffer)
  have hnext : refillBuffer A g.mBuffer = refilled A seed (r + 1) := by rw [hbuffer, refilled, refilled, Loop.run_succ]
  have S' : Set m (g.refill A) :=
    ⟨S.pos, S.lt, by rw [refill_modVal, S.modVal], by rw [refill_mIsPow2, S.pow2], by rw [refill_mPow2Mask, S.mask],
      by rw [refill_vals, hsize]⟩
  refine ⟨S', by rw [refill_idx]; exact Nat.zero_le _, r, by rw [refill_idx, Nat.add_zero], by rw [refill_mBuffer, hnext], ?_⟩
  rw [refill_vals, ← hnext]
  exact hread

theorem init_at (hdiv : A.Divides) (hpos : 0 < m) (hlt : m < 2 ^ 64) (seed : Block) : At A seed m 0 (init A seed m) := by
  obtain ⟨g, hg⟩ : ∃ g : ExpanderModd, g = {
    mBuffer := prngBuffer A seed
    modVal := BitVec.ofNat 64 m
    mIsPow2 := log2ceil m == log2floor m
    mPow2Mask := BitVec.ofNat 64 m - 1
    vals := Array.replicate 512 0 } := ⟨_, rfl⟩
  have S : Set m g := by
    subst hg
    exact ⟨hpos, hlt, rfl, rfl, rfl, Array.size_replicate⟩
  have hbuffer : g.mBuffer = refilled A seed 0 := by
    rw [hg, refilled, Loop.run_zero]
  rw [init, ← hg]
  have G := S.refill hdiv hbuffer
  rwa [Nat.mul_zero] at G

theorem At.get (G : At A seed m k g) (hdiv : A.Divides) :
    (g.get A).1 = draw A seed m k ∧ At A seed m (k + 1) (g.get A).2 := by
  have hstep {g' : ExpanderModd} (G' : At A seed m k g') (hidx : g'.idx < 512) :
      (read g'.vals g'.idx).toNat = draw A seed m k ∧ At A seed m (k + 1) { g' with idx := g'.idx + 1 } := by
    obtain ⟨r, hk, hbuffer, hvals⟩ := G'.buffer
    have hr : k / 512 = r := by omega
    have hi : k % 512 = g'.idx := by omega
    refine ⟨by rw [hvals _ hidx, draw, hr, hi], ⟨G'.pos, G'.lt, G'.modVal, G'.pow2, G'.mask, G'.size⟩, hidx, r, ?_, hbuffer,
      hvals⟩
    show k + 1 = 512 * r + (g'.idx + 1)
    omega
  rw [ExpanderModd.get, G.size]
  by_cases hfull : g.idx = 512
  · obtain ⟨r, hk, hbuffer, -⟩ := G.buffer
    have G' := G.toSet.refill hdiv hbuffer
    obtain rfl : k = 512 * (r + 1) := by omega
    rw [if_pos hfull]
    refine hstep G' ?_
    rw [refill_idx]
    exact Nat.zero_lt_succ 511
  · rw [if_neg hfull]
    exact hstep G (lt_of_le_of_ne G.idx hfull)

theorem At.run_draws {σ : Type} (G : At A seed m k g) (hdiv : A.Divides) (f : ℕ → ℕ → σ → σ) {n : ℕ} (s : σ) :
    (Loop.run n (fun x (st : σ × ExpanderModd) => (f x (st.2.get A).1 st.1, (st.2.get A).2)) (s, g)).1 =
        Loop.run n (fun x => f x (draw A seed m (k + x))) s ∧
      At A seed m (k + n)
        (Loop.run n (fun x (st : σ × ExpanderModd) => (f x (st.2.get A).1 st.1, (st.2.get A).2)) (s, g)).2 := by
  induction n with
  | zero => exact ⟨rfl, G⟩
  | succ n ih =>
    obtain ⟨hs, G'⟩ := ih
    obtain ⟨hdraw, G''⟩ := G'.get hdiv
    rw [Loop.run_succ, Loop.run_succ, hdraw, hs]
    exact ⟨rfl, G''⟩

end ExpanderModd
end ExtFieldPcg
