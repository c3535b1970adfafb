import ExtFieldPcg.Lib.Ggm
import ExtFieldPcg.RegularPprf

/-! The memory that the punctured PRF expands its trees in (`allocateExpandTree` of `Tools/Pprf/PprfUtil.h`): two
    buffers that the levels of the tree use in turn. -/

open Buffer

namespace ExtFieldPcg

/-! ### The code -/

def divCeil (val d : ℕ) : ℕ := (val + d - 1) / d

def roundUpTo (val step : ℕ) : ℕ := divCeil val step * step

/-- A span into the allocation, in units of eight blocks. -/
structure Span where
  start : ℕ
  size : ℕ
deriving Inhabited, DecidableEq

namespace Pprf

/-- `buffs[j]`: the second buffer holds the last level. -/
def buffs (domainSize secondLast j : ℕ) : Span := if j % 2 = 0 then ⟨0, secondLast⟩ else ⟨secondLast, domainSize⟩

/-- The size of level `i` above the last one. -/
def levelSize (domainSize depth i : ℕ) : ℕ :=
  let width := divCeil domainSize (2 ^ (depth - i))
  if width > 1 then roundUpTo width 2 else width

/-- The spans of the levels, the root first. -/
def levelSpans (domainSize depth secondLast : ℕ) : Array Span :=
  let levels := write (Array.replicate (depth + 1) default) depth (buffs domainSize secondLast 1)
  Loop.run depth (fun j levels =>
    let i := depth - 1 - j
    write levels i ⟨(buffs domainSize secondLast j).start, levelSize domainSize depth i⟩) levels

/-- `allocateExpandTree(domainSize, alloc, levels)`: the size of `alloc`, and `levels`. -/
def allocateExpandTree (domainSize : ℕ) : Except Err (ℕ × Array Span) :=
  let secondLast := roundUpTo ((domainSize + 1) / 2) 2
  let levels := levelSpans domainSize (log2ceil domainSize) secondLast
  if (read levels 0).size ≠ 1 then .error .rteLoc
  else .ok (roundUpTo (domainSize + secondLast) 2, levels)

/-- `dd`, the size of the last level that is kept: the leaves go to the output. -/
def lastLevel (mDomain : ℕ) : ℕ := if mDomain > 2 then roundUpTo ((mDomain + 1) / 2) 2 else 1

/-- The number of parents that are expanded on level `d`. -/
def width (mDomain mDepth d : ℕ) : ℕ := divCeil mDomain (2 ^ (mDepth - d))

/-! ### Widths -/

theorem divCeil_le_iff {d : ℕ} (hd : 0 < d) (val c : ℕ) : divCeil val d ≤ c ↔ val ≤ c * d := by
  rw [divCeil, ← Nat.lt_succ_iff, Nat.div_lt_iff_lt_mul hd, Nat.succ_mul]
  omega

theorem lt_divCeil_iff {d : ℕ} (hd : 0 < d) (val c : ℕ) : c < divCeil val d ↔ c * d < val := by
  rw [← Nat.not_le, divCeil_le_iff hd, Nat.not_le]

theorem divCeil_mul {a b : ℕ} (ha : 0 < a) (hb : 0 < b) (val : ℕ) :
    divCeil val (a * b) = divCeil (divCeil val a) b := by
  refine eq_of_forall_ge_iff fun c => ?_
  rw [divCeil_le_iff (Nat.mul_pos ha hb), divCeil_le_iff hb, divCeil_le_iff ha, mul_assoc, mul_comm b a]

theorem divCeil_mono {a b : ℕ} (h : a ≤ b) (d : ℕ) : divCeil a d ≤ divCeil b d := Nat.div_le_div_right (by omega)

theorem divCeil_antitone {a b : ℕ} (ha : 0 < a) (h : a ≤ b) (val : ℕ) : divCeil val b ≤ divCeil val a := by
  rw [divCeil_le_iff (ha.trans_le h)]
  exact ((divCeil_le_iff ha _ _).mp le_rfl).trans (Nat.mul_le_mul_left _ h)

theorem divCeil_two (val : ℕ) : divCeil val 2 = (val + 1) / 2 := rfl

theorem two_pow_lt_of_log2ceil {n k : ℕ} (h : k < log2ceil n) : 2 ^ k < n := by
  have hle := Nat.lt_size.mp h
  have hpos : 0 < 2 ^ k := by positivity
  omega

theorem log2ceil_le_iff (n k : ℕ) : log2ceil n ≤ k ↔ n ≤ 2 ^ k := by
  have hpos : 0 < 2 ^ k := by positivity
  rw [log2ceil, Nat.size_le]
  omega

section Width
variable {mDomain mDepth d : ℕ}

theorem width_succ (hd : d < mDepth) : width mDomain mDepth d = (width mDomain mDepth (d + 1) + 1) / 2 := by
  have hpow : 2 ^ (mDepth - d) = 2 ^ (mDepth - (d + 1)) * 2 := by
    rw [← pow_succ]
    congr 1
    omega
  rw [width, hpow, divCeil_mul (by positivity) (by decide), divCeil_two, width]

theorem width_zero (hpos : 0 < mDomain) (hle : mDomain ≤ 2 ^ mDepth) : width mDomain mDepth 0 = 1 := by
  refine Nat.le_antisymm ?_ ?_
  · rw [width, divCeil_le_iff (by positivity)]
    simpa using hle
  · rw [width, Nat.succ_le_iff, lt_divCeil_iff (by positivity)]
    omega

theorem one_lt_width (hdepth : mDepth = log2ceil mDomain) (hd : 0 < d) (hle : d ≤ mDepth) : 1 < width mDomain mDepth d := by
  rw [width, lt_divCeil_iff (by positivity), one_mul]
  exact two_pow_lt_of_log2ceil (by omega)

theorem shiftRight_lt_width {p : ℕ} (hp : p < mDomain) (d : ℕ) : p >>> (mDepth - d) < width mDomain mDepth d := by
  rw [width, lt_divCeil_iff (by positivity), Nat.shiftRight_eq_div_pow]
  exact (Nat.div_mul_le_self p _).trans_lt hp

/-- On the last level two leaves are grown from every parent. -/
theorem two_mul_width_last (heven : mDomain % 2 = 0) (hd : d + 1 = mDepth) : 2 * width mDomain mDepth d = mDomain := by
  have hsub : mDepth - d = 1 := by omega
  rw [width, hsub, pow_one, divCeil_two]
  omega

end Width

/-! ### Levels -/

/-- The levels of the trees in memory: each holds the children of the parents above it, and two neighbours do
    not overlap. -/
structure TreeLayout (mDomain mDepth size : ℕ) (levels : Array Span) : Prop where
  count : levels.size = mDepth
  root : (read levels 0).size = 1
  succ : ∀ d, d + 1 < mDepth → (read levels (d + 1)).size = 2 * width mDomain mDepth d
  fits : ∀ d < mDepth, (read levels d).start + (read levels d).size ≤ size
  disjoint : ∀ d, d + 1 < mDepth → (read levels (d + 1)).start + (read levels (d + 1)).size ≤ (read levels d).start ∨
    (read levels d).start + (read levels d).size ≤ (read levels (d + 1)).start

theorem lastLevel_eq {mDomain : ℕ} (h : 2 < mDomain) : lastLevel mDomain = 2 * divCeil ((mDomain + 1) / 2) 2 := by
  rw [lastLevel, if_pos h, roundUpTo, Nat.mul_comm]

theorem log2ceil_lastLevel {mDomain : ℕ} (heven : mDomain % 2 = 0) (htwo : 2 ≤ mDomain) :
    log2ceil (lastLevel mDomain) + 1 = log2ceil mDomain := by
  rcases htwo.eq_or_lt with rfl | hlt
  · rfl
  · refine eq_of_forall_ge_iff fun k => ?_
    rcases k with _ | k
    · rw [log2ceil_le_iff]
      omega
    · have hpow : 2 ^ (k + 1) = 2 * 2 ^ k := by rw [pow_succ, mul_comm]
      rw [Nat.succ_le_succ_iff, log2ceil_le_iff, log2ceil_le_iff, lastLevel_eq hlt, divCeil_two, hpow]
      rcases k with _ | k
      · rw [pow_zero]
        omega
      · have hpow : 2 ^ (k + 1) = 2 * 2 ^ k := by rw [pow_succ, mul_comm]
        omega

theorem divCeil_lastLevel {mDomain : ℕ} (h : 2 < mDomain) (k : ℕ) :
    divCeil (lastLevel mDomain) (2 ^ (k + 1)) = divCeil mDomain (2 ^ (k + 2)) := by
  have hhalf (x : ℕ) : divCeil (2 * x) 2 = x := by
    rw [divCeil_two]
    omega
  have hpos : 0 < 2 ^ k := by positivity
  calc divCeil (lastLevel mDomain) (2 ^ (k + 1)) = divCeil (divCeil (lastLevel mDomain) 2) (2 ^ k) := by
        rw [pow_succ, mul_comm, divCeil_mul (by decide) hpos]
    _ = divCeil (divCeil (divCeil mDomain 2) 2) (2 ^ k) := by rw [lastLevel_eq h, hhalf, divCeil_two mDomain]
    _ = divCeil mDomain (2 * 2 * 2 ^ k) := by
        rw [divCeil_mul (by decide) hpos, divCeil_mul (by decide) (by decide)]
    _ = divCeil mDomain (2 ^ (k + 2)) := congrArg _ (by ring)

section Sizes
variable {mDomain depth : ℕ} (hdepth : log2ceil mDomain = depth + 1) (hpos : 0 < depth)
include hdepth hpos

theorem two_lt_of_depth : 2 < mDomain := by
  have h := two_pow_lt_of_log2ceil (n := mDomain) (k := 1) (by omega)
  rwa [pow_one] at h

theorem levelSize_zero : levelSize (lastLevel mDomain) depth 0 = 1 := by
  have hlt := two_lt_of_depth hdepth hpos
  have hwidth := width_zero (by omega) ((log2ceil_le_iff mDomain _).mp hdepth.le)
  obtain ⟨k, rfl⟩ := Nat.exists_eq_succ_of_ne_zero hpos.ne'
  have hone : divCeil (lastLevel mDomain) (2 ^ (k + 1)) = 1 := (divCeil_lastLevel hlt k).trans hwidth
  simp only [levelSize, Nat.sub_zero, Nat.succ_eq_add_one, hone]
  rfl

theorem levelSize_succ {i : ℕ} (hi : i + 1 < depth) :
    levelSize (lastLevel mDomain) depth (i + 1) = 2 * width mDomain (depth + 1) i := by
  have hlt := two_lt_of_depth hdepth hpos
  have hwidth : divCeil (lastLevel mDomain) (2 ^ (depth - (i + 1))) = width mDomain (depth + 1) (i + 1) := by
    obtain ⟨k, hk⟩ := Nat.exists_eq_add_of_lt hi
    have hexp : depth - (i + 1) = k + 1 := by omega
    have hexp' : depth + 1 - (i + 1) = k + 2 := by omega
    rw [width, hexp, hexp', divCeil_lastLevel hlt]
  have hgt : 1 < width mDomain (depth + 1) (i + 1) := one_lt_width hdepth.symm (by omega) (by omega)
  rw [levelSize, hwidth, if_pos hgt, roundUpTo, divCeil_two, ← width_succ (by omega), Nat.mul_comm]

theorem lastLevel_width : lastLevel mDomain = 2 * width mDomain (depth + 1) (depth - 1) := by
  have hlt := two_lt_of_depth hdepth hpos
  have hexp : depth + 1 - (depth - 1) = 2 := by omega
  have hmul : divCeil mDomain (2 * 2) = divCeil (divCeil mDomain 2) 2 := divCeil_mul (by decide) (by decide) _
  rw [lastLevel_eq hlt, width, hexp, pow_two, hmul, divCeil_two mDomain]

omit hdepth hpos in
theorem levelSize_le (dd : ℕ) {i : ℕ} (hi : i < depth) : levelSize dd depth i ≤ roundUpTo ((dd + 1) / 2) 2 := by
  have hle : divCeil dd (2 ^ (depth - i)) ≤ (dd + 1) / 2 :=
    divCeil_antitone (by decide) (Nat.le_self_pow (by omega) 2) dd
  have hround : divCeil dd (2 ^ (depth - i)) ≤ roundUpTo (divCeil dd (2 ^ (depth - i))) 2 :=
    (divCeil_le_iff (by decide) _ _).mp le_rfl
  have hmono : roundUpTo (divCeil dd (2 ^ (depth - i))) 2 ≤ roundUpTo ((dd + 1) / 2) 2 :=
    Nat.mul_le_mul_right 2 (divCeil_mono hle 2)
  simp only [levelSize]
  split
  · exact hmono
  · exact hround.trans hmono

end Sizes

/-- The last level lies in the second buffer, and the levels above it take the two buffers in turn. -/
theorem read_levelSpans (dd depth secondLast : ℕ) : (levelSpans dd depth secondLast).size = depth + 1 ∧
    read (levelSpans dd depth secondLast) depth = ⟨secondLast, dd⟩ ∧ ∀ i < depth,
      read (levelSpans dd depth secondLast) i = ⟨if (depth - i) % 2 = 0 then secondLast else 0, levelSize dd depth i⟩ := by
  have hrun := Loop.run_induct (fun j t => Array.size t = depth + 1 ∧ read t depth = ⟨secondLast, dd⟩ ∧
      ∀ i < depth, depth ≤ i + j → read t i = ⟨if (depth - i) % 2 = 0 then secondLast else 0, levelSize dd depth i⟩)
    (f := fun j levels => write levels (depth - 1 - j)
      ⟨(buffs dd secondLast j).start, levelSize dd depth (depth - 1 - j)⟩)
    (s := write (Array.replicate (depth + 1) default) depth (buffs dd secondLast 1)) (n := depth) ?_ ?_
  · exact ⟨hrun.1, hrun.2.1, fun i hi => hrun.2.2 i hi (by omega)⟩
  · exact ⟨by simp, read_write_self (by simp) _, fun i hi h => absurd h (by omega)⟩
  · rintro j hj t ⟨hsize, hlast, habove⟩
    refine ⟨by rw [size_write, hsize], by rw [read_write_ne (by omega), hlast], fun i hi hij => ?_⟩
    by_cases hi' : i = depth - 1 - j
    · rw [← hi', read_write_self (by omega)]
      refine congrArg (Span.mk · _) ?_
      by_cases hpar : j % 2 = 0
      · rw [buffs, if_pos hpar, if_neg (by omega)]
      · rw [buffs, if_neg hpar, if_pos (by omega)]
    · rw [read_write_ne (by omega), habove i hi (by omega)]

/-- The layout that both parties expand in. -/
theorem allocateExpandTree_ok {mDomain : ℕ} (heven : mDomain % 2 = 0) (htwo : 2 ≤ mDomain) :
    ∃ size levels, allocateExpandTree (lastLevel mDomain) = .ok (size, levels) ∧
      TreeLayout mDomain (log2ceil mDomain) size levels := by
  obtain ⟨depth, hdepth⟩ : ∃ depth, log2ceil (lastLevel mDomain) = depth := ⟨_, rfl⟩
  have hD : log2ceil mDomain = depth + 1 := by rw [← log2ceil_lastLevel heven htwo, hdepth]
  obtain ⟨dd, hdd⟩ : ∃ n, lastLevel mDomain = n := ⟨_, rfl⟩
  obtain ⟨secondLast, hsecond⟩ : ∃ n, roundUpTo ((dd + 1) / 2) 2 = n := ⟨_, rfl⟩
  obtain ⟨hcount, hlast, habove⟩ := read_levelSpans dd depth secondLast
  have hle : ∀ i < depth, levelSize dd depth i ≤ secondLast := fun i hi => hsecond ▸ levelSize_le dd hi
  have hsize : dd + secondLast ≤ roundUpTo (dd + secondLast) 2 := (divCeil_le_iff (by decide) _ _).mp le_rfl
  have hbuff : 0 < depth → secondLast ≤ dd := fun hpos => by
    have hwidth := lastLevel_width hD hpos
    have hone : 0 < width mDomain (depth + 1) (depth - 1) := by
      rw [width, lt_divCeil_iff (by positivity)]
      omega
    rw [← hsecond, roundUpTo, divCeil_two]
    omega
  have hroot : (read (levelSpans dd depth secondLast) 0).size = 1 := by
    rcases Nat.eq_zero_or_pos depth with rfl | hpos
    · have hdomain : mDomain = 2 := by
        have hle := (log2ceil_le_iff mDomain 1).mp hD.le
        omega
      rw [hlast, ← hdd, hdomain]
      rfl
    · rw [habove 0 hpos, ← hdd]
      exact levelSize_zero hD hpos
  refine ⟨roundUpTo (dd + secondLast) 2, levelSpans dd depth secondLast, ?_, hD ▸
    ⟨hcount, hroot, fun d hd => ?_, fun d hd => ?_, fun d hd => ?_⟩⟩
  · have hlog : log2ceil dd = depth := hdd ▸ hdepth
    simp only [allocateExpandTree, hdd, hlog, hsecond, hroot, ne_eq, not_true_eq_false, if_false]
  · rcases Nat.lt_or_ge (d + 1) depth with hlt | hge
    · rw [habove _ hlt, ← hdd]
      exact levelSize_succ hD (by omega) hlt
    · obtain rfl : depth = d + 1 := by omega
      rw [hlast, ← hdd]
      exact lastLevel_width hD (by omega)
  · rcases Nat.lt_or_ge d depth with hlt | hge
    · have hsmall := hle d hlt
      have hbig := hbuff (by omega)
      rw [habove d hlt]
      dsimp only
      split <;> omega
    · obtain rfl : depth = d := by omega
      rw [hlast]
      dsimp only
      omega
  · have hsmall := hle d (by omega)
    rw [habove d (by omega)]
    rcases Nat.lt_or_ge (d + 1) depth with hlt | hge
    · have hnext := hle (d + 1) hlt
      rw [habove (d + 1) hlt]
      dsimp only
      split <;> split <;> omega
    · obtain rfl : depth = d + 1 := by omega
      rw [hlast]
      dsimp only
      rw [if_neg (by omega)]
      omega

end Pprf
end ExtFieldPcg
