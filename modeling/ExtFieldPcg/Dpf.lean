import ExtFieldPcg.F4Ring
import ExtFieldPcg.TernaryDpfSpec

/-! `dpf` of `OLE.h`: both parties' shares of the product of two regular sparse polynomials, one ternary DPF
    tree for each pair of their terms. -/

open Buffer

namespace ExtFieldPcg

/-! ### Vectors in memory -/

/-- A vector of blocks that fits in memory. -/
structure BlockVec where
  data : Array Block
  fits : data.size ≤ maxBlocks

namespace BlockVec

def get (v : BlockVec) (i : ℕ) : Block := read v.data i

def set (v : BlockVec) (i : ℕ) (x : Block) : BlockVec := ⟨write v.data i x, (size_write v.data i x).trans_le v.fits⟩

def size (v : BlockVec) : ℕ := v.data.size

@[simp] theorem size_set (v : BlockVec) (i : ℕ) (x : Block) : (v.set i x).size = v.size := size_write v.data i x

theorem get_set_self {v : BlockVec} {i : ℕ} (h : i < v.size) (x : Block) : (v.set i x).get i = x := read_write_self h x

theorem get_set_ne {i j : ℕ} (h : i ≠ j) (v : BlockVec) (x : Block) : (v.set i x).get j = v.get j :=
  read_write_ne h v.data x

end BlockVec

/-! ### The code -/

structure DpfDraws where
  /-- `value0[index]`. -/
  value0 : ℕ → Block
  baseSend : Bool → ℕ → Block × Block
  baseChoice : Bool → ℕ → Bool
  /-- What each party draws in `expand`. -/
  party : Bool → Draws
deriving Inhabited

def generateAdditiveSharing (polyCoeff0 polyCoeff1 : Array Block) (r : ℕ → Block) (value0 value1 : Array Block) :
    Except Err (Array Block × Array Block) := do
  let out ← intLoop polyCoeff0.size (fun i st => intLoop polyCoeff1.size (fun j st =>
    let temp := f4Mul (read polyCoeff0 i) (read polyCoeff1 j)
    let value0 := write st.1 st.2.2 (r st.2.2)
    let value1 := write st.2.1 st.2.2 (temp ^^^ read value0 st.2.2)
    .ok (value0, value1, st.2.2 + 1)) st) (value0, value1, 0)
  return (out.1, out.2.1)

/-- The loop that copies the points to all pairs; `pick i j` is the index of the point copied. -/
def pairPoints (polyPoints : Array F3x32) (numPoints : ℕ) (pick : ℕ → ℕ → ℕ) (points : Array F3x32) : Array F3x32 :=
  Loop.run numPoints (fun i points => Loop.run numPoints (fun j points =>
    write points (i * numPoints + j) (read polyPoints (pick i j))) points) points

/-- `k + ((I1 + I2).toInt() % numPoints) * domain`, with `I1` and `I2` the vectors of `i` and `j`. -/
def foldIndex (numPoints domain i j k : ℕ) : ℕ :=
  (k + (F3x32.fromInt i + F3x32.fromInt j).toInt % numPoints * domain % u64) % u64

/-- The loop that adds the outputs of all trees into `poly`. -/
def foldOutput (output : Rows (Block × BitVec 8)) (numPoints domain : ℕ) (poly : BlockVec) : Except Err BlockVec :=
  intLoop numPoints (fun i poly => intLoop numPoints (fun j poly => intLoop domain (fun k poly =>
    let index := foldIndex numPoints domain i j k
    .ok (poly.set index (poly.get index ^^^ (output (i * numPoints + j) k).1))) poly) poly) poly

/-- `baseRecv[p][i] = baseSend[1 - p][i][baseChoice[p][i]]`. -/
def baseRecv (g : DpfDraws) (p : Bool) (i : ℕ) : Block := TernaryDpf.key (g.baseSend (!p) i) (g.baseChoice p i)

/-- The object of party `p`, set up with base OTs. -/
def dpfParty (g : DpfDraws) (domain numPoints : ℕ) (p : Bool) : Except Err TernaryDpf := do
  let d ← TernaryDpf.init p.toNat domain numPoints
  d.setBaseOts (Array.ofFn fun i : Fin d.baseOtCount => g.baseSend p i)
    (Array.ofFn fun i : Fin d.baseOtCount => baseRecv g p i)
    (Array.ofFn fun i : Fin d.baseOtCount => g.baseChoice p i)

/-- `sync_wait(when_all_ready(expand(..)))` in both threads: nothing asks for the exceptions. A party whose points are
    refused leaves its outputs as they were allocated; the other party waits for its messages. -/
def expandReady (A : Aes) (g : Bool → Draws) (d : Bool → TernaryDpf) (points : Bool → Array F3x32)
    (values : Bool → Array Block) : Except Err (Bool → Rows (Block × BitVec 8)) :=
  match TernaryDpf.expand A g d points values with
  | .ok output => .ok output
  | .error _ =>
    match (d false).checkPoints (points false), (d true).checkPoints (points true) with
    | .error _, .error _ => .ok fun _ _ _ => (0, 0)
    | _, _ => .error .blocked

/-- `dpf(poly_coeff0, poly_coeff1, poly_points0, poly_points1, polyA, polyB, depth, length, domain)`; `depth` and
    `length` are not used. The memory counts both accumulators, the values and points of all trees, and their outputs
    and tags; the buffers of `expand` are taken to fit beside them. -/
def dpf (A : Aes) (g : DpfDraws) (polyCoeff0 polyCoeff1 : Array Block) (polyPoints0 polyPoints1 : Array F3x32)
    (polyA polyB : BlockVec) (domain : ℕ) : Except Err (BlockVec × BlockVec) := do
  let numPoints := polyPoints0.size
  let numTrees := numPoints * numPoints % u64
  allocate (polyA.size + polyB.size + 3 * numTrees)
  let zeros := Array.replicate numTrees (0 : Block)
  let values ← generateAdditiveSharing polyCoeff0 polyCoeff1 g.value0 zeros zeros
  let points := Array.replicate numTrees (default : F3x32)
  let points0 := pairPoints polyPoints0 numPoints (fun i _ => i) points
  let points1 := pairPoints polyPoints1 numPoints (fun _ j => j) points
  let d0 ← dpfParty g domain numTrees false
  let d1 ← dpfParty g domain numTrees true
  let cells := numTrees * domain % u64
  allocate (polyA.size + polyB.size + 3 * numTrees + 2 * cells + cells / 8)
  let output ← expandReady A g.party (fun p => if p then d1 else d0) (fun p => if p then points1 else points0)
    (fun p => if p then values.2 else values.1)
  let polyA ← foldOutput (output false) numPoints domain polyA
  let polyB ← foldOutput (output true) numPoints domain polyB
  .ok (polyA, polyB)

/-! ### Pairs of terms -/

/-- After `t` products the first `t` values are shares of them. -/
structure Sharing (c0 c1 : Array Block) (N t : ℕ) (st : Array Block × Array Block × ℕ) : Prop where
  size0 : st.1.size = N
  size1 : st.2.1.size = N
  index : st.2.2 = t
  values : ∀ x < t, read st.1 x + read st.2.1 x = f4Mul (read c0 (x / c1.size)) (read c1 (x % c1.size))

theorem generateAdditiveSharing_spec {c0 c1 value0 value1 : Array Block} (r : ℕ → Block)
    (hc0 : c0.size < 2 ^ 31) (hc1 : c1.size < 2 ^ 31)
    (h0 : value0.size = c0.size * c1.size) (h1 : value1.size = c0.size * c1.size) :
    ∃ values, generateAdditiveSharing c0 c1 r value0 value1 = .ok values ∧
      values.1.size = c0.size * c1.size ∧ values.2.size = c0.size * c1.size ∧
      ∀ i < c0.size, ∀ j < c1.size,
        read values.1 (i * c1.size + j) + read values.2 (i * c1.size + j) = f4Mul (read c0 i) (read c1 j) := by
  have I := Loop.run_grid (a := c0.size) (b := c1.size) (s := (value0, value1, 0))
    (f := fun i j st =>
      let temp := f4Mul (read c0 i) (read c1 j)
      let value0 := write st.1 st.2.2 (r st.2.2)
      let value1 := write st.2.1 st.2.2 (temp ^^^ read value0 st.2.2)
      (value0, value1, st.2.2 + 1))
    (Sharing c0 c1 (c0.size * c1.size)) ⟨h0, h1, rfl, by simp⟩ ?_
  · refine ⟨(_, _), ?_, I.size0, I.size1, fun i hi j hj => ?_⟩
    · rw [generateAdditiveSharing, intLoop_eq_run hc0 fun i _ st => intLoop_eq_run hc1 (fun j _ st => rfl) st]
      rfl
    · have hv := I.values (i * c1.size + j) (Loop.grid_lt hi hj)
      rwa [Loop.grid_div hj, Loop.grid_mod hj] at hv
  · intro i hi j hj st I
    have hlt := Loop.grid_lt hi hj
    refine ⟨by simpa using I.size0, by simpa using I.size1, congrArg (· + 1) I.index, fun x hx => ?_⟩
    simp only [I.index]
    rcases Nat.lt_succ_iff_lt_or_eq.mp hx with hx | rfl
    · rw [read_write_ne (by omega), read_write_ne (by omega), I.values x hx]
    · rw [read_write_self (by rw [I.size0]; exact hlt), read_write_self (by rw [I.size1]; exact hlt), Loop.grid_div hj,
        Loop.grid_mod hj, Block.xor_eq_add, add_comm, Block.add_add_cancel_right]

theorem pairPoints_spec (polyPoints : Array F3x32) {n : ℕ} (pick : ℕ → ℕ → ℕ) {points : Array F3x32}
    (hsize : points.size = n * n) :
    (pairPoints polyPoints n pick points).size = n * n ∧ ∀ i < n, ∀ j < n,
      read (pairPoints polyPoints n pick points) (i * n + j) = read polyPoints (pick i j) := by
  have I := Loop.run_grid (a := n) (b := n) (s := points)
    (f := fun i j points => write points (i * n + j) (read polyPoints (pick i j)))
    (fun t points => points.size = n * n ∧ ∀ x < t, read points x = read polyPoints (pick (x / n) (x % n)))
    ⟨hsize, by simp⟩ ?_
  · refine ⟨I.1, fun i hi j hj => ?_⟩
    have hv := I.2 (i * n + j) (Loop.grid_lt hi hj)
    rwa [Loop.grid_div hj, Loop.grid_mod hj] at hv
  · rintro i hi j hj st ⟨hst, hread⟩
    refine ⟨by simpa using hst, fun x hx => ?_⟩
    rcases Nat.lt_succ_iff_lt_or_eq.mp hx with hx | rfl
    · rw [read_write_ne (by omega), hread x hx]
    · rw [read_write_self (by rw [hst]; exact Loop.grid_lt hi hj), Loop.grid_div hj, Loop.grid_mod hj]

/-! ### The fold -/

theorem addTree_spec (out : ℕ → Block) {T n domain : ℕ} (hT : T < n) {poly : BlockVec} (hsize : poly.size = n * domain) :
    (Loop.run domain (fun k t => t.set (k + T * domain) (t.get (k + T * domain) ^^^ out k)) poly).size = n * domain ∧
    ∀ u, ∀ l < domain,
      (Loop.run domain (fun k t => t.set (k + T * domain) (t.get (k + T * domain) ^^^ out k)) poly).get (u * domain + l) =
        poly.get (u * domain + l) + if T = u then out l else 0 := by
  have I := Loop.run_induct (n := domain) (s := poly)
    (f := fun k t => t.set (k + T * domain) (t.get (k + T * domain) ^^^ out k))
    (fun m (t : BlockVec) => t.size = n * domain ∧ ∀ u, ∀ l < domain, t.get (u * domain + l) =
      poly.get (u * domain + l) + if T = u ∧ l < m then out l else 0) ⟨hsize, by simp⟩ ?_
  · refine ⟨I.1, fun u l hl => ?_⟩
    rw [I.2 u l hl]
    simp only [hl, and_true]
  · rintro k hk t ⟨hst, hget⟩
    refine ⟨by simpa using hst, fun u l hl => ?_⟩
    have hpos : k + T * domain < t.size := by
      rw [hst, Nat.add_comm]
      exact Loop.grid_lt hT hk
    by_cases h : T = u ∧ k = l
    · obtain ⟨rfl, rfl⟩ := h
      rw [Nat.add_comm k, BlockVec.get_set_self (by rwa [Nat.add_comm]), hget T k hk, if_neg (by omega),
        if_pos (by omega), add_zero, Block.xor_eq_add]
    · have hne : k + T * domain ≠ u * domain + l := by
        rw [Nat.add_comm]
        exact fun heq => h ((Loop.grid_inj hk hl).mp heq)
      rw [BlockVec.get_set_ne hne, hget u l hl]
      by_cases h' : T = u ∧ l < k
      · rw [if_pos h', if_pos (by omega)]
      · rw [if_neg h', if_neg (by omega)]

/-- `foldOutput` where every counter reaches its bound. -/
def foldTrees (output : Rows (Block × BitVec 8)) (n domain : ℕ) (poly : BlockVec) : BlockVec :=
  Loop.run n (fun i poly => Loop.run n (fun j poly => Loop.run domain (fun k poly =>
    poly.set (foldIndex n domain i j k) (poly.get (foldIndex n domain i j k) ^^^ (output (i * n + j) k).1)) poly) poly)
    poly

/-- In a vector of `n` blocks the index does not wrap around. -/
theorem foldIndex_eq {n domain k : ℕ} (hn : 0 < n) (hk : k < domain) (hfit : n * domain ≤ maxBlocks) (i j : ℕ) :
    foldIndex n domain i j k = k + (F3x32.fromInt i + F3x32.fromInt j).toInt % n * domain := by
  have hT := Nat.mod_lt (F3x32.fromInt i + F3x32.fromInt j).toInt hn
  have hlt := (Loop.grid_lt hT hk).trans_le hfit
  have hmax : maxBlocks < u64 := by decide
  rw [foldIndex, Nat.mod_eq_of_lt (by omega : _ * domain < u64), Nat.mod_eq_of_lt (by omega)]

theorem foldOutput_ok (output : Rows (Block × BitVec 8)) {n domain : ℕ} (hn : n < 2 ^ 31) (hdomain : domain < 2 ^ 31)
    (poly : BlockVec) : foldOutput output n domain poly = .ok (foldTrees output n domain poly) :=
  intLoop_eq_run hn (fun _ _ t => intLoop_eq_run hn (fun _ _ t => intLoop_eq_run hdomain (fun _ _ _ => rfl) t) t) poly

@[simp] theorem size_foldTrees (output : Rows (Block × BitVec 8)) (n domain : ℕ) (poly : BlockVec) :
    (foldTrees output n domain poly).size = poly.size := by
  refine Loop.run_induct (fun _ (t : BlockVec) => t.size = poly.size) rfl fun i _ t ht => ?_
  refine Loop.run_induct (fun _ (t : BlockVec) => t.size = poly.size) ht fun j _ t ht => ?_
  exact Loop.run_induct (fun _ (t : BlockVec) => t.size = poly.size) ht fun k _ t ht => (t.size_set _ _).trans ht

/-- The trees are folded by the digit-wise sum of the indices of their terms. -/
theorem foldTrees_spec (output : Rows (Block × BitVec 8)) {n domain : ℕ} {poly : BlockVec}
    (hsize : poly.size = n * domain) (u : ℕ) {l : ℕ} (hl : l < domain) :
    (foldTrees output n domain poly).get (u * domain + l) = poly.get (u * domain + l) +
      ∑ i ∈ Finset.range n, ∑ j ∈ Finset.range n,
        if (F3x32.fromInt i + F3x32.fromInt j).toInt % n = u then (output (i * n + j) l).1 else 0 := by
  have hfit : n * domain ≤ maxBlocks := hsize.symm.trans_le poly.fits
  refine (Loop.run_sum (fun (t : BlockVec) => t.size = n * domain) (fun t => t.get (u * domain + l))
    (fun i => ∑ j ∈ Finset.range n,
      if (F3x32.fromInt i + F3x32.fromInt j).toInt % n = u then (output (i * n + j) l).1 else 0) hsize
    fun i _ t ht => ?_).2
  refine Loop.run_sum (fun (t : BlockVec) => t.size = n * domain) (fun t => t.get (u * domain + l))
    (fun j => if (F3x32.fromInt i + F3x32.fromInt j).toInt % n = u then (output (i * n + j) l).1 else 0) ht
    fun j hj t ht => ?_
  have hT : (F3x32.fromInt i + F3x32.fromInt j).toInt % n < n := Nat.mod_lt _ (by omega)
  have hadd := addTree_spec (fun k => (output (i * n + j) k).1) hT ht
  rw [Loop.run_congr fun k hk t => by rw [foldIndex_eq (by omega) hk hfit]]
  exact ⟨hadd.1, hadd.2 u l hl⟩

theorem foldOutput_error (output : Rows (Block × BitVec 8)) {n domain : ℕ} (hpos : 0 < n) (hdomain : 2 ^ 31 ≤ domain)
    (poly : BlockVec) : foldOutput output n domain poly = .error .intOverflow := by
  by_cases hn : n < 2 ^ 31
  · have hinner : intLoop n (fun j poly => intLoop domain (fun k poly =>
        let index := foldIndex n domain 0 j k
        .ok (poly.set index (poly.get index ^^^ (output (0 * n + j) k).1))) poly) poly = .error .intOverflow := by
      rw [intLoop, int_ok hn]
      exact Loop.tryRun_error (intLoop_error hdomain _ _) hpos
    rw [foldOutput, intLoop, int_ok hn]
    exact Loop.tryRun_error hinner hpos
  · exact intLoop_error (Nat.le_of_not_lt hn) _ _

/-! ### The set-up -/

theorem read_key (send : ℕ → Block × Block) (choice : ℕ → Bool) (n i : ℕ) :
    read (Array.ofFn fun j : Fin n => TernaryDpf.key (send j) (choice j)) i =
      TernaryDpf.key (read (Array.ofFn fun j : Fin n => send j) i) (read (Array.ofFn fun j : Fin n => choice j) i) := by
  by_cases h : i < n
  · rw [read_ofFn (fun j => TernaryDpf.key (send j) (choice j)) h, read_ofFn send h, read_ofFn choice h]
  · rw [read_of_le (by simpa using h), read_of_le (a := Array.ofFn fun j : Fin n => send j) (by simpa using h),
      read_of_le (a := Array.ofFn fun j : Fin n => choice j) (by simpa using h)]
    rfl

theorem dpfParty_spec (g : DpfDraws) {domain n : ℕ} (hdomain : 0 < domain) (hn : 0 < n) :
    ∃ d : Bool → TernaryDpf, (∀ p, dpfParty g domain n p = .ok (d p)) ∧ (∀ p, (d p).mOtIdx = 0) ∧
      TernaryDpf.Matched d domain n (log3ceil domain) := by
  let count := log3ceil domain * n * 2
  let d : Bool → TernaryDpf := fun p => ⟨p.toNat, domain, log3ceil domain, n, 0,
    Array.ofFn fun i : Fin count => g.baseSend p i, Array.ofFn fun i : Fin count => baseRecv g p i,
    Array.ofFn fun i : Fin count => g.baseChoice p i⟩
  refine ⟨d, fun p => ?_, fun p => rfl, fun p => rfl, fun p => rfl, fun p => rfl, fun p => rfl, fun p i => ?_⟩
  · have hp : ¬ p.toNat > 1 := by cases p <;> decide
    rw [dpfParty, TernaryDpf.init, if_neg hp, if_neg (by omega), if_neg (by omega), ok_bind, TernaryDpf.setBaseOts,
      if_neg (by simp), if_neg (by simp), if_neg (by simp)]
    rfl
  · exact read_key (g.baseSend !p) (g.baseChoice p) count i

/-! ### Products of regular sparse polynomials -/

/-- A regular sparse polynomial: one term in each of `3^b` blocks of `3^m` positions. -/
structure SparsePoly (b m : ℕ) where
  coeff : Array Block
  points : Array F3x32
  size_coeff : coeff.size = 3 ^ b
  size_points : points.size = 3 ^ b
  valid : ∀ i < 3 ^ b, (read points i).Valid
  lt : ∀ i < 3 ^ b, (read points i).toInt < 3 ^ m

/-- The polynomial with points `F3x32(v[i] % 3^m)` and coefficients `s[i]`. -/
def SparsePoly.sample (b : ℕ) {m : ℕ} (hm : m ≤ 32) (v : ℕ → ℕ) (s : ℕ → Block) : SparsePoly b m where
  coeff := Array.ofFn fun i : Fin (3 ^ b) => s i
  points := Array.ofFn fun i : Fin (3 ^ b) => F3x32.fromInt (v i % 3 ^ m)
  size_coeff := Array.size_ofFn
  size_points := Array.size_ofFn
  valid i hi := by
    rw [read_ofFn (fun i => F3x32.fromInt (v i % 3 ^ m)) hi]
    exact F3x32.fromInt_valid _
  lt i hi := by
    rw [read_ofFn (fun i => F3x32.fromInt (v i % 3 ^ m)) hi, F3x32.toInt_fromInt hm (Nat.mod_lt _ (by positivity))]
    exact Nat.mod_lt _ (by positivity)

/-- The product of two sparse polynomials at position `l` of block `u`: indices of blocks and positions add
    digit by digit. -/
def sparseProduct {b m : ℕ} (P Q : SparsePoly b m) (u l : ℕ) : Block :=
  ∑ i ∈ Finset.range (3 ^ b), ∑ j ∈ Finset.range (3 ^ b),
    if (F3x32.fromInt i + F3x32.fromInt j).toInt = u ∧ (read P.points i + read Q.points j).toInt = l then
      f4Mul (read P.coeff i) (read Q.coeff j) else 0

variable {b m : ℕ} {A : Aes} {g : DpfDraws} {P Q : SparsePoly b m} {polyA polyB : BlockVec}

/-- Memory leaves at most 32 ternary digits. -/
theorem digits_le (h : 3 ^ b * 3 ^ m ≤ maxBlocks) : b + m ≤ 32 := by
  by_contra hlt
  have hpow : 3 ^ 33 ≤ 3 ^ (b + m) := Nat.pow_le_pow_right (by omega) (by omega)
  rw [pow_add] at hpow
  exact absurd (hpow.trans h) (by decide)

/-- The memory of a call for `3 ^ b` blocks of `3 ^ m` positions, in blocks. -/
def dpfMemory (b m : ℕ) : ℕ := 2 * 3 ^ (b + m) + 3 * 3 ^ (2 * b) + 2 * 3 ^ (2 * b + m) + 3 ^ (2 * b + m) / 8

/-- Sizes past the memory do not wrap around to small ones. -/
theorem maxBlocks_lt_mod : ∀ b ≤ 32, ∀ m ≤ 32, b + m ≤ 32 → maxBlocks < dpfMemory b m →
    maxBlocks < 2 * 3 ^ (b + m) + 3 * (3 ^ (2 * b) % u64) ∨
    b ≤ 16 ∧ maxBlocks < 2 * 3 ^ (b + m) + 3 * 3 ^ (2 * b) + 2 * (3 ^ (2 * b + m) % u64) + 3 ^ (2 * b + m) % u64 / 8 := by
  decide +kernel

theorem digits_of_memory (h : dpfMemory b m ≤ maxBlocks) : 2 * b + m ≤ 32 := by
  by_contra hlt
  have hpow : 3 ^ 33 ≤ 3 ^ (2 * b + m) := Nat.pow_le_pow_right (by omega) (by omega)
  unfold dpfMemory maxBlocks at h
  omega

/-! ### The inputs of the trees -/

theorem treeValues_spec (g : DpfDraws) (P Q : SparsePoly b m) (hb : b ≤ 16) :
    ∃ values, generateAdditiveSharing P.coeff Q.coeff g.value0 (Array.replicate (3 ^ b * 3 ^ b) 0)
        (Array.replicate (3 ^ b * 3 ^ b) 0) = .ok values ∧
      values.1.size = 3 ^ b * 3 ^ b ∧ values.2.size = 3 ^ b * 3 ^ b ∧ ∀ i < 3 ^ b, ∀ j < 3 ^ b,
        read values.1 (i * 3 ^ b + j) + read values.2 (i * 3 ^ b + j) = f4Mul (read P.coeff i) (read Q.coeff j) := by
  have hlt : 3 ^ b < 2 ^ 31 := (Nat.pow_le_pow_right (by omega) hb).trans_lt (by decide)
  have hzeros : (Array.replicate (3 ^ b * 3 ^ b) (0 : Block)).size = P.coeff.size * Q.coeff.size := by
    simp [P.size_coeff, Q.size_coeff]
  have hspec := generateAdditiveSharing_spec g.value0 (P.size_coeff.trans_lt hlt) (Q.size_coeff.trans_lt hlt) hzeros hzeros
  rwa [P.size_coeff, Q.size_coeff] at hspec

def treePoints (P Q : SparsePoly b m) (p : Bool) : Array F3x32 :=
  let points := Array.replicate (3 ^ b * 3 ^ b) default
  if p then pairPoints Q.points (3 ^ b) (fun _ j => j) points else pairPoints P.points (3 ^ b) (fun i _ => i) points

theorem size_treePoints (P Q : SparsePoly b m) (p : Bool) : (treePoints P Q p).size = 3 ^ b * 3 ^ b := by
  cases p
  · exact (pairPoints_spec P.points (fun i _ => i) (by simp)).1
  · exact (pairPoints_spec Q.points (fun _ j => j) (by simp)).1

theorem read_treePoints (P Q : SparsePoly b m) {i j : ℕ} (hi : i < 3 ^ b) (hj : j < 3 ^ b) :
    read (treePoints P Q false) (i * 3 ^ b + j) = read P.points i ∧
      read (treePoints P Q true) (i * 3 ^ b + j) = read Q.points j :=
  ⟨(pairPoints_spec P.points (fun i _ => i) (by simp)).2 i hi j hj,
    (pairPoints_spec Q.points (fun _ j => j) (by simp)).2 i hi j hj⟩

theorem treePoints_shared (P Q : SparsePoly b m) : TernaryDpf.Shared (treePoints P Q) (3 ^ b * 3 ^ b) m := by
  have hcell {k : ℕ} (hk : k < 3 ^ b * 3 ^ b) :
      ∃ i < 3 ^ b, ∃ j < 3 ^ b, k = i * 3 ^ b + j :=
    ⟨_, Nat.div_lt_of_lt_mul hk, _, Nat.mod_lt _ (by positivity), (Nat.div_add_mod' k (3 ^ b)).symm⟩
  refine ⟨fun p k hk => ?_, fun p k hk => ?_⟩
  · obtain ⟨i, hi, j, hj, rfl⟩ := hcell hk
    cases p
    · exact (read_treePoints P Q hi hj).1 ▸ P.valid i hi
    · exact (read_treePoints P Q hi hj).2 ▸ Q.valid j hj
  · obtain ⟨i, hi, j, hj, rfl⟩ := hcell hk
    cases p
    · exact (read_treePoints P Q hi hj).1 ▸ P.lt i hi
    · exact (read_treePoints P Q hi hj).2 ▸ Q.lt j hj

theorem point_treePoints (P Q : SparsePoly b m) {i j : ℕ} (hi : i < 3 ^ b) (hj : j < 3 ^ b) :
    TernaryDpf.point (treePoints P Q) (i * 3 ^ b + j) = (read P.points i + read Q.points j).toInt := by
  rw [TernaryDpf.point, (read_treePoints P Q hi hj).1, (read_treePoints P Q hi hj).2]

/-! ### The call -/

/-- What `dpf` does once the values and the points of its trees are in memory. -/
theorem dpf_eq (A : Aes) (g : DpfDraws) (P Q : SparsePoly b m) (hA : polyA.size = 3 ^ b * 3 ^ m)
    (hB : polyB.size = 3 ^ b * 3 ^ m) (hb : b ≤ 16) (hmem : 2 * 3 ^ (b + m) + 3 * 3 ^ (2 * b) ≤ maxBlocks) :
    ∃ (d : Bool → TernaryDpf) (values : Bool → Array Block),
      (∀ p, (d p).mOtIdx = 0) ∧ TernaryDpf.Matched d (3 ^ m) (3 ^ b * 3 ^ b) (log3ceil (3 ^ m)) ∧
      (∀ p, (values p).size = 3 ^ b * 3 ^ b) ∧
      (∀ i < 3 ^ b, ∀ j < 3 ^ b, read (values false) (i * 3 ^ b + j) + read (values true) (i * 3 ^ b + j) =
        f4Mul (read P.coeff i) (read Q.coeff j)) ∧
      dpf A g P.coeff Q.coeff P.points Q.points polyA polyB (3 ^ m) = (do
        allocate (2 * 3 ^ (b + m) + 3 * 3 ^ (2 * b) + 2 * (3 ^ (2 * b + m) % u64) + 3 ^ (2 * b + m) % u64 / 8)
        let output ← expandReady A g.party d (treePoints P Q) values
        let polyA ← foldOutput (output false) (3 ^ b) (3 ^ m) polyA
        let polyB ← foldOutput (output true) (3 ^ b) (3 ^ m) polyB
        .ok (polyA, polyB)) := by
  have hsquare : 3 ^ b * 3 ^ b = 3 ^ (2 * b) := by rw [← pow_add, two_mul]
  have hcells : 3 ^ (2 * b) * 3 ^ m = 3 ^ (2 * b + m) := (pow_add 3 (2 * b) m).symm
  have hpolys : polyA.size + polyB.size = 2 * 3 ^ (b + m) := by rw [hA, hB, ← pow_add, two_mul]
  have hwrap : 3 ^ (2 * b) % u64 = 3 ^ (2 * b) :=
    Nat.mod_eq_of_lt ((Nat.pow_le_pow_right (by omega) (by omega : 2 * b ≤ 32)).trans_lt (by decide))
  obtain ⟨values, hvalues, hsize0, hsize1, hsum⟩ := treeValues_spec g P Q hb
  obtain ⟨d, hd, hidx, M⟩ := dpfParty_spec (n := 3 ^ (2 * b)) g (show 0 < 3 ^ m by positivity) (by positivity)
  have hd' : (fun p : Bool => if p then d true else d false) = d := by
    funext p
    cases p <;> rfl
  refine ⟨d, fun p => if p then values.2 else values.1, hidx, hsquare.symm ▸ M, ?_, hsum, ?_⟩
  · rintro (_ | _)
    · exact hsize0
    · exact hsize1
  · have hpoints : (fun p => if p then pairPoints Q.points (3 ^ b) (fun _ j => j) (Array.replicate (3 ^ (2 * b)) default)
        else pairPoints P.points (3 ^ b) (fun i _ => i) (Array.replicate (3 ^ (2 * b)) default)) = treePoints P Q := by
      rw [← hsquare]
      rfl
    rw [hsquare] at hvalues
    simp only [dpf, P.size_points, hsquare, hwrap, hcells, hpolys, allocate_ok hmem, ok_bind, hvalues, hd, hd', hpoints]

theorem dpf_badAlloc (A : Aes) (g : DpfDraws) (P Q : SparsePoly b m) (hA : polyA.size = 3 ^ b * 3 ^ m)
    (hB : polyB.size = 3 ^ b * 3 ^ m) (h : maxBlocks < dpfMemory b m) :
    dpf A g P.coeff Q.coeff P.points Q.points polyA polyB (3 ^ m) = .error .badAlloc := by
  have hbm : b + m ≤ 32 := digits_le (hA ▸ polyA.fits)
  have hsizes : polyA.size + polyB.size + 3 * (3 ^ b * 3 ^ b % u64) = 2 * 3 ^ (b + m) + 3 * (3 ^ (2 * b) % u64) := by
    rw [hA, hB, ← pow_add, ← pow_add, ← two_mul, ← two_mul]
  by_cases hfirst : maxBlocks < 2 * 3 ^ (b + m) + 3 * (3 ^ (2 * b) % u64)
  · simp only [dpf, P.size_points, hsizes]
    rw [allocate_error hfirst, error_bind]
  · obtain ⟨hb, hsecond⟩ := (maxBlocks_lt_mod b (by omega) m (by omega) hbm h).resolve_left hfirst
    have hwrap : 3 ^ (2 * b) % u64 = 3 ^ (2 * b) :=
      Nat.mod_eq_of_lt ((Nat.pow_le_pow_right (by omega) (by omega : 2 * b ≤ 32)).trans_lt (by decide))
    rw [hwrap] at hfirst
    obtain ⟨d, values, -, -, -, -, hdpf⟩ := dpf_eq A g P Q hA hB hb (Nat.le_of_not_lt hfirst)
    rw [hdpf, allocate_error hsecond, error_bind]

/-- In memory the trees share each product of two terms at its position, and `dpf` folds them. -/
theorem dpf_trees (A : Aes) (g : DpfDraws) (P Q : SparsePoly b m) (hA : polyA.size = 3 ^ b * 3 ^ m)
    (hB : polyB.size = 3 ^ b * 3 ^ m) (hmem : dpfMemory b m ≤ maxBlocks) :
    ∃ out : Bool → Rows (Block × BitVec 8),
      (∀ i < 3 ^ b, ∀ j < 3 ^ b, ∀ l < 3 ^ m,
        (out false (i * 3 ^ b + j) l).1 + (out true (i * 3 ^ b + j) l).1 =
          if (read P.points i + read Q.points j).toInt = l then f4Mul (read P.coeff i) (read Q.coeff j) else 0) ∧
      dpf A g P.coeff Q.coeff P.points Q.points polyA polyB (3 ^ m) = (do
        let polyA ← foldOutput (out false) (3 ^ b) (3 ^ m) polyA
        let polyB ← foldOutput (out true) (3 ^ b) (3 ^ m) polyB
        .ok (polyA, polyB)) := by
  have hdigits := digits_of_memory hmem
  have hlog : log3ceil (3 ^ m) = m := log3ceil_pow (by omega)
  have hcells : 3 ^ (2 * b + m) % u64 = 3 ^ (2 * b + m) :=
    Nat.mod_eq_of_lt ((Nat.pow_le_pow_right (by omega) hdigits).trans_lt (by decide))
  have htrees : 3 ^ b * 3 ^ b * 3 ^ m ≤ maxBlocks := by
    rw [← pow_add, ← two_mul, ← pow_add]
    unfold dpfMemory at hmem
    omega
  obtain ⟨d, values, hidx, M, hsize, hvalues, hdpf⟩ := dpf_eq A g P Q hA hB (by omega)
    (by unfold dpfMemory at hmem; omega)
  obtain ⟨out, hout, hadd⟩ := TernaryDpf.expand_spec (A := A) (g := g.party) M
    (hlog.symm ▸ treePoints_shared P Q) hidx (size_treePoints P Q) hsize (by positivity) (by positivity)
    (Nat.pow_le_pow_right (by omega) (by omega)) htrees
  refine ⟨out, fun i hi j hj l hl => ?_, ?_⟩
  · have h := hadd (i * 3 ^ b + j) (Loop.grid_lt hi hj) l hl
    rw [point_treePoints P Q hi hj, hvalues i hi j hj] at h
    exact h.trans (if_congr eq_comm rfl rfl)
  · rw [hdpf, hcells, ← dpfMemory, allocate_ok hmem, expandReady, hout]
    rfl

theorem dpf_ok (hA : polyA.size = 3 ^ b * 3 ^ m) (hB : polyB.size = 3 ^ b * 3 ^ m) (hm : 3 ^ m < 2 ^ 31)
    (hmem : dpfMemory b m ≤ maxBlocks) :
    ∃ A' B', dpf A g P.coeff Q.coeff P.points Q.points polyA polyB (3 ^ m) = .ok (A', B') ∧
      A'.size = 3 ^ b * 3 ^ m ∧ B'.size = 3 ^ b * 3 ^ m ∧ ∀ u < 3 ^ b, ∀ l < 3 ^ m,
        (A'.get (u * 3 ^ m + l) + polyA.get (u * 3 ^ m + l)) + (B'.get (u * 3 ^ m + l) + polyB.get (u * 3 ^ m + l)) =
          sparseProduct P Q u l := by
  have hdigits := digits_of_memory hmem
  have hb : 3 ^ b < 2 ^ 31 := (Nat.pow_le_pow_right (by omega) (by omega : b ≤ 16)).trans_lt (by decide)
  obtain ⟨out, hadd, hdpf⟩ := dpf_trees A g P Q hA hB hmem
  rw [foldOutput_ok _ hb hm, foldOutput_ok _ hb hm, ok_bind, ok_bind] at hdpf
  refine ⟨_, _, hdpf, ?_, ?_, fun u hu l hl => ?_⟩
  · rw [size_foldTrees, hA]
  · rw [size_foldTrees, hB]
  · have hcancel (x y s t : Block) : x + s + x + (y + t + y) = s + t + (x + x) + (y + y) := by abel
    rw [foldTrees_spec _ hA u hl, foldTrees_spec _ hB u hl, hcancel, Block.add_self, Block.add_self, add_zero,
      add_zero, ← Finset.sum_add_distrib, sparseProduct]
    refine Finset.sum_congr rfl fun i hi => ?_
    rw [← Finset.sum_add_distrib]
    refine Finset.sum_congr rfl fun j hj => ?_
    rw [Finset.mem_range] at hi hj
    have hT : (F3x32.fromInt i + F3x32.fromInt j).toInt < 3 ^ b := by
      rw [F3x32.toInt_fromInt_add (by omega) hi hj]
      exact Ternary.digitAdd_lt _ _
    rw [Nat.mod_eq_of_lt hT]
    by_cases hu' : (F3x32.fromInt i + F3x32.fromInt j).toInt = u
    · rw [if_pos hu', if_pos hu', hadd i hi j hj l hl, if_congr (and_iff_right hu') rfl rfl]
    · rw [if_neg hu', if_neg hu', if_neg fun h => hu' h.1, add_zero]

theorem dpf_overflow (hA : polyA.size = 3 ^ b * 3 ^ m) (hB : polyB.size = 3 ^ b * 3 ^ m) (hm : 2 ^ 31 ≤ 3 ^ m)
    (hmem : dpfMemory b m ≤ maxBlocks) :
    dpf A g P.coeff Q.coeff P.points Q.points polyA polyB (3 ^ m) = .error .intOverflow := by
  obtain ⟨out, -, hdpf⟩ := dpf_trees A g P Q hA hB hmem
  rw [hdpf, foldOutput_error _ (by positivity) hm, error_bind]

/-- `dpf` shares the product of two sparse polynomials, or does not get the memory for it. -/
def SharesProduct (A : Aes) (g : DpfDraws) (P Q : SparsePoly b m) (polyA polyB : BlockVec) : Prop :=
  (maxBlocks < dpfMemory b m ∧ dpf A g P.coeff Q.coeff P.points Q.points polyA polyB (3 ^ m) = .error .badAlloc) ∨
  ∃ A' B', dpf A g P.coeff Q.coeff P.points Q.points polyA polyB (3 ^ m) = .ok (A', B') ∧
    A'.size = 3 ^ b * 3 ^ m ∧ B'.size = 3 ^ b * 3 ^ m ∧ ∀ u < 3 ^ b, ∀ l < 3 ^ m,
      (A'.get (u * 3 ^ m + l) ^^^ polyA.get (u * 3 ^ m + l)) ^^^
          (B'.get (u * 3 ^ m + l) ^^^ polyB.get (u * 3 ^ m + l)) = sparseProduct P Q u l

/-- The counters of the fold are `int`s, so the domain has to be one. -/
theorem dpf_shares_product_iff (A : Aes) (g : DpfDraws) (P Q : SparsePoly b m) (polyA polyB : BlockVec)
    (hA : polyA.size = 3 ^ b * 3 ^ m) (hB : polyB.size = 3 ^ b * 3 ^ m) :
    SharesProduct A g P Q polyA polyB ↔ 3 ^ m < 2 ^ 31 ∨ maxBlocks < dpfMemory b m := by
  by_cases hmem : maxBlocks < dpfMemory b m
  · exact iff_of_true (.inl ⟨hmem, dpf_badAlloc A g P Q hA hB hmem⟩) (.inr hmem)
  · by_cases hm : 3 ^ m < 2 ^ 31
    · exact iff_of_true (.inr (dpf_ok hA hB hm (Nat.le_of_not_lt hmem))) (.inl hm)
    · refine iff_of_false ?_ (by tauto)
      rintro (⟨h, -⟩ | ⟨A', B', hdpf, -⟩)
      · exact hmem h
      · rw [dpf_overflow hA hB (Nat.le_of_not_lt hm) (Nat.le_of_not_lt hmem)] at hdpf
        cases hdpf

/-- Three blocks of three positions, with the point of block `i` at `i`. -/
theorem dpf_shares_product_iff_nine :
    let P := SparsePoly.sample 1 (m := 1) (by decide) id fun _ => 1
    let zeros : BlockVec := ⟨Array.replicate 9 0, by decide⟩
    SharesProduct default default P P zeros zeros := by
  intro P zeros
  exact (dpf_shares_product_iff default default P P zeros zeros (by decide) (by decide)).mpr (.inl (by decide))

/-- One block of `3 ^ 20` positions is more than an `int` counts. -/
theorem dpf_not_shares_twenty :
    let P := SparsePoly.sample 0 (m := 20) (by decide) id fun _ => 1
    let zeros : BlockVec := ⟨Array.replicate (3 ^ 20) 0, by rw [Array.size_replicate]; decide⟩
    ¬ SharesProduct default default P P zeros zeros := by
  intro P zeros
  have hsize : zeros.size = 3 ^ 0 * 3 ^ 20 := by rw [BlockVec.size, Array.size_replicate, pow_zero, one_mul]
  rintro (⟨h, -⟩ | ⟨A', B', hdpf, -⟩)
  · exact absurd h (by decide)
  · rw [dpf_overflow hsize hsize (by decide) (by decide)] at hdpf
    cases hdpf

end ExtFieldPcg
