import ExtFieldPcg.Expander

/-! The convolution of `ExConvCode.h`: every entry is added to the entries after it that a row of coefficients names. The
    rows come from a buffer that is refilled on the way, and eight bits are worked off together, on blocks with vector
    instructions. -/

open Buffer

namespace ExtFieldPcg

/-! ### Vectors of four words -/

namespace Block

def lane32 (x : Block) (l : ℕ) : BitVec 32 := x.bits.extractLsb' (32 * l) 32

def ofLanes32 (lanes : ℕ → BitVec 32) : Block := ⟨Word.ofBits 128 fun i => (lanes (i / 32)).getLsbD (i % 32)⟩

theorem getLsbD_lane32 (x : Block) {l i : ℕ} (hi : i < 32) : (x.lane32 l).getLsbD i = x.bit (32 * l + i) := by
  rw [lane32, BitVec.getLsbD_extractLsb', decide_eq_true hi, Bool.true_and, bit]

theorem bit_ofLanes32 (lanes : ℕ → BitVec 32) {i : ℕ} (hi : i < 128) :
    (ofLanes32 lanes).bit i = (lanes (i / 32)).getLsbD (i % 32) := by
  rw [bit, ofLanes32, Word.getLsbD_ofBits _ hi]

theorem lane32_ofLanes32 (lanes : ℕ → BitVec 32) {l : ℕ} (hl : l < 4) : (ofLanes32 lanes).lane32 l = lanes l := by
  refine BitVec.eq_of_getLsbD_eq fun i hi => ?_
  have hdiv : (32 * l + i) / 32 = l := by omega
  have hmod : (32 * l + i) % 32 = i := by omega
  rw [getLsbD_lane32 _ hi, bit_ofLanes32 _ (by omega), hdiv, hmod]

def slliEpi32 (x : Block) (s : ℕ) : Block := ofLanes32 fun l => x.lane32 l <<< s

/-- `_mm_blendv_ps(a, b, mask)`, which goes by the signs of the mask. -/
def blendvPs (a b mask : Block) : Block := ofLanes32 fun l => if (mask.lane32 l).msb then b.lane32 l else a.lane32 l

end Block

/-! ### The code -/

structure ExConvCode where
  mExpander : ExpanderCode := {}
  mSeed : Block := 0
  mMessageSize : ℕ := 0
  mCodeSize : ℕ := 0
  mAccumulatorSize : ℕ := 0
  mSystematic : Bool := true
  mAccTwice : Bool := true

namespace ExConvCode

def ccBlock : Block := block 0xcccccccccccccccc 0xcccccccccccccccc

def config (messageSize codeSize expanderWeight accumulatorSize : ℕ) (systematic regularExpander : Bool) (seed : Block) :
    ExConvCode :=
  let codeSize := if codeSize = 0 then 2 * messageSize else codeSize
  { mSeed := seed
    mMessageSize := messageSize
    mCodeSize := codeSize
    mAccumulatorSize := accumulatorSize
    mSystematic := systematic
    mExpander := ExpanderCode.config messageSize (codeSize - messageSize * systematic.toNat) expanderWeight regularExpander
      (seed ^^^ ccBlock) }

/-- `if (rangeCheck && j >= size) j -= size;`. -/
def wrap (rangeCheck : Bool) (size j : ℕ) : ℕ := if rangeCheck && decide (size ≤ j) then j - size else j

def bufferByte (mBuffer : Array Block) (k : ℕ) : BitVec 8 := (read mBuffer (k / 16)).toBytes (k % 16)

/-- `accOne8<F, CoeffCtx, rangeCheck>` for the vector that begins at entry `X`. -/
def AccOne8 (F : Type) : Type := (rangeCheck : Bool) → (X i j size : ℕ) → (b : BitVec 8) → Array F → Array F

section Code
variable {F : Type} [Inhabited F] (ctx : CoeffCtx F) (mulConst : F → F)

/-- `ctx.plus(*(X + j), *(X + j), *(X + i))`. -/
def plusAt (X i j : ℕ) (x : Array F) : Array F := ExpanderCode.addTo ctx (X + j) (read x (X + i)) x

def accOne8 : AccOne8 F := fun rangeCheck X i j size b x =>
  Loop.run 8 (fun p x => if b.getLsbD p then plusAt ctx X i (wrap rangeCheck size (j + p)) x else x) x

/-- `ctx.plus(*xj, *xj, *xi); ctx.mulConst(*xj, *xj);`. -/
def plusMulConst (X i j : ℕ) (x : Array F) : Array F :=
  let x := plusAt ctx X i j x
  write x (X + j) (mulConst (read x (X + j)))

/-- The bits of the last byte, when there are less than eight. -/
def accBits (rangeCheck : Bool) (X i size n : ℕ) (b : BitVec 8) (s : Array F × ℕ) : Array F × ℕ :=
  let s := Loop.run n (fun _ (s : Array F × BitVec 8 × ℕ) =>
    (if s.2.1.getLsbD 0 then plusAt ctx X i s.2.2 s.1 else s.1, s.2.1 >>> 1, wrap rangeCheck size (s.2.2 + 1)))
    (s.1, b, s.2)
  (s.1, s.2.2)

def accBytes (acc8 : AccOne8 F) (rangeCheck : Bool) (X i size n : ℕ) (matrixCoeff : ℕ → BitVec 8) (s : Array F × ℕ) :
    Array F × ℕ :=
  Loop.run n (fun t s => (acc8 rangeCheck X i s.2 size (matrixCoeff t) s.1, wrap rangeCheck size (s.2 + 8))) s

def accOneGen (acc8 : AccOne8 F) (mAccumulatorSize : ℕ) (rangeCheck : Bool) (X i size : ℕ) (matrixCoeff : ℕ → BitVec 8)
    (x : Array F) : Array F :=
  let n := mAccumulatorSize / 8
  let s := accBytes acc8 rangeCheck X i size n matrixCoeff (x, wrap rangeCheck size (i + 1))
  let s := if 8 * n < mAccumulatorSize then accBits ctx rangeCheck X i size (mAccumulatorSize - 8 * n) (matrixCoeff n) s else s
  plusMulConst ctx mulConst X i s.2 s.1

def accOne (acc8 : AccOne8 F) (accumulatorSize : ℕ) (rangeCheck : Bool) (X i size : ℕ) (matrixCoeff : ℕ → BitVec 8)
    (x : Array F) : Array F :=
  let s := accBytes acc8 rangeCheck X i size (accumulatorSize / 8) matrixCoeff (x, wrap rangeCheck size (i + 1))
  plusMulConst ctx mulConst X i s.2 s.1

end Code

/-- `accOne8` on blocks. -/
def accOne8Sse (ctx : CoeffCtx Block) : AccOne8 Block := fun rangeCheck X i j size b x =>
  let rnd := Block.allSame b
  let tt (p : ℕ) := Block.blendvPs 0 (read x (X + i)) (rnd.slliEpi32 (7 - p))
  Loop.run 8 (fun p x => ExpanderCode.addTo ctx (X + wrap rangeCheck size (j + p)) (tt p) x) x

section Code
variable {F : Type} [Inhabited F] (A : CodeAes) (ctx : CoeffCtx F) (mulConst : F → F) (acc8 : AccOne8 F)

/-- The buffer of the coefficients with `mtxCoeffIter`. -/
structure Coeffs where
  mBuffer : Array Block
  mtxCoeffIter : ℕ

/-- `if (mtxCoeffIter > mtxCoeffEnd) { refill(prng); mtxCoeffIter = prng.mBuffer.data(); }`. -/
def Coeffs.ready (mtxCoeffEnd : ℕ) (g : Coeffs) : Coeffs :=
  if mtxCoeffEnd < g.mtxCoeffIter then ⟨refillBuffer A g.mBuffer, 0⟩ else g

def accRound (row : (matrixCoeff : ℕ → BitVec 8) → Array F → Array F) (mtxCoeffEnd : ℕ) (s : Array F × Coeffs) :
    Array F × Coeffs :=
  let g := s.2.ready A mtxCoeffEnd
  (row (fun k => bufferByte g.mBuffer (g.mtxCoeffIter + k)) s.1, { g with mtxCoeffIter := g.mtxCoeffIter + 1 })

/-- The row of `accumulateFixed<F, CoeffCtx, AccumulatorSize>`. -/
def accRow (accumulatorSize mAccumulatorSize : ℕ) (rangeCheck : Bool) (X i size : ℕ) :
    (matrixCoeff : ℕ → BitVec 8) → Array F → Array F :=
  if accumulatorSize = 0 then accOneGen ctx mulConst acc8 mAccumulatorSize rangeCheck X i size
  else accOne ctx mulConst acc8 accumulatorSize rangeCheck X i size

/-- `accumulateFixed<F, CoeffCtx, AccumulatorSize>(x.begin() + X, size, ctx, seed)`. -/
def accumulateFixed (accumulatorSize mAccumulatorSize X size : ℕ) (seed : Block) (x : Array F) : Except Err (Array F) :=
  let main := size - 1 - mAccumulatorSize
  let mBuffer := prngBuffer A seed
  let mtxCoeffEnd := 16 * mBuffer.size - divCeil mAccumulatorSize 8
  if accumulatorSize ≠ 0 ∧ mAccumulatorSize ≠ accumulatorSize then .error .rteLoc
  else
    let row := accRow ctx mulConst acc8 accumulatorSize mAccumulatorSize
    let s := Loop.run main (fun i => accRound A (row false X i size) mtxCoeffEnd) (x, ⟨mBuffer, 0⟩)
    .ok (Loop.run (size - main) (fun i => accRound A (row true X (main + i) size) mtxCoeffEnd) s).1

/-- `accumulate(x.begin() + X, ctx)`. -/
def accumulate (c : ExConvCode) (X : ℕ) (x : Array F) : Except Err (Array F) := do
  let size := c.mCodeSize - c.mSystematic.toNat * c.mMessageSize
  let fixed := if c.mAccumulatorSize = 24 then 24 else 0
  let x ← accumulateFixed A ctx mulConst acc8 fixed c.mAccumulatorSize X size c.mSeed x
  if c.mAccTwice then accumulateFixed A ctx mulConst acc8 fixed c.mAccumulatorSize X size (c.mSeed ^^^ block (~~~0) (~~~0)) x
  else .ok x

def dualEncode (c : ExConvCode) (e : Array F) : Except Err (Array F) :=
  if c.mCodeSize = 0 then .error .rteLoc
  else if c.mSystematic then do
    let e ← c.accumulate A ctx mulConst acc8 c.mMessageSize e
    .ok (c.mExpander.expand A ctx true ⟨e, c.mMessageSize⟩ 0 e)
  else do
    let e ← c.accumulate A ctx mulConst acc8 0 e
    let w := c.mExpander.expand A ctx false ⟨e, 0⟩ 0 (Array.replicate c.mMessageSize default)
    .ok (copy w e 0)

end Code
/-! ### Rows one bit at a time -/

theorem wrap_mod {rangeCheck : Bool} {size m d : ℕ} (hsize : 0 < size) (hd : d ≤ size)
    (hcheck : rangeCheck = false → m + d < size) : wrap rangeCheck size (m % size + d) = (m + d) % size := by
  have hlt := Nat.mod_lt m hsize
  rw [← Nat.mod_add_mod, wrap]
  cases rangeCheck with
  | false =>
    have hm := hcheck rfl
    rw [Bool.false_and, if_neg Bool.false_ne_true, Nat.mod_eq_of_lt (by omega : m < size), Nat.mod_eq_of_lt hm]
  | true =>
    generalize m % size = r at hlt
    simp only [Bool.true_and, decide_eq_true_eq]
    split
    next hle => rw [Nat.mod_eq_sub_mod hle, Nat.mod_eq_of_lt (by omega)]
    next hgt => rw [Nat.mod_eq_of_lt (by omega)]

theorem add_mod_ne {i k size : ℕ} (hi : i < size) (hk : k + 1 < size) : (i + 1 + k) % size ≠ i := by
  by_cases hlt : i + 1 + k < size
  · rw [Nat.mod_eq_of_lt hlt]
    omega
  · rw [Nat.mod_eq_sub_mod (by omega), Nat.mod_eq_of_lt (by omega)]
    omega

section Rows
variable {F : Type} [Inhabited F] {ctx : CoeffCtx F} {mulConst : F → F} {acc8 : AccOne8 F} {rangeCheck : Bool}
  {X i size : ℕ} {matrixCoeff : ℕ → BitVec 8}

def coeffBit (matrixCoeff : ℕ → BitVec 8) (k : ℕ) : Bool := (matrixCoeff (k / 8)).getLsbD (k % 8)

def accBit (ctx : CoeffCtx F) (X i size : ℕ) (bit : ℕ → Bool) (k : ℕ) (x : Array F) : Array F :=
  if bit k then plusAt ctx X i ((i + 1 + k) % size) x else x

/-- Row `i`: `x[(i + 1 + k) % size] += bit k * x[i]` for all coefficients, and the entry after them takes `x[i]` and
    `mulConst`. -/
def plainRow (ctx : CoeffCtx F) (mulConst : F → F) (n X i size : ℕ) (bit : ℕ → Bool) (x : Array F) : Array F :=
  plusMulConst ctx mulConst X i ((i + 1 + n) % size) (Loop.run n (accBit ctx X i size bit) x)

@[simp] theorem size_plusAt (j : ℕ) (x : Array F) : (plusAt ctx X i j x).size = x.size := size_write x _ _

@[simp] theorem size_plusMulConst (j : ℕ) (x : Array F) : (plusMulConst ctx mulConst X i j x).size = x.size := by
  rw [plusMulConst, size_write, size_plusAt]

theorem size_accBit (bit : ℕ → Bool) (k : ℕ) (x : Array F) : (accBit ctx X i size bit k x).size = x.size := by
  rw [accBit]
  split
  · exact size_plusAt _ x
  · rfl

@[simp] theorem size_plainRow (n : ℕ) (bit : ℕ → Bool) (x : Array F) :
    (plainRow ctx mulConst n X i size bit x).size = x.size := by
  rw [plainRow, size_plusMulConst]
  exact Loop.run_induct (fun _ y => Array.size y = x.size) rfl fun k _ y hy => (size_accBit bit k y).trans hy

/-- The eight entries are not the one that is added. -/
def Agrees (ctx : CoeffCtx F) (acc8 : AccOne8 F) : Prop :=
  ∀ rangeCheck X i j size b x, (∀ p < 8, wrap rangeCheck size (j + p) ≠ i) →
    acc8 rangeCheck X i j size b x = accOne8 ctx rangeCheck X i j size b x

theorem accOne8_eq {m : ℕ} (hsize : 8 ≤ size) (hcheck : rangeCheck = false → i + 1 + m + 7 < size) (b : BitVec 8)
    (x : Array F) : accOne8 ctx rangeCheck X i ((i + 1 + m) % size) size b x =
      Loop.run 8 (fun p x => if b.getLsbD p then plusAt ctx X i ((i + 1 + (m + p)) % size) x else x) x := by
  refine Loop.run_congr (fun p hp x => ?_) x
  rw [wrap_mod (by omega) (by omega) fun h => lt_of_le_of_lt (by omega) (hcheck h), Nat.add_assoc]

theorem accBytes_eq (hacc : Agrees ctx acc8) {n : ℕ} (hi : i < size) (hn : 8 * n < size)
    (hcheck : rangeCheck = false → i + 1 + 8 * n < size) (x : Array F) :
    accBytes acc8 rangeCheck X i size n matrixCoeff (x, wrap rangeCheck size (i + 1)) =
      (Loop.run (8 * n) (accBit ctx X i size (coeffBit matrixCoeff)) x, (i + 1 + 8 * n) % size) := by
  have hstart : wrap rangeCheck size (i + 1) = (i + 1) % size := by
    have h : wrap rangeCheck size (i % size + 1) = (i + 1) % size :=
      wrap_mod (i.zero_le.trans_lt hi) (by omega) fun h => lt_of_le_of_lt (by omega) (hcheck h)
    rwa [Nat.mod_eq_of_lt hi] at h
  rw [hstart]
  induction n with
  | zero => rfl
  | succ n ih =>
    rw [accBytes, Loop.run_succ, ← accBytes, ih (by omega) fun h => lt_of_le_of_lt (by omega) (hcheck h)]
    have hne (p : ℕ) (hp : p < 8) : wrap rangeCheck size ((i + 1 + 8 * n) % size + p) ≠ i := by
      rw [wrap_mod (by omega) (by omega) fun h => lt_of_le_of_lt (by omega) (hcheck h), Nat.add_assoc]
      exact add_mod_ne hi (by omega)
    refine Prod.ext ?_ (wrap_mod (by omega) (by omega) fun h => lt_of_le_of_lt (by omega) (hcheck h))
    rw [hacc _ _ _ _ _ _ _ hne, accOne8_eq (by omega) fun h => lt_of_le_of_lt (by omega) (hcheck h)]
    dsimp only
    rw [Nat.mul_succ, Loop.run_add]
    refine Loop.run_congr (fun p hp x => ?_) _
    have hdiv : (8 * n + p) / 8 = n := by omega
    have hmod : (8 * n + p) % 8 = p := by omega
    rw [accBit, coeffBit, hdiv, hmod]

theorem accBits_eq {n m : ℕ} (b : BitVec 8) (hsize : 0 < size) (hcheck : rangeCheck = false → i + 1 + m + n < size)
    (x : Array F) :
    accBits ctx rangeCheck X i size n b (x, (i + 1 + m) % size) =
      (Loop.run n (fun p x => if b.getLsbD p then plusAt ctx X i ((i + 1 + (m + p)) % size) x else x) x,
        (i + 1 + (m + n)) % size) := by
  have hrun : Loop.run n (fun _ (s : Array F × BitVec 8 × ℕ) =>
      (if s.2.1.getLsbD 0 then plusAt ctx X i s.2.2 s.1 else s.1, s.2.1 >>> 1, wrap rangeCheck size (s.2.2 + 1)))
      (x, b, (i + 1 + m) % size) =
      (Loop.run n (fun p x => if b.getLsbD p then plusAt ctx X i ((i + 1 + (m + p)) % size) x else x) x, b >>> n,
        (i + 1 + (m + n)) % size) := by
    induction n with
    | zero => simp [Loop.run]
    | succ n ih =>
      rw [Loop.run_succ, ih fun h => lt_of_le_of_lt (by omega) (hcheck h), Loop.run_succ]
      have hj : wrap rangeCheck size ((i + 1 + (m + n)) % size + 1) = (i + 1 + (m + (n + 1))) % size :=
        wrap_mod hsize hsize fun h => lt_of_le_of_lt (by omega) (hcheck h)
      rw [hj, ← BitVec.shiftRight_add, BitVec.getLsbD_ushiftRight, Nat.add_zero]
  rw [accBits, hrun]

/-- Whole bytes and the rest, with checks and without. -/
theorem accOneGen_eq (hacc : Agrees ctx acc8) {n : ℕ} (hi : i < size) (hn : n < size)
    (hcheck : rangeCheck = false → i + 1 + n < size) :
    accOneGen ctx mulConst acc8 n rangeCheck X i size matrixCoeff =
      plainRow ctx mulConst n X i size (coeffBit matrixCoeff) := by
  funext x
  rw [accOneGen, accBytes_eq hacc hi (by omega) fun h => lt_of_le_of_lt (by omega) (hcheck h), plainRow]
  split
  next hrest =>
    rw [accBits_eq _ (by omega) fun h => lt_of_le_of_lt (by omega) (hcheck h)]
    have hn' : 8 * (n / 8) + (n - 8 * (n / 8)) = n := by omega
    have hrun : Loop.run (n - 8 * (n / 8)) (fun p x => if (matrixCoeff (n / 8)).getLsbD p then
        plusAt ctx X i ((i + 1 + (8 * (n / 8) + p)) % size) x else x)
        (Loop.run (8 * (n / 8)) (accBit ctx X i size (coeffBit matrixCoeff)) x) =
        Loop.run n (accBit ctx X i size (coeffBit matrixCoeff)) x := by
      conv_rhs => rw [← hn', Loop.run_add]
      refine Loop.run_congr (fun p hp x => ?_) _
      have hdiv : (8 * (n / 8) + p) / 8 = n / 8 := by omega
      have hmod : (8 * (n / 8) + p) % 8 = p := by omega
      rw [accBit, coeffBit, hdiv, hmod]
    rw [hrun, hn']
  next hwhole => rw [(by omega : 8 * (n / 8) = n)]

theorem accOne_eq (hacc : Agrees ctx acc8) {n : ℕ} (hmod : n % 8 = 0) (hi : i < size) (hn : n < size)
    (hcheck : rangeCheck = false → i + 1 + n < size) :
    accOne ctx mulConst acc8 n rangeCheck X i size matrixCoeff =
      plainRow ctx mulConst n X i size (coeffBit matrixCoeff) := by
  funext x
  rw [accOne, accBytes_eq hacc hi (by omega) fun h => lt_of_le_of_lt (by omega) (hcheck h), plainRow,
    (by omega : 8 * (n / 8) = n)]

end Rows

/-! ### Vector instructions -/

/-- Bit `31` of every lane of the shifted block is bit `p` of the byte. -/
theorem blendvPs_allSame (x : Block) (b : BitVec 8) {p : ℕ} (hp : p < 8) :
    Block.blendvPs 0 x ((Block.allSame b).slliEpi32 (7 - p)) = if b.getLsbD p then x else 0 := by
  refine Block.ext_bit fun i hi => ?_
  have hmsb : (((Block.allSame b).slliEpi32 (7 - p)).lane32 (i / 32)).msb = b.getLsbD p := by
    have hbit : (32 * (i / 32) + (31 - (7 - p))) % 8 = p := by omega
    rw [Block.slliEpi32, Block.lane32_ofLanes32 _ (by omega), BitVec.msb_eq_getLsbD_last, BitVec.getLsbD_shiftLeft,
      Block.getLsbD_lane32 _ (by omega), Block.bit_allSame _ (by omega), hbit, decide_eq_true (by omega),
      decide_eq_false (by omega), Bool.not_false, Bool.true_and, Bool.true_and]
  have hindex : 32 * (i / 32) + i % 32 = i := Nat.div_add_mod i 32
  rw [Block.blendvPs, Block.bit_ofLanes32 _ hi, hmsb]
  split <;> rw [Block.getLsbD_lane32 _ (Nat.mod_lt i (by decide)), hindex]

theorem accOne8Sse_agrees {ctx : CoeffCtx Block} (hplus : ∀ x y, ctx.plus x y = x + y) : Agrees ctx (accOne8Sse ctx) := by
  intro rangeCheck X i j size b x hne
  have hrun := Loop.run_induct (fun n t => t = Loop.run n (fun p x =>
      if b.getLsbD p then plusAt ctx X i (wrap rangeCheck size (j + p)) x else x) x ∧ read t (X + i) = read x (X + i))
    (n := 8) (s := x) (f := fun p t => ExpanderCode.addTo ctx (X + wrap rangeCheck size (j + p))
      (Block.blendvPs 0 (read x (X + i)) ((Block.allSame b).slliEpi32 (7 - p))) t) ⟨rfl, rfl⟩ ?_
  · exact hrun.1
  · rintro p hp t ⟨ht, hread⟩
    have hplace : X + wrap rangeCheck size (j + p) ≠ X + i := fun h => hne p hp (Nat.add_left_cancel h)
    refine ⟨?_, ?_⟩
    · rw [Loop.run_succ, ← ht, blendvPs_allSame _ _ hp]
      split
      · rw [plusAt, hread]
      · rw [ExpanderCode.addTo, hplus, add_zero, write_read]
    · rw [ExpanderCode.addTo, read_write_ne hplace, hread]

/-! ### The buffer of coefficients -/

/-- The rows that one buffer has the coefficients of. -/
def bufferRows (mAccumulatorSize : ℕ) : ℕ := 4096 - divCeil mAccumulatorSize 8 + 1

theorem bufferRows_pos (n : ℕ) : 0 < bufferRows n := Nat.succ_pos _

/-- Byte `k` of the coefficients of row `i`. -/
def coeffAt (A : CodeAes) (seed : Block) (mAccumulatorSize i k : ℕ) : BitVec 8 :=
  bufferByte (refilled A seed (i / bufferRows mAccumulatorSize)) (i % bufferRows mAccumulatorSize + k)

/-- The coefficients of the rows before row `i` are used. -/
structure Coeffs.At (A : CodeAes) (seed : Block) (n i : ℕ) (g : Coeffs) : Prop where
  iter : g.mtxCoeffIter ≤ bufferRows n
  buffer : ∃ r, i = bufferRows n * r + g.mtxCoeffIter ∧ g.mBuffer = refilled A seed r

section Buffer
variable {F : Type} {A : CodeAes} {seed : Block} {n i : ℕ} {g : Coeffs}

theorem Coeffs.At.ready (G : g.At A seed n i) :
    g.ready A (4096 - divCeil n 8) = ⟨refilled A seed (i / bufferRows n), i % bufferRows n⟩ := by
  obtain ⟨r, rfl, hbuffer⟩ := G.buffer
  have hiter := G.iter
  rw [Coeffs.ready]
  split
  next hend =>
    have hfull : g.mtxCoeffIter = bufferRows n := by
      rw [bufferRows] at hiter ⊢
      omega
    have hnext : refillBuffer A g.mBuffer = refilled A seed (r + 1) := by rw [hbuffer, refilled, refilled, Loop.run_succ]
    rw [hfull, ← Nat.mul_succ, Nat.mul_div_cancel_left _ (bufferRows_pos n), Nat.mul_mod_right, hnext]
  next hend =>
    have hlt : g.mtxCoeffIter < bufferRows n := by
      rw [bufferRows]
      omega
    rw [Nat.mul_add_div (bufferRows_pos n), Nat.div_eq_of_lt hlt, Nat.add_zero, Nat.mul_add_mod, Nat.mod_eq_of_lt hlt,
      ← hbuffer]

theorem Coeffs.At.accRound (G : g.At A seed n i) (row : (ℕ → BitVec 8) → Array F → Array F) (x : Array F) :
    (accRound A row (4096 - divCeil n 8) (x, g)).1 = row (coeffAt A seed n i) x ∧
      (accRound A row (4096 - divCeil n 8) (x, g)).2.At A seed n (i + 1) := by
  rw [ExConvCode.accRound, G.ready]
  refine ⟨rfl, Nat.mod_lt i (bufferRows_pos n), i / bufferRows n, ?_, rfl⟩
  show i + 1 = bufferRows n * (i / bufferRows n) + (i % bufferRows n + 1)
  rw [← Nat.add_assoc, Nat.div_add_mod]

theorem Coeffs.At.run (G : g.At A seed n i) (row : ℕ → (ℕ → BitVec 8) → Array F → Array F) (m : ℕ) (x : Array F) :
    let s : Array F × Coeffs := Loop.run m (fun t => ExConvCode.accRound A (row (i + t)) (4096 - divCeil n 8)) (x, g)
    s.1 = Loop.run m (fun t => row (i + t) (coeffAt A seed n (i + t))) x ∧ s.2.At A seed n (i + m) := by
  refine Loop.run_induct (fun m (s : Array F × Coeffs) => s.1 = Loop.run m (fun t => row (i + t) (coeffAt A seed n (i + t))) x
    ∧ s.2.At A seed n (i + m)) ⟨rfl, G⟩ ?_
  rintro t - ⟨y, g'⟩ ⟨hy, G'⟩
  obtain ⟨hrow, G''⟩ := G'.accRound (row (i + t)) y
  exact ⟨by rw [hrow, Loop.run_succ, ← hy], G''⟩

end Buffer

section Accumulate
variable {F : Type} [Inhabited F] {A : CodeAes} {ctx : CoeffCtx F} {mulConst : F → F} {acc8 : AccOne8 F}

def plainAccumulate (ctx : CoeffCtx F) (mulConst : F → F) (n X size : ℕ) (bit : ℕ → ℕ → Bool) (x : Array F) : Array F :=
  Loop.run size (fun i => plainRow ctx mulConst n X i size (bit i)) x

@[simp] theorem size_plainAccumulate (n X size : ℕ) (bit : ℕ → ℕ → Bool) (x : Array F) :
    (plainAccumulate ctx mulConst n X size bit x).size = x.size :=
  Loop.run_induct (fun _ y => Array.size y = x.size) rfl fun i _ y hy => (size_plainRow n (bit i) y).trans hy

def bitAt (A : CodeAes) (seed : Block) (n i : ℕ) : ℕ → Bool := coeffBit (coeffAt A seed n i)

theorem accRow_eq (hacc : Agrees ctx acc8) {accumulatorSize n : ℕ} (hfixed : accumulatorSize = 0 ∨ accumulatorSize = n)
    (hmod : accumulatorSize % 8 = 0) {rangeCheck : Bool} {X i size : ℕ} (hi : i < size) (hn : n < size)
    (hcheck : rangeCheck = false → i + 1 + n < size) (matrixCoeff : ℕ → BitVec 8) :
    accRow ctx mulConst acc8 accumulatorSize n rangeCheck X i size matrixCoeff =
      plainRow ctx mulConst n X i size (coeffBit matrixCoeff) := by
  rw [accRow]
  split
  · exact accOneGen_eq hacc hi hn hcheck
  next hpos =>
    obtain rfl := hfixed.resolve_left hpos
    exact accOne_eq hacc hmod hi hn hcheck

/-- The accumulator, however it works its rows off. -/
theorem accumulateFixed_ok (hacc : Agrees ctx acc8) {accumulatorSize n : ℕ}
    (hfixed : accumulatorSize = 0 ∨ accumulatorSize = n) (hmod : accumulatorSize % 8 = 0) {size : ℕ} (hn : n < size)
    (X : ℕ) (seed : Block) (x : Array F) :
    accumulateFixed A ctx mulConst acc8 accumulatorSize n X size seed x =
      .ok (plainAccumulate ctx mulConst n X size (bitAt A seed n) x) := by
  have hend : 16 * (prngBuffer A seed).size - divCeil n 8 = 4096 - divCeil n 8 := by rw [size_prngBuffer]
  have G : Coeffs.At A seed n 0 ⟨prngBuffer A seed, 0⟩ := ⟨Nat.zero_le _, 0, rfl, by rw [refilled, Loop.run_zero]⟩
  obtain ⟨hmain, G'⟩ := G.run (fun i => accRow ctx mulConst acc8 accumulatorSize n false X i size) (size - 1 - n) x
  simp only [Nat.zero_add] at hmain G'
  rw [accumulateFixed, if_neg (by omega), hend]
  dsimp only
  generalize Loop.run (size - 1 - n) _ _ = s at hmain G' ⊢
  obtain ⟨hrest, -⟩ := G'.run (fun i => accRow ctx mulConst acc8 accumulatorSize n true X i size) (size - (size - 1 - n)) s.1
  have hsize : size - 1 - n + (size - (size - 1 - n)) = size := by omega
  rw [hrest, hmain, plainAccumulate]
  conv_rhs => rw [← hsize, Loop.run_add]
  refine congrArg _ ((Loop.run_congr (fun i hi y => ?_) _).trans (congrArg _ (Loop.run_congr (fun i hi y => ?_) _)))
  · rw [accRow_eq hacc hfixed hmod (by omega) hn (fun h => by cases h), hsize]
    rfl
  · rw [accRow_eq hacc hfixed hmod (by omega) hn (fun _ => by omega), hsize]
    rfl

end Accumulate
end ExConvCode
end ExtFieldPcg
