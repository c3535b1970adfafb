import ExtFieldPcg.Block
import ExtFieldPcg.FoleageUtils

/-! The two-party distributed point function over a ternary tree (`TernaryDpf.h`), for values that are blocks
    added by XOR. AES is any function, and each value that a party draws from its PRNG is any value. -/

open Buffer

namespace ExtFieldPcg

/-! ### Matrices -/

/-- A matrix view: row and column to entry. -/
abbrev Rows (α : Type) := ℕ → ℕ → α

def Rows.set {α : Type} (m : Rows α) (i k : ℕ) (v : α) : Rows α := fun i' k' => if i' = i ∧ k' = k then v else m i' k'

/-! ### Fixed functions and randomness -/

/-- The AES functions of the program. -/
structure Aes where
  /-- `aes[i].hashBlock`, under the three hard-coded keys. -/
  hashBlock : ℕ → Block → Block
  /-- `mAesFixedKey.hashBlocks`, block by block. -/
  fixedKey : Block → Block
  roundFn : Block → Block → Block
deriving Inhabited

/-- What one party draws from its PRNG, and what its memory holds before it is written. -/
structure Draws where
  sc : ℕ → ℕ → Block
  /-- `r` of iteration `iter` for tree `i`. -/
  r : ℕ → ℕ → Block
  /-- The outputs drawn when the domain is one and there are no values. -/
  rand : ℕ → Block
  memory : ℕ → Rows Block
deriving Inhabited

/-! ### One party -/

/-- The object of one party after `init`, with its base OTs. -/
structure TernaryDpf where
  mPartyIdx : ℕ
  mDomain : ℕ
  mDepth : ℕ
  mNumPoints : ℕ
  mOtIdx : ℕ
  mBaseSendOts : Array (Block × Block)
  mBaseRecvOts : Array Block
  mBaseChoice : Array Bool

namespace TernaryDpf

def init (partyIdx domain numPoints : ℕ) : Except Err TernaryDpf :=
  if partyIdx > 1 then .error .rteLoc
  else if domain = 0 then .error .rteLoc
  else if numPoints = 0 then .error .rteLoc
  else .ok ⟨partyIdx, domain, log3ceil domain, numPoints, 0, #[], #[], #[]⟩

def baseOtCount (d : TernaryDpf) : ℕ := d.mDepth * d.mNumPoints * 2

def setBaseOts (d : TernaryDpf) (send : Array (Block × Block)) (recv : Array Block) (choices : Array Bool) :
    Except Err TernaryDpf :=
  if send.size ≠ d.baseOtCount then .error .rteLoc
  else if recv.size ≠ d.baseOtCount then .error .rteLoc
  else if choices.size ≠ d.baseOtCount then .error .rteLoc
  else .ok { d with mBaseSendOts := send, mBaseRecvOts := recv, mBaseChoice := choices }

def lsb (b : Block) : BitVec 8 := b.bits.extractLsb' 0 8 &&& 1

/-- `tagBit(b)`: the low bit of `b` in every position, by a 64-bit subtraction. -/
def tagBit (b : Block) : Block :=
  let bit := b &&& block 0 1
  let mask := (block 0 0).subEpi64 bit
  mask.unpackloEpi64 mask

/-- `*BitIterator(&r) = v`. -/
def setLowBit (r : Block) (v : Bool) : Block := ⟨Word.ofBits 128 fun i => if i = 0 then v else r.bit i⟩

/-! ### Correction words -/

def expand3 (H : Block → Block) (k : Block) (t : ℕ) : Block :=
  H (match t with
    | 0 => k
    | 1 => k ^^^ block 3450136502437610243 6108362938092146510
    | _ => k ^^^ block 3428970074314387014 2030711220607601239)

/-- `a`, the digit of point `i` that iteration `iter` corrects. -/
def digitAt (d : TernaryDpf) (points : Array F3x32) (iter i : ℕ) : ℕ := (read points i).digit (d.mDepth - iter)

/-- The first message of `recver`: two bits for each tree. -/
def correction (d : TernaryDpf) (points : Array F3x32) (iter i e : ℕ) : Bool :=
  (d.digitAt points iter i).testBit e ^^ read d.mBaseChoice (d.mOtIdx + i * 2 + e)

def key (keys : Block × Block) (b : Bool) : Block := if b then keys.2 else keys.1

/-- `k[j]` of `sender`, from the bits the other party sent. -/
def senderKey (d : TernaryDpf) (corr : ℕ → ℕ → Bool) (i j : ℕ) : Block :=
  let keys0 := read d.mBaseSendOts (d.mOtIdx + i * 2 + 0)
  let keys1 := read d.mBaseSendOts (d.mOtIdx + i * 2 + 1)
  key keys0 (j.testBit 0 ^^ corr i 0) ^^^ key keys1 (j.testBit 1 ^^ corr i 1)

/-- `r` of `sender`, its low bit the party. -/
def senderR (d : TernaryDpf) (g : Draws) (iter i : ℕ) : Block := setLowBit (g.r iter i) (d.mPartyIdx == 1)

def senderMask (d : TernaryDpf) (H : Block → Block) (g : Draws) (points : Array F3x32) (corr : ℕ → ℕ → Bool)
    (iter i t : ℕ) : Block :=
  expand3 H (d.senderKey corr i 0) t ^^^ (if t = d.digitAt points iter i then d.senderR g iter i else 0)

/-- Row `i * 2 + j` of the buffer that `sender` sends. -/
def sendBuffer (d : TernaryDpf) (H : Block → Block) (g : Draws) (points : Array F3x32) (corr : ℕ → ℕ → Bool)
    (iter : ℕ) : Rows Block := fun row t =>
  let i := row / 2
  let j := row % 2
  expand3 H (d.senderKey corr i (j + 1)) t ^^^ d.senderMask H g points corr iter i t ^^^
    (if t = (j + 1 + d.digitAt points iter i) % 3 then d.senderR g iter i else 0)

/-- `sigma` before the parties exchange it. -/
def sigmaShare (d : TernaryDpf) (H : Block → Block) (points : Array F3x32) (iter : ℕ) (mask : ℕ → ℕ → Block)
    (recvBuffer z : Rows Block) : Rows Block := fun t i =>
  let a := d.digitAt points iter i
  let k := read d.mBaseRecvOts (d.mOtIdx + i * 2 + 0) ^^^ read d.mBaseRecvOts (d.mOtIdx + i * 2 + 1)
  let sigma := expand3 H k t ^^^ mask i t ^^^ z t i
  if a ≠ 0 then sigma ^^^ recvBuffer (i * 2 + a - 1) t else sigma

/-! ### One level of the tree -/

/-- The current level, its children and the sums over them. -/
structure Level where
  seed : Rows Block
  child : Rows Block
  z : Rows Block

def simd8 {σ : Type} (body : ℕ → σ → σ) (s : σ) : σ := Loop.run 8 body s

/-- Eight trees from `k` on at child `j` of parent `L`. -/
def expandBatch (A : Aes) (parent sigma : Rows Block) (L j k : ℕ) (st : Level) : Level :=
  let s := fun q => st.seed (3 * L + j) (k + q) ^^^ (parent L (k + q) &&& sigma j (k + q))
  let st := Loop.run 3 (fun i st =>
    let w := fun q => A.hashBlock i (s q)
    let child := simd8 (fun q m => m.set (9 * L + (j * 3 + i)) (k + q) (w q)) st.child
    let z := simd8 (fun q m => m.set i (k + q) (m i (k + q) ^^^ w q)) st.z
    { st with child, z }) st
  { st with seed := simd8 (fun q m => m.set (3 * L + j) (k + q) (tagBit (s q))) st.seed }

def expandOne (A : Aes) (parent sigma : Rows Block) (L j k : ℕ) (st : Level) : Level :=
  let seedjk := st.seed (3 * L + j) k ^^^ (parent L k &&& sigma j k)
  let st := Loop.run 3 (fun i st =>
    let s := A.hashBlock i seedjk
    { st with child := st.child.set (9 * L + (j * 3 + i)) k s, z := st.z.set i k (st.z i k ^^^ s) }) st
  { st with seed := st.seed.set (3 * L + j) k (Block.allSame (-lsb seedjk)) }

/-- All trees at child `j` of parent `L`: batches of eight, then one by one. -/
def expandNode (A : Aes) (numPoints : ℕ) (parent sigma : Rows Block) (L j : ℕ) (st : Level) : Level :=
  let st := Loop.run (numPoints / 8) (fun b st => expandBatch A parent sigma L j (8 * b) st) st
  Loop.run (numPoints - numPoints / 8 * 8) (fun t st => expandOne A parent sigma L j (numPoints / 8 * 8 + t) st) st

/-- The level of `size` nodes, with `z` cleared first. -/
def expandLevel (A : Aes) (numPoints size : ℕ) (parent sigma : Rows Block) (st : Level) : Level :=
  let st := { st with z := fun i k => if i < 3 then 0 else st.z i k }
  Loop.run ((size + 2) / 3) (fun L st => Loop.run 3 (fun j st => expandNode A numPoints parent sigma L j st) st) st

/-! ### The last layer -/

/-- Tags, sums and leaf values, with the position of `leafIter`. -/
structure Leaves where
  t : Rows (BitVec 8)
  sums : ℕ → Block
  leafVals : ℕ → Block
  leafIter : ℕ

def leafBatch (A : Aes) (parent seed sigma : Rows Block) (L j k : ℕ) (st : Leaves) : Leaves :=
  let s := fun q => seed (3 * L + j) (k + q) ^^^ (parent L (k + q) &&& sigma j (k + q))
  let t := simd8 (fun q m => m.set (3 * L + j) (k + q) (lsb (s q))) st.t
  let leafVals := simd8 (fun q v => Function.update v (st.leafIter + q) (A.roundFn (s q) (s q))) st.leafVals
  let sums := simd8 (fun q v => Function.update v (k + q) (v (k + q) ^^^ leafVals (st.leafIter + q))) st.sums
  ⟨t, sums, leafVals, st.leafIter + 8⟩

def leafOne (A : Aes) (parent seed sigma : Rows Block) (L j k : ℕ) (st : Leaves) : Leaves :=
  let s := seed (3 * L + j) k ^^^ (parent L k &&& sigma j k)
  let leafVals := Function.update st.leafVals st.leafIter (A.roundFn s s)
  ⟨st.t.set (3 * L + j) k (lsb s), Function.update st.sums k (st.sums k ^^^ leafVals st.leafIter), leafVals,
    st.leafIter + 1⟩

def leafNode (A : Aes) (numPoints : ℕ) (parent seed sigma : Rows Block) (L j : ℕ) (st : Leaves) : Leaves :=
  let st := Loop.run (numPoints / 8) (fun b st => leafBatch A parent seed sigma L j (8 * b) st) st
  Loop.run (numPoints - numPoints / 8 * 8) (fun t st => leafOne A parent seed sigma L j (numPoints / 8 * 8 + t) st) st

/-- "fixing the last layer". -/
def lastLayer (A : Aes) (numPoints domain : ℕ) (parent seed sigma : Rows Block) (st : Leaves) : Leaves :=
  Loop.run ((domain + 2) / 3) (fun L st =>
    Loop.run (min 3 (domain - 3 * L)) (fun j st => leafNode A numPoints parent seed sigma L j st) st) st

/-! ### `expand` -/

def checkSizes (d : TernaryDpf) (points : Array F3x32) (values : Array Block) : Except Err Unit :=
  if points.size ≠ d.mNumPoints then .error .rteLoc
  else if values.size ≠ 0 ∧ values.size ≠ d.mNumPoints then .error .rteLoc
  else .ok ()

/-- The check of one point: `mDepth` digits, none of them three. -/
def checkPoint (d : TernaryDpf) (point : F3x32) : Except Err Unit := do
  let v ← Loop.tryRun d.mDepth
    (fun _ v => if v &&& 3#64 = 3#64 then .error .invalidPointSharing else .ok (v >>> 2)) point.mVal
  if v ≠ 0#64 then .error .pointTooLarge else .ok ()

/-- The buffer for the seeds of three levels and for `z` and `sigma`, in bytes, cut into its matrices. -/
def checkAllocation (d : TernaryDpf) : Except Err Unit :=
  let pow3 := ipow 3 d.mDepth
  let allocSize := (16 * d.mNumPoints * (pow3 + pow3 / 3 + pow3 / 9) + 16 * d.mNumPoints * 3 * 2) % u64
  let used := [pow3, pow3 / 3, pow3 / 9, 3, 3].map fun rows => 16 * (rows * d.mNumPoints)
  if used.sum > allocSize then .error .allocationError else .ok ()

def checkPoints (d : TernaryDpf) (points : Array F3x32) : Except Err Unit := do
  Loop.tryRun d.mNumPoints (fun i _ => d.checkPoint (read points i)) ()
  d.checkAllocation

/-- A party between two iterations. -/
structure Party where
  d : TernaryDpf
  s : ℕ → Rows Block
  z : Rows Block
  sigma : Rows Block

/-- "we skip level 0 and set level 1 to be random". -/
def firstLevel (d : TernaryDpf) (g : Draws) : Party :=
  Loop.run d.mNumPoints (fun k st =>
    let t := (st.s 0).set 0 k (Block.allSame (-(BitVec.ofNat 8 d.mPartyIdx)))
    let sc := (((st.s 1).set 0 k (g.sc 0 k)).set 1 k (g.sc 1 k)).set 2 k (g.sc 2 k)
    let z := ((st.z.set 0 k (sc 0 k)).set 1 k (sc 1 k)).set 2 k (sc 2 k)
    { st with s := Function.update (Function.update st.s 0 t) 1 sc, z })
    ⟨d, g.memory, g.memory 3, g.memory 4⟩

/-- The part of an iteration after `correctionWord`, for a party with its new `sigma`. -/
def nextLevel (A : Aes) (iter : ℕ) (st : Party) : Party :=
  if iter ≠ st.d.mDepth then
    let level := expandLevel A st.d.mNumPoints (ipow 3 iter) (st.s ((iter - 1) % 3)) st.sigma
      ⟨st.s (iter % 3), st.s ((iter + 1) % 3), st.z⟩
    { st with
      s := Function.update (Function.update st.s (iter % 3) level.seed) ((iter + 1) % 3) level.child
      z := level.z }
  else st

def leaves (A : Aes) (st : Party) (memory : ℕ → Rows Block) : Leaves :=
  lastLayer A st.d.mNumPoints st.d.mDomain (st.s ((st.d.mDepth - 1) % 3)) (st.s (st.d.mDepth % 3)) st.sigma
    ⟨fun i k => lsb (memory 5 i k), fun _ => 0, memory 6 0, 0⟩

/-- What `output` is called with at a tree and a leaf when the domain is one. -/
def trivialOutput (d : TernaryDpf) (g : Draws) (values : Array Block) : Rows (Block × BitVec 8) := fun i _ =>
  (if values.size ≠ 0 then read values i else g.rand i, BitVec.ofNat 8 d.mPartyIdx)

def diff (lv : Leaves) (values : Array Block) (k : ℕ) : Block := read values k ^^^ lv.sums k

/-- `gamma`, from the other party's `diff`. -/
def gamma (lv : Leaves) (values : Array Block) (received : ℕ → Block) (k : ℕ) : Block :=
  received k ^^^ lv.sums k ^^^ read values k

/-- What `output` is called with at tree `k` and leaf `i`; `leafIter` walks `leafVals` tree by tree. -/
def valueOutput (d : TernaryDpf) (lv : Leaves) (gamma : ℕ → Block) : Rows (Block × BitVec 8) := fun k i =>
  ((gamma k &&& Block.allSame (-lv.t i k)) ^^^ lv.leafVals (i * d.mNumPoints + k), lv.t i k)

/-- What `output` is called with when the parties pass no values. -/
def randomOutput (d : TernaryDpf) (lv : Leaves) : Rows (Block × BitVec 8) := fun k i =>
  (lv.leafVals (i * d.mNumPoints + k), lv.t i k)

/-! ### The two parties -/

/-- `correctionWord` of both parties: the correction bits cross, then the masks, then the shares of `sigma`. -/
def correctionWord (A : Aes) (g : Bool → Draws) (points : Bool → Array F3x32) (iter : ℕ) (st : Bool → Party)
    (p : Bool) : Party :=
  let corr := fun p => (st p).d.correction (points p) iter
  let mask := fun p => (st p).d.senderMask A.fixedKey (g p) (points p) (corr !p) iter
  let buffer := fun p => (st p).d.sendBuffer A.fixedKey (g p) (points p) (corr !p) iter
  let share := fun p => (st p).d.sigmaShare A.fixedKey (points p) iter (mask p) (buffer !p) (st p).z
  { st p with
    sigma := fun t i => share p t i ^^^ share (!p) t i
    d := { (st p).d with mOtIdx := (st p).d.mOtIdx + (st p).d.mNumPoints * 2 } }

def iteration (A : Aes) (g : Bool → Draws) (points : Bool → Array F3x32) (iter : ℕ) (st : Bool → Party) :
    Bool → Party := fun p => nextLevel A iter (correctionWord A g points iter st p)

/-- `expand` of both parties, with what `output` is called with at each tree and leaf. -/
def expand (A : Aes) (g : Bool → Draws) (d : Bool → TernaryDpf) (points : Bool → Array F3x32)
    (values : Bool → Array Block) : Except Err (Bool → Rows (Block × BitVec 8)) := do
  (d false).checkSizes (points false) (values false)
  (d true).checkSizes (points true) (values true)
  if (d false).mDomain ≠ (d true).mDomain ∨ (d false).mNumPoints ≠ (d true).mNumPoints ∨
      (values false).size ≠ (values true).size then .error .blocked
  else if (d false).mDomain = 1 then .ok fun p => (d p).trivialOutput (g p) (values p)
  else do
    (d false).checkPoints (points false)
    (d true).checkPoints (points true)
    let st := Loop.run (d false).mDepth (fun t st => iteration A g points (t + 1) st) fun p => (d p).firstLevel (g p)
    let lv := fun p => leaves A (st p) (g p).memory
    if (values false).size ≠ 0 then
      .ok fun p => (d p).valueOutput (lv p) (gamma (lv p) (values p) (diff (lv !p) (values !p)))
    else .ok fun p => (d p).randomOutput (lv p)

end TernaryDpf
end ExtFieldPcg
