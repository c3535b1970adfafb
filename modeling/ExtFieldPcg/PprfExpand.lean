import ExtFieldPcg.CoeffCtx
import ExtFieldPcg.PprfTree

/-! The expansion of the punctured PRF on both sides (`expand` and `expandOne` of `Tools/Pprf/RegularPprf.h`). Eight
    trees are expanded at a time, lane by lane. -/

open Buffer

namespace ExtFieldPcg

/-! ### What both parties compute with -/

/-- A context with the bytes of its elements. -/
structure PprfCtx (F : Type) extends CoeffCtx F where
  byteSize : ℕ
  /-- Byte `i` of an element. -/
  toBytes : F → ℕ → BitVec 8
  ofBytes : (ℕ → BitVec 8) → F

/-- The AES functions of the expansion. -/
structure PprfAes where
  /-- `mAesFixedKey.ecbEncBlock`. -/
  ecbEncBlock : Block → Block
  /-- `AES::roundEnc`. -/
  roundEnc : Block → Block → Block
  /-- `gGgmAes[keep].ecbEncBlock`. -/
  ggm : Bool → Block → Block
  /-- Byte `i` that a `PRNG` of this seed gives. -/
  prng : Block → ℕ → BitVec 8
deriving Inhabited

namespace PprfAes

/-- `mAesFixedKey.ecbEncCounterMode(baseIdx, …)`, block `i`. -/
def ecbEncCounterMode (A : PprfAes) (baseIdx : Block) (i : ℕ) : Block :=
  A.ecbEncBlock (baseIdx.addEpi64 (block 0 (BitVec.ofNat 64 i)))

/-- `gGgmAes[keep].hashBlock`. -/
def hashBlock (A : PprfAes) (keep : Bool) (x : Block) : Block := A.ggm keep x ^^^ x

/-- The roots of eight trees from `treeIdx` on. -/
def roots (A : PprfAes) (aesSeed : Block) (treeIdx : ℕ) (i : Fin 8) : Block :=
  A.ecbEncCounterMode (aesSeed ^^^ block 0 (BitVec.ofNat 64 treeIdx)) i

/-- The two children of an inner node. -/
def child (A : PprfAes) (keep : Bool) (parent : Block) : Block :=
  if keep then (A.ecbEncBlock parent).addEpi64 parent else A.roundEnc (A.ecbEncBlock parent) parent

end PprfAes

/-- One value for each of eight trees, `AlignedArray<block, 8>` for blocks. -/
abbrev Lanes (α : Type) := Fin 8 → α

def lane (i : ℕ) : Fin 8 := Fin.ofNat 8 i

/-- Entry `b` of an array of two. -/
def pick {α : Type} (p : α × α) (b : Bool) : α := if b then p.2 else p.1

/-- `level[i][j] = v` for a level that starts at `start`. -/
def setLane (mem : Array (Lanes Block)) (start i j : ℕ) (v : Block) : Array (Lanes Block) :=
  write mem (start + i) (Function.update (read mem (start + i)) (lane j) v)

namespace Pprf

inductive PprfOutputFormat where
  | byLeafIndex
  | byTreeIndex
  | interleaved
deriving DecidableEq

/-- What the sender writes for a number of trees. -/
structure ExpandBuffer where
  sums : Array (Block × Block)
  leafMsgs : Array (BitVec 8)
deriving Inhabited

variable {F : Type} [Inhabited F] (A : PprfAes) (ctx : PprfCtx F)

/-- `allocateExpandBuffer(depth, numTrees, programPuncturedPoint, …)`. -/
def allocateExpandBuffer (depth numTrees : ℕ) (programPuncturedPoint : Bool) : ExpandBuffer :=
  ⟨Array.replicate (depth * numTrees) default,
    Array.replicate (ctx.byteSize * numTrees * 2 + ctx.byteSize * numTrees * 2 * programPuncturedPoint.toNat) 0⟩

/-- `validateExpandFormat(oFormat, output, domain, pntCount)`. -/
def validateFormat (oFormat : PprfOutputFormat) (outputSize domain pntCount : ℕ) : Except Err Unit :=
  if oFormat = .interleaved then validateExpandFormat outputSize domain pntCount
  else if outputSize ≠ domain * pntCount then .error .rteLoc
  else .ok ()

/-- `copyOut(leaf, output, totalTrees, treeIndex, oFormat, …)`. -/
def copyOut (leaf output : Array F) (totalTrees treeIndex : ℕ) (oFormat : PprfOutputFormat) : Except Err (Array F) :=
  let curSize := min (totalTrees - treeIndex) 8
  let domain := leaf.size / 8
  match oFormat with
  | .byLeafIndex => .ok (Loop.run domain (fun leafIndex output => Loop.run curSize (fun j output =>
      write output (totalTrees * leafIndex + treeIndex + j) (read leaf (leafIndex * 8 + j))) output) output)
  | .byTreeIndex => .ok (Loop.run domain (fun leafIndex output => Loop.run curSize (fun j output =>
      write output ((treeIndex + j) * domain + leafIndex) (read leaf (leafIndex * 8 + j))) output) output)
  | .interleaved => .error .rteLoc

/-- The bytes of one leaf message. -/
def messageSize (programPuncturedPoint : Bool) : ℕ := (if programPuncturedPoint then 2 else 1) * ctx.byteSize

/-- `serialize(xs.begin(), xs.end(), …)`, byte `i`. -/
def serialize (xs : Array F) (i : ℕ) : BitVec 8 := ctx.toBytes (read xs (i / ctx.byteSize)) (i % ctx.byteSize)

/-- Element `e` that `deserialize` reads. -/
def deserialize (bytes : ℕ → BitVec 8) (e : ℕ) : F := ctx.ofBytes fun i => bytes (e * ctx.byteSize + i)

/-- What `expand` keeps from one call of `expandOne` to the next. -/
structure ExpandState (F : Type) where
  mem : Array (Lanes Block)
  leafLevel : Array F
  output : Array F
  buff : ExpandBuffer
  encOffset : ℕ
  leafOffset : ℕ
  /-- What the sender has sent, and what the receiver has still to receive. -/
  chl : List ExpandBuffer

/-- What fresh memory holds. -/
structure Scratch (F : Type) where
  mem : ℕ → Lanes Block
  leaf : ℕ → F

/-- The state before the first eight trees. -/
def ExpandState.start (scratch : Scratch F) (size mDomain : ℕ) (output : Array F) (buff : ExpandBuffer)
    (chl : List ExpandBuffer) : ExpandState F :=
  ⟨Array.ofFn fun i : Fin size => scratch.mem i, Array.ofFn fun i : Fin (mDomain * 8) => scratch.leaf i, output, buff, 0, 0, chl⟩

/-- `*leafLevelPtr` and `leafIndex`. -/
def ExpandState.target (st : ExpandState F) (oFormat : PprfOutputFormat) (mDomain treeIndex : ℕ) : Array F × ℕ :=
  if oFormat = .interleaved then (st.output, treeIndex * mDomain) else (st.leafLevel, 0)

/-- The leaves of eight trees go to the output, unless they are there. -/
def ExpandState.store (st : ExpandState F) (oFormat : PprfOutputFormat) (mPntCount treeIndex : ℕ) (leaf : Array F) :
    Except Err (ExpandState F) :=
  if oFormat = .interleaved then .ok { st with output := leaf }
  else do
    let output ← copyOut leaf st.output mPntCount treeIndex oFormat
    .ok { st with leafLevel := leaf, output := output }

/-- The offsets after `min` more trees of the `numTrees` that a buffer is for. -/
def ExpandState.advance (st : ExpandState F) (mDepth numTrees min : ℕ) (programPuncturedPoint : Bool) : ExpandState F :=
  let alloc := allocateExpandBuffer ctx (mDepth - 1) numTrees programPuncturedPoint
  let encStepSize := alloc.sums.size / numTrees
  let leafStepSize := alloc.leafMsgs.size / numTrees
  { st with encOffset := st.encOffset + encStepSize * min, leafOffset := st.leafOffset + leafStepSize * min }

/-! ### Levels -/

/-- The loop of both parties over one level: the children of its first `width` nodes, and their sums on either side. -/
def expandLevel (width src dst : ℕ) (st : Array (Lanes Block) × Lanes Block × Lanes Block) :
    Array (Lanes Block) × Lanes Block × Lanes Block :=
  Loop.run width (fun parentIdx st =>
    let parent := read st.1 (src + parentIdx)
    let child0 : Lanes Block := fun i => A.child false (parent i)
    let child1 : Lanes Block := fun i => A.child true (parent i)
    (write (write st.1 (dst + 2 * parentIdx) child0) (dst + 2 * parentIdx + 1) child1,
      (fun i => st.2.1 i ^^^ child0 i), fun i => st.2.2 i ^^^ child1 i)) st

/-- The leaves and their sums on either side. -/
structure LeafState (F : Type) where
  out : Array F
  sum0 : Lanes F
  sum1 : Lanes F

/-- The leaf `childIdx` of eight trees. -/
def hashLeaf (leafOffset childIdx : ℕ) (keep : Bool) (parent : Lanes Block) (out : Array F) : Array F :=
  Loop.run 8 (fun i out => write out (leafOffset + childIdx * 8 + i) (ctx.fromBlock (A.hashBlock keep (parent (lane i))))) out

def addLeaf (leafOffset childIdx : ℕ) (out : Array F) (sum : Lanes F) : Lanes F :=
  fun i => ctx.plus (sum i) (read out (leafOffset + childIdx * 8 + i))

/-- The loop of both parties over the last level in memory. -/
def expandLeaves (width src leafOffset : ℕ) (mem : Array (Lanes Block)) (st : LeafState F) : LeafState F :=
  Loop.run width (fun parentIdx st =>
    let parent := read mem (src + parentIdx)
    let out := hashLeaf A ctx leafOffset (2 * parentIdx) false parent st.out
    let sum0 := addLeaf ctx leafOffset (2 * parentIdx) out st.sum0
    let out := hashLeaf A ctx leafOffset (2 * parentIdx + 1) true parent out
    ⟨out, sum0, addLeaf ctx leafOffset (2 * parentIdx + 1) out st.sum1⟩) st

end Pprf

/-! ### The sender -/

namespace RegularPprf
open Pprf
variable {F : Type} [Inhabited F] (A : PprfAes) (ctx : PprfCtx F)

/-- `mBaseOTs(i, k)`. -/
def baseOt {β : Type} [Inhabited β] (g : RegularPprf β) (i k : ℕ) : β := read g.mBaseOTs (i * g.mDepth + k)

/-- `setValue(value)`: `mValue`. -/
def setValue (g : RegularPprf (Block × Block)) (value : Array F) : Except Err (Array F) :=
  if value.size = 1 then .ok (Array.replicate g.mPntCount (read value 0))
  else if value.size ≠ g.mPntCount then .error .rteLoc
  else .ok value

/-- `if (programPuncturedPoint) setValue(value)`. -/
def programValue (g : RegularPprf (Block × Block)) (programPuncturedPoint : Bool) (value : Array F) : Except Err (Array F) :=
  if programPuncturedPoint then g.setValue value else .ok #[]

/-- One round of the loop over the inner levels: the children of level `d`, and their sums under the base OTs. -/
def sendLevel (g : RegularPprf (Block × Block)) (treeIdx remTrees encOffset : ℕ) (levels : Array Span) (d : ℕ)
    (st : Array (Lanes Block) × Array (Block × Block)) : Array (Lanes Block) × Array (Block × Block) :=
  let level := expandLevel A (width g.mDomain g.mDepth d) (read levels d).start (read levels (d + 1)).start (st.1, 0, 0)
  (level.1, Loop.run remTrees (fun j sums =>
    let ot := g.baseOt (treeIdx + j) (g.mDepth - 1 - d)
    write sums (encOffset + d * remTrees + j) (level.2.1 (lane j) ^^^ ot.2, level.2.2 (lane j) ^^^ ot.1)) st.2)

/-- The elements of message `k` for a tree with the leaf sums `s0` and `s1` and the value `val`. -/
def leafOts (programPuncturedPoint : Bool) (s0 s1 val : F) (k : Bool) : Array F :=
  match programPuncturedPoint, k with
  | true, false => #[s0, ctx.plus s1 val]
  | true, true => #[ctx.plus s0 val, s1]
  | false, k => #[pick (s0, s1) k]

/-- The loops over `j` and `k` that write the leaf messages under the base OTs. -/
def sendLeaves (g : RegularPprf (Block × Block)) (mValue : Array F) (treeIdx remTrees leafMsgOffset : ℕ)
    (programPuncturedPoint : Bool) (leaves : LeafState F) (leafMsgs : Array (BitVec 8)) : Array (BitVec 8) :=
  Loop.run remTrees (fun j leafMsgs => Loop.run 2 (fun k leafMsgs =>
    let ots := leafOts ctx programPuncturedPoint (leaves.sum0 (lane j)) (leaves.sum1 (lane j)) (read mValue (treeIdx + j))
      (k == 1)
    let key := pick (g.baseOt (treeIdx + j) 0) (k == 0)
    Loop.run (messageSize ctx programPuncturedPoint) (fun i leafMsgs =>
      write leafMsgs (leafMsgOffset + ((j * 2 + k) * messageSize ctx programPuncturedPoint + i))
        (serialize ctx ots i ^^^ A.prng key i)) leafMsgs) leafMsgs) leafMsgs

/-- `expandOne(aesSeed, treeIdx, …)`: the memory of the trees, the leaves and the buffer after it. -/
def expandOne (g : RegularPprf (Block × Block)) (mValue : Array F) (aesSeed : Block) (treeIdx : ℕ)
    (programPuncturedPoint : Bool) (levels : Array Span) (leafOffset encOffset leafMsgOffset : ℕ)
    (mem : Array (Lanes Block)) (leafLevel : Array F) (buff : ExpandBuffer) :
    Array (Lanes Block) × Array F × ExpandBuffer :=
  let remTrees := min 8 (g.mPntCount - treeIdx)
  let mem := write mem (read levels 0).start (A.roots aesSeed treeIdx)
  let inner := Loop.run (g.mDepth - 1) (sendLevel A g treeIdx remTrees encOffset levels) (mem, buff.sums)
  let d := g.mDepth - 1
  let leaves := expandLeaves A ctx (width g.mDomain g.mDepth d) (read levels d).start leafOffset inner.1
    ⟨leafLevel, fun _ => ctx.zero, fun _ => ctx.zero⟩
  (inner.1, leaves.out,
    ⟨inner.2, sendLeaves A ctx g mValue treeIdx remTrees leafMsgOffset programPuncturedPoint leaves buff.leafMsgs⟩)

/-- One round of the loop over the trees in `expand`. -/
def expandBatch (g : RegularPprf (Block × Block)) (mValue : Array F) (seed : Block) (oFormat : PprfOutputFormat)
    (programPuncturedPoint mEagerSend : Bool) (levels : Array Span) (b : ℕ) (st : ExpandState F) :
    Except Err (ExpandState F) :=
  let treeIndex := 8 * b
  let min := min 8 (g.mPntCount - treeIndex)
  let st := if mEagerSend then { st with
      buff := allocateExpandBuffer ctx (g.mDepth - 1) min programPuncturedPoint, encOffset := 0, leafOffset := 0 } else st
  let target := st.target oFormat g.mDomain treeIndex
  let one := g.expandOne A ctx mValue seed treeIndex programPuncturedPoint levels target.2 st.encOffset st.leafOffset st.mem
    target.1 st.buff
  let st := st.advance ctx g.mDepth (if mEagerSend then min else g.mPntCount) min programPuncturedPoint
  let st := { st with mem := one.1, buff := one.2.2, chl := if mEagerSend then st.chl ++ [one.2.2] else st.chl }
  st.store oFormat g.mPntCount treeIndex one.2.1

/-- `expand(chl, value, seed, output, oFormat, programPuncturedPoint, …)`: the object after it, the output and what
    is sent. -/
def expand (g : RegularPprf (Block × Block)) (value : Array F) (seed : Block) (output : Array F)
    (oFormat : PprfOutputFormat) (programPuncturedPoint mEagerSend : Bool) (scratch : Scratch F) :
    Except Err (RegularPprf (Block × Block) × Array F × List ExpandBuffer) := do
  let mValue ← g.programValue programPuncturedPoint value
  validateFormat oFormat output.size g.mDomain g.mPntCount
  let tree ← allocateExpandTree (lastLevel g.mDomain)
  let buff := if mEagerSend then default else allocateExpandBuffer ctx (g.mDepth - 1) g.mPntCount programPuncturedPoint
  let st ← Loop.tryRun (divCeil g.mPntCount 8)
    (g.expandBatch A ctx mValue seed oFormat programPuncturedPoint mEagerSend tree.2)
    (ExpandState.start scratch tree.1 g.mDomain output buff [])
  .ok ({ g with mBaseOTs := #[] }, st.output, if mEagerSend then st.chl else st.chl ++ [st.buff])

end RegularPprf

/-! ### The receiver -/

namespace RegularPprfReceiver
open Pprf
variable {F : Type} [Inhabited F] (A : PprfAes) (ctx : PprfCtx F)

/-- The special case of the first level. -/
def firstLevel (g : RegularPprfReceiver) (treeIdx remTrees encOffset : ℕ) (levels : Array Span)
    (theirSums : Array (Block × Block)) (mem : Array (Lanes Block)) : Array (Lanes Block) :=
  let l1 := (read levels 1).start
  Loop.run remTrees (fun i mem =>
    let active := g.mBaseChoices (i + treeIdx) (g.mDepth - 1)
    let mem := setLane mem l1 (!active).toNat i
      (g.baseOt (i + treeIdx) (g.mDepth - 1) ^^^ pick (read theirSums (encOffset + i)) (!active))
    setLane mem l1 active.toNat i 0) mem

/-- One round of the loop over the other inner levels: all nodes are expanded, then each path is corrected. -/
def recvLevel (g : RegularPprfReceiver) (treeIdx remTrees encOffset : ℕ) (levels : Array Span)
    (theirSums : Array (Block × Block)) (d : ℕ) (mem : Array (Lanes Block)) : Array (Lanes Block) :=
  let inactiveChildValues := (A.roundEnc (A.ecbEncBlock 0) 0, A.ecbEncBlock 0)
  let level1 := (read levels (d + 1)).start
  let level := expandLevel A (width g.mDomain g.mDepth d) (read levels d).start level1
    (mem, fun _ => inactiveChildValues.1, fun _ => inactiveChildValues.2)
  Loop.run remTrees (fun i mem =>
    let leafIdx := g.leafPoint (i + treeIdx)
    let missingChildIdx := leafIdx >>> (g.mDepth - 1 - d)
    let siblingIdx := missingChildIdx ^^^ 1
    let notAi := siblingIdx.testBit 0
    let mem := setLane mem level1 siblingIdx i (pick (read theirSums (encOffset + d * remTrees + i)) notAi ^^^
      pick level.2 notAi (lane i) ^^^ g.baseOt (i + treeIdx) (g.mDepth - 1 - d))
    setLane mem level1 missingChildIdx i 0) level.1

/-- The sum that the loop over the leaves starts from: the leaf under the zero block cancels. -/
def inactiveLeaf (keep : Bool) : F := ctx.minus ctx.zero (ctx.fromBlock (A.hashBlock keep 0))

/-- The leaves on the path of tree `j`, from the message that its lowest choice bit opens. -/
def recvLeaf (g : RegularPprfReceiver) (treeIdx outputOffset leafMsgOffset : ℕ) (programPuncturedPoint : Bool)
    (leafMsg : Array (BitVec 8)) (sum0 sum1 : Lanes F) (j : ℕ) (leafLevel : Array F) : Array F :=
  let activeChildIdx := g.leafPoint (j + treeIdx)
  let inactiveChildIdx := activeChildIdx ^^^ 1
  let notAi := inactiveChildIdx.testBit 0
  let offset := leafMsgOffset + (j * 2 + notAi.toNat) * messageSize ctx programPuncturedPoint
  let leafOts := deserialize ctx fun i => read leafMsg (offset + i) ^^^ A.prng (g.baseOt (j + treeIdx) 0) i
  -- `activeChildIdx & ~1` and `activeChildIdx | 1`
  let out := (activeChildIdx / 2 * 2 * 8 + j + outputOffset, (activeChildIdx / 2 * 2 + 1) * 8 + j + outputOffset)
  if programPuncturedPoint then
    let leafLevel := write leafLevel out.1 (ctx.minus (leafOts 0) (sum0 (lane j)))
    write leafLevel out.2 (ctx.minus (leafOts 1) (sum1 (lane j)))
  else
    let leafLevel := write leafLevel (pick out notAi) (ctx.minus (leafOts 0) (pick (sum0, sum1) notAi (lane j)))
    write leafLevel (pick out (!notAi)) ctx.zero

/-- `expandOne(treeIdx, …)`: the memory of the trees and the leaves after it. -/
def expandOne (g : RegularPprfReceiver) (treeIdx : ℕ) (programPuncturedPoint : Bool) (levels : Array Span)
    (outputOffset encOffset leafMsgOffset : ℕ) (buff : ExpandBuffer) (mem : Array (Lanes Block)) (leafLevel : Array F) :
    Array (Lanes Block) × Array F :=
  let remTrees := min 8 (g.mPntCount - treeIdx)
  let inner :=
    if g.mDepth > 1 then
      let mem := firstLevel g treeIdx remTrees encOffset levels buff.sums mem
      let mem := Loop.run (g.mDepth - 2) (fun k => recvLevel A g treeIdx remTrees encOffset levels buff.sums (k + 1)) mem
      let d := g.mDepth - 1
      (mem, expandLeaves A ctx (width g.mDomain g.mDepth d) (read levels d).start outputOffset mem
        ⟨leafLevel, fun _ => inactiveLeaf A ctx false, fun _ => inactiveLeaf A ctx true⟩)
    else (mem, ⟨leafLevel, fun _ => ctx.zero, fun _ => ctx.zero⟩)
  (inner.1, Loop.run remTrees (recvLeaf A ctx g treeIdx outputOffset leafMsgOffset programPuncturedPoint buff.leafMsgs
    inner.2.sum0 inner.2.sum1) inner.2.out)

/-- One round of the loop over the trees in `expand`. -/
def expandBatch (g : RegularPprfReceiver) (oFormat : PprfOutputFormat) (programPuncturedPoint mEagerSend : Bool)
    (levels : Array Span) (b : ℕ) (st : ExpandState F) : Except Err (ExpandState F) := do
  let treeIndex := 8 * b
  let min := min 8 (g.mPntCount - treeIndex)
  let st ← match mEagerSend, st.chl with
    | false, _ => .ok st
    | true, [] => .error .blocked
    | true, buff :: chl => .ok { st with buff := buff, encOffset := 0, leafOffset := 0, chl := chl }
  let target := st.target oFormat g.mDomain treeIndex
  let one := g.expandOne A ctx treeIndex programPuncturedPoint levels target.2 st.encOffset st.leafOffset st.buff st.mem
    target.1
  let st := st.advance ctx g.mDepth (if mEagerSend then min else g.mPntCount) min programPuncturedPoint
  { st with mem := one.1 }.store oFormat g.mPntCount treeIndex one.2

/-- `expand(chl, output, oFormat, programPuncturedPoint, …)` when `chl` holds what is sent: the object after it and
    the output. -/
def expand (g : RegularPprfReceiver) (chl : List ExpandBuffer) (output : Array F) (oFormat : PprfOutputFormat)
    (programPuncturedPoint mEagerSend : Bool) (scratch : Scratch F) : Except Err (RegularPprfReceiver × Array F) := do
  validateFormat oFormat output.size g.mDomain g.mPntCount
  let tree ← allocateExpandTree (lastLevel g.mDomain)
  let st ← match mEagerSend, chl with
    | true, _ => .ok (ExpandState.start scratch tree.1 g.mDomain output default chl)
    | false, [] => .error .blocked
    | false, buff :: chl => .ok (ExpandState.start scratch tree.1 g.mDomain output buff chl)
  let st ← Loop.tryRun (divCeil g.mPntCount 8) (g.expandBatch A ctx oFormat programPuncturedPoint mEagerSend tree.2) st
  .ok ({ g with mBaseOTs := #[] }, st.output)

end RegularPprfReceiver

/-- Both parties expand, on outputs of their own. -/
def Pprf.run {F : Type} [Inhabited F] (A : PprfAes) (ctx : PprfCtx F) (gr : RegularPprfReceiver)
    (gs : RegularPprf (Block × Block)) (value : Array F) (seed : Block) (oFormat : PprfOutputFormat)
    (programPuncturedPoint mEagerSend : Bool) (output : Array F × Array F) (scratch : Scratch F × Scratch F) :
    Except Err (Array F × Array F) := do
  let send ← gs.expand A ctx value seed output.2 oFormat programPuncturedPoint mEagerSend scratch.2
  let recv ← gr.expand A ctx send.2.2 output.1 oFormat programPuncturedPoint mEagerSend scratch.1
  .ok (recv.2, send.2.1)

end ExtFieldPcg
