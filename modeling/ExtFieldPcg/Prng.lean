import ExtFieldPcg.Block
import ExtFieldPcg.Lib.Buffer

/-! The generator `PRNG` of cryptoTools: AES in counter mode, read through a buffer. However it is read, it gives the
    bytes of the key stream one after the other. -/

open Buffer

namespace ExtFieldPcg

/-! ### The code -/

/-- `AES::ecbEncCounterMode(baseIdx, ciphertext)`, eight blocks at a time. -/
def ecbEncCounterMode (enc : Block → Block) (baseIdx : Block) (ciphertext : Array Block) : Array Block :=
  let encBlocks (idx n : ℕ) (out : Array Block) := Loop.run n (fun j out =>
    write out (idx + j) (enc (baseIdx.addEpi64 (block 0 (BitVec.ofNat 64 (idx + j)))))) out
  let blocks := ciphertext.size / 8
  encBlocks (8 * blocks) (ciphertext.size % 8) (Loop.run blocks (fun i out => encBlocks (8 * i) 8 out) ciphertext)

structure Prng where
  mBuffer : Array Block := #[]
  key : Block := 0
  mBytesIdx : ℕ := 0
  mBlockIdx : ℕ := 0
  mBufferByteCapacity : ℕ := 0

namespace Prng

/-- Byte `k` of the memory of `mBuffer`. -/
def byte (p : Prng) (k : ℕ) : BitVec 8 := (read p.mBuffer (k / 16)).toBytes (k % 16)

/-- The bytes that `memcpy` takes. -/
def take (p : Prng) (n : ℕ) : List (BitVec 8) × Prng :=
  ((List.range n).map fun k => p.byte (p.mBytesIdx + k), { p with mBytesIdx := p.mBytesIdx + n })

section Code
variable (aes : Block → Block → Block)

/-- `none` is "PRNG has not been keyed ". -/
def refillBuffer (p : Prng) : Option Prng :=
  if p.mBuffer.size = 0 then none
  else some { p with
    mBuffer := ecbEncCounterMode (aes p.key) (block 0 (BitVec.ofNat 64 p.mBlockIdx)) p.mBuffer
    mBlockIdx := p.mBlockIdx + p.mBuffer.size
    mBytesIdx := 0 }

def setSeed (p : Prng) (b : Block) (bufferSize : ℕ) : Option Prng :=
  refillBuffer aes <|
    if p.mBuffer.size = 0 then { p with
      key := b
      mBlockIdx := 0
      mBuffer := Array.replicate bufferSize default
      mBufferByteCapacity := 16 * bufferSize % 2 ^ 64 }
    else { p with key := b, mBlockIdx := 0 }

/-- Eight blocks that pass the buffer by. -/
def direct (p : Prng) : List (BitVec 8) × Prng :=
  let b := ecbEncCounterMode (aes p.key) (block 0 (BitVec.ofNat 64 p.mBlockIdx)) (Array.replicate 8 default)
  ((List.range 128).map fun k => (read b (k / 16)).toBytes (k % 16), { p with mBlockIdx := p.mBlockIdx + 8 })

def implGetLoop : ℕ → ℕ → List (BitVec 8) × Prng → Option (List (BitVec 8) × Prng)
  | _, 0, st => some st
  | 0, _ + 1, _ => none
  | fuel + 1, lengthu8 + 1, (dest, p) =>
    let step := min (lengthu8 + 1) (p.mBufferByteCapacity - p.mBytesIdx)
    let dest := dest ++ (p.take step).1
    let p := (p.take step).2
    let rest := lengthu8 + 1 - step
    if p.mBytesIdx = p.mBufferByteCapacity then do
      let st := Loop.run (rest / 128) (fun _ st => (st.1 ++ (direct aes st.2).1, (direct aes st.2).2)) (dest, p)
      let p ← st.2.refillBuffer aes
      implGetLoop fuel (rest % 128) (st.1, p)
    else implGetLoop fuel rest (dest, p)

/-- Each round of its loop but the first takes a byte. -/
def implGet (p : Prng) (lengthu8 : ℕ) : Option (List (BitVec 8) × Prng) := implGetLoop aes (lengthu8 + 1) lengthu8 ([], p)

/-- `get<T>()` for a type of `size` bytes. -/
def get (p : Prng) (size : ℕ) : Option (List (BitVec 8) × Prng) :=
  if size ≤ p.mBufferByteCapacity - p.mBytesIdx then some (p.take size) else p.implGet aes size

def getBufferSpan (p : Prng) (maxSize : ℕ) : Option (List (BitVec 8) × Prng) := do
  let full := if p.mBytesIdx = p.mBufferByteCapacity then p.refillBuffer aes else some p
  let p ← full
  some (p.take (min maxSize (p.mBufferByteCapacity - p.mBytesIdx)))

inductive Request where
  | get (size : ℕ)
  /-- `get(dest, length)`, in bytes. -/
  | fill (length : ℕ)
  | getBufferSpan (maxSize : ℕ)

def serve (p : Prng) : Request → Option (List (BitVec 8) × Prng)
  | .get size => p.get aes size
  | .fill length => p.implGet aes length
  | .getBufferSpan maxSize => p.getBufferSpan aes maxSize

def run : List Request → Prng → Option (List (List (BitVec 8)) × Prng)
  | [], p => some ([], p)
  | r :: rest, p => do
    let one ← p.serve aes r
    let run ← run rest one.2
    some (one.1 :: run.1, run.2)

end Code

/-! ### The key stream -/

/-- Byte `i` of AES in counter mode. -/
def keystream (aes : Block → Block → Block) (seed : Block) (i : ℕ) : BitVec 8 :=
  (aes seed (block 0 (BitVec.ofNat 64 (i / 16)))).toBytes (i % 16)

/-- The `n` bytes from `pos` on. -/
def stream (aes : Block → Block → Block) (seed : Block) (pos n : ℕ) : List (BitVec 8) :=
  (List.range n).map fun k => keystream aes seed (pos + k)

variable {aes : Block → Block → Block} {seed : Block} {pos n : ℕ} {p : Prng}

@[simp] theorem length_stream : (stream aes seed pos n).length = n := by simp [stream]

@[simp] theorem stream_zero : stream aes seed pos 0 = [] := rfl

theorem stream_add (a b : ℕ) : stream aes seed pos (a + b) = stream aes seed pos a ++ stream aes seed (pos + a) b := by
  simp only [stream, List.range_add, List.map_append, List.map_map]
  refine congrArg _ (List.map_congr_left fun k _ => ?_)
  rw [Function.comp_apply, Nat.add_assoc]

theorem ecbEncCounterMode_spec (enc : Block → Block) (base : ℕ) (ciphertext : Array Block) :
    let out := ecbEncCounterMode enc (block 0 (BitVec.ofNat 64 base)) ciphertext
    out.size = ciphertext.size ∧
      ∀ i < ciphertext.size, read out i = enc (block 0 (BitVec.ofNat 64 (base + i))) := by
  have hcounter (i : ℕ) : (block 0 (BitVec.ofNat 64 base)).addEpi64 (block 0 (BitVec.ofNat 64 i)) =
      block 0 (BitVec.ofNat 64 (base + i)) := by
    rw [Block.addEpi64, Block.hi64_block, Block.hi64_block, Block.lo64_block, Block.lo64_block, BitVec.ofNat_add]
    rfl
  have hflat : ecbEncCounterMode enc (block 0 (BitVec.ofNat 64 base)) ciphertext =
      Loop.run ciphertext.size (fun i out => write out i (enc (block 0 (BitVec.ofNat 64 (base + i))))) ciphertext := by
    simp only [ecbEncCounterMode, hcounter]
    have hrows := Loop.run_nested (ciphertext.size / 8) 8
      (fun i j out => write out (8 * i + j) (enc (block 0 (BitVec.ofNat 64 (base + (8 * i + j)))))) ciphertext
    rw [hrows]
    have hcell : ∀ x < ciphertext.size / 8 * 8, ∀ out : Array Block,
        write out (8 * (x / 8) + x % 8) (enc (block 0 (BitVec.ofNat 64 (base + (8 * (x / 8) + x % 8))))) =
          write out x (enc (block 0 (BitVec.ofNat 64 (base + x)))) := fun x _ out => by rw [Nat.div_add_mod]
    rw [Loop.run_congr hcell, mul_comm 8, ← Loop.run_add (ciphertext.size / 8 * 8) (ciphertext.size % 8)
      (fun i out => write out i (enc (block 0 (BitVec.ofNat 64 (base + i))))) ciphertext, Nat.div_add_mod']
  rw [hflat]
  exact read_run_write _ le_rfl

/-- The generator has given the bytes before `pos`, and holds those that follow. -/
structure At (aes : Block → Block → Block) (seed : Block) (pos : ℕ) (p : Prng) : Prop where
  key : p.key = seed
  keyed : 0 < p.mBuffer.size
  capacity : p.mBufferByteCapacity = 16 * p.mBuffer.size
  bytesIdx : p.mBytesIdx ≤ p.mBufferByteCapacity
  blockIdx : pos + (p.mBufferByteCapacity - p.mBytesIdx) = 16 * p.mBlockIdx
  bytes : ∀ k < p.mBufferByteCapacity - p.mBytesIdx, p.byte (p.mBytesIdx + k) = keystream aes seed (pos + k)

theorem At.take (A : At aes seed pos p) (h : n ≤ p.mBufferByteCapacity - p.mBytesIdx) :
    (p.take n).1 = stream aes seed pos n ∧ At aes seed (pos + n) (p.take n).2 := by
  have hle := A.bytesIdx
  have hblock := A.blockIdx
  refine ⟨List.map_congr_left fun k hk => A.bytes k ((List.mem_range.mp hk).trans_le h), A.key, A.keyed, A.capacity, ?_, ?_,
    fun k hk => ?_⟩
  · show p.mBytesIdx + n ≤ p.mBufferByteCapacity
    omega
  · show pos + n + (p.mBufferByteCapacity - (p.mBytesIdx + n)) = 16 * p.mBlockIdx
    omega
  · have hk : k < p.mBufferByteCapacity - (p.mBytesIdx + n) := hk
    have hbyte := A.bytes (n + k) (by omega)
    rw [← Nat.add_assoc, ← Nat.add_assoc] at hbyte
    exact hbyte

/-- The buffer has run out at `pos`. -/
structure Drained (seed : Block) (pos : ℕ) (p : Prng) : Prop where
  key : p.key = seed
  keyed : 0 < p.mBuffer.size
  capacity : p.mBufferByteCapacity = 16 * p.mBuffer.size
  blockIdx : pos = 16 * p.mBlockIdx

theorem At.drained (A : At aes seed pos p) (h : p.mBytesIdx = p.mBufferByteCapacity) : Drained seed pos p := by
  have hblock := A.blockIdx
  rw [h, Nat.sub_self, Nat.add_zero] at hblock
  exact ⟨A.key, A.keyed, A.capacity, hblock⟩

theorem keystream_block (b k : ℕ) :
    keystream aes seed (16 * b + k) = (aes seed (block 0 (BitVec.ofNat 64 (b + k / 16)))).toBytes (k % 16) := by
  rw [keystream, Nat.mul_add_div (by decide), Nat.mul_add_mod]

theorem Drained.refillBuffer (D : Drained seed pos p) (aes : Block → Block → Block) :
    ∃ p', p.refillBuffer aes = some p' ∧ At aes seed pos p' ∧ p'.mBytesIdx < p'.mBufferByteCapacity := by
  obtain ⟨hsize, hread⟩ := ecbEncCounterMode_spec (aes p.key) p.mBlockIdx p.mBuffer
  have hkeyed := D.keyed
  have hcapacity := D.capacity
  have hblock := D.blockIdx
  refine ⟨_, if_neg hkeyed.ne', ⟨D.key, hkeyed.trans_eq hsize.symm, ?_, Nat.zero_le _, ?_, fun k hk => ?_⟩, ?_⟩
  · exact hcapacity.trans (congrArg (16 * ·) hsize.symm)
  · show pos + (p.mBufferByteCapacity - 0) = 16 * (p.mBlockIdx + p.mBuffer.size)
    omega
  · have hk : k < p.mBufferByteCapacity - 0 := hk
    rw [byte, hblock, keystream_block, Nat.zero_add, hread (k / 16) (by omega), D.key]
  · show 0 < p.mBufferByteCapacity
    omega

theorem Drained.direct (D : Drained seed pos p) (aes : Block → Block → Block) :
    (direct aes p).1 = stream aes seed pos 128 ∧ Drained seed (pos + 128) (direct aes p).2 := by
  obtain ⟨-, hread⟩ := ecbEncCounterMode_spec (aes p.key) p.mBlockIdx (Array.replicate 8 (default : Block))
  rw [Array.size_replicate] at hread
  have hblock := D.blockIdx
  refine ⟨List.map_congr_left fun k hk => ?_, D.key, D.keyed, D.capacity, ?_⟩
  · have hk := List.mem_range.mp hk
    rw [hblock, keystream_block, hread _ (by omega), D.key]
  · show pos + 128 = 16 * (p.mBlockIdx + 8)
    omega

theorem Drained.run_direct (D : Drained seed pos p) (aes : Block → Block → Block) (dest : List (BitVec 8)) (m : ℕ) :
    let st := Loop.run m (fun _ st => (st.1 ++ (Prng.direct aes st.2).1, (Prng.direct aes st.2).2)) (dest, p)
    st.1 = dest ++ stream aes seed pos (128 * m) ∧ Drained seed (pos + 128 * m) st.2 := by
  refine Loop.run_induct (fun m (st : List (BitVec 8) × Prng) => st.1 = dest ++ stream aes seed pos (128 * m) ∧
    Drained seed (pos + 128 * m) st.2) ⟨(List.append_nil dest).symm, D⟩ ?_
  rintro m - st ⟨hdest, D'⟩
  obtain ⟨hbytes, D''⟩ := D'.direct aes
  rw [Nat.mul_succ, ← Nat.add_assoc]
  exact ⟨by rw [hdest, hbytes, stream_add, List.append_assoc], D''⟩

/-- The loop ends: only its first round can find the buffer empty. -/
theorem implGetLoop_ok (fuel : ℕ) : ∀ {pos n : ℕ} {p : Prng} (dest : List (BitVec 8)), At aes seed pos p →
    n + (if p.mBytesIdx < p.mBufferByteCapacity then 0 else 1) ≤ fuel →
    ∃ p', implGetLoop aes fuel n (dest, p) = some (dest ++ stream aes seed pos n, p') ∧ At aes seed (pos + n) p' := by
  induction fuel with
  | zero =>
    intro pos n p dest A hfuel
    obtain rfl : n = 0 := by omega
    exact ⟨p, by simp [implGetLoop], A⟩
  | succ fuel ih =>
    rintro pos (_ | len) p dest A hfuel
    · exact ⟨p, by simp [implGetLoop], A⟩
    · have hle := A.bytesIdx
      obtain ⟨step, hstep⟩ : ∃ step, min (len + 1) (p.mBufferByteCapacity - p.mBytesIdx) = step := ⟨_, rfl⟩
      obtain ⟨rest, hrest⟩ : ∃ rest, len + 1 - step = rest := ⟨_, rfl⟩
      obtain ⟨hbytes, A'⟩ := A.take (n := step) (by omega)
      rw [implGetLoop, hstep]
      dsimp only
      rw [hrest, hbytes]
      by_cases hempty : (p.take step).2.mBytesIdx = (p.take step).2.mBufferByteCapacity
      · obtain ⟨hdest, D⟩ := (A'.drained hempty).run_direct aes (dest ++ stream aes seed pos step) (rest / 128)
        obtain ⟨p', hp', A'', hfull⟩ := D.refillBuffer aes
        obtain ⟨p'', hp'', A₃⟩ := ih (n := rest % 128) (dest ++ stream aes seed pos step ++
          stream aes seed (pos + step) (128 * (rest / 128))) A'' (by
            have hmod := Nat.mod_le rest 128
            rw [if_pos hfull]
            split at hfuel <;> omega)
        have hlen : len + 1 = step + (128 * (rest / 128) + rest % 128) := by omega
        rw [if_pos hempty, hp', Option.bind_eq_bind, Option.bind_some, hdest, hp'', hlen, stream_add, stream_add]
        simp only [List.append_assoc, Nat.add_assoc] at A₃ ⊢
        exact ⟨p'', rfl, A₃⟩
      · have hidx : (p.take step).2.mBytesIdx = p.mBytesIdx + step := rfl
        have hcap : (p.take step).2.mBufferByteCapacity = p.mBufferByteCapacity := rfl
        obtain rfl : rest = 0 := by omega
        obtain rfl : step = len + 1 := by omega
        rw [if_neg hempty, implGetLoop]
        exact ⟨_, rfl, A'⟩

theorem At.implGet (A : At aes seed pos p) (n : ℕ) :
    ∃ p', p.implGet aes n = some (stream aes seed pos n, p') ∧ At aes seed (pos + n) p' :=
  implGetLoop_ok (n + 1) [] A (by split <;> omega)

/-- What a call asks for; a span of the buffer may be shorter. -/
def Request.Answered : Request → List (BitVec 8) → Prop
  | .get size, bytes => bytes.length = size
  | .fill length, bytes => bytes.length = length
  | .getBufferSpan maxSize, bytes => bytes.length ≤ maxSize ∧ (0 < maxSize → bytes ≠ [])

theorem At.serve (A : At aes seed pos p) (r : Request) : ∃ n p', p.serve aes r = some (stream aes seed pos n, p') ∧
    At aes seed (pos + n) p' ∧ r.Answered (stream aes seed pos n) := by
  cases r with
  | get size =>
    by_cases h : size ≤ p.mBufferByteCapacity - p.mBytesIdx
    · obtain ⟨hbytes, A'⟩ := A.take h
      exact ⟨size, _, by rw [Prng.serve, get, if_pos h, ← hbytes], A', length_stream⟩
    · obtain ⟨p', hp', A'⟩ := A.implGet size
      exact ⟨size, p', by rw [Prng.serve, get, if_neg h, hp'], A', length_stream⟩
  | fill length =>
    obtain ⟨p', hp', A'⟩ := A.implGet length
    exact ⟨length, p', hp', A', length_stream⟩
  | getBufferSpan maxSize =>
    have hfull : ∃ p', (if p.mBytesIdx = p.mBufferByteCapacity then p.refillBuffer aes else some p) = some p' ∧
        At aes seed pos p' ∧ p'.mBytesIdx < p'.mBufferByteCapacity := by
      by_cases hempty : p.mBytesIdx = p.mBufferByteCapacity
      · rw [if_pos hempty]
        exact (A.drained hempty).refillBuffer aes
      · rw [if_neg hempty]
        exact ⟨p, rfl, A, A.bytesIdx.lt_of_ne hempty⟩
    obtain ⟨p', hp', A', hlt⟩ := hfull
    obtain ⟨hbytes, A''⟩ := A'.take (Nat.min_le_right maxSize _)
    refine ⟨min maxSize (p'.mBufferByteCapacity - p'.mBytesIdx), _, ?_, A'', ?_, fun hpos h => ?_⟩
    · rw [Prng.serve, getBufferSpan, hp', Option.bind_eq_bind, Option.bind_some, ← hbytes]
    · rw [length_stream]
      exact Nat.min_le_left _ _
    · have hlen := congrArg List.length h
      rw [length_stream, List.length_nil] at hlen
      omega

theorem At.run (A : At aes seed pos p) (requests : List Request) :
    ∃ outs p', Prng.run aes requests p = some (outs, p') ∧ List.Forall₂ Request.Answered requests outs ∧
      outs.flatten = stream aes seed pos outs.flatten.length ∧ At aes seed (pos + outs.flatten.length) p' := by
  induction requests generalizing pos p with
  | nil => exact ⟨[], p, rfl, .nil, rfl, A⟩
  | cons r rest ih =>
    obtain ⟨n, p₁, hone, A₁, hanswered⟩ := A.serve r
    obtain ⟨outs, p', hrest, hall, hflat, A'⟩ := ih A₁
    have hlen : (stream aes seed pos n :: outs).flatten.length = n + outs.flatten.length := by
      rw [List.flatten_cons, List.length_append, length_stream]
    refine ⟨stream aes seed pos n :: outs, p', ?_, .cons hanswered hall, ?_, ?_⟩
    · rw [Prng.run, hone, Option.bind_eq_bind, Option.bind_some, hrest, Option.bind_eq_bind, Option.bind_some]
    · rw [hlen, stream_add, ← hflat, List.flatten_cons]
    · rwa [hlen, ← Nat.add_assoc]

/-- A seeded generator answers every call, and all answers together are the beginning of its key stream. -/
theorem run_keystream (aes : Block → Block → Block) (seed : Block) {bufferSize : ℕ} (hsize : 0 < bufferSize)
    (hfit : 16 * bufferSize < 2 ^ 64) (requests : List Request) :
    ∃ p outs p', setSeed aes {} seed bufferSize = some p ∧ Prng.run aes requests p = some (outs, p') ∧
      List.Forall₂ Request.Answered requests outs ∧ outs.flatten = stream aes seed 0 outs.flatten.length := by
  have D : Drained seed 0 { ({} : Prng) with
      key := seed, mBuffer := Array.replicate bufferSize default, mBufferByteCapacity := 16 * bufferSize % 2 ^ 64 } :=
    ⟨rfl, hsize.trans_eq Array.size_replicate.symm,
      (Nat.mod_eq_of_lt hfit).trans (congrArg (16 * ·) Array.size_replicate.symm), rfl⟩
  obtain ⟨p, hp, A, -⟩ := D.refillBuffer aes
  obtain ⟨outs, p', hrun, hall, hflat, -⟩ := A.run requests
  exact ⟨p, outs, p', hp, hrun, hall, hflat⟩

/-- A call that crosses the end of the buffer, a long one, and what is left. -/
theorem run_keystream_three : ∃ p outs p', setSeed (fun k x => k ^^^ x) {} (block 1 2) 2 = some p ∧
    Prng.run (fun k x => k ^^^ x) [.get 20, .fill 300, .getBufferSpan 64] p = some (outs, p') ∧
    List.Forall₂ Request.Answered [.get 20, .fill 300, .getBufferSpan 64] outs ∧
    outs.flatten = stream (fun k x => k ^^^ x) (block 1 2) 0 outs.flatten.length :=
  run_keystream (fun k x => k ^^^ x) (block 1 2) (by decide) (by decide) _

end Prng
end ExtFieldPcg
