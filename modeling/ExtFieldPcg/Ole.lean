import ExtFieldPcg.Dpf
import ExtFieldPcg.GroupRing

/-! `Extension_Field_OLE` of `OLE.h`: both parties, from the sparse noise of `c` polynomials each to the
    self-check of the two shares at the end. -/

open Buffer Ternary

namespace ExtFieldPcg

/-! ### The code -/

structure OleDraws where
  a : ℕ → ℕ → Block
  /-- The words drawn for `poly_points0[k][i]` and `poly_points1[k][i]`. -/
  points : Bool → ℕ → ℕ → ℕ
  /-- `poly_s0[k][i]` and `poly_s1[k][i]`. -/
  polyS : Bool → ℕ → ℕ → Block
  /-- The random values of the call of `dpf` for cross term `i`. -/
  dpf : ℕ → DpfDraws
deriving Inhabited

structure OleOutput where
  additive0 : Array Block
  additive1 : Array Block
  ole0 : Array Block
  ole1 : Array Block

/-- `c * c`. -/
def crossCount (c : ℕ) : ℕ := c * c % u64

/-- The blocks of a run that both overloads hold: points and coefficients, and the vectors of `length` entries. The
    products of public vectors, where the overloads differ, are not counted; nor are cross terms that an `int` does not
    count. -/
def oleMemory (c numPoints length : ℕ) : ℕ :=
  3 * c * numPoints + (4 + 3 * c + 2 * min (crossCount c) (2 ^ 31)) * length

/-- `resize(length)` and `ctx.zero`, for the vectors of a run. -/
def zeroVec (c numPoints length : ℕ) : Except Err BlockVec :=
  if h : length ≤ maxBlocks ∧ oleMemory c numPoints length ≤ maxBlocks then
    .ok ⟨Array.replicate length 0, by simpa using h.1⟩
  else .error .badAlloc

/-- `poly_points[i].toInt() + i * domain`. -/
def noiseIndex (point : F3x32) (domain i : ℕ) : ℕ := (point.toInt + i * domain % u64) % u64

/-- `s[poly_points[i].toInt() + i * domain] = poly_s[i]` for every point. -/
def placeNoise (polyPoints : Array F3x32) (polyS : Array Block) (domain : ℕ) (s : BlockVec) : BlockVec :=
  Loop.run polyPoints.size (fun i s => s.set (noiseIndex (read polyPoints i) domain i) (read polyS i)) s

/-- The calls of `dpf`, one for each cross term. -/
def crossTerms (A : Aes) (g : ℕ → DpfDraws) (c domain : ℕ) (polyS : Bool → ℕ → Array Block)
    (polyPoints : Bool → ℕ → Array F3x32) (zeros : BlockVec) : Except Err (ℕ → BlockVec × BlockVec) :=
  Loop.tryRun (crossCount c) (fun i crossTerm => do
    let out ← dpf A (g i) (polyS false (i / c)) (polyS true (i % c)) (polyPoints false (i / c))
      (polyPoints true (i % c)) (crossTerm i).1 (crossTerm i).2 domain
    .ok (Function.update crossTerm i out)) fun _ => (zeros, zeros)

/-- `additive[i]`: every cross term times its product of public values. -/
def additiveSum (c : ℕ) (aCross crossTerm : ℕ → Array Block) (i : ℕ) : Block :=
  Loop.run (crossCount c) (fun j sum => f4Mul (read (aCross j) i) (read (crossTerm j) i) ^^^ sum) 0

/-- `ole[i]`: every noise vector times its public value. -/
def oleSum (c : ℕ) (a s : ℕ → Array Block) (i : ℕ) : Block :=
  Loop.run c (fun j sum => sum ^^^ f4Mul (read (a j) i) (read (s j) i)) 0

/-- The thread of one party: the transforms, then the two outputs at every index. -/
def oleThread (depth length c : ℕ) (a aCross crossTerm s : ℕ → Array Block) : Array Block × Array Block :=
  let crossTerm := fun i => foleageFft (crossTerm i) depth (length / 3)
  let s := fun i => foleageFft (s i) depth (length / 3)
  let zeros := Array.replicate length 0
  Loop.run length (fun i out => (write out.1 i (additiveSum c aCross crossTerm i), write out.2 i (oleSum c a s i)))
    (zeros, zeros)

/-- `a_cross[i][j] = a[i / c][j] * a[i % c][j]`. -/
def crossPublic (length c : ℕ) (a : ℕ → Array Block) (i : ℕ) : Array Block :=
  Array.ofFn fun j : Fin length => f4Mul (read (a (i / c)) j) (read (a (i % c)) j)

def oleOutputs (depth length c : ℕ) (a : ℕ → Array Block) (crossTerm : ℕ → BlockVec × BlockVec)
    (s : Bool → ℕ → Array Block) : OleOutput :=
  let aCross := crossPublic length c a
  let out0 := oleThread depth length c a aCross (fun i => (crossTerm i).1.data) (s false)
  let out1 := oleThread depth length c a aCross (fun i => (crossTerm i).2.data) (s true)
  ⟨out0.1, out1.1, out0.2, out1.2⟩

def oleCheck (length : ℕ) (out : OleOutput) : Except Err Unit :=
  Loop.tryRun length (fun i _ =>
    let act := read out.additive0 i ^^^ read out.additive1 i
    let exp := f4Mul (read out.ole0 i) (read out.ole1 i)
    if exp ≠ act then .error .rteLoc else .ok ()) ()

/-- A run after the noise is sampled, on vectors of `length` zeros. -/
def oleSession (A : Aes) (g : OleDraws) (depth length domain c : ℕ) (polyPoints : Bool → ℕ → Array F3x32)
    (polyS : Bool → ℕ → Array Block) (zeros : BlockVec) : Except Err OleOutput := do
  let a := fun k => Array.ofFn fun i : Fin length => g.a k i
  let s := fun p k => (placeNoise (polyPoints p k) (polyS p k) domain zeros).data
  let crossTerm ← crossTerms A g.dpf c domain polyS polyPoints zeros
  let out := oleOutputs depth length c a crossTerm s
  oleCheck length out
  .ok out

/-- `Extension_Field_OLE(depth, block_length, c)`. The loop that allocates the cross terms counts them in an `int`. -/
def extensionFieldOle (A : Aes) (g : OleDraws) (depth blockLength c : ℕ) : Except Err OleOutput := do
  let numPoints := ipow 3 blockLength
  let domain := ipow 3 ((depth + u64 - blockLength) % u64)
  let length := ipow 3 depth
  let zeros ← zeroVec c numPoints length
  let _ ← int (crossCount c)
  let polyPoints := fun p k => Array.ofFn fun i : Fin numPoints => F3x32.fromInt (g.points p k i % domain)
  let polyS := fun p k => Array.ofFn fun i : Fin numPoints => g.polyS p k i
  oleSession A g depth length domain c polyPoints polyS zeros

/-! ### Noise vectors -/

variable {b m : ℕ}

/-- A dense vector with the terms of `P`: in block `i` the coefficient `i` at the point `i`. -/
def SparsePoly.Noise (P : SparsePoly b m) (f : Array Block) : Prop :=
  ∀ i < 3 ^ b, ∀ l < 3 ^ m, read f (i * 3 ^ m + l) = if (read P.points i).toInt = l then read P.coeff i else 0

/-- A sum over a noise vector has one term for each block. -/
theorem SparsePoly.Noise.sum {P : SparsePoly b m} {f : Array Block} (h : P.Noise f) (φ : ℕ → Block → Block)
    (hφ : ∀ x, φ x 0 = 0) :
    ∑ x ∈ Finset.range (3 ^ (m + b)), φ x (read f x) =
      ∑ i ∈ Finset.range (3 ^ b), φ (i * 3 ^ m + (read P.points i).toInt) (read P.coeff i) := by
  rw [pow_add, mul_comm, sum_range_mul]
  refine Finset.sum_congr rfl fun i hi => ?_
  have hi := Finset.mem_range.mp hi
  rw [Finset.sum_eq_single (read P.points i).toInt]
  · rw [h i hi _ (P.lt i hi), if_pos rfl]
  · intro l hl hne
    rw [h i hi l (Finset.mem_range.mp hl), if_neg hne.symm, hφ]
  · exact fun hnot => absurd (Finset.mem_range.mpr (P.lt i hi)) hnot

theorem oleSum_eq (c : ℕ) (a s : ℕ → Array Block) (i : ℕ) :
    oleSum c a s i = ∑ j ∈ Finset.range c, f4Mul (read (a j) i) (read (s j) i) := by
  have h := (Loop.run_sum (fun _ => True) id (fun j => f4Mul (read (a j) i) (read (s j) i)) (n := c) (s := (0 : Block))
    (f := fun j sum => sum ^^^ f4Mul (read (a j) i) (read (s j) i)) trivial fun j _ t _ => ⟨trivial, rfl⟩).2
  exact h.trans (zero_add _)

theorem additiveSum_eq (c : ℕ) (aCross crossTerm : ℕ → Array Block) (i : ℕ) :
    additiveSum c aCross crossTerm i =
      ∑ j ∈ Finset.range (crossCount c), f4Mul (read (aCross j) i) (read (crossTerm j) i) := by
  rw [← oleSum_eq]
  exact Loop.run_congr (fun j _ t => add_comm (f4Mul (read (aCross j) i) (read (crossTerm j) i)) t) 0

section CrossTerms
variable {A : Aes} {g : OleDraws} {c : ℕ} {P : Bool → ℕ → SparsePoly b m} {S : Bool → ℕ → Array Block}
  {zeros : BlockVec}

end CrossTerms

/-! ### The run -/

variable {A : Aes} {g : OleDraws} {depth blockLength c : ℕ}

def OleDraws.poly (g : OleDraws) (b : ℕ) (hm : m ≤ 32) (p : Bool) (k : ℕ) : SparsePoly b m :=
  SparsePoly.sample b hm (g.points p k) (g.polyS p k)

end ExtFieldPcg
