import ExtFieldPcg.Ole

/-! `Extension_Field_OLE(depth, block_length)` of `OLE.h`, written out for the two polynomials `s` and `e` of
    each party and one public vector, against the version for `c` polynomials. -/

open Buffer

namespace ExtFieldPcg

/-! ### The code -/

/-- The thread of one party; cross terms are `s * s`, `s * e`, `e * s` and `e * e`. -/
def oleThreadUnrolled (depth length : ℕ) (a aSquare : Array Block) (crossTerm : ℕ → Array Block) (s e : Array Block) :
    Array Block × Array Block :=
  let crossTerm := fun i => foleageFft (crossTerm i) depth (length / 3)
  let s := foleageFft s depth (length / 3)
  let e := foleageFft e depth (length / 3)
  let zeros := Array.replicate length 0
  Loop.run length (fun i out =>
    let sum := f4Mul (read aSquare i) (read (crossTerm 0) i)
    let sum := sum ^^^ f4Mul (read a i) (read (crossTerm 1) i)
    let sum := sum ^^^ f4Mul (read a i) (read (crossTerm 2) i)
    (write out.1 i (sum ^^^ read (crossTerm 3) i),
      write out.2 i (read e i ^^^ f4Mul (read a i) (read s i)))) (zeros, zeros)

/-- `Extension_Field_OLE(depth, block_length)`. Of the draws, polynomial 0 is `s`, polynomial 1 is `e`, and vector 0
    is `a`. -/
def extensionFieldOleUnrolled (A : Aes) (g : OleDraws) (depth blockLength : ℕ) : Except Err OleOutput := do
  let numPoints := ipow 3 blockLength
  let domain := ipow 3 ((depth + u64 - blockLength) % u64)
  let length := ipow 3 depth
  let zeros ← zeroVec 2 numPoints length
  let a := Array.ofFn fun i : Fin length => g.a 0 i
  let aSquare := Array.ofFn fun i : Fin length => f4Mul (read a i) (read a i)
  let polyPoints := fun p k => Array.ofFn fun i : Fin numPoints => F3x32.fromInt (g.points p k i % domain)
  let polyS := fun p k => Array.ofFn fun i : Fin numPoints => g.polyS p k i
  let noise := fun p k => (placeNoise (polyPoints p k) (polyS p k) domain zeros).data
  let call := fun i k0 k1 =>
    dpf A (g.dpf i) (polyS false k0) (polyS true k1) (polyPoints false k0) (polyPoints true k1) zeros zeros domain
  let ss ← call 0 0 0
  let se ← call 1 0 1
  let es ← call 2 1 0
  let ee ← call 3 1 1
  let crossTerm := fun i => [ss, se, es, ee].getD i (zeros, zeros)
  let out0 := oleThreadUnrolled depth length a aSquare (fun i => (crossTerm i).1.data) (noise false 0) (noise false 1)
  let out1 := oleThreadUnrolled depth length a aSquare (fun i => (crossTerm i).2.data) (noise true 0) (noise true 1)
  let out := OleOutput.mk out0.1 out1.1 out0.2 out1.2
  oleCheck length out
  .ok out

/-! ### Both versions -/

/-- The draws with `a` for the first public vector and ones for the second. -/
def OleDraws.withOnes (g : OleDraws) : OleDraws :=
  { g with a := fun k i => if k = 0 then g.a 0 i else block 0 1 }

theorem one_f4Mul (x : Block) : f4Mul (block 0 1) x = x := (f4Mul_comm _ x).trans (f4Mul_one x)

theorem crossCount_two : crossCount 2 = 4 := rfl

/-- At an index where the second public value is the unit the two threads compute the same. -/
theorem oleThreadUnrolled_eq {depth length : ℕ} {a : ℕ → Array Block} (hone : ∀ i < length, read (a 1) i = block 0 1)
    (crossTerm s : ℕ → Array Block) :
    oleThreadUnrolled depth length (a 0) (Array.ofFn fun i : Fin length => f4Mul (read (a 0) i) (read (a 0) i)) crossTerm
      (s 0) (s 1) = oleThread depth length 2 a (crossPublic length 2 a) crossTerm s := by
  refine Loop.run_congr (fun i hi out => ?_) _
  have hsquare : read (Array.ofFn fun i : Fin length => f4Mul (read (a 0) i) (read (a 0) i)) i =
      f4Mul (read (a 0) i) (read (a 0) i) := read_ofFn (fun i => f4Mul (read (a 0) i) (read (a 0) i)) hi
  have hcross (j : ℕ) : read (crossPublic length 2 a j) i = f4Mul (read (a (j / 2)) i) (read (a (j % 2)) i) :=
    read_ofFn (fun i => f4Mul (read (a (j / 2)) i) (read (a (j % 2)) i)) hi
  have hadditive (x : ℕ → Array Block) : additiveSum 2 (crossPublic length 2 a) x i =
      f4Mul (f4Mul (read (a 0) i) (read (a 0) i)) (read (x 0) i) + f4Mul (read (a 0) i) (read (x 1) i) +
        f4Mul (read (a 0) i) (read (x 2) i) + read (x 3) i := by
    simp only [additiveSum_eq, crossCount_two, Finset.sum_range_succ, Finset.sum_range_zero, zero_add, hcross, hone i hi]
    norm_num [one_f4Mul, hone i hi, f4Mul_comm _ (block 0 1)]
  have hole (x : ℕ → Array Block) : oleSum 2 a x i = read (x 1) i + f4Mul (read (a 0) i) (read (x 0) i) := by
    rw [oleSum_eq, Finset.sum_range_succ, Finset.sum_range_one, hone i hi, one_f4Mul, add_comm]
  rw [hsquare, hadditive, hole]
  rfl

/-- For two polynomials the cross terms come from four calls of `dpf`, one after the other. -/
theorem crossTerms_two (A : Aes) (g : ℕ → DpfDraws) (domain : ℕ) (polyS : Bool → ℕ → Array Block)
    (polyPoints : Bool → ℕ → Array F3x32) (zeros : BlockVec) :
    crossTerms A g 2 domain polyS polyPoints zeros = (do
      let call := fun i k0 k1 =>
        dpf A (g i) (polyS false k0) (polyS true k1) (polyPoints false k0) (polyPoints true k1) zeros zeros domain
      let ss ← call 0 0 0
      let se ← call 1 0 1
      let es ← call 2 1 0
      let ee ← call 3 1 1
      .ok fun i => [ss, se, es, ee].getD i (zeros, zeros)) := by
  simp only [crossTerms, crossCount_two, Loop.tryRun, bind_assoc, ok_bind, Function.update_apply, Nat.reduceDiv, Nat.reduceMod,
    OfNat.ofNat_ne_zero, OfNat.ofNat_ne_one, Nat.reduceEqDiff, one_ne_zero, if_false]
  refine bind_congr fun ss => bind_congr fun se => bind_congr fun es => bind_congr fun ee => congrArg Except.ok ?_
  funext i
  obtain _ | _ | _ | _ | i := i
  · rfl
  · rfl
  · rfl
  · rfl
  · simp

theorem oleOutputs_two {depth length : ℕ} {a : ℕ → Array Block} (hone : ∀ i < length, read (a 1) i = block 0 1)
    (crossTerm : ℕ → BlockVec × BlockVec) (s : Bool → ℕ → Array Block) :
    oleOutputs depth length 2 a crossTerm s =
      let aSquare := Array.ofFn fun i : Fin length => f4Mul (read (a 0) i) (read (a 0) i)
      let out0 := oleThreadUnrolled depth length (a 0) aSquare (fun i => (crossTerm i).1.data) (s false 0) (s false 1)
      let out1 := oleThreadUnrolled depth length (a 0) aSquare (fun i => (crossTerm i).2.data) (s true 0) (s true 1)
      ⟨out0.1, out1.1, out0.2, out1.2⟩ := by
  simp only [oleOutputs, oleThreadUnrolled_eq hone (fun i => (crossTerm i).1.data) (s false),
    oleThreadUnrolled_eq hone (fun i => (crossTerm i).2.data) (s true)]

/-- Both versions run alike: they fail with the same exception or end with the same outputs. -/
theorem extensionFieldOleUnrolled_eq (A : Aes) (g : OleDraws) (depth blockLength : ℕ) :
    extensionFieldOleUnrolled A g depth blockLength = extensionFieldOle A g.withOnes depth blockLength 2 := by
  have hone : ∀ i < ipow 3 depth, read (Array.ofFn fun i : Fin (ipow 3 depth) => g.withOnes.a 1 i) i = block 0 1 :=
    fun i hi => read_ofFn (g.withOnes.a 1) hi
  rw [extensionFieldOleUnrolled, extensionFieldOle]
  refine bind_congr fun zeros => ?_
  have hint : int (crossCount 2) = .ok 4 := rfl
  simp only [hint, oleSession, crossTerms_two, bind_assoc, ok_bind]
  refine bind_congr fun ss => bind_congr fun se => bind_congr fun es => bind_congr fun ee => ?_
  rw [oleOutputs_two hone]
  rfl

end ExtFieldPcg
