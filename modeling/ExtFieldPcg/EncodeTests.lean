import ExtFieldPcg.DualEncode

/-! The tests of the encoders in `test.h`: whatever they draw, their reference loops find what the encoders compute. -/

open Buffer

namespace ExtFieldPcg

/-! ### The code -/

section Code
variable (A : CodeAes) (ctx : CoeffCtx Block) (mulConst : Block → Block)

/-- One row or eight in the loops over the expander; `idx` is drawn and its entry added. -/
def testTerms (input : ExpanderCode.Source Block) (regCount uniCount step o s : ℕ) (st : ExpanderCode.Rows Block) :
    ExpanderCode.Rows Block :=
  let term (off : ℕ) := ExpanderCode.addRows A ctx input o s off
  let r := Loop.run regCount (fun j => term (step * j)) (st.out, st.reg)
  let u := Loop.run uniCount (fun _ => term 0) (r.1, st.uni)
  ⟨u.1, r.2, u.2⟩

def testExpand (input : ExpanderCode.Source Block) (regCount uniCount step k : ℕ) (st : ExpanderCode.Rows Block) :
    ExpanderCode.Rows Block :=
  let main := k / 8 * 8
  let st := Loop.run (k / 8) (fun b => testTerms A ctx input regCount uniCount step (8 * b) 8) st
  Loop.run (k - main) (fun i => testTerms A ctx input regCount uniCount step (main + i) 1) st

/-- `EA_encode_test(k, R, bw)` on the draws `c0`: `m0` and `m1`. -/
def eaEncodeTest (seed : Block) (k R bw : ℕ) (c0 : Array Block) : Except Err (Array Block × Array Block) := do
  let n := k * R
  let code := EACode.config k n bw seed
  let a0 ← EACode.accumulate ctx mulConst code.mCodeSize c0
  let expanderCoeff := ExpanderModd.init A code.mSeed code.mCodeSize
  let m0 := testExpand A ctx ⟨a0, 0⟩ 0 code.mExpanderWeight 0 k ⟨Array.replicate k 0, {}, expanderCoeff⟩
  let r ← EACode.dualEncode A ctx mulConst code c0 (Array.replicate k 0)
  .ok (m0.out, r.2)

/-- `u64 bits = 0; memcpy(&bits, bytes, n);`. -/
def loadBits (n : ℕ) (bytes : ℕ → BitVec 8) : BitVec 64 :=
  Word.ofBits 64 fun i => decide (i / 8 < n) && (bytes (i / 8)).getLsbD (i % 8)

/-- A row of the reference; `j` goes from `start` to `next j`, and `place j` is the entry. -/
def testRow (aw X i start : ℕ) (next place : ℕ → ℕ) (bits : BitVec 64) (x : Array Block) : Array Block :=
  let s := Loop.run aw (fun _ (s : Array Block × BitVec 64 × ℕ) =>
    (if s.2.1.getLsbD 0 then ExConvCode.plusAt ctx X i (place s.2.2) s.1 else s.1, s.2.1 >>> 1, next s.2.2)) (x, bits, start)
  ExConvCode.plusMulConst ctx mulConst X i (place s.2.2) s.1

structure TestVectors where
  x1 : Array Block
  x2 : Array Block
  x3 : Array Block

/-- The entries that row `i` can change are compared. -/
def compareRow (aw n i : ℕ) (x : TestVectors) : Except Err Unit :=
  Loop.tryRun (aw + 1) (fun a _ =>
    let j := (i + 1 + a) % n
    if aw = 24 ∧ read x.x1 j ≠ read x.x2 j then .error .rteLoc
    else if read x.x1 j ≠ read x.x3 j then .error .rteLoc
    else .ok ()) ()

/-- Row `i` on all three vectors, with the bytes of `rand`. -/
def compareRows (acc8 : ExConvCode.AccOne8 Block) (aw n i : ℕ) (rand : ℕ → BitVec 8) (x : TestVectors) :
    Except Err TestVectors := do
  let x : TestVectors :=
    { x1 := ExConvCode.accOneGen ctx mulConst acc8 aw true 0 i n rand x.x1
      x2 := if aw = 24 then ExConvCode.accOne ctx mulConst acc8 24 true 0 i n rand x.x2 else x.x2
      x3 := testRow ctx mulConst aw 0 i (i + 1) (· + 1) (· % n) (loadBits (min (divCeil aw 8) 8) rand) x.x3 }
  compareRow aw n i x
  .ok x

/-- The reference of `accumulateFixed`. -/
def testAccumulate (aw X size : ℕ) (seed : Block) (x : Array Block) : Array Block :=
  let mBuffer := prngBuffer A seed
  let mtxCoeffEnd := 16 * mBuffer.size - divCeil aw 8
  let row (i : ℕ) (mtxCoeff : ℕ → BitVec 8) :=
    testRow ctx mulConst aw X i ((i + 1) % size) (fun j => (j + 1) % size) id (loadBits (divCeil aw 8) mtxCoeff)
  (Loop.run size (fun i => ExConvCode.accRound A (row i) mtxCoeffEnd) (x, ⟨mBuffer, 0⟩)).1

/-- The part of `EC_encode_test` on `accumulateFixed`: `x1`. -/
def ecAccumulateTest (acc8 : ExConvCode.AccOne8 Block) (code : ExConvCode) (accOffset size : ℕ) (x : TestVectors) :
    Except Err (Array Block) := do
  let aw := code.mAccumulatorSize
  let seeds := if code.mAccTwice then [code.mSeed, code.mSeed ^^^ block (~~~0) (~~~0)] else [code.mSeed]
  let fixed (accumulatorSize : ℕ) (x : Array Block) := seeds.foldlM (fun x seed =>
    ExConvCode.accumulateFixed A ctx mulConst acc8 accumulatorSize aw accOffset size seed x) x
  let x1 ← fixed 0 x.x1
  if aw = 24 then
    let x2 ← fixed 24 x.x2
    if x1 ≠ x2 then .error .rteLoc
  let x3 := seeds.foldl (fun x seed => testAccumulate A ctx mulConst aw accOffset size seed x) x.x3
  if x1 ≠ x3 then .error .rteLoc else .ok x1

/-- The part of `EC_encode_test` on the expander: `y1`. -/
def ecExpandTest (expander : ExpanderCode) (sys : Bool) (k n accOffset : ℕ) (x1 : Array Block) : Except Err (Array Block) :=
  let y := if sys then Array.ofFn fun i : Fin k => read x1 i else Array.replicate k 0
  let y1 := expander.expand A ctx sys ⟨x1, accOffset⟩ 0 y
  let regCount := if expander.mRegular then divCeil expander.mExpanderWeight 2 else 0
  let step := if expander.mRegular then expander.mCodeSize / regCount else 0
  let exSize := if expander.mRegular then step else n
  let regExp := ExpanderModd.init A (expander.mSeed ^^^ block 342342134 23421341) exSize
  let fullExp := ExpanderModd.init A expander.mSeed expander.mCodeSize
  let y2 := testExpand A ctx ⟨x1, accOffset⟩ regCount (expander.mExpanderWeight - regCount) step k ⟨y, regExp, fullExp⟩
  if y1 ≠ y2.out then .error .rteLoc else .ok y1

/-- `EC_encode_test(k, r, bw, aw, sys)` on the draws `x` and `rand`: `y1`, and `x4` after its encoding. -/
def ecEncodeTest (acc8 : ExConvCode.AccOne8 Block) (seed : Block) (k r bw aw : ℕ) (sys : Bool) (x : Array Block)
    (rand : ℕ → ℕ → BitVec 8) : Except Err (Array Block × Array Block) := do
  let n := r * k
  let code := ExConvCode.config k n bw aw sys true seed
  let accOffset := sys.toNat * k
  let x ← Loop.tryRun n (fun i => compareRows ctx mulConst acc8 aw n i (rand i)) ⟨x, x, x⟩
  let x1 ← ecAccumulateTest A ctx mulConst acc8 code accOffset (n - accOffset) x
  let y1 ← ecExpandTest A ctx code.mExpander sys k n accOffset x1
  let x4 ← code.dualEncode A ctx mulConst acc8 x.x1
  .ok (y1, x4)

end Code

/-! ### The expander -/

section Expand
variable {A : CodeAes} {ctx : CoeffCtx Block} {mulConst : Block → Block} (input : ExpanderCode.Source Block)

theorem testTerms_eq (c : ExpanderCode) (o s : ℕ) :
    testTerms A ctx input c.reg c.uni c.step o s = c.addTerms (ExpanderCode.addRows A ctx input o s) := by
  funext st
  simp only [testTerms, ExpanderCode.addTerms, Nat.mul_comm c.step]

/-- The loops of the tests add as `expand` does. -/
theorem testExpand_eq (A : CodeAes) (ctx : CoeffCtx Block) (c : ExpanderCode) (out : Array Block) :
    (testExpand A ctx input c.reg c.uni c.step c.mMessageSize ⟨out, c.regGen A, c.uniGen A⟩).out =
      c.expand A ctx true input 0 out := by
  have height (o : ℕ) : ExpanderCode.addEight A ctx input o = ExpanderCode.addRows A ctx input o 8 :=
    funext (ExpanderCode.addEight_eq o)
  have hone (o : ℕ) : ExpanderCode.addOne A ctx input o = ExpanderCode.addRows A ctx input o 1 :=
    funext (ExpanderCode.addOne_eq o)
  simp only [testExpand, testTerms_eq, ExpanderCode.expand, if_true, height, hone, Nat.zero_add]

/-- On zeros it makes no difference whether `expand` adds. -/
theorem expand_zeros (hplus : ∀ x y, ctx.plus x y = x + y) (hzero : ctx.zero = 0) (hdiv : A.Divides) {c : ExpanderCode}
    (S : c.Sized) :
    c.expand A ctx true input 0 (Array.replicate c.mMessageSize 0) =
      c.expand A ctx false input 0 (Array.replicate c.mMessageSize 0) := by
  have hsize : 0 + c.mMessageSize ≤ (Array.replicate c.mMessageSize (0 : Block)).size := by
    rw [Array.size_replicate, Nat.zero_add]
  have h := ExpanderCode.expand_mapped input hplus hzero hdiv S true _ hsize
  have h' := ExpanderCode.expand_mapped input hplus hzero hdiv S false _ hsize
  refine ext_read (h.size.trans h'.size.symm) fun i hi => ?_
  rw [h.size, Array.size_replicate] at hi
  have hread := h.mapped i hi
  have hread' := h'.mapped i hi
  rw [Nat.zero_add] at hread hread'
  rw [hread, hread', read_replicate hi]
  rfl

end Expand

/-! ### Rows of the convolution -/

section Rows
variable {A : CodeAes} {ctx : CoeffCtx Block} {mulConst : Block → Block} {aw X i size : ℕ}

theorem getLsbD_loadBits {bytes : ℕ → BitVec 8} {k : ℕ} (hk : k < aw) (haw : aw ≤ 64) :
    (loadBits (divCeil aw 8) bytes).getLsbD k = ExConvCode.coeffBit bytes k := by
  have hbyte : k / 8 < divCeil aw 8 := by
    rw [Pprf.lt_divCeil_iff (by decide)]
    omega
  rw [loadBits, Word.getLsbD_ofBits _ (hk.trans_le haw), decide_eq_true hbyte, Bool.true_and, ExConvCode.coeffBit]

theorem testRow_eq {start : ℕ} {next place : ℕ → ℕ} {bits : BitVec 64} {bit : ℕ → Bool}
    (hplace : ∀ k ≤ aw, place (next^[k] start) = (i + 1 + k) % size) (hbits : ∀ k < aw, bits.getLsbD k = bit k) :
    testRow ctx mulConst aw X i start next place bits = ExConvCode.plainRow ctx mulConst aw X i size bit := by
  funext x
  have hrun := Loop.run_induct (fun k (s : Array Block × BitVec 64 × ℕ) =>
      s = (Loop.run k (ExConvCode.accBit ctx X i size bit) x, bits >>> k, next^[k] start)) (n := aw) (s := (x, bits, start))
    (f := fun _ s => (if s.2.1.getLsbD 0 then ExConvCode.plusAt ctx X i (place s.2.2) s.1 else s.1, s.2.1 >>> 1,
      next s.2.2)) (by rw [Loop.run_zero, BitVec.ushiftRight_zero]; rfl) ?_
  · rw [testRow, hrun, ExConvCode.plainRow, hplace aw le_rfl]
  · rintro k hk s rfl
    rw [BitVec.getLsbD_ushiftRight, Nat.add_zero, hbits k hk, hplace k hk.le, ← BitVec.shiftRight_add,
      ← Function.iterate_succ_apply' next, Loop.run_succ, ExConvCode.accBit]

theorem testRow_plain (haw : aw ≤ 64) (bytes : ℕ → BitVec 8) :
    testRow ctx mulConst aw X i (i + 1) (· + 1) (· % size) (loadBits (min (divCeil aw 8) 8) bytes) =
      ExConvCode.plainRow ctx mulConst aw X i size (ExConvCode.coeffBit bytes) := by
  have hmin : min (divCeil aw 8) 8 = divCeil aw 8 := Nat.min_eq_left ((Pprf.divCeil_le_iff (by decide) aw 8).mpr haw)
  refine testRow_eq (fun k _ => ?_) fun k hk => hmin.symm ▸ getLsbD_loadBits hk haw
  have hiterate : (· + 1)^[k] (i + 1) = i + 1 + k := by
    rw [Nat.succ_iterate]
  rw [hiterate]

theorem testRow_mod (haw : aw ≤ 64) (bytes : ℕ → BitVec 8) :
    testRow ctx mulConst aw X i ((i + 1) % size) (fun j => (j + 1) % size) id (loadBits (divCeil aw 8) bytes) =
      ExConvCode.plainRow ctx mulConst aw X i size (ExConvCode.coeffBit bytes) := by
  refine testRow_eq (fun k _ => ?_) fun k hk => getLsbD_loadBits hk haw
  induction k with
  | zero => rfl
  | succ k ih =>
    rw [Function.iterate_succ_apply']
    have hk := ih (by omega)
    rw [id] at hk
    rw [hk, id, Nat.mod_add_mod, Nat.add_assoc]

theorem testAccumulate_eq (haw : aw ≤ 64) (seed : Block) (x : Array Block) :
    testAccumulate A ctx mulConst aw X size seed x =
      ExConvCode.plainAccumulate ctx mulConst aw X size (ExConvCode.bitAt A seed aw) x := by
  have G : ExConvCode.Coeffs.At A seed aw 0 ⟨prngBuffer A seed, 0⟩ :=
    ⟨Nat.zero_le _, 0, rfl, by rw [refilled, Loop.run_zero]⟩
  obtain ⟨hrun, -⟩ := G.run (fun i mtxCoeff => testRow ctx mulConst aw X i ((i + 1) % size) (fun j => (j + 1) % size) id
    (loadBits (divCeil aw 8) mtxCoeff)) size x
  simp only [Nat.zero_add, testRow_mod haw] at hrun
  simp only [testAccumulate, size_prngBuffer, testRow_mod haw]
  exact hrun

/-- The three vectors are equal, as far as the test works on them. -/
structure TestVectors.Equal (aw : ℕ) (x : TestVectors) : Prop where
  x2 : aw = 24 → x.x2 = x.x1
  x3 : x.x3 = x.x1

theorem compareRow_ok {n : ℕ} {x : TestVectors} (E : x.Equal aw) : compareRow aw n i x = .ok () := by
  obtain ⟨u, hu, -⟩ := Loop.tryRun_induct (fun _ (_ : Unit) => True) (n := aw + 1) (s := ())
    (f := fun a _ =>
      let j := (i + 1 + a) % n
      if aw = 24 ∧ read x.x1 j ≠ read x.x2 j then .error Err.rteLoc
      else if read x.x1 j ≠ read x.x3 j then .error .rteLoc
      else .ok ()) trivial fun a _ _ _ => by
    have hne : ¬ (aw = 24 ∧ read x.x1 ((i + 1 + a) % n) ≠ read x.x2 ((i + 1 + a) % n)) := fun h => h.2 (by rw [E.x2 h.1])
    exact ⟨(), by dsimp only; rw [if_neg hne, if_neg (not_not.mpr (by rw [E.x3]))], trivial⟩
  exact hu

section Compare
variable {acc8 : ExConvCode.AccOne8 Block} {n : ℕ} {x : TestVectors}

theorem compareRows_ok (hacc : ExConvCode.Agrees ctx acc8) (haw : aw ≤ 64) (hi : i < n) (hn : aw < n) (E : x.Equal aw)
    (rand : ℕ → BitVec 8) :
    ∃ y, compareRows ctx mulConst acc8 aw n i rand x = .ok y ∧ y.Equal aw ∧ y.x1.size = x.x1.size := by
  have hgen : ExConvCode.accOneGen ctx mulConst acc8 aw true 0 i n rand =
      ExConvCode.plainRow ctx mulConst aw 0 i n (ExConvCode.coeffBit rand) := ExConvCode.accOneGen_eq hacc hi hn nofun
  have hone (h : aw = 24) : ExConvCode.accOne ctx mulConst acc8 24 true 0 i n rand =
      ExConvCode.plainRow ctx mulConst 24 0 i n (ExConvCode.coeffBit rand) := ExConvCode.accOne_eq hacc rfl hi (h ▸ hn) nofun
  let y : TestVectors :=
    { x1 := ExConvCode.accOneGen ctx mulConst acc8 aw true 0 i n rand x.x1
      x2 := if aw = 24 then ExConvCode.accOne ctx mulConst acc8 24 true 0 i n rand x.x2 else x.x2
      x3 := testRow ctx mulConst aw 0 i (i + 1) (· + 1) (· % n) (loadBits (min (divCeil aw 8) 8) rand) x.x3 }
  have hx1 : y.x1 = ExConvCode.plainRow ctx mulConst aw 0 i n (ExConvCode.coeffBit rand) x.x1 := congrFun hgen x.x1
  have hx3 : y.x3 = ExConvCode.plainRow ctx mulConst aw 0 i n (ExConvCode.coeffBit rand) x.x3 :=
    congrFun (testRow_plain haw rand) x.x3
  have E' : y.Equal aw := by
    refine ⟨fun h => ?_, by rw [hx3, hx1, E.x3]⟩
    refine (if_pos h).trans ?_
    rw [hone h, E.x2 h, hx1, h]
  refine ⟨y, ?_, E', by rw [hx1, ExConvCode.size_plainRow]⟩
  show (compareRow aw n i y >>= fun _ => Except.ok y) = .ok y
  rw [compareRow_ok E', ok_bind]

theorem run_compareRows (mulConst : Block → Block) (hacc : ExConvCode.Agrees ctx acc8) (haw : aw ≤ 64) (hn : aw < n)
    (x : Array Block) (rand : ℕ → ℕ → BitVec 8) :
    ∃ y : TestVectors, Loop.tryRun n (fun i => compareRows ctx mulConst acc8 aw n i (rand i)) ⟨x, x, x⟩ = .ok y ∧
      y.Equal aw ∧ y.x1.size = x.size := by
  refine Loop.tryRun_induct (fun _ (y : TestVectors) => y.Equal aw ∧ y.x1.size = x.size) ⟨⟨fun _ => rfl, rfl⟩, rfl⟩ ?_
  rintro i hi y ⟨E, hsize⟩
  obtain ⟨z, hz, E', hsize'⟩ := compareRows_ok hacc haw hi hn E (rand i)
  exact ⟨z, hz, E', hsize'.trans hsize⟩

end Compare
end Rows

/-! ### The tests -/

section Tests
variable {A : CodeAes} {ctx : CoeffCtx Block} {mulConst : Block → Block}

/-- The reference of `EA_encode_test` computes what `dualEncode` does. -/
theorem eaEncodeTest_equal (hplus : ∀ x y, ctx.plus x y = x + y) (hzero : ctx.zero = 0) (hdiv : A.Divides) (seed : Block)
    {k R : ℕ} (bw : ℕ) {c0 : Array Block} (hpos : 0 < k * R) (hlt : k * R < 2 ^ 64) (hc : c0.size = k * R) :
    ∃ m, eaEncodeTest A ctx mulConst seed k R bw c0 = .ok (m, m) := by
  have S : (EACode.config k (k * R) bw seed).Sized := ⟨hpos, hlt, nofun, Nat.zero_le _⟩
  let acc := scan (fun prev x => mulConst (ctx.plus x prev)) (k * R) c0
  have hacc : EACode.accumulate ctx mulConst (EACode.config k (k * R) bw seed).mCodeSize c0 = .ok acc :=
    EACode.accumulate_ok hc
  have hdual : EACode.dualEncode A ctx mulConst (EACode.config k (k * R) bw seed) c0 (Array.replicate k 0) =
      .ok (acc, (EACode.config k (k * R) bw seed).expand A ctx false ⟨acc, 0⟩ 0 (Array.replicate k 0)) :=
    EACode.dualEncode_ok hpos hc Array.size_replicate
  have href := testExpand_eq ⟨acc, 0⟩ A ctx (EACode.config k (k * R) bw seed) (Array.replicate k 0)
  have hzeros := expand_zeros (A := A) ⟨acc, 0⟩ hplus hzero hdiv S
  refine ⟨(EACode.config k (k * R) bw seed).expand A ctx false ⟨acc, 0⟩ 0 (Array.replicate k 0), ?_⟩
  rw [eaEncodeTest, hacc, ok_bind, hdual, ok_bind]
  exact congrArg (fun m => Except.ok (m, _)) (href.trans hzeros)

theorem eaEncodeTest_equal_ten :
    let A : CodeAes := ⟨fun k x => k ^^^ x, fun x k => x ^^^ k, fun x m => x / m⟩
    ∃ m, eaEncodeTest A coeffCtxGF128 mulConstGF128 (block 0 7) 2 5 3 (Array.replicate 10 (block 0 1)) = .ok (m, m) :=
  eaEncodeTest_equal (fun _ _ => rfl) rfl (fun _ _ _ => rfl) _ 3 (by decide) (by decide) rfl

/-- Sizes that `EC_encode_test` can be called with. -/
structure TestSized (k r bw aw : ℕ) (sys : Bool) : Prop where
  row : aw < r * k - sys.toNat * k
  bits : aw ≤ 64
  weight : 0 < bw
  regions : bw - bw / 2 ≤ r * k - sys.toNat * k
  lt : r * k < 2 ^ 64

theorem TestSized.sized {k r bw aw : ℕ} {sys : Bool} (T : TestSized k r bw aw sys) (seed : Block) :
    (ExConvCode.config k (r * k) bw aw sys true seed).Sized := by
  have hrow := T.row
  have hbits := T.bits
  have hlt := T.lt
  have hpos : 0 < r * k := by omega
  exact ExConvCode.config_sized (Nat.le_mul_of_pos_left k (Nat.pos_of_mul_pos_right hpos)) hrow
    (hbits.trans (by decide)) T.weight T.regions hlt seed

/-- The generic rows, those of weight `24` and the reference accumulate alike. -/
theorem ecAccumulateTest_ok (A : CodeAes) (mulConst : Block → Block) {acc8 : ExConvCode.AccOne8 Block}
    (hacc : ExConvCode.Agrees ctx acc8) {code : ExConvCode} {X size : ℕ} (haw : code.mAccumulatorSize ≤ 64)
    (hsize : code.mAccumulatorSize < size) {x : TestVectors} (E : x.Equal code.mAccumulatorSize)
    (hfull : size = code.mCodeSize - code.mSystematic.toNat * code.mMessageSize) :
    ecAccumulateTest A ctx mulConst acc8 code X size x =
      .ok (ExConvCode.plainAccumulateTwice A ctx mulConst code X x.x1) := by
  let seeds := if code.mAccTwice then [code.mSeed, code.mSeed ^^^ block (~~~0) (~~~0)] else [code.mSeed]
  have hfixed {accumulatorSize : ℕ} (hor : accumulatorSize = 0 ∨ accumulatorSize = code.mAccumulatorSize)
      (hmod : accumulatorSize % 8 = 0) (y : Array Block) :
      seeds.foldlM (fun x seed => ExConvCode.accumulateFixed A ctx mulConst acc8 accumulatorSize code.mAccumulatorSize X size
        seed x) y = .ok (ExConvCode.plainAccumulateTwice A ctx mulConst code X y) := by
    simp only [seeds, ExConvCode.plainAccumulateTwice, ← hfull]
    split <;> simp only [List.foldlM, ExConvCode.accumulateFixed_ok hacc hor hmod hsize, ok_bind] <;> rfl
  have href (y : Array Block) :
      seeds.foldl (fun x seed => testAccumulate A ctx mulConst code.mAccumulatorSize X size seed x) y =
        ExConvCode.plainAccumulateTwice A ctx mulConst code X y := by
    simp only [seeds, ExConvCode.plainAccumulateTwice, ← hfull]
    split <;> simp only [List.foldl, testAccumulate_eq haw]
  rw [ecAccumulateTest]
  dsimp only
  rw [hfixed (.inl rfl) rfl, ok_bind, href, E.x3, if_neg (not_not.mpr rfl)]
  split
  next h => rw [hfixed (.inr h.symm) rfl, ok_bind, E.x2 h, if_neg (not_not.mpr rfl)]
  next => rfl

/-- The reference expands as `expand` does. -/
theorem ecExpandTest_ok (hplus : ∀ x y, ctx.plus x y = x + y) (hzero : ctx.zero = 0) (hdiv : A.Divides) {c : ExpanderCode}
    (S : c.Sized) (hreg : c.mRegular = true) (sys : Bool) (n accOffset : ℕ) (x1 : Array Block) :
    ecExpandTest A ctx c sys c.mMessageSize n accOffset x1 = .ok (c.expand A ctx sys ⟨x1, accOffset⟩ 0
      (if sys then Array.ofFn fun i : Fin c.mMessageSize => read x1 i else Array.replicate c.mMessageSize 0)) := by
  have hcount : divCeil c.mExpanderWeight 2 = c.reg := by
    rw [Pprf.divCeil_two, ExpanderCode.reg, if_pos hreg]
    omega
  have huni : c.mExpanderWeight - c.reg = c.uni := by
    rw [ExpanderCode.reg, ExpanderCode.uni, if_pos hreg, if_pos hreg]
    omega
  have hstep : c.mCodeSize / c.reg = c.step := by rw [ExpanderCode.step, if_pos hreg]
  have hgen : ExpanderModd.init A (c.mSeed ^^^ block 342342134 23421341) c.step = c.regGen A := by
    rw [ExpanderCode.regGen, if_pos hreg]
  rw [ecExpandTest]
  simp only [hreg, if_true, hcount, huni, hstep, hgen]
  have href := testExpand_eq ⟨x1, accOffset⟩ A ctx c
    (if sys then Array.ofFn fun i : Fin c.mMessageSize => read x1 i else Array.replicate c.mMessageSize 0)
  rw [ExpanderCode.uniGen] at href
  rw [href]
  cases sys with
  | true => exact if_neg (not_not.mpr rfl)
  | false =>
    simp only [Bool.false_eq_true, if_false, expand_zeros ⟨x1, accOffset⟩ hplus hzero hdiv S]
    exact if_neg (not_not.mpr rfl)

/-- The first entries that `dualEncode` leaves are those of `ecExpandTest`. -/
theorem read_encoded (mulConst : Block → Block) (hplus : ∀ x y, ctx.plus x y = x + y) (hzero : ctx.zero = 0)
    (hdiv : A.Divides) {c : ExConvCode} (S : c.Sized) {x : Array Block} (hx : x.size = c.mCodeSize) {i : ℕ}
    (hi : i < c.mMessageSize) :
    let X := c.mSystematic.toNat * c.mMessageSize
    let x1 := ExConvCode.plainAccumulateTwice A ctx mulConst c X x
    read (ExConvCode.encoded A ctx mulConst c x) i = read (c.mExpander.expand A ctx c.mSystematic ⟨x1, X⟩ 0
      (if c.mSystematic then Array.ofFn fun i : Fin c.mMessageSize => read x1 i else Array.replicate c.mMessageSize 0)) i := by
  have hk := S.expanderMessage
  have hsize (X : ℕ) : (ExConvCode.plainAccumulateTwice A ctx mulConst c X x).size = c.mCodeSize := by
    rw [ExConvCode.size_plainAccumulateTwice, hx]
  cases hsys : c.mSystematic with
  | true =>
    simp only [ExConvCode.encoded, hsys, if_true, Bool.toNat_true, Nat.one_mul]
    have h := ExpanderCode.expand_mapped
      ⟨ExConvCode.plainAccumulateTwice A ctx mulConst c c.mMessageSize x, c.mMessageSize⟩ hplus hzero hdiv S.expander true
      (o := 0) (ExConvCode.plainAccumulateTwice A ctx mulConst c c.mMessageSize x)
      (by rw [hk, hsize, Nat.zero_add]; exact S.message)
    have h' := ExpanderCode.expand_mapped
      ⟨ExConvCode.plainAccumulateTwice A ctx mulConst c c.mMessageSize x, c.mMessageSize⟩ hplus hzero hdiv S.expander true
      (o := 0) (Array.ofFn fun i : Fin c.mMessageSize =>
        read (ExConvCode.plainAccumulateTwice A ctx mulConst c c.mMessageSize x) i)
      (by rw [hk, Array.size_ofFn, Nat.zero_add])
    have hread := h.mapped i (hk.symm ▸ hi)
    have hread' := h'.mapped i (hk.symm ▸ hi)
    rw [Nat.zero_add] at hread hread'
    rw [hread, hread', read_ofFn (read (ExConvCode.plainAccumulateTwice A ctx mulConst c c.mMessageSize x)) hi]
  | false =>
    simp only [ExConvCode.encoded, hsys, Bool.false_eq_true, if_false, Bool.toNat_false, Nat.zero_mul]
    have h := ExpanderCode.expand_mapped ⟨ExConvCode.plainAccumulateTwice A ctx mulConst c 0 x, 0⟩ hplus hzero hdiv S.expander
      false (o := 0) (Array.replicate c.mMessageSize 0) (by rw [hk, Array.size_replicate, Nat.zero_add])
    have hsize' := h.size.trans Array.size_replicate
    obtain ⟨-, hread⟩ := copy_spec (c.mExpander.expand A ctx false ⟨ExConvCode.plainAccumulateTwice A ctx mulConst c 0 x, 0⟩ 0
      (Array.replicate c.mMessageSize 0)) (ExConvCode.plainAccumulateTwice A ctx mulConst c 0 x) 0
      (by rw [hsize', hsize, Nat.zero_add]; exact S.message)
    exact (hread i).trans (if_pos ⟨Nat.zero_le i, by rw [hsize', Nat.zero_add]; exact hi⟩)

/-- No comparison of `EC_encode_test` fails, nor would the one past its return. -/
theorem ecEncodeTest_ok (hplus : ∀ x y, ctx.plus x y = x + y) (hzero : ctx.zero = 0) (hdiv : A.Divides)
    {acc8 : ExConvCode.AccOne8 Block} (hacc : ExConvCode.Agrees ctx acc8) {k r bw aw : ℕ} {sys : Bool}
    (T : TestSized k r bw aw sys) (seed : Block) {x : Array Block} (hx : x.size = r * k)
    (rand : ℕ → ℕ → BitVec 8) :
    ∃ y x4, ecEncodeTest A ctx mulConst acc8 seed k r bw aw sys x rand = .ok (y, x4) ∧
      ∀ i < k, read x4 i = read y i := by
  have S := T.sized seed
  have hrow := T.row
  obtain ⟨y, hy, E, hsize⟩ := run_compareRows mulConst hacc T.bits (by omega : aw < r * k) x rand
  obtain ⟨c, hc⟩ : ∃ c, c = ExConvCode.config k (r * k) bw aw sys true seed := ⟨_, rfl⟩
  have hmessage : c.mMessageSize = k := by rw [hc]; rfl
  have hsys : c.mSystematic = sys := by rw [hc]; rfl
  have haw : c.mAccumulatorSize = aw := by rw [hc]; rfl
  have hcode : c.mCodeSize = r * k := by
    rw [hc]
    exact if_neg (by omega)
  have hreg : c.mExpander.mRegular = true := by rw [hc]; rfl
  rw [← hc] at S
  have hfixed := ecAccumulateTest_ok A mulConst (X := sys.toNat * k) hacc (haw.trans_le T.bits)
    (haw.trans_lt hrow) (haw.symm ▸ E) (by rw [hcode, hsys, hmessage])
  have hexpand := ecExpandTest_ok (A := A) hplus hzero hdiv S.expander hreg sys (r * k) (sys.toNat * k)
    (ExConvCode.plainAccumulateTwice A ctx mulConst c (sys.toNat * k) y.x1)
  have hdual : c.dualEncode A ctx mulConst acc8 y.x1 = .ok _ := ExConvCode.dualEncode_ok hacc S y.x1
  rw [S.expanderMessage, hmessage] at hexpand
  have hread {i : ℕ} (hi : i < k) := read_encoded mulConst hplus hzero hdiv S
    ((hsize.trans hx).trans hcode.symm) (hi.trans_eq hmessage.symm)
  subst hmessage hsys
  refine ⟨_, _, ?_, fun i hi => hread hi⟩
  rw [ecEncodeTest]
  simp only [← hc, hy, ok_bind, hfixed, hexpand, hdual]

theorem ecEncodeTest_ok_sixty :
    let A : CodeAes := ⟨fun k x => k ^^^ x, fun x k => x ^^^ k, fun x m => x / m⟩
    ∃ y x4, ecEncodeTest A coeffCtxGF128 mulConstGF128 (ExConvCode.accOne8Sse coeffCtxGF128) (block 0 7) 30 2 7 24 true
      (Array.replicate 60 (block 0 1)) (fun i _ => BitVec.ofNat 8 i) = .ok (y, x4) ∧ ∀ i < 30, read x4 i = read y i :=
  ecEncodeTest_ok (fun _ _ => rfl) rfl (fun _ _ _ => rfl) (ExConvCode.accOne8Sse_agrees fun _ _ => rfl)
    ⟨by decide, by decide, by decide, by decide, by decide⟩ _ rfl _

end Tests
end ExtFieldPcg
