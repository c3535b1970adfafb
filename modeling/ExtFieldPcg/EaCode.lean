import ExtFieldPcg.GF128
import ExtFieldPcg.Lib.Scan
import ExtFieldPcg.Runtime

/-! The expand-accumulate encoder (`EA_encode_test_PCS` of `test.h`) as the product with its dense generator
    matrix. -/

open Buffer

namespace ExtFieldPcg

section Code
variable {F : Type} [Inhabited F]

/-- `x % y`; the remainder by zero is not defined. -/
def remainder (x y : ℕ) : Except Err ℕ := if y = 0 then .error .divideByZero else .ok (x % y)

/-- The loops that draw the columns and the coefficients, entry `i * nonzerocolumn + j` from the draws
    `word (i * nonzerocolumn + j)` and `coeff (i * nonzerocolumn + j)`. -/
def eaSample (ctx : CoeffCtx F) (n nonzerocolumn length : ℕ) (word : ℕ → BitVec 64) (coeff : ℕ → Block) :
    Except Err (Array ℕ × Array F) :=
  let matrixColumn := Array.replicate (n * nonzerocolumn % u64) 0
  let matrix := Array.replicate (n * nonzerocolumn % u64) (default : F)
  Loop.tryRun n (fun i s => Loop.tryRun nonzerocolumn (fun j s => do
    let column ← remainder (word (i * nonzerocolumn + j)).toNat length
    return (write s.1 ((i * nonzerocolumn + j) % u64) column,
      write s.2 ((i * nonzerocolumn + j) % u64) (ctx.fromBlock (coeff (i * nonzerocolumn + j))))) s) (matrixColumn, matrix)

def eaExpand (ctx : CoeffCtx F) (n nonzerocolumn : ℕ) (matrixColumn : Array ℕ) (matrix message codeword : Array F) :
    Array F :=
  Loop.run n (fun i codeword => Loop.run nonzerocolumn (fun j codeword =>
    let column := read matrixColumn ((i * nonzerocolumn + j) % u64)
    let temp := ctx.mul (read matrix ((i * nonzerocolumn + j) % u64)) (read message i)
    write codeword column (ctx.plus (read codeword column) temp)) codeword) codeword

/-- `EA_encode_test_PCS(n, nonzerocolumn, inverse_rate)`, with the sizes and the indices of a `u64`. -/
def eaEncodeTestPCS (ctx : CoeffCtx F) (n nonzerocolumn inverseRate : ℕ) (word : ℕ → BitVec 64) (coeff : ℕ → Block)
    (message : Array F) : Except Err (Array F) := do
  let length := n * inverseRate % u64
  let codeword := Array.replicate length ctx.zero
  let (matrixColumn, matrix) ← eaSample ctx n nonzerocolumn length word coeff
  return scan ctx.plus length (eaExpand ctx n nonzerocolumn matrixColumn matrix message codeword)

end Code

/-! ### The draws -/

section Sample
variable {F : Type} [Inhabited F] {ctx : CoeffCtx F} {n nonzerocolumn length : ℕ}
variable {word : ℕ → BitVec 64} {coeff : ℕ → Block} {message : Array F}

/-- The index of an entry of the matrix does not wrap around. -/
theorem entry_mod {i j : ℕ} (hentries : n * nonzerocolumn < u64) (hi : i < n) (hj : j < nonzerocolumn) :
    (i * nonzerocolumn + j) % u64 = i * nonzerocolumn + j :=
  Nat.mod_eq_of_lt ((Loop.grid_lt hi hj).trans hentries)

theorem remainder_ok {y : ℕ} (h : 0 < y) (x : ℕ) : remainder x y = .ok (x % y) := if_neg (by omega)

theorem eaSample_eq (hentries : n * nonzerocolumn < u64) (hlength : n * nonzerocolumn = 0 ∨ 0 < length) :
    eaSample ctx n nonzerocolumn length word coeff = .ok (Loop.run n (fun i s => Loop.run nonzerocolumn (fun j s =>
      (write s.1 (i * nonzerocolumn + j) ((word (i * nonzerocolumn + j)).toNat % length),
        write s.2 (i * nonzerocolumn + j) (ctx.fromBlock (coeff (i * nonzerocolumn + j))))) s)
      (Array.replicate (n * nonzerocolumn) 0, Array.replicate (n * nonzerocolumn) default)) := by
  rw [eaSample, Nat.mod_eq_of_lt hentries]
  refine Loop.tryRun_eq_run (fun i hi s => Loop.tryRun_eq_run (fun j hj s => ?_) s) _
  have hlt := Loop.grid_lt hi hj
  rw [entry_mod hentries hi hj, remainder_ok (by omega)]
  rfl

theorem eaSample_spec (ctx : CoeffCtx F) (word : ℕ → BitVec 64) (coeff : ℕ → Block) (hentries : n * nonzerocolumn < u64)
    (hlength : n * nonzerocolumn = 0 ∨ 0 < length) :
    ∃ matrixColumn matrix, eaSample ctx n nonzerocolumn length word coeff = .ok (matrixColumn, matrix) ∧
      ∀ t < n * nonzerocolumn, read matrixColumn t = (word t).toNat % length ∧ read matrix t = ctx.fromBlock (coeff t) := by
  have hrun := Loop.run_grid (fun m (s : Array ℕ × Array F) =>
      s.1.size = n * nonzerocolumn ∧ s.2.size = n * nonzerocolumn ∧
        ∀ t < m, read s.1 t = (word t).toNat % length ∧ read s.2 t = ctx.fromBlock (coeff t))
    (a := n) (b := nonzerocolumn) (f := fun i j s =>
      (write s.1 (i * nonzerocolumn + j) ((word (i * nonzerocolumn + j)).toNat % length),
        write s.2 (i * nonzerocolumn + j) (ctx.fromBlock (coeff (i * nonzerocolumn + j)))))
    (s := (Array.replicate (n * nonzerocolumn) 0, Array.replicate (n * nonzerocolumn) default)) (by simp) ?_
  · exact ⟨_, _, eaSample_eq hentries hlength, hrun.2.2⟩
  · rintro i hi j hj ⟨columns, matrix⟩ ⟨hcolumns, hmatrix, hread⟩
    have hlt := Loop.grid_lt hi hj
    refine ⟨by rw [size_write, hcolumns], by rw [size_write, hmatrix], fun t ht => ?_⟩
    rcases Nat.lt_succ_iff_lt_or_eq.mp ht with ht | rfl
    · rw [read_write_ne (by omega), read_write_ne (by omega)]
      exact hread t ht
    · exact ⟨read_write_self (hlt.trans_eq hcolumns.symm) _, read_write_self (hlt.trans_eq hmatrix.symm) _⟩

theorem size_eaExpand (matrixColumn : Array ℕ) (matrix codeword : Array F) :
    (eaExpand ctx n nonzerocolumn matrixColumn matrix message codeword).size = codeword.size := by
  refine Loop.run_induct (fun _ t => Array.size t = codeword.size) rfl fun i _ t ht => ?_
  exact Loop.run_induct (fun _ t => Array.size t = codeword.size) ht fun j _ t ht => (size_write t _ _).trans ht

theorem size_eaEncode {r : ℕ} {codeword : Array F}
    (h : eaEncodeTestPCS ctx n nonzerocolumn r word coeff message = .ok codeword) : codeword.size = n * r % u64 := by
  obtain ⟨⟨columns, matrix⟩, -, h⟩ := bind_eq_ok.mp h
  rw [← Except.ok.inj h]
  exact (size_scan _ _ _).trans ((size_eaExpand _ _ _).trans Array.size_replicate)

theorem eaEncode_divideByZero (hentries : 0 < n * nonzerocolumn) {r : ℕ} (hlength : n * r % u64 = 0) :
    eaEncodeTestPCS ctx n nonzerocolumn r word coeff message = .error .divideByZero := by
  have hn := Nat.pos_of_mul_pos_right hentries
  have hcolumns := Nat.pos_of_mul_pos_left hentries
  rw [eaEncodeTestPCS, hlength, eaSample, Loop.tryRun_error (Loop.tryRun_error rfl hcolumns) hn]
  rfl

end Sample

/-! ### The codeword -/

section Encode
variable {M : Type} [AddCommGroup M] [Inhabited M] {ctx : CoeffCtx M} {n nonzerocolumn r : ℕ}
variable {word : ℕ → BitVec 64} {coeff : ℕ → Block} {message : Array M}

/-- Whatever columns coincide, a slot ends with the sum of the products that went there. -/
theorem eaExpand_spec (hplus : ∀ x y, ctx.plus x y = x + y) (hentries : n * nonzerocolumn < u64)
    (matrix message : Array M) {matrixColumn : Array ℕ} {codeword : Array M}
    (hcol : ∀ t < n * nonzerocolumn, read matrixColumn t < codeword.size) (k : ℕ) :
    read (eaExpand ctx n nonzerocolumn matrixColumn matrix message codeword) k = read codeword k +
      ∑ i ∈ Finset.range n, ∑ j ∈ Finset.range nonzerocolumn,
        if read matrixColumn (i * nonzerocolumn + j) = k then
          ctx.mul (read matrix (i * nonzerocolumn + j)) (read message i) else 0 := by
  refine (Loop.run_sum (fun t : Array M => t.size = codeword.size) (read · k)
    (fun i => ∑ j ∈ Finset.range nonzerocolumn, if read matrixColumn (i * nonzerocolumn + j) = k then
      ctx.mul (read matrix (i * nonzerocolumn + j)) (read message i) else 0) rfl fun i hi t ht => ?_).2
  rw [Loop.run_congr (g := fun j codeword =>
    write codeword (read matrixColumn (i * nonzerocolumn + j)) (ctx.plus
      (read codeword (read matrixColumn (i * nonzerocolumn + j)))
      (ctx.mul (read matrix (i * nonzerocolumn + j)) (read message i))))
    fun j hj t => by rw [entry_mod hentries hi hj]]
  obtain ⟨hsize, hread⟩ := run_addAt_spec hplus (fun j => read matrixColumn (i * nonzerocolumn + j))
    (fun j => ctx.mul (read matrix (i * nonzerocolumn + j)) (read message i)) (n := nonzerocolumn) (v := t)
    fun j hj => (hcol _ (Loop.grid_lt hi hj)).trans_eq ht.symm
  exact ⟨hsize.trans ht, hread k⟩

theorem eaEncode_spec (ctx : CoeffCtx M) (word : ℕ → BitVec 64) (coeff : ℕ → Block) (message : Array M)
    (hplus : ∀ x y, ctx.plus x y = x + y) (hzero : ctx.zero = 0) (hsizes : n * r < u64)
    (hentries : n * nonzerocolumn < u64) (hlength : n * nonzerocolumn = 0 ∨ 0 < n * r) :
    ∃ codeword, eaEncodeTestPCS ctx n nonzerocolumn r word coeff message = .ok codeword ∧ codeword.size = n * r ∧
      ∀ i < n * r, read codeword i =
        ∑ x ∈ Finset.range n, ∑ y ∈ Finset.range nonzerocolumn,
          if (word (x * nonzerocolumn + y)).toNat % (n * r) ≤ i then
            ctx.mul (ctx.fromBlock (coeff (x * nonzerocolumn + y))) (read message x) else 0 := by
  obtain ⟨columns, matrix, hsample, hdraw⟩ := eaSample_spec ctx word coeff hentries hlength
  have hsize : (eaExpand ctx n nonzerocolumn columns matrix message (Array.replicate (n * r) ctx.zero)).size = n * r :=
    (size_eaExpand columns matrix _).trans Array.size_replicate
  obtain ⟨hscan, hsum⟩ := scan_spec hplus hsize.ge
  refine ⟨_, by rw [eaEncodeTestPCS, Nat.mod_eq_of_lt hsizes, hsample]; rfl, hscan.trans hsize,
    fun i hi => (hsum i hi).trans ?_⟩
  have hcol (t : ℕ) (ht : t < n * nonzerocolumn) : read columns t < (Array.replicate (n * r) ctx.zero).size := by
    rw [(hdraw t ht).1, Array.size_replicate]
    exact Nat.mod_lt _ (by omega)
  have hslot (k : ℕ) (hk : k ∈ Finset.range (i + 1)) := by
    have hlt : k < n * r := by
      have := Finset.mem_range.mp hk
      omega
    have hread := eaExpand_spec hplus hentries matrix message hcol k
    rwa [(read_replicate hlt ctx.zero).trans hzero, zero_add] at hread
  rw [Finset.sum_congr rfl hslot, sum_slots]
  refine Finset.sum_congr rfl fun x hx => Finset.sum_congr rfl fun y hy => ?_
  have ht := Loop.grid_lt (Finset.mem_range.mp hx) (Finset.mem_range.mp hy)
  rw [(hdraw _ ht).1, (hdraw _ ht).2]

end Encode

/-! ### The encoder on blocks -/

theorem gf128Mul_sum (s : Block) {ι : Type} (t : Finset ι) (f : ι → Block) :
    gf128Mul s (∑ x ∈ t, f x) = ∑ x ∈ t, gf128Mul s (f x) :=
  map_sum (AddMonoidHom.mk' (gf128Mul s) (gf128Mul_add s)) f t

theorem gf128Mul_zero (s : Block) : gf128Mul s 0 = 0 := gf128Mul_sum s (∅ : Finset ℕ) 0

/-- The encoder multiplies by the matrix whose entry `(i, x)` sums the coefficients of row `x` with a column up to
    `i`, so it is linear over `gf128Mul`. -/
def EncodesDense (n nonzerocolumn r : ℕ) (word : ℕ → BitVec 64) (coeff : ℕ → Block) : Prop :=
  ∃ encode : Array Block → Array Block,
    (∀ message, eaEncodeTestPCS coeffCtxGF128 n nonzerocolumn r word coeff message = .ok (encode message) ∧
      (encode message).size = n * r ∧ ∀ i < n * r, read (encode message) i =
        ∑ x ∈ Finset.range n, ∑ y ∈ Finset.range nonzerocolumn,
          if (word (x * nonzerocolumn + y)).toNat % (n * r) ≤ i then
            gf128Mul (coeff (x * nonzerocolumn + y)) (read message x) else 0) ∧
    ∀ (s : Block) (m m' : Array Block), m.size = n → m'.size = n →
      encode ((m.map (gf128Mul s)).zipWith (· ^^^ ·) m') =
        ((encode m).map (gf128Mul s)).zipWith (· ^^^ ·) (encode m')

section Dense
variable {n nonzerocolumn r : ℕ} {word : ℕ → BitVec 64} {coeff : ℕ → Block}

theorem encodesDense (hsizes : n * r < u64) (hentries : n * nonzerocolumn < u64)
    (hlength : n * nonzerocolumn = 0 ∨ 0 < n * r) : EncodesDense n nonzerocolumn r word coeff := by
  choose encode hok hspec using fun message : Array Block =>
    eaEncode_spec coeffCtxGF128 word coeff message (fun _ _ => rfl) rfl hsizes hentries hlength
  refine ⟨encode, fun message => ⟨hok message, hspec message⟩, fun s m m' hm hm' => ?_⟩
  have hsize : (((encode m).map (gf128Mul s)).zipWith (· ^^^ ·) (encode m')).size = n * r := by
    simp [(hspec m).1, (hspec m').1]
  refine ext_read ((hspec _).1.trans hsize.symm) fun i hi => ?_
  rw [(hspec _).1] at hi
  have him : i < (encode m).size := hi.trans_eq (hspec m).1.symm
  rw [(hspec _).2 i hi, read_zipWith _ (by simpa using him) (hi.trans_eq (hspec m').1.symm), read_map _ him,
    (hspec m).2 i hi, (hspec m').2 i hi, Block.xor_eq_add, gf128Mul_sum, ← Finset.sum_add_distrib]
  refine Finset.sum_congr rfl fun x hx => ?_
  have hx := Finset.mem_range.mp hx
  rw [gf128Mul_sum, ← Finset.sum_add_distrib]
  refine Finset.sum_congr rfl fun y _ => ?_
  simp only [coeffCtxGF128]
  by_cases hcol : (word (x * nonzerocolumn + y)).toNat % (n * r) ≤ i
  · rw [if_pos hcol, if_pos hcol, if_pos hcol, read_zipWith _ (by simpa [hm] using hx) (hx.trans_eq hm'.symm),
      read_map _ (hx.trans_eq hm.symm), Block.xor_eq_add, gf128Mul_add, gf128Mul_left_comm]
  · rw [if_neg hcol, if_neg hcol, if_neg hcol, gf128Mul_zero, add_zero]

/-- The encoder is what it is meant to be exactly when its length does not wrap around, and is not zero where there is
    a column to draw. -/
theorem eaEncode_dense_iff (hentries : n * nonzerocolumn < u64) :
    EncodesDense n nonzerocolumn r word coeff ↔ n * r < u64 ∧ (n * nonzerocolumn = 0 ∨ 0 < n * r) := by
  refine ⟨fun ⟨encode, hencode, _⟩ => ?_, fun ⟨hsizes, hlength⟩ => encodesDense hsizes hentries hlength⟩
  obtain ⟨hok, hsize, -⟩ := hencode #[]
  have hsizes : n * r < u64 := by
    rw [← hsize, size_eaEncode hok]
    exact Nat.mod_lt _ (by decide)
  refine ⟨hsizes, ?_⟩
  by_contra hzero
  rw [eaEncode_divideByZero (by omega) (by rw [Nat.mod_eq_of_lt hsizes]; omega)] at hok
  cases hok

/-- Two rows that meet in one slot, and a scalar on the first message. -/
theorem eaEncode_dense_iff_two : EncodesDense 2 2 2 (fun _ => 5) fun t => block 0 (BitVec.ofNat 64 (t + 1)) :=
  (eaEncode_dense_iff (by decide)).mpr (by decide)

/-- Three rows whose length is 2 modulo `2 ^ 64`. -/
theorem eaEncode_wraps : ¬ EncodesDense 3 1 6148914691236517206 (fun _ => 0) fun _ => block 0 1 := by
  rintro ⟨encode, hencode, -⟩
  obtain ⟨hok, hsize, -⟩ := hencode #[block 0 1, 0, 0]
  rw [size_eaEncode hok] at hsize
  exact absurd hsize (by decide)

end Dense
end ExtFieldPcg
