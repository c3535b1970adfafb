import ExtFieldPcg.ExConvCode
import ExtFieldPcg.GF128

/-! The dual encoders of `EACode.h` and `ExConvCode.h` are linear: vectors that are correlated stay correlated. -/

open Buffer

namespace ExtFieldPcg

/-! ### The code of `EACode` -/

namespace EACode

def config (messageSize codeSize expanderWeight : ℕ) (seed : Block) : ExpanderCode :=
  ExpanderCode.config messageSize codeSize expanderWeight false seed

section Code
variable {F : Type} [Inhabited F] (A : CodeAes) (ctx : CoeffCtx F) (mulConst : F → F)

/-- `accumulate(x, ctx)`. -/
def accumulate (codeSize : ℕ) (x : Array F) : Except Err (Array F) :=
  if x.size ≠ codeSize then .error .rteLoc
  else .ok (scan (fun prev x => mulConst (ctx.plus x prev)) codeSize x)

/-- `dualEncode(e, w, ctx)`. -/
def dualEncode (c : ExpanderCode) (e w : Array F) : Except Err (Array F × Array F) :=
  if c.mCodeSize = 0 then .error .rteLoc
  else if e.size ≠ c.mCodeSize then .error .rteLoc
  else if w.size ≠ c.mMessageSize then .error .rteLoc
  else do
    let e ← accumulate ctx mulConst c.mCodeSize e
    .ok (e, c.expand A ctx false ⟨e, 0⟩ 0 w)

/-- `dualEncode(iter, ctx)` on the `mCodeSize` entries of a vector. -/
def dualEncodeIter (c : ExpanderCode) (e : Array F) : Except Err (Array F) := do
  let r ← dualEncode A ctx mulConst c e (Array.replicate c.mMessageSize default)
  .ok (copy r.2 r.1 0)

end Code
end EACode

/-! ### Correlated vectors -/

section Correlated
variable {F G : Type} [AddCommGroup F] [AddCommGroup G] [Inhabited F] [Inhabited G]

/-- `a = b + φ c`, entry by entry. -/
structure Correlated (φ : G →+ F) (n : ℕ) (a b : Array F) (c : Array G) : Prop where
  sizeA : a.size = n
  sizeB : b.size = n
  sizeC : c.size = n
  corr : ∀ i < n, read a i = read b i + φ (read c i)

/-- Functions on the vectors that keep the correlation. -/
def Preserves (φ : G →+ F) (n : ℕ) (f : Array F → Array F) (g : Array G → Array G) : Prop :=
  ∀ a b c, Correlated φ n a b c → Correlated φ n (f a) (f b) (g c)

/-- Contexts that `φ` goes between. -/
structure Linear (φ : G →+ F) (ctxF : CoeffCtx F) (ctxG : CoeffCtx G) (mulConstF : F → F) (mulConstG : G → G) : Prop where
  plusF : ∀ x y, ctxF.plus x y = x + y
  plusG : ∀ x y, ctxG.plus x y = x + y
  zeroF : ctxF.zero = 0
  zeroG : ctxG.zero = 0
  mulConst : ∀ x y, mulConstF (x + φ y) = mulConstF x + φ (mulConstG y)

variable {φ : G →+ F} {n : ℕ} {ctxF : CoeffCtx F} {ctxG : CoeffCtx G} {mulConstF : F → F} {mulConstG : G → G}

theorem Correlated.write {a b : Array F} {c : Array G} (C : Correlated φ n a b c) (i : ℕ) {x y : F} {z : G}
    (h : x = y + φ z) : Correlated φ n (Buffer.write a i x) (Buffer.write b i y) (Buffer.write c i z) := by
  refine ⟨by rw [size_write, C.sizeA], by rw [size_write, C.sizeB], by rw [size_write, C.sizeC], fun j hj => ?_⟩
  by_cases hij : i = j
  · subst hij
    rw [read_write_self (hj.trans_eq C.sizeA.symm), read_write_self (hj.trans_eq C.sizeB.symm),
      read_write_self (hj.trans_eq C.sizeC.symm), h]
  · rw [read_write_ne hij, read_write_ne hij, read_write_ne hij, C.corr j hj]

theorem Correlated.copy {m : ℕ} {a b u v : Array F} {c w : Array G} (C : Correlated φ n a b c) (D : Correlated φ m u v w)
    (hm : m ≤ n) : Correlated φ n (Buffer.copy u a 0) (Buffer.copy v b 0) (Buffer.copy w c 0) := by
  obtain ⟨hsizeA, ha⟩ := copy_spec u a 0 (by rw [D.sizeA, C.sizeA]; omega)
  obtain ⟨hsizeB, hb⟩ := copy_spec v b 0 (by rw [D.sizeB, C.sizeB]; omega)
  obtain ⟨hsizeC, hc⟩ := copy_spec w c 0 (by rw [D.sizeC, C.sizeC]; omega)
  refine ⟨hsizeA.trans C.sizeA, hsizeB.trans C.sizeB, hsizeC.trans C.sizeC, fun i hi => ?_⟩
  rw [ha, hb, hc, D.sizeA, D.sizeB, D.sizeC]
  split
  next hlt => exact D.corr _ (by omega)
  next => exact C.corr i hi

theorem Correlated.replicate (φ : G →+ F) (n : ℕ) (h : (default : F) = default + φ default) :
    Correlated φ n (Array.replicate n default) (Array.replicate n default) (Array.replicate n default) := by
  refine ⟨Array.size_replicate, Array.size_replicate, Array.size_replicate, fun i _ => ?_⟩
  rw [read_replicate_default, read_replicate_default]
  exact h

namespace Preserves

theorem refl (φ : G →+ F) (n : ℕ) : Preserves φ n id id := fun _ _ _ C => C

theorem comp {f f' : Array F → Array F} {g g' : Array G → Array G} (h' : Preserves φ n f' g') (h : Preserves φ n f g) :
    Preserves φ n (fun x => f' (f x)) fun x => g' (g x) := fun a b c C => h' _ _ _ (h a b c C)

theorem run {m : ℕ} {f : ℕ → Array F → Array F} {g : ℕ → Array G → Array G} (h : ∀ j < m, Preserves φ n (f j) (g j)) :
    Preserves φ n (Loop.run m f) (Loop.run m g) := by
  induction m with
  | zero => exact refl φ n
  | succ m ih => exact (h m (Nat.lt_succ_self m)).comp (ih fun j hj => h j (by omega))

theorem scan (L : Linear φ ctxF ctxG mulConstF mulConstG) :
    Preserves φ n (Buffer.scan (fun prev x => mulConstF (ctxF.plus x prev)) n)
      (Buffer.scan (fun prev x => mulConstG (ctxG.plus x prev)) n) := by
  refine run fun j hj a b c C => C.write (j + 1) ?_
  dsimp only
  rw [L.plusF, L.plusF, L.plusG, C.corr j (by omega), C.corr (j + 1) (by omega), ← L.mulConst, map_add]
  congr 1
  abel

end Preserves
end Correlated

/-! ### The expander -/

namespace ExpanderCode

section Linear
variable {F G : Type} [AddCommGroup F] [AddCommGroup G] [Inhabited F] [Inhabited G] {φ : G →+ F} {n : ℕ} {A : CodeAes}
  {code : ExpanderCode} {ctxF : CoeffCtx F} {ctxG : CoeffCtx G} {mulConstF : F → F} {mulConstG : G → G}

theorem rowSum_corr {a b : Array F} {c : Array G} (C : Correlated φ n a b c) (S : code.Sized) {start : ℕ}
    (hn : start + code.mCodeSize ≤ n) (i : ℕ) :
    code.rowSum A ⟨a, start⟩ i = code.rowSum A ⟨b, start⟩ i + φ (code.rowSum A ⟨c, start⟩ i) := by
  have hterm {m : ℕ} {index : ℕ → ℕ} (hindex : ∀ j < m, index j < code.mCodeSize) :
      ∑ j ∈ Finset.range m, Source.get ⟨a, start⟩ (index j) =
        ∑ j ∈ Finset.range m, Source.get ⟨b, start⟩ (index j) + φ (∑ j ∈ Finset.range m, Source.get ⟨c, start⟩ (index j)) := by
    rw [map_sum, ← Finset.sum_add_distrib]
    refine Finset.sum_congr rfl fun j hj => C.corr _ ?_
    have hlt := hindex j (Finset.mem_range.mp hj)
    show start + index j < n
    omega
  rw [rowSum, hterm fun j hj => regIndex_lt A S hj, hterm fun j _ => uniIndex_lt A S i j, rowSum, rowSum, map_add]
  abel

/-- Onto an output that may hold the input. -/
theorem expand_corr (L : Linear φ ctxF ctxG mulConstF mulConstG) (hdiv : A.Divides) (S : code.Sized) (add : Bool)
    {a b : Array F} {c : Array G} (C : Correlated φ n a b c) (start : ℕ) (hn : start + code.mCodeSize ≤ n) {m : ℕ}
    {u v : Array F} {w : Array G} (D : Correlated φ m u v w) (hm : code.mMessageSize ≤ m) :
    Correlated φ m (code.expand A ctxF add ⟨a, start⟩ 0 u) (code.expand A ctxF add ⟨b, start⟩ 0 v)
      (code.expand A ctxG add ⟨c, start⟩ 0 w) := by
  have ha := expand_mapped ⟨a, start⟩ (o := 0) L.plusF L.zeroF hdiv S add u (by rw [D.sizeA]; omega)
  have hb := expand_mapped ⟨b, start⟩ (o := 0) L.plusF L.zeroF hdiv S add v (by rw [D.sizeB]; omega)
  have hc := expand_mapped ⟨c, start⟩ (o := 0) L.plusG L.zeroG hdiv S add w (by rw [D.sizeC]; omega)
  refine ⟨ha.size.trans D.sizeA, hb.size.trans D.sizeB, hc.size.trans D.sizeC, fun i hi => ?_⟩
  by_cases hrow : i < code.mMessageSize
  · have hbase : rowBase add (read u i) = rowBase add (read v i) + φ (rowBase add (read w i)) := by
      cases add with
      | true => exact D.corr i hi
      | false => exact ((add_zero (0 : F)).symm.trans (congrArg _ (map_zero φ).symm))
    have hread := ha.mapped i hrow
    have hread' := hb.mapped i hrow
    have hread'' := hc.mapped i hrow
    rw [Nat.zero_add] at hread hread' hread''
    rw [hread, hread', hread'', rowSum_corr C S hn, hbase, map_add]
    abel
  · rw [ha.frame i (by omega), hb.frame i (by omega), hc.frame i (by omega), D.corr i hi]

end Linear
end ExpanderCode

/-! ### Rows of the convolution -/

namespace ExConvCode
variable {F G : Type} [AddCommGroup F] [AddCommGroup G] [Inhabited F] [Inhabited G] {φ : G →+ F} {n : ℕ}
  {ctxF : CoeffCtx F} {ctxG : CoeffCtx G} {mulConstF : F → F} {mulConstG : G → G}

theorem plusAt_preserves (L : Linear φ ctxF ctxG mulConstF mulConstG) {X i j : ℕ} (hi : X + i < n) (hj : X + j < n) :
    Preserves φ n (plusAt ctxF X i j) (plusAt ctxG X i j) := by
  refine fun a b c C => C.write (X + j) ?_
  rw [L.plusF, L.plusF, L.plusG, C.corr _ hi, C.corr _ hj, map_add]
  abel

theorem plusMulConst_preserves (L : Linear φ ctxF ctxG mulConstF mulConstG) {X i j : ℕ} (hi : X + i < n) (hj : X + j < n) :
    Preserves φ n (plusMulConst ctxF mulConstF X i j) (plusMulConst ctxG mulConstG X i j) := by
  intro a b c C
  have C' := plusAt_preserves L hi hj a b c C
  refine C'.write (X + j) ?_
  rw [C'.corr _ hj, L.mulConst]

theorem plainRow_preserves (L : Linear φ ctxF ctxG mulConstF mulConstG) {m X i size : ℕ} (hi : i < size) (hX : X + size ≤ n)
    (bit : ℕ → Bool) :
    Preserves φ n (plainRow ctxF mulConstF m X i size bit) (plainRow ctxG mulConstG m X i size bit) := by
  have hplace (k : ℕ) : X + k % size < n := by
    have hlt := Nat.mod_lt k (i.zero_le.trans_lt hi)
    omega
  refine (plusMulConst_preserves L (by omega) (hplace _)).comp (Preserves.run fun k _ => ?_)
  intro a b c C
  simp only [accBit]
  split
  · exact plusAt_preserves L (by omega) (hplace _) a b c C
  · exact C

theorem plainAccumulate_preserves (L : Linear φ ctxF ctxG mulConstF mulConstG) (m : ℕ) {X size : ℕ} (hX : X + size ≤ n)
    (bit : ℕ → ℕ → Bool) :
    Preserves φ n (plainAccumulate ctxF mulConstF m X size bit) (plainAccumulate ctxG mulConstG m X size bit) :=
  Preserves.run fun i hi => plainRow_preserves L hi hX (bit i)

/-- The sizes that `accumulate` can work with: a row ends before it comes back to its entry, and its coefficients fit in
    a buffer. -/
structure RowSized (c : ExConvCode) : Prop where
  row : c.mAccumulatorSize < c.mCodeSize - c.mSystematic.toNat * c.mMessageSize
  coefficients : c.mAccumulatorSize ≤ 8 * 4096

/-- The sizes that `dualEncode` can work with. -/
structure Sized (c : ExConvCode) : Prop extends RowSized c where
  message : c.mMessageSize ≤ c.mCodeSize
  expander : c.mExpander.Sized
  expanderMessage : c.mExpander.mMessageSize = c.mMessageSize
  expanderCode : c.mExpander.mCodeSize = c.mCodeSize - c.mSystematic.toNat * c.mMessageSize

theorem config_sized {n N expanderWeight accumulatorSize : ℕ} {systematic : Bool} (hn : n ≤ N)
    (hrow : accumulatorSize < N - systematic.toNat * n) (hcoeff : accumulatorSize ≤ 8 * 4096) (hweight : 0 < expanderWeight)
    (hreg : expanderWeight - expanderWeight / 2 ≤ N - systematic.toNat * n) (hlt : N < 2 ^ 64) (seed : Block) :
    (config n N expanderWeight accumulatorSize systematic true seed).Sized := by
  have hconfig : config n N expanderWeight accumulatorSize systematic true seed =
      ⟨ExpanderCode.config n (N - systematic.toNat * n) expanderWeight true (seed ^^^ ccBlock), seed, n, N, accumulatorSize,
        systematic, true⟩ := by
    rw [config, if_neg (by omega), Nat.mul_comm n]
  rw [hconfig]
  refine ⟨⟨hrow, hcoeff⟩, hn, ⟨?_, ?_, fun _ => hweight, hreg⟩, rfl, rfl⟩
  · exact (Nat.zero_le _).trans_lt hrow
  · exact (Nat.sub_le _ _).trans_lt hlt

section Encode
variable {F : Type} [Inhabited F] {A : CodeAes} {ctx : CoeffCtx F} {mulConst : F → F} {acc8 : AccOne8 F} {c : ExConvCode}

def plainAccumulateTwice (A : CodeAes) (ctx : CoeffCtx F) (mulConst : F → F) (c : ExConvCode) (X : ℕ) (x : Array F) :
    Array F :=
  let size := c.mCodeSize - c.mSystematic.toNat * c.mMessageSize
  let pass (seed : Block) := plainAccumulate ctx mulConst c.mAccumulatorSize X size (bitAt A seed c.mAccumulatorSize)
  if c.mAccTwice then pass (c.mSeed ^^^ block (~~~0) (~~~0)) (pass c.mSeed x) else pass c.mSeed x

@[simp] theorem size_plainAccumulateTwice (X : ℕ) (x : Array F) :
    (plainAccumulateTwice A ctx mulConst c X x).size = x.size := by
  simp only [plainAccumulateTwice]
  split <;> simp only [size_plainAccumulate]

theorem accumulate_ok (hacc : Agrees ctx acc8) (S : c.RowSized) (X : ℕ) (x : Array F) :
    c.accumulate A ctx mulConst acc8 X x = .ok (plainAccumulateTwice A ctx mulConst c X x) := by
  let size := c.mCodeSize - c.mSystematic.toNat * c.mMessageSize
  have hpass (seed : Block) (y : Array F) :
      accumulateFixed A ctx mulConst acc8 (if c.mAccumulatorSize = 24 then 24 else 0) c.mAccumulatorSize X size seed y =
        .ok (plainAccumulate ctx mulConst c.mAccumulatorSize X size (bitAt A seed c.mAccumulatorSize) y) :=
    accumulateFixed_ok hacc (by split <;> simp_all) (by split <;> rfl) S.row X seed y
  rw [accumulate, plainAccumulateTwice]
  dsimp only
  rw [hpass, ok_bind]
  split
  · exact hpass _ _
  · rfl

/-- The vector that `dualEncode` leaves. -/
def encoded (A : CodeAes) (ctx : CoeffCtx F) (mulConst : F → F) (c : ExConvCode) (e : Array F) : Array F :=
  if c.mSystematic then
    let e := plainAccumulateTwice A ctx mulConst c c.mMessageSize e
    c.mExpander.expand A ctx true ⟨e, c.mMessageSize⟩ 0 e
  else
    let e := plainAccumulateTwice A ctx mulConst c 0 e
    copy (c.mExpander.expand A ctx false ⟨e, 0⟩ 0 (Array.replicate c.mMessageSize default)) e 0

theorem dualEncode_ok (hacc : Agrees ctx acc8) (S : c.Sized) (e : Array F) :
    c.dualEncode A ctx mulConst acc8 e = .ok (encoded A ctx mulConst c e) := by
  have hrow := S.row
  rw [dualEncode, if_neg (by omega), encoded]
  split <;> rw [accumulate_ok hacc S.toRowSized, ok_bind]

end Encode

theorem plainAccumulateTwice_preserves (L : Linear φ ctxF ctxG mulConstF mulConstG) (A : CodeAes) (c : ExConvCode) {X : ℕ}
    (hX : X + (c.mCodeSize - c.mSystematic.toNat * c.mMessageSize) ≤ n) :
    Preserves φ n (plainAccumulateTwice A ctxF mulConstF c X) (plainAccumulateTwice A ctxG mulConstG c X) := by
  have hpass (seed : Block) := plainAccumulate_preserves L c.mAccumulatorSize hX (bitAt A seed c.mAccumulatorSize)
  intro a b v C
  simp only [plainAccumulateTwice]
  split
  · exact hpass _ _ _ _ (hpass _ _ _ _ C)
  · exact hpass _ _ _ _ C

theorem encoded_preserves (L : Linear φ ctxF ctxG mulConstF mulConstG) {A : CodeAes} (hdiv : A.Divides) {c : ExConvCode}
    (S : c.Sized) (hdefault : (default : F) = default + φ default) :
    Preserves φ c.mCodeSize (encoded A ctxF mulConstF c) (encoded A ctxG mulConstG c) := by
  have hmessage := S.message
  have hcode := S.expanderCode
  intro a b v C
  simp only [encoded]
  split
  next hsys =>
    rw [hsys, Bool.toNat_true, Nat.one_mul] at hcode
    have C' := plainAccumulateTwice_preserves L A c (n := c.mCodeSize) (X := c.mMessageSize)
      (by rw [hsys, Bool.toNat_true]; omega) _ _ _ C
    exact ExpanderCode.expand_corr L hdiv S.expander true C' c.mMessageSize (by omega) C' (S.expanderMessage.trans_le hmessage)
  next hsys =>
    rw [Bool.eq_false_iff.mpr hsys, Bool.toNat_false, Nat.zero_mul] at hcode
    have C' := plainAccumulateTwice_preserves L A c (n := c.mCodeSize) (X := 0) (by omega) _ _ _ C
    have D := ExpanderCode.expand_corr L hdiv S.expander false C' 0 (by omega) (Correlated.replicate φ c.mMessageSize hdefault)
      S.expanderMessage.le
    exact C'.copy D hmessage

end ExConvCode

/-! ### What the accumulator loses -/

namespace ExConvCode

section Injective
variable {M : Type} [AddCommGroup M] [Inhabited M] {ctx : CoeffCtx M} {mulConst : M → M} {n : ℕ}

theorem plusAt_injOn (hplus : ∀ x y, ctx.plus x y = x + y) {X i j : ℕ} (hij : j ≠ i) :
    Set.InjOn (plusAt ctx X i j) {x | x.size = n} := by
  intro x hx x' hx' h
  refine eq_of_write_eq (hx.trans hx'.symm) h fun hv hne => ?_
  rwa [hplus, hplus, hne _ fun h => hij (Nat.add_left_cancel h), add_left_inj] at hv

theorem plusMulConst_injOn (hplus : ∀ x y, ctx.plus x y = x + y) (hmul : Function.Injective mulConst) {X i j : ℕ}
    (hij : j ≠ i) : Set.InjOn (plusMulConst ctx mulConst X i j) {x | x.size = n} := by
  intro x hx x' hx' h
  refine plusAt_injOn hplus hij hx hx' (eq_of_write_eq ?_ h fun hv _ => hmul hv)
  rw [size_plusAt, size_plusAt]
  exact hx.trans hx'.symm

theorem plainRow_injOn (hplus : ∀ x y, ctx.plus x y = x + y) (hmul : Function.Injective mulConst) {m X i size : ℕ}
    (hi : i < size) (hm : m + 1 < size) (bit : ℕ → Bool) :
    Set.InjOn (plainRow ctx mulConst m X i size bit) {x | x.size = n} := by
  have hbit (k : ℕ) (hk : k < m) : Set.InjOn (accBit ctx X i size bit k) {x | x.size = n} := by
    intro x hx x' hx' h
    simp only [accBit] at h
    split at h
    · exact plusAt_injOn hplus (add_mod_ne hi (by omega)) hx hx' h
    · exact h
  obtain ⟨hrun, hto⟩ := Loop.run_injOn (S := {x : Array M | x.size = n}) (f := accBit ctx X i size bit) (m := m)
    (fun k _ x hx => (size_accBit bit k x).trans hx) hbit
  exact (plusMulConst_injOn hplus hmul (add_mod_ne hi hm)).comp hrun hto

theorem plainAccumulate_injOn (hplus : ∀ x y, ctx.plus x y = x + y) (hmul : Function.Injective mulConst) {m X size : ℕ}
    (hm : m + 1 < size) (bit : ℕ → ℕ → Bool) : Set.InjOn (plainAccumulate ctx mulConst m X size bit) {x | x.size = n} :=
  (Loop.run_injOn (fun i _ x hx => (size_plainRow m (bit i) x).trans hx) fun i hi => plainRow_injOn hplus hmul hi hm (bit i)).1

theorem plainAccumulateTwice_injOn (hplus : ∀ x y, ctx.plus x y = x + y) (hmul : Function.Injective mulConst) (A : CodeAes)
    {c : ExConvCode} (hm : c.mAccumulatorSize + 1 < c.mCodeSize - c.mSystematic.toNat * c.mMessageSize) (X : ℕ) :
    Set.InjOn (plainAccumulateTwice A ctx mulConst c X) {x | x.size = n} := by
  have hpass (seed : Block) := plainAccumulate_injOn (n := n) (X := X) hplus hmul hm (bitAt A seed c.mAccumulatorSize)
  intro x hx x' hx' h
  simp only [plainAccumulateTwice] at h
  split at h
  · exact hpass _ hx hx' (hpass _ ((size_plainAccumulate ..).trans hx) ((size_plainAccumulate ..).trans hx') h)
  · exact hpass _ hx hx' h

end Injective

section Blocks
variable {A : CodeAes} {ctx : CoeffCtx Block} {mulConst : Block → Block} {n : ℕ}

/-- A row that comes back to its entry clears it. -/
theorem read_plainRow_wrapped (hplus : ∀ x y, ctx.plus x y = x + y) {m X i size : ℕ} (hi : i < size) (hm : m + 1 = size)
    (bit : ℕ → Bool) {x : Array Block} (hX : X + size ≤ x.size) :
    read (plainRow ctx mulConst m X i size bit x) (X + i) = mulConst 0 := by
  have hplace : (i + 1 + m) % size = i := by rw [Nat.add_assoc, Nat.add_comm 1, hm, Nat.add_mod_right, Nat.mod_eq_of_lt hi]
  rw [plainRow, hplace, plusMulConst]
  generalize hy : Loop.run m (accBit ctx X i size bit) x = y
  have hsize : y.size = x.size := hy ▸ Loop.run_induct (fun _ y => Array.size y = x.size) rfl fun k _ y hy =>
    (size_accBit bit k y).trans hy
  rw [read_write_self (by rw [size_plusAt]; omega), plusAt, ExpanderCode.addTo, read_write_self (by omega), hplus,
    Block.add_self]

theorem read_plainAccumulate_wrapped (hplus : ∀ x y, ctx.plus x y = x + y) {m X size : ℕ} (hm : m + 1 = size)
    (bit : ℕ → ℕ → Bool) {x : Array Block} (hX : X + size ≤ x.size) :
    read (plainAccumulate ctx mulConst m X size bit x) (X + m) = mulConst 0 := by
  subst hm
  rw [plainAccumulate, Loop.run_succ]
  refine read_plainRow_wrapped hplus (Nat.lt_succ_self m) rfl (bit m) ?_
  have hsize := Loop.run_induct (fun _ y => Array.size y = x.size) (n := m) (s := x)
    (f := fun i => plainRow ctx mulConst m X i (m + 1) (bit i)) rfl fun i _ y hy => (size_plainRow m (bit i) y).trans hy
  exact hX.trans hsize.ge

theorem plainAccumulateTwice_injOn_iff (hplus : ∀ x y, ctx.plus x y = x + y) (hmul : Function.Injective mulConst)
    {c : ExConvCode} {X size : ℕ} (hsize : c.mCodeSize - c.mSystematic.toNat * c.mMessageSize = size)
    (hrow : c.mAccumulatorSize < size) (hX : X + size ≤ n) :
    Set.InjOn (plainAccumulateTwice A ctx mulConst c X) {x | x.size = n} ↔ c.mAccumulatorSize + 1 < size := by
  refine ⟨fun h => ?_, fun h => plainAccumulateTwice_injOn hplus hmul A (hsize.symm ▸ h) X⟩
  by_contra hwrap
  have hm : c.mAccumulatorSize + 1 = size := by omega
  have hread (x : Array Block) (hx : x.size = n) :
      read (plainAccumulateTwice A ctx mulConst c X x) (X + c.mAccumulatorSize) = mulConst 0 := by
    simp only [plainAccumulateTwice, hsize]
    split
    · exact read_plainAccumulate_wrapped hplus hm _ (by rw [size_plainAccumulate, hx]; exact hX)
    · exact read_plainAccumulate_wrapped hplus hm _ (by rw [hx]; exact hX)
  -- an injective function on a finite set is onto it, but no vector ends up with another entry there
  have hto (x : Array Block) (hx : x.size = n) : (plainAccumulateTwice A ctx mulConst c X x).size = n := by
    rw [size_plainAccumulateTwice, hx]
  obtain ⟨y, hy, hne⟩ : ∃ y : Array Block, y.size = n ∧ read y (X + c.mAccumulatorSize) ≠ mulConst 0 := by
    obtain ⟨w, hw⟩ : ∃ w : Block, w ≠ mulConst 0 := by
      by_contra! hall
      exact absurd ((hall 0).trans (hall (block 0 1)).symm) (by decide)
    exact ⟨Array.replicate n w, Array.size_replicate, by rwa [read_replicate (by omega)]⟩
  obtain ⟨x, hx, rfl⟩ := surjOn_of_injOn hto h hy
  exact hne (hread x hx)

/-- The accumulator keeps different vectors apart exactly where no row comes back to its own entry, at any sizes that it
    can work with. -/
theorem accumulate_lossless_iff {c : ExConvCode} (S : c.RowSized) {X : ℕ}
    (hX : X + (c.mCodeSize - c.mSystematic.toNat * c.mMessageSize) ≤ n) :
    (∀ x y : Array Block, x.size = n → y.size = n →
        c.accumulate A coeffCtxGF128 mulConstGF128 (accOne8Sse coeffCtxGF128) X x =
          c.accumulate A coeffCtxGF128 mulConstGF128 (accOne8Sse coeffCtxGF128) X y → x = y) ↔
      c.mAccumulatorSize + 1 < c.mCodeSize - c.mSystematic.toNat * c.mMessageSize := by
  have hplus : ∀ x y, coeffCtxGF128.plus x y = x + y := fun _ _ => rfl
  have hok (x : Array Block) : c.accumulate A coeffCtxGF128 mulConstGF128 (accOne8Sse coeffCtxGF128) X x = .ok _ :=
    accumulate_ok (accOne8Sse_agrees hplus) S X x
  have hiff := plainAccumulateTwice_injOn_iff (A := A) hplus mulConstGF128_injective rfl S.row hX
  rw [← hiff]
  constructor
  · intro h x hx y hy hxy
    exact h x y hx hy (by rw [hok, hok, hxy])
  · intro h x y hx hy hxy
    rw [hok, hok] at hxy
    exact h hx hy (Except.ok.inj hxy)

/-- A row of `23` coefficients on `24` entries comes back to its own, one of `22` does not. -/
theorem accumulate_lossless_iff_wrapped :
    let A : CodeAes := ⟨fun k x => k ^^^ x, fun x k => x ^^^ k, fun x m => x / m⟩
    let acc (aw : ℕ) := (config 24 48 7 aw true true (block 0 7)).accumulate A coeffCtxGF128 mulConstGF128
      (accOne8Sse coeffCtxGF128) 24
    (∀ x y : Array Block, x.size = 48 → y.size = 48 → acc 22 x = acc 22 y → x = y) ∧
      ¬ ∀ x y : Array Block, x.size = 48 → y.size = 48 → acc 23 x = acc 23 y → x = y := by
  have S (aw : ℕ) (h : aw < 24) : (config 24 48 7 aw true true (block 0 7)).RowSized := ⟨h, h.le.trans (by decide)⟩
  exact ⟨(accumulate_lossless_iff (S 22 (by decide)) (by decide)).mpr (by decide),
    fun h => absurd ((accumulate_lossless_iff (S 23 (by decide)) (by decide)).mp h) (by decide)⟩

end Blocks
end ExConvCode

/-! ### The encoder of `EACode` -/

namespace EACode

section Encode
variable {F : Type} [Inhabited F] {A : CodeAes} {ctx : CoeffCtx F} {mulConst : F → F} {c : ExpanderCode}

theorem accumulate_ok {codeSize : ℕ} {x : Array F} (h : x.size = codeSize) :
    accumulate ctx mulConst codeSize x = .ok (scan (fun prev x => mulConst (ctx.plus x prev)) codeSize x) :=
  if_neg (not_not.mpr h)

theorem dualEncode_ok (hpos : 0 < c.mCodeSize) {e w : Array F} (he : e.size = c.mCodeSize) (hw : w.size = c.mMessageSize) :
    dualEncode A ctx mulConst c e w =
      let e := scan (fun prev x => mulConst (ctx.plus x prev)) c.mCodeSize e
      .ok (e, c.expand A ctx false ⟨e, 0⟩ 0 w) := by
  rw [dualEncode, if_neg hpos.ne', if_neg (not_not.mpr he), if_neg (not_not.mpr hw), accumulate_ok he, ok_bind]

/-- The vector that `dualEncode` leaves. -/
def encoded (A : CodeAes) (ctx : CoeffCtx F) (mulConst : F → F) (c : ExpanderCode) (e : Array F) : Array F :=
  let e := scan (fun prev x => mulConst (ctx.plus x prev)) c.mCodeSize e
  copy (c.expand A ctx false ⟨e, 0⟩ 0 (Array.replicate c.mMessageSize default)) e 0

theorem dualEncodeIter_ok (hpos : 0 < c.mCodeSize) {e : Array F} (he : e.size = c.mCodeSize) :
    dualEncodeIter A ctx mulConst c e = .ok (encoded A ctx mulConst c e) := by
  rw [dualEncodeIter, dualEncode_ok hpos he Array.size_replicate, ok_bind, encoded]

end Encode

theorem encoded_preserves {F G : Type} [AddCommGroup F] [AddCommGroup G] [Inhabited F] [Inhabited G] {φ : G →+ F}
    {ctxF : CoeffCtx F} {ctxG : CoeffCtx G} {mulConstF : F → F} {mulConstG : G → G}
    (L : Linear φ ctxF ctxG mulConstF mulConstG) {A : CodeAes} (hdiv : A.Divides) {c : ExpanderCode} (S : c.Sized)
    (hmessage : c.mMessageSize ≤ c.mCodeSize) (hdefault : (default : F) = default + φ default) :
    Preserves φ c.mCodeSize (encoded A ctxF mulConstF c) (encoded A ctxG mulConstG c) := by
  intro a b v C
  have C' := Preserves.scan L a b v C
  have D := ExpanderCode.expand_corr L hdiv S false C' 0 (by omega) (Correlated.replicate φ c.mMessageSize hdefault) le_rfl
  exact C'.copy D hmessage

end EACode
end ExtFieldPcg
