import ExtFieldPcg.CoeffCtx
import ExtFieldPcg.Lib.Scan
import ExtFieldPcg.Runtime

/-! The repeat-accumulate-accumulate encoder (`RAA_encode_test_PCS` of `test.h`): an injective linear map,
    `A · P₂ · A · P₁ · Rep`. -/

open Buffer

namespace ExtFieldPcg

section Code
variable {F : Type} [Inhabited F]

/-- `RAA_encode_test_PCS(n, inverse_rate)` on the message and the two shuffled tables, for arguments that are not
    negative. Both products are products of `int`s. -/
def raaEncodeTestPCS (ctx : CoeffCtx F) (n inverseRate : ℕ) (perm1 perm2 : Array ℕ) (message : Array F) :
    Except Err (Array F) := do
  let length ← int (inverseRate * n)
  let codeword := Array.replicate length (default : F)
  let tempCodeword := Array.replicate length (default : F)
  let codeword ← Loop.tryRun inverseRate (fun i codeword => do
    let start ← int (i * n)
    return copy message codeword start) codeword
  let tempCodeword := scatter length perm1 codeword tempCodeword
  let tempCodeword := scan (fun prev x => ctx.plus x prev) length tempCodeword
  let codeword := scatter length perm2 tempCodeword codeword
  return scan (fun prev x => ctx.plus x prev) length codeword

/-- A length that is an `int` bounds the start of every copy. -/
theorem copies_eq_run {n r : ℕ} (hint : r * n < 2 ^ 31) (message codeword : Array F) :
    Loop.tryRun r (fun i codeword => do
      let start ← int (i * n)
      return copy message codeword start) codeword =
        .ok (Loop.run r (fun i codeword => copy message codeword (i * n)) codeword) := by
  refine Loop.tryRun_eq_run (fun i hi t => ?_) codeword
  rw [int_ok ((Nat.mul_le_mul_right n hi.le).trans_lt hint)]
  rfl

theorem raaEncode_overflow {ctx : CoeffCtx F} {n r : ℕ} (hint : 2 ^ 31 ≤ r * n) (perm1 perm2 : Array ℕ)
    (message : Array F) : raaEncodeTestPCS ctx n r perm1 perm2 message = .error .intOverflow := by
  rw [raaEncodeTestPCS, int_error hint]
  rfl

end Code

/-! ### The stages as linear maps -/

section Stages
variable {M : Type} [AddCommGroup M] {n r : ℕ}

/-- `Rep`: the vector `r` times over. -/
def repetition (M : Type) [AddCommGroup M] (n r : ℕ) : (Fin n → M) →+ (Fin (r * n) → M) where
  toFun m i := m i.modNat
  map_zero' := rfl
  map_add' _ _ := rfl

theorem repetition_injective (hrate : 1 ≤ r) : Function.Injective (repetition M n r) := by
  intro m m' h
  funext j
  have hlt : j.val < r * n := j.isLt.trans_le (Nat.le_mul_of_pos_left n hrate)
  have hmod : (⟨j, hlt⟩ : Fin (r * n)).modNat = j := Fin.ext (Nat.mod_eq_of_lt j.isLt)
  have hj : m (⟨j, hlt⟩ : Fin (r * n)).modNat = m' (⟨j, hlt⟩ : Fin (r * n)).modNat := congrFun h ⟨j, hlt⟩
  rwa [hmod] at hj

/-- `A · P₂ · A · P₁ · Rep`. -/
noncomputable def raaMap (M : Type) [AddCommGroup M] (perm1 perm2 : Shuffled (r * n)) :
    (Fin n → M) →+ (Fin (r * n) → M) :=
  (accumulator M (r * n)).comp <| (permute M perm2.toPerm).comp <| (accumulator M (r * n)).comp <|
    (permute M perm1.toPerm).comp (repetition M n r)

theorem raaMap_apply (perm1 perm2 : Shuffled (r * n)) (m : Fin n → M) :
    raaMap M perm1 perm2 m = accumulator M (r * n) (permute M perm2.toPerm (accumulator M (r * n)
      (permute M perm1.toPerm (repetition M n r m)))) := rfl

theorem raaMap_injective (hrate : 1 ≤ r) (perm1 perm2 : Shuffled (r * n)) :
    Function.Injective (raaMap M perm1 perm2) := by
  intro m m' h
  rw [raaMap_apply, raaMap_apply] at h
  have hperm2 := accumulator_injective h
  have hacc := permute_injective _ hperm2
  have hperm1 := accumulator_injective hacc
  have hrep := permute_injective _ hperm1
  exact repetition_injective hrate hrep

/-! ### The loops -/

variable [Inhabited M]

theorem copies_spec {message codeword : Array M} (hmsg : message.size = n) (h : codeword.size = r * n) :
    (Loop.run r (fun i codeword => copy message codeword (i * n)) codeword).size = r * n ∧
      cells (r * n) (Loop.run r (fun i codeword => copy message codeword (i * n)) codeword) =
        repetition M n r (cells n message) := by
  have hrun := Loop.run_induct (fun i t => Array.size t = r * n ∧ ∀ k < i * n, read t k = read message (k % n))
    (n := r) (f := fun i codeword => copy message codeword (i * n)) (s := codeword) ⟨h, fun k hk => by simp at hk⟩ ?_
  · exact ⟨hrun.1, funext fun i => hrun.2 i i.isLt⟩
  · rintro i hi t ⟨hsize, hread⟩
    have hle : (i + 1) * n ≤ r * n := Nat.mul_le_mul_right n hi
    have hsucc : (i + 1) * n = i * n + n := Nat.succ_mul i n
    obtain ⟨hcopy, hcells⟩ := copy_spec message t (i * n) (by omega)
    refine ⟨hcopy.trans hsize, fun k hk => ?_⟩
    rw [hcells, hmsg]
    by_cases hlow : k < i * n
    · rw [if_neg (by omega), hread k hlow]
    · obtain ⟨j, rfl⟩ := Nat.exists_eq_add_of_le (Nat.le_of_not_lt hlow)
      rw [if_pos (by omega), Nat.add_sub_cancel_left, Loop.grid_mod (by omega)]

/-- Every stage starts from buffers that it overwrites, or that the stage before it filled. -/
theorem raaEncode_spec (ctx : CoeffCtx M) (hplus : ∀ x y, ctx.plus x y = x + y) (hint : r * n < 2 ^ 31)
    (perm1 perm2 : Shuffled (r * n)) {message : Array M} (hmsg : message.size = n) :
    ∃ codeword, raaEncodeTestPCS ctx n r perm1.table perm2.table message = .ok codeword ∧
      codeword.size = r * n ∧ cells (r * n) codeword = raaMap M perm1 perm2 (cells n message) := by
  have hop (prev x : M) : ctx.plus x prev = prev + x := by rw [hplus, add_comm]
  have hzeros : (Array.replicate (r * n) (default : M)).size = r * n := Array.size_replicate
  let copies := Loop.run r (fun i codeword => copy message codeword (i * n)) (Array.replicate (r * n) default)
  obtain ⟨hrepSize, hrep⟩ : copies.size = r * n ∧ cells (r * n) copies = repetition M n r (cells n message) :=
    copies_spec hmsg hzeros
  let moved := scatter (r * n) perm1.table copies (Array.replicate (r * n) default)
  obtain ⟨hperm1Size, hperm1⟩ := cells_scatter perm1 copies hzeros
  obtain ⟨haccSize, hacc⟩ := cells_scan hop hperm1Size
  obtain ⟨hperm2Size, hperm2⟩ :=
    cells_scatter perm2 (scan (fun prev x => ctx.plus x prev) (r * n) moved) hrepSize
  obtain ⟨hsize, hcode⟩ := cells_scan hop hperm2Size
  refine ⟨_, ?_, hsize, hcode.trans ?_⟩
  · simp only [raaEncodeTestPCS, int_ok hint, ok_bind, copies_eq_run hint]
    rfl
  · rw [hperm2, hacc, hperm1, hrep, raaMap_apply]

end Stages

/-! ### The encoder on blocks -/

variable {n r : ℕ}

/-- The loops compute `A · P₂ · A · P₁ · Rep`, a linear map that loses nothing of the message. -/
def EncodesRaa (perm1 perm2 : Shuffled (r * n)) : Prop :=
  ∃ encode : Array Block → Array Block,
    (∀ message, message.size = n →
      raaEncodeTestPCS coeffCtxGF128 n r perm1.table perm2.table message = .ok (encode message) ∧
      (encode message).size = r * n ∧
      cells (r * n) (encode message) =
        accumulator Block (r * n) (permute Block perm2.toPerm (accumulator Block (r * n)
          (permute Block perm1.toPerm (repetition Block n r (cells n message)))))) ∧
    (∀ m m', m.size = n → m'.size = n →
      encode (m.zipWith (· ^^^ ·) m') = (encode m).zipWith (· ^^^ ·) (encode m')) ∧
    ∀ m m', m.size = n → m'.size = n → encode m = encode m' → m = m'

theorem encodesRaa (hrate : 1 ≤ r) (hint : r * n < 2 ^ 31) (perm1 perm2 : Shuffled (r * n)) : EncodesRaa perm1 perm2 := by
  have hspec (m : Array Block) : ∃ codeword, m.size = n →
      raaEncodeTestPCS coeffCtxGF128 n r perm1.table perm2.table m = .ok codeword ∧
        codeword.size = r * n ∧ cells (r * n) codeword = raaMap Block perm1 perm2 (cells n m) := by
    by_cases hm : m.size = n
    · obtain ⟨codeword, h⟩ := raaEncode_spec coeffCtxGF128 (fun _ _ => rfl) hint perm1 perm2 hm
      exact ⟨codeword, fun _ => h⟩
    · exact ⟨m, fun h => absurd h hm⟩
  choose encode hspec using hspec
  refine ⟨encode, fun m hm => hspec m hm, fun m m' hm hm' => ?_, fun m m' hm hm' h => ?_⟩
  · have hsum : (m.zipWith (· ^^^ ·) m').size = n := by simp [hm, hm']
    obtain ⟨-, hsize, hcells⟩ := hspec m hm
    obtain ⟨-, hsize', hcells'⟩ := hspec m' hm'
    obtain ⟨-, hsumSize, hsumCells⟩ := hspec _ hsum
    have hzip : ((encode m).zipWith (· ^^^ ·) (encode m')).size = r * n := by simp [hsize, hsize']
    refine eq_of_cells_eq hsumSize hzip ?_
    rw [hsumCells, cells_zipWith Block.xor_eq_add hm hm', map_add, cells_zipWith Block.xor_eq_add hsize hsize', hcells,
      hcells']
  · refine eq_of_cells_eq hm hm' (raaMap_injective hrate perm1 perm2 ?_)
    rw [← (hspec m hm).2.2, ← (hspec m' hm').2.2, h]

/-- The encoder is what it is meant to be exactly when the length is an `int`. -/
theorem raaEncode_iff (n r : ℕ) (hrate : 1 ≤ r) :
    (∀ perm1 perm2 : Shuffled (r * n), EncodesRaa perm1 perm2) ↔ r * n < 2 ^ 31 := by
  refine ⟨fun h => ?_, encodesRaa hrate⟩
  by_contra hlarge
  obtain ⟨encode, hencode, -⟩ := h (Shuffled.sorted _) (Shuffled.sorted _)
  have hok := (hencode (Array.replicate n 0) Array.size_replicate).1
  rw [raaEncode_overflow (Nat.le_of_not_lt hlarge)] at hok
  cases hok

/-- Two blocks at rate one half. -/
theorem raaEncode_iff_two :
    EncodesRaa (n := 2) (r := 2) ⟨#[2, 0, 3, 1], by decide⟩ ⟨#[1, 3, 0, 2], by decide⟩ :=
  (raaEncode_iff 2 2 (by decide)).mpr (by decide) _ _

/-- Messages of `3 ^ 18` blocks at rate one eighth, the third size of `--RAA_PCS 18`. -/
theorem raaEncode_overflows :
    ¬ EncodesRaa (n := 3 ^ 18) (r := 8) (Shuffled.sorted _) (Shuffled.sorted _) := by
  rintro ⟨encode, hencode, -⟩
  have hok := (hencode (Array.replicate (3 ^ 18) 0) Array.size_replicate).1
  rw [raaEncode_overflow (by decide)] at hok
  cases hok

end ExtFieldPcg
