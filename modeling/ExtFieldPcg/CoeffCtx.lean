import ExtFieldPcg.F4

/-! The contexts that the VOLE classes compute in (`Tools/CoeffCtx.h`, `Coeff128.h`), and the multiplication of
    `GF(2^128)` behind the default one. -/

namespace ExtFieldPcg

/-- The functions of a context that the VOLE classes call. -/
structure CoeffCtx (F : Type) where
  plus : F → F → F
  minus : F → F → F
  mul : F → F → F
  eq : F → F → Bool
  isField : Bool
  bitSize : ℕ
  binaryDecomposition : F → ℕ → Bool
  fromBlock : Block → F
  zero : F
  one : F

/-! ### `GF(2^128)` -/

/-- `mm_gf128Mul`: the low and the high block of the product. -/
def mmGf128Mul (x y : Block) : Block × Block :=
  let t1 := x.clmulEpi64 y 0x00
  let t2 := x.clmulEpi64 y 0x10
  let t3 := x.clmulEpi64 y 0x01
  let t4 := x.clmulEpi64 y 0x11
  let t2 := t2 ^^^ t3
  (t1 ^^^ t2.slliSi128 8, t4 ^^^ t2.srliSi128 8)

def mmGf128Reduce (mul256Low mul256High : Block) : Block :=
  let modulus := block 0 0b10000111
  let tmp := mul256High.clmulEpi64 modulus 0x01
  let mul256Low := mul256Low ^^^ tmp.slliSi128 8
  let mul256High := mul256High ^^^ tmp.srliSi128 8
  mul256Low ^^^ mul256High.clmulEpi64 modulus 0x00

def gf128Mul (x y : Block) : Block :=
  let xy := mmGf128Mul x y
  mmGf128Reduce xy.1 xy.2

namespace Block

theorem slliSi128_add (x y : Block) (s : ℕ) : (x + y).slliSi128 s = x.slliSi128 s + y.slliSi128 s :=
  ext_bits (BitVec.shiftLeft_xor_distrib ..)

theorem srliSi128_add (x y : Block) (s : ℕ) : (x + y).srliSi128 s = x.srliSi128 s + y.srliSi128 s :=
  ext_bits (BitVec.ushiftRight_xor_distrib ..)

theorem ite_word_add (b : Bool) (x y : Block) :
    (if b then (x + y).hi64 else (x + y).lo64) =
      (if b then x.hi64 else x.lo64) ^^^ (if b then y.hi64 else y.lo64) := by
  cases b
  · exact lo64_add x y
  · exact hi64_add x y

theorem add_clmulEpi64 (x y z : Block) (imm : BitVec 8) :
    (x + y).clmulEpi64 z imm = x.clmulEpi64 z imm + y.clmulEpi64 z imm := by
  refine ext_bits ?_
  rw [bits_add, clmulEpi64, clmulEpi64, clmulEpi64, ← Word.clmul_xor_left, ite_word_add]

end Block

theorem mmGf128Reduce_add (l h l' h' : Block) :
    mmGf128Reduce (l + l') (h + h') = mmGf128Reduce l h + mmGf128Reduce l' h' := by
  simp only [mmGf128Reduce, Block.xor_eq_add, Block.add_clmulEpi64, Block.slliSi128_add, Block.srliSi128_add]
  abel

theorem add_gf128Mul (x y z : Block) : gf128Mul (x + y) z = gf128Mul x z + gf128Mul y z := by
  have hmul : mmGf128Mul (x + y) z = mmGf128Mul x z + mmGf128Mul y z := by
    refine Prod.ext ?_ ?_ <;>
    · simp only [mmGf128Mul, Prod.fst_add, Prod.snd_add, Block.xor_eq_add, Block.add_clmulEpi64, Block.slliSi128_add,
        Block.srliSi128_add]
      abel
  rw [gf128Mul, hmul]
  exact mmGf128Reduce_add ..

/-- The product with a fixed right factor. -/
def gf128MulHom (delta : Block) : Block →+ Block := AddMonoidHom.mk' (gf128Mul · delta) fun x y => add_gf128Mul x y delta

@[simp] theorem gf128MulHom_apply (x delta : Block) : gf128MulHom delta x = gf128Mul x delta := rfl

/-! ### Contexts on blocks -/

def coeffCtxGF2 : CoeffCtx Block where
  plus := (· ^^^ ·)
  minus := (· ^^^ ·)
  mul := (· &&& ·)
  eq x y := x == y
  isField := true
  bitSize := 128
  binaryDecomposition x i := x.bit i
  fromBlock x := x
  zero := 0
  one := block 0 1

/-- `CoeffCtxGF128`, the default context of blocks. -/
def coeffCtxGF128 : CoeffCtx Block := { coeffCtxGF2 with mul := gf128Mul }

def coeffCtxGF128F4 : CoeffCtx Block := { coeffCtxGF2 with mul := f4Mul }

/-- `CoeffCtxGF128::mulConst`, which multiplies by a constant of one word. -/
def mulConstGF128 (x : Block) : Block :=
  let y := block 0 4234123421
  let modulus := block 0 0b10000111
  let xy1 := x.clmulEpi64 y 0x00
  let xy2 := x.clmulEpi64 y 0x01
  let xy1 := xy1 ^^^ xy2.slliSi128 8
  let xy2 := xy2.srliSi128 8
  xy1 ^^^ xy2.clmulEpi64 modulus 0x00

/-- `CoeffCtxGF128_F4::mulConst`. -/
def mulConstF4 (x : Block) : Block :=
  let y := block 0 4234123421
  f4Mul x y

end ExtFieldPcg
