import ExtFieldPcg.Lib.Clmul

/-! Parallel bit deposit and extract: the bits of a word against the set positions of a mask. -/

namespace Word

variable {w : ℕ}

/-- The set positions of `mask`, lowest first. -/
def positions (mask : BitVec w) : List ℕ := (List.range w).filter fun m => mask.getLsbD m

def rank (mask : BitVec w) (m : ℕ) : ℕ := (List.range m).countP fun j => mask.getLsbD j

/-- Deposit: set position number `k` of `mask` takes bit `k` of `x`. -/
def pdep (x mask : BitVec w) : BitVec w := ofBits w fun m => mask.getLsbD m && x.getLsbD (rank mask m)

/-- Extract: bit `k` of the result is the bit of `x` at set position number `k` of `mask`. -/
def pext (x mask : BitVec w) : BitVec w := ofBits w fun k => (positions mask)[k]?.any fun m => x.getLsbD m

theorem getLsbD_pdep (x mask : BitVec w) {m : ℕ} (h : m < w) :
    (pdep x mask).getLsbD m = (mask.getLsbD m && x.getLsbD (rank mask m)) := by
  rw [pdep, getLsbD_ofBits _ h]

theorem getLsbD_pext (x mask : BitVec w) {k : ℕ} (h : k < w) :
    (pext x mask).getLsbD k = (positions mask)[k]?.any fun m => x.getLsbD m := by
  rw [pext, getLsbD_ofBits _ h]

end Word
