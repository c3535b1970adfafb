import Mathlib.Data.Nat.Size
import ExtFieldPcg.TernaryDpf

/-! The state of the punctured PRF of `Tools/Pprf/RegularPprf.h` around its expansion: its configuration, base
    OTs and choice bits, and where its points land in the interleaved output. -/

open Buffer

namespace ExtFieldPcg

/-! ### Both parties -/

/-- `log2ceil(x)`, the bit width of `x - 1`. -/
def log2ceil (x : ℕ) : ℕ := Nat.size (x - 1)

/-- What sender and receiver hold; `β` is the type of one base OT. -/
structure RegularPprf (β : Type) where
  mDomain : ℕ := 0
  mDepth : ℕ := 0
  mPntCount : ℕ := 0
  mBaseOTs : Array β := #[]

namespace RegularPprf
variable {β : Type}

def configure (domainSize pointCount : ℕ) : Except Err (RegularPprf β) :=
  if domainSize % 2 = 1 then .error .pprfDomainOdd
  else if domainSize < 2 then .error .pprfDomainSmall
  else .ok { mDomain := domainSize, mDepth := log2ceil domainSize, mPntCount := pointCount, mBaseOTs := #[] }

theorem configure_ok {domainSize pointCount : ℕ} (heven : domainSize % 2 = 0) (htwo : 2 ≤ domainSize) :
    configure (β := β) domainSize pointCount = .ok ⟨domainSize, log2ceil domainSize, pointCount, #[]⟩ := by
  rw [configure, if_neg (by omega), if_neg (by omega)]

def baseOtCount (g : RegularPprf β) : ℕ := g.mDepth * g.mPntCount

def hasBaseOts (g : RegularPprf β) : Bool := g.mBaseOTs.size ≠ 0

/-- `setBase(baseMessages)`; `rows` is the number of rows of the matrix of base OTs. -/
def setBase [Inhabited β] (g : RegularPprf β) (rows : ℕ) (baseMessages : Array β) : Except Err (RegularPprf β) :=
  if g.baseOtCount ≠ baseMessages.size then .error .rteLoc
  else .ok { g with mBaseOTs := Array.ofFn fun i : Fin (rows * g.mDepth) => read baseMessages i }

end RegularPprf

/-- `validateExpandFormat(Interleaved, output, domain, pntCount)`. -/
def validateExpandFormat (outputSize domain pntCount : ℕ) : Except Err Unit :=
  if pntCount % 8 ≠ 0 then .error .pprfPointCount
  else if outputSize ≠ domain * pntCount then .error .rteLoc
  else .ok ()

theorem validateExpandFormat_ok (domain : ℕ) : validateExpandFormat (domain * 64) domain 64 = .ok () := by
  rw [validateExpandFormat, if_neg (by decide), if_neg (by simp)]

/-! ### The receiver -/

/-- `RegularPprfReceiver`; row `i` of the choice bits is the path of point `i`, lowest bit first. -/
structure RegularPprfReceiver extends RegularPprf Block where
  mBaseChoices : Rows Bool := fun _ _ => false

namespace RegularPprfReceiver

/-- `sampleChoiceBits(prng)`; `words i` is the word drawn for point `i`. -/
def sampleChoiceBits (g : RegularPprfReceiver) (words : ℕ → ℕ) : RegularPprfReceiver :=
  { g with mBaseChoices := fun i j => (words i % g.mDomain).testBit j }

def leafPoint (g : RegularPprfReceiver) (j : ℕ) : ℕ :=
  Loop.run g.mDepth (fun k p => p ||| (g.mBaseChoices j k).toNat <<< k) 0

/-- Where a leaf lies in the interleaved output, which mixes eight trees. -/
def interleave (mDomain j leaf : ℕ) : ℕ := (j / 8 * mDomain + leaf) * 8 + j % 8

def getPoints (g : RegularPprfReceiver) : Array ℕ :=
  Array.ofFn fun j : Fin g.mPntCount => interleave g.mDomain j (g.leafPoint j)

/-! ### Points -/

theorem run_or_testBit (n m : ℕ) : Loop.run m (fun k p => p ||| (n.testBit k).toNat <<< k) 0 = n % 2 ^ m := by
  induction m with
  | zero => simp [Nat.mod_one]
  | succ m ih =>
    rw [Loop.run_succ, ih, Nat.or_comm, ← Nat.shiftLeft_add_eq_or_of_lt (Nat.mod_lt _ (by positivity)),
      Nat.toNat_testBit, Nat.shiftLeft_eq, Nat.mod_pow_succ, mul_comm, add_comm]

theorem le_two_pow_log2ceil (n : ℕ) : n ≤ 2 ^ log2ceil n := by
  have h := Nat.lt_size_self (n - 1)
  rw [log2ceil]
  omega

theorem leafPoint_sampleChoiceBits (g : RegularPprfReceiver) (words : ℕ → ℕ) (hdomain : 0 < g.mDomain)
    (hdepth : g.mDepth = log2ceil g.mDomain) (j : ℕ) :
    (g.sampleChoiceBits words).leafPoint j = words j % g.mDomain := by
  have hlt := Nat.mod_lt (words j) hdomain
  exact (run_or_testBit _ _).trans (Nat.mod_eq_of_lt (hlt.trans_le (hdepth ▸ le_two_pow_log2ceil _)))

theorem interleave_inj {mDomain i j p q : ℕ} (hp : p < mDomain) (hq : q < mDomain)
    (h : interleave mDomain i p = interleave mDomain j q) : i = j ∧ p = q := by
  have hmod : i % 8 = j % 8 := by
    unfold interleave at h
    omega
  have hbatch : i / 8 * mDomain + p = j / 8 * mDomain + q := by
    unfold interleave at h
    omega
  have hdiv : i / 8 = j / 8 := by
    have hd := congrArg (· / mDomain) hbatch
    simp only [Nat.mul_comm _ mDomain, Nat.mul_add_div (by omega : 0 < mDomain), Nat.div_eq_of_lt hp,
      Nat.div_eq_of_lt hq] at hd
    omega
  rw [hdiv] at hbatch
  omega

/-- The places of `n` trees fill `n` times the domain, when the trees come in batches of eight. -/
theorem interleave_lt {mDomain j p n : ℕ} (hp : p < mDomain) (hn : n % 8 = 0) (hj : j < n) :
    interleave mDomain j p < mDomain * n := by
  have hb : j / 8 + 1 ≤ n / 8 := by omega
  have hle : (j / 8 + 1) * mDomain ≤ n / 8 * mDomain := Nat.mul_le_mul_right mDomain hb
  have hn : n / 8 * 8 = n := by omega
  rw [Nat.succ_mul] at hle
  unfold interleave
  calc (j / 8 * mDomain + p) * 8 + j % 8 < (j / 8 * mDomain + mDomain) * 8 := by omega
    _ ≤ n / 8 * mDomain * 8 := Nat.mul_le_mul_right 8 hle
    _ = mDomain * (n / 8 * 8) := by ring
    _ = mDomain * n := by rw [hn]

end RegularPprfReceiver
end ExtFieldPcg
