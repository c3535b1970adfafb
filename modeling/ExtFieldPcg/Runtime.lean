import ExtFieldPcg.Lib.Buffer

/-! What the code takes from its machine: the ranges of its integers, memory, and the exceptions it throws. -/

namespace ExtFieldPcg

/-- The exceptions of the program. -/
inductive Err where
  /-- `RTE_LOC`, a bare location. -/
  | rteLoc
  /-- "TernaryDpf: invalid point sharing. Expects the input points to be shared over Z_3^D where each Z_3
      elements takes up 2 bits of a the value. " -/
  | invalidPointSharing
  /-- "TernaryDpf: invalid point sharing. point is larger than 3^D " -/
  | pointTooLarge
  /-- "TernaryDpf: allocation error. " -/
  | allocationError
  /-- "Pprf domain must be even. " -/
  | pprfDomainOdd
  /-- "Pprf domain must must be at least 2. " -/
  | pprfDomainSmall
  /-- "For Interleaved output format, pointCount must be a multiple of 8 (general case not impl). " -/
  | pprfPointCount
  /-- "configure must be called first" -/
  | notConfigured
  /-- "wrong number of silent base OTs" -/
  | wrongBaseOts
  /-- "n does not match the requested number of OTs via configure(...). " -/
  | requestSize
  /-- "malicious is currently only supported for GF128 block. " -/
  | maliciousUnsupported
  /-- An exception of a channel. -/
  | channel
  /-- No exception: a floating-point value is converted to a type that does not hold it. -/
  | conversion
  /-- No exception: the value of an `int` expression is not an `int`. -/
  | intOverflow
  /-- No exception: a division by zero. -/
  | divideByZero
  /-- `std::length_error`. -/
  | lengthError
  /-- `std::bad_alloc`. -/
  | badAlloc
  /-- No exception: a party waits for a message that the other never sends. -/
  | blocked
deriving DecidableEq, Repr

@[simp] theorem ok_bind {α β : Type} (a : α) (f : α → Except Err β) : (Except.ok a >>= f) = f a := rfl

@[simp] theorem error_bind {α β : Type} (e : Err) (f : α → Except Err β) : (Except.error e >>= f) = .error e := rfl

theorem bind_eq_ok {α β : Type} {x : Except Err α} {f : α → Except Err β} {b : β} :
    (x >>= f) = .ok b ↔ ∃ a, x = .ok a ∧ f a = .ok b := by
  cases x <;> simp

/-- The range of a `u64`. -/
def u64 : ℕ := 2 ^ 64

/-- A difference of `u64` values that does not wrap around. -/
theorem sub_u64 {a b : ℕ} (h : b ≤ a) (ha : a < u64) : (a + u64 - b) % u64 = a - b := by
  rw [(by omega : a + u64 - b = a - b + u64), Nat.add_mod_right, Nat.mod_eq_of_lt (by omega)]

/-- The `int` that a `u64` is converted to. -/
def toInt (x : ℕ) : ℤ := (x : ℤ).bmod (2 ^ 32)

theorem toInt_lt (x : ℕ) : toInt x < 2 ^ 31 := by
  have h := Int.bmod_lt (x := x) (m := 2 ^ 32) (by omega)
  have heq : ((2 ^ 32 : ℕ) + 1 : ℤ) / 2 = 2 ^ 31 := by decide
  unfold toInt
  omega

theorem toInt_of_lt {x : ℕ} (h : x < 2 ^ 31) : toInt x = x := by
  have heq : ((2 ^ 32 : ℕ) : ℤ) = 4294967296 := by decide
  refine Int.bmod_eq_of_le_mul_two ?_ ?_ <;> omega

/-- A value of an `int` expression that is not negative. -/
def int (x : ℕ) : Except Err ℕ := if x < 2 ^ 31 then .ok x else .error .intOverflow

theorem int_ok {x : ℕ} (h : x < 2 ^ 31) : int x = .ok x := if_pos h

theorem int_error {x : ℕ} (h : 2 ^ 31 ≤ x) : int x = .error .intOverflow := if_neg (by omega)

/-- `for (int j = 0; j < n; ++j) s = body j s`; a counter does not reach a bound that is not an `int`. -/
def intLoop {σ : Type} (n : ℕ) (body : ℕ → σ → Except Err σ) (s : σ) : Except Err σ := do
  let n ← int n
  Loop.tryRun n body s

theorem intLoop_eq_run {σ : Type} {n : ℕ} {f : ℕ → σ → Except Err σ} {g : ℕ → σ → σ} (hn : n < 2 ^ 31)
    (h : ∀ j < n, ∀ s, f j s = .ok (g j s)) (s : σ) : intLoop n f s = .ok (Loop.run n g s) := by
  rw [intLoop, int_ok hn]
  exact Loop.tryRun_eq_run h s

theorem intLoop_error {σ : Type} {n : ℕ} (hn : 2 ^ 31 ≤ n) (f : ℕ → σ → Except Err σ) (s : σ) :
    intLoop n f s = .error .intOverflow := by
  rw [intLoop, int_error hn]
  rfl

/-- The blocks that fit in a user address space of `2^56` bytes. -/
def maxBlocks : ℕ := 2 ^ 52

def allocate (n : ℕ) : Except Err Unit := if n ≤ maxBlocks then .ok () else .error .badAlloc

theorem allocate_ok {n : ℕ} (h : n ≤ maxBlocks) : allocate n = .ok () := if_pos h

theorem allocate_error {n : ℕ} (h : maxBlocks < n) : allocate n = .error .badAlloc := if_neg (by omega)

end ExtFieldPcg
