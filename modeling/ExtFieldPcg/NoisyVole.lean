import ExtFieldPcg.CoeffCtx
import ExtFieldPcg.TernaryDpf

/-! The noisy VOLE of `Vole/Noisy/NoisyVoleReceiver.h` and `NoisyVoleSender.h` over any context: one OT for each bit
    of `delta`, whose messages hide `2^i * c[j]`. -/

open Buffer

namespace ExtFieldPcg

/-- A context with the powers of two that the noisy VOLE multiplies by. -/
structure NoisyCtx (F : Type) extends CoeffCtx F where
  powerOfTwo : ℕ → F

variable {F : Type} [Inhabited F]

/-! ### The code -/

namespace NoisyVole
variable (ctx : NoisyCtx F) (prng : Block → ℕ → Block)

/-- Entry `j` of the mask that an OT message `seed` expands to. -/
def mask (seed : Block) (j : ℕ) : F := ctx.fromBlock (prng seed j)

/-- One round of the first inner loop of `receive`, on `a` and `msg`: the masked `2^i * c[j]`. -/
def maskZero (c : Array F) (seed : Block) (power : F) (k j : ℕ) (st : Array F × Array F) : Array F × Array F :=
  let msg := write st.2 (k + j) (mask ctx prng seed j)
  let a := write st.1 j (ctx.plus (read st.1 j) (read msg (k + j)))
  let msg := write msg (k + j) (ctx.minus (read msg (k + j)) (ctx.mul power (read c j)))
  (a, msg)

/-- One round of the second inner loop, on `msg`. -/
def maskOne (seed : Block) (k j : ℕ) (msg : Array F) : Array F :=
  write msg (k + j) (ctx.minus (read msg (k + j)) (mask ctx prng seed j))

/-- `receive(c, a, prng, otMsg, chl, ctx)` with `a` of size `n`: the share `a` and the message it sends. -/
def receive (c : Array F) (n : ℕ) (otMsg : Array (Block × Block)) : Except Err (Array F × Array F) :=
  if c.size ≠ n then .error .rteLoc
  else if n = 0 then .error .rteLoc
  else
    let a := Array.replicate n ctx.zero
    let msg := Array.replicate (otMsg.size * n) ctx.zero
    .ok (Loop.run otMsg.size (fun i st =>
      let st := Loop.run c.size (maskZero ctx prng c (read otMsg i).1 (ctx.powerOfTwo i) (i * c.size)) st
      (st.1, Loop.run c.size (maskOne ctx prng (read otMsg i).2 (i * c.size)) st.2)) (a, msg))

/-- `send(delta, b, prng, otMsg, chl, ctx)` with `b` of size `n`, on the message `msg` that it receives. -/
def send (delta : F) (n : ℕ) (otMsg : Array Block) (msg : Array F) : Except Err (Array F) :=
  if otMsg.size ≠ ctx.bitSize then .error .rteLoc
  else .ok (Loop.run ctx.bitSize (fun i b => Loop.run n (fun j b =>
    let temp := mask ctx prng (read otMsg i) j
    let temp := if ctx.binaryDecomposition delta i then ctx.plus (read msg (i * n + j)) temp else temp
    write b j (ctx.plus (read b j) temp)) b) (Array.replicate n ctx.zero))

/-- A run of both parties on the chosen `c` and `delta`, with the OT messages `ot`: the shares `a` and `b`. The message,
    `bitSize * n` entries, is taken to fit in memory. -/
def run (ot : ℕ → Block × Block) (c : Array F) (delta : F) : Except Err (Array F × Array F) := do
  let sendOt := Array.ofFn fun i : Fin ctx.bitSize => ot i
  let recvOt := Array.ofFn fun i : Fin ctx.bitSize => TernaryDpf.key (ot i) (ctx.binaryDecomposition delta i)
  let recv ← receive ctx prng c c.size sendOt
  let b ← send ctx prng delta c.size recvOt recv.2
  .ok (recv.1, b)

/-! ### Shares in closed form -/

variable {ctx prng} {c : Array F} {n : ℕ} {delta : F}

def message (ctx : NoisyCtx F) (prng : Block → ℕ → Block) (ot : ℕ → Block × Block) (c : Array F) (i j : ℕ) : F :=
  ctx.minus (ctx.minus (mask ctx prng (ot i).1 j) (ctx.mul (ctx.powerOfTwo i) (read c j))) (mask ctx prng (ot i).2 j)

/-- What the sender adds to `b[j]` for bit `i`. -/
def term (ctx : NoisyCtx F) (prng : Block → ℕ → Block) (ot : ℕ → Block × Block) (c : Array F) (delta : F) (i j : ℕ) : F :=
  let temp := mask ctx prng (TernaryDpf.key (ot i) (ctx.binaryDecomposition delta i)) j
  if ctx.binaryDecomposition delta i then ctx.plus (message ctx prng ot c i j) temp else temp

theorem run_maskZero (seed : Block) (power : F) {k : ℕ} (a : Array F) {msg : Array F} (hmsg : k + n ≤ msg.size) :
    Loop.run n (maskZero ctx prng c seed power k) (a, msg) =
      (Loop.run n (fun j a => write a (0 + j) (ctx.plus (read a (0 + j)) (mask ctx prng seed j))) a,
        Loop.run n (fun j msg =>
          write msg (k + j) (ctx.minus (mask ctx prng seed j) (ctx.mul power (read c j)))) msg) := by
  refine Loop.run_induct (fun m t => t =
    (Loop.run m (fun j a => write a (0 + j) (ctx.plus (read a (0 + j)) (mask ctx prng seed j))) a,
      Loop.run m (fun j msg =>
        write msg (k + j) (ctx.minus (mask ctx prng seed j) (ctx.mul power (read c j)))) msg)) rfl ?_
  rintro j hj t rfl
  have hsize := (run_write_spec (fun j => ctx.minus (mask ctx prng seed j) (ctx.mul power (read c j))) k
    (by omega : k + j ≤ msg.size)).1
  rw [maskZero, read_write_self (by rw [hsize]; omega), write_write, Loop.run_succ, Loop.run_succ, Nat.zero_add]

/-- After `i` rounds the masks of the first `i` bits are summed up, and their messages are written. -/
structure Received (ctx : NoisyCtx F) (prng : Block → ℕ → Block) (ot : ℕ → Block × Block) (c : Array F) (N i : ℕ)
    (st : Array F × Array F) : Prop where
  sizeA : st.1.size = c.size
  sizeMsg : st.2.size = N * c.size
  a : ∀ j < c.size, read st.1 j = Loop.run i (fun i s => ctx.plus s (mask ctx prng (ot i).1 j)) ctx.zero
  msg : ∀ i' < i, ∀ j < c.size, read st.2 (i' * c.size + j) = message ctx prng ot c i' j

theorem Received.step {ot : ℕ → Block × Block} {N i : ℕ} {st : Array F × Array F}
    (R : Received ctx prng ot c N i st) (hi : i < N) :
    let st' := Loop.run c.size (maskZero ctx prng c (ot i).1 (ctx.powerOfTwo i) (i * c.size)) st
    Received ctx prng ot c N (i + 1) (st'.1, Loop.run c.size (maskOne ctx prng (ot i).2 (i * c.size)) st'.2) := by
  intro st'
  have hrow : i * c.size + c.size ≤ st.2.size := by
    rw [R.sizeMsg, ← Nat.succ_mul]
    exact Nat.mul_le_mul_right _ hi
  obtain ⟨hsizeA, ha⟩ := run_modify_spec (fun j s => ctx.plus s (mask ctx prng (ot i).1 j)) 0
    (by rw [Nat.zero_add, R.sizeA] : 0 + c.size ≤ st.1.size)
  obtain ⟨hsize0, hmsg0⟩ := run_write_spec
    (fun j => ctx.minus (mask ctx prng (ot i).1 j) (ctx.mul (ctx.powerOfTwo i) (read c j))) (i * c.size) hrow
  have hst : st' = _ := run_maskZero (ot i).1 (ctx.powerOfTwo i) st.1 hrow
  rw [hst]
  obtain ⟨hsize1, hmsg1⟩ := run_modify_spec (fun j x => ctx.minus x (mask ctx prng (ot i).2 j)) (i * c.size)
    (hrow.trans_eq hsize0.symm)
  refine ⟨hsizeA.trans R.sizeA, hsize1.trans (hsize0.trans R.sizeMsg), fun j hj => ?_, fun i' hi' j hj => ?_⟩
  · rw [Loop.run_succ, ← R.a j hj]
    exact (ha j).trans (if_pos (by omega))
  · refine (hmsg1 _).trans ?_
    rcases Nat.lt_succ_iff_lt_or_eq.mp hi' with hi' | rfl
    · have hbelow := Loop.grid_lt hi' hj
      rw [if_neg (by omega), hmsg0, if_neg (by omega), R.msg i' hi' j hj]
    · rw [if_pos (by omega), hmsg0, if_pos (by omega), Nat.add_sub_cancel_left, message]

theorem receive_ok (ctx : NoisyCtx F) (prng : Block → ℕ → Block) (ot : ℕ → Block × Block) {c : Array F}
    (hc : 0 < c.size) (N : ℕ) :
    ∃ st, receive ctx prng c c.size (Array.ofFn fun i : Fin N => ot i) = .ok st ∧ Received ctx prng ot c N N st := by
  refine ⟨_, by rw [receive, if_neg (by simp), if_neg (by omega)], ?_⟩
  rw [Array.size_ofFn]
  refine Loop.run_induct (Received ctx prng ot c N) ⟨Array.size_replicate, Array.size_replicate, fun j hj => ?_, by simp⟩
    fun i hi st R => ?_
  · simp [Buffer.read, hj]
  · rw [read_ofFn ot hi]
    exact R.step hi

theorem send_ok {ot : ℕ → Block × Block} {c : Array F} {st : Array F × Array F}
    (R : Received ctx prng ot c ctx.bitSize ctx.bitSize st) (delta : F) :
    ∃ b, send ctx prng delta c.size
        (Array.ofFn fun i : Fin ctx.bitSize => TernaryDpf.key (ot i) (ctx.binaryDecomposition delta i)) st.2 = .ok b ∧
      b.size = c.size ∧ ∀ j < c.size, read b j =
        Loop.run ctx.bitSize (fun i s => ctx.plus s (term ctx prng ot c delta i j)) ctx.zero := by
  refine ⟨_, by rw [send, if_neg (by simp)], ?_⟩
  refine Loop.run_induct (fun i b => Array.size b = c.size ∧ ∀ j < c.size, read b j =
    Loop.run i (fun i s => ctx.plus s (term ctx prng ot c delta i j)) ctx.zero) ⟨Array.size_replicate, fun j hj => ?_⟩ ?_
  · simp [Buffer.read, hj]
  · rintro i hi b ⟨hsize, hread⟩
    rw [read_ofFn (fun i => TernaryDpf.key (ot i) (ctx.binaryDecomposition delta i)) hi]
    have hrow := Loop.run_congr (n := c.size) (s := b) (f := fun j b =>
      let temp := mask ctx prng (TernaryDpf.key (ot i) (ctx.binaryDecomposition delta i)) j
      let temp := if ctx.binaryDecomposition delta i then ctx.plus (read st.2 (i * c.size + j)) temp else temp
      write b j (ctx.plus (read b j) temp))
      (g := fun j b => write b (0 + j) (ctx.plus (read b (0 + j)) (term ctx prng ot c delta i j))) fun j hj b => by
        simp only [R.msg i hi j hj, Nat.zero_add, term]
    obtain ⟨hsize', hread'⟩ := run_modify_spec (fun j s => ctx.plus s (term ctx prng ot c delta i j)) 0
      (by rw [Nat.zero_add, hsize] : 0 + c.size ≤ b.size)
    rw [hrow]
    refine ⟨hsize'.trans hsize, fun j hj => ?_⟩
    rw [hread', if_pos (by omega), hread j hj, Loop.run_succ, Nat.sub_zero]

/-! ### The correlation -/

/-- `val` reads the elements of the context in a group where its operations are exact, and `c * delta` is the sum of
    the products of `c` with the powers of two in `delta`. -/
structure Exact {M : Type*} [AddCommGroup M] (ctx : NoisyCtx F) (val : F → M) : Prop where
  zero : val ctx.zero = 0
  plus : ∀ x y, val (ctx.plus x y) = val x + val y
  minus : ∀ x y, val (ctx.minus x y) = val x - val y
  decompose : ∀ c delta, val (ctx.mul c delta) = ∑ i ∈ Finset.range ctx.bitSize,
    if ctx.binaryDecomposition delta i then val (ctx.mul (ctx.powerOfTwo i) c) else 0

variable {M : Type*} [AddCommGroup M] {val : F → M}

omit [Inhabited F] in
theorem Exact.val_run (E : Exact ctx val) (f : ℕ → F) (n : ℕ) :
    val (Loop.run n (fun i s => ctx.plus s (f i)) ctx.zero) = ∑ i ∈ Finset.range n, val (f i) := by
  have hsum := (Loop.run_sum (n := n) (s := ctx.zero) (f := fun i s => ctx.plus s (f i)) (fun _ => True) val
    (fun i => val (f i)) trivial fun i _ t _ => ⟨trivial, E.plus t (f i)⟩).2
  rw [hsum, E.zero, zero_add]

/-- Whichever message the bit selects, the two shares differ by the bit's part of the product. -/
theorem Exact.val_term (E : Exact ctx val) (ot : ℕ → Block × Block) (c : Array F) (delta : F) (i j : ℕ) :
    val (mask ctx prng (ot i).1 j) = val (term ctx prng ot c delta i j) +
      if ctx.binaryDecomposition delta i then val (ctx.mul (ctx.powerOfTwo i) (read c j)) else 0 := by
  rw [term]
  cases ctx.binaryDecomposition delta i
  · exact (add_zero _).symm
  · simp only [TernaryDpf.key, if_true, E.plus, message, E.minus]
    abel

/-- The shares of a run are a VOLE correlation. -/
theorem run_spec (E : Exact ctx val) (prng : Block → ℕ → Block) (ot : ℕ → Block × Block) {c : Array F} (hc : 0 < c.size)
    (delta : F) :
    ∃ a b, run ctx prng ot c delta = .ok (a, b) ∧ a.size = c.size ∧ b.size = c.size ∧
      ∀ j < c.size, val (read a j) = val (read b j) + val (ctx.mul (read c j) delta) := by
  obtain ⟨st, hst, R⟩ := receive_ok ctx prng ot hc ctx.bitSize
  obtain ⟨b, hb, hsize, hread⟩ := send_ok R delta
  refine ⟨st.1, b, by simp only [run, hst, ok_bind, hb], R.sizeA, hsize, fun j hj => ?_⟩
  rw [R.a j hj, hread j hj, E.val_run, E.val_run, E.decompose, ← Finset.sum_add_distrib]
  exact Finset.sum_congr rfl fun i _ => E.val_term ot c delta i j

theorem run_empty (ot : ℕ → Block × Block) {c : Array F} (hc : c.size = 0) (delta : F) :
    run ctx prng ot c delta = .error .rteLoc := by
  rw [run, receive, if_neg (by simp), if_pos hc, error_bind]

end NoisyVole

end ExtFieldPcg
