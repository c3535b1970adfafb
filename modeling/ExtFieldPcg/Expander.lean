import ExtFieldPcg.CoeffCtx
import ExtFieldPcg.ExpanderModd
import ExtFieldPcg.Lib.Scan
import ExtFieldPcg.Lib.Ternary

/-! The expander of the codes (`ExpanderCode` of `Tools/ExConvCode/Expander.h`): every entry of the output is a sum of
    entries of the input at drawn indices. -/

open Buffer

namespace ExtFieldPcg

/-! ### The code -/

structure ExpanderCode where
  mSeed : Block := 0
  mMessageSize : ℕ := 0
  mCodeSize : ℕ := 0
  mExpanderWeight : ℕ := 0
  mRegular : Bool := true

namespace ExpanderCode

def config (messageSize codeSize expanderWeight : ℕ) (regularExpander : Bool) (seed : Block) : ExpanderCode :=
  ⟨seed, messageSize, codeSize, expanderWeight, regularExpander⟩

/-- The number of terms from regions of their own. -/
def reg (c : ExpanderCode) : ℕ := if c.mRegular then c.mExpanderWeight - c.mExpanderWeight / 2 else 0

def uni (c : ExpanderCode) : ℕ := if c.mRegular then c.mExpanderWeight / 2 else c.mExpanderWeight

def step (c : ExpanderCode) : ℕ := if c.mRegular then c.mCodeSize / c.reg else 0

def uniGen (A : CodeAes) (c : ExpanderCode) : ExpanderModd := ExpanderModd.init A c.mSeed c.mCodeSize

def regGen (A : CodeAes) (c : ExpanderCode) : ExpanderModd :=
  if c.mRegular then ExpanderModd.init A (c.mSeed ^^^ block 342342134 23421341) c.step else {}

section Code
variable {F : Type} [Inhabited F] (A : CodeAes) (ctx : CoeffCtx F)

/-- The memory at `input` begins at entry `start`. -/
structure Source (F : Type) where
  mem : Array F
  start : ℕ

def Source.get (input : Source F) (i : ℕ) : F := read input.mem (input.start + i)

/-- `ctx.plus(out[o], out[o], in)`. -/
def addTo (o : ℕ) (x : F) (out : Array F) : Array F := write out o (ctx.plus (read out o) x)

/-- `rr[p] = gen.get() + off` for the first `n` rows. -/
def drawRows (n off : ℕ) (gen : ExpanderModd) : (ℕ → ℕ) × ExpanderModd :=
  Loop.run n (fun p s => (Function.update s.1 p ((s.2.get A).1 + off), (s.2.get A).2)) (fun _ => 0, gen)

/-- Term `j` of eight rows: the indices, and then the sums. -/
def addEight (input : Source F) (o off : ℕ) (st : Array F × ExpanderModd) : Array F × ExpanderModd :=
  let rr := drawRows A 8 off st.2
  (Loop.run 8 (fun p out => addTo ctx (o + p) (input.get (rr.1 p)) out) st.1, rr.2)

def addOne (input : Source F) (o off : ℕ) (st : Array F × ExpanderModd) : Array F × ExpanderModd :=
  (addTo ctx o (input.get ((st.2.get A).1 + off)) st.1, (st.2.get A).2)

/-- `ctx.zero(out + o, out + o + n)`. -/
def zeroRows (o n : ℕ) (out : Array F) : Array F := Loop.run n (fun p out => write out (o + p) ctx.zero) out

structure Rows (F : Type) where
  out : Array F
  reg : ExpanderModd
  uni : ExpanderModd

/-- The terms of one row or of eight: `body` adds the terms with one number. -/
def addTerms (c : ExpanderCode) (body : ℕ → Array F × ExpanderModd → Array F × ExpanderModd) (st : Rows F) : Rows F :=
  let r := Loop.run c.reg (fun j => body (j * c.step)) (st.out, st.reg)
  let u := Loop.run c.uni (fun _ => body 0) (r.1, st.uni)
  ⟨u.1, r.2, u.2⟩

/-- `expand<F, CoeffCtx, add>(input, output, ctx)` for an output that begins at entry `start`; the two do not overlap. -/
def expand (c : ExpanderCode) (add : Bool) (input : Source F) (start : ℕ) (output : Array F) : Array F :=
  let main := c.mMessageSize / 8 * 8
  let st := Loop.run (c.mMessageSize / 8) (fun b st =>
    let st := if add then st else { st with out := zeroRows ctx (start + 8 * b) 8 st.out }
    c.addTerms (addEight A ctx input (start + 8 * b)) st) ⟨output, c.regGen A, c.uniGen A⟩
  let st := if add then st else { st with out := zeroRows ctx (start + main) (c.mMessageSize - main) st.out }
  (Loop.run (c.mMessageSize - main) (fun i st => c.addTerms (addOne A ctx input (start + (main + i))) st) st).out

/-- `getMatrix()`; entry `(i, j)` is at `i * mExpanderWeight + j`. -/
def getMatrix (c : ExpanderCode) : Array ℕ :=
  let w := c.mExpanderWeight
  let main := c.mMessageSize / 8 * 8
  let step := if c.mRegular then c.mCodeSize / w else 0
  let prng := ExpanderModd.init A c.mSeed (if c.mRegular then c.mCodeSize / w else c.mCodeSize)
  let entry (i j : ℕ) (st : Array ℕ × ExpanderModd) : Array ℕ × ExpanderModd :=
    (write st.1 (i * w + j) ((st.2.get A).1 + step * j), (st.2.get A).2)
  let st := Loop.run (c.mMessageSize / 8) (fun b st =>
    Loop.run w (fun j st => Loop.run 8 (fun p => entry (8 * b + p) j) st) st) (Array.replicate (c.mMessageSize * w) 0, prng)
  (Loop.run (c.mMessageSize - main) (fun i st => Loop.run w (fun j => entry (main + i) j) st) st).1

/-! ### Terms one by one -/

section Terms
variable {A : CodeAes} {ctx : CoeffCtx F} {input : Source F}

/-- Term `j` of `s` rows, drawn and added one by one. -/
def addRows (A : CodeAes) (ctx : CoeffCtx F) (input : Source F) (o s off : ℕ) (st : Array F × ExpanderModd) :
    Array F × ExpanderModd :=
  Loop.run s (fun p => addOne A ctx input (o + p) off) st

theorem addOne_eq (o off : ℕ) : addOne A ctx input o off = addRows A ctx input o 1 off := rfl

theorem drawRows_succ (n off : ℕ) (gen : ExpanderModd) :
    drawRows A (n + 1) off gen = (Function.update (drawRows A n off gen).1 n (((drawRows A n off gen).2.get A).1 + off),
      ((drawRows A n off gen).2.get A).2) := rfl

/-- That eight indices are drawn before their terms are added makes no difference. -/
theorem addEight_eq (o off : ℕ) : addEight A ctx input o off = addRows A ctx input o 8 off := by
  funext st
  have hrun (n : ℕ) : addRows A ctx input o n off st =
      (Loop.run n (fun p out => addTo ctx (o + p) (input.get ((drawRows A n off st.2).1 p)) out) st.1,
        (drawRows A n off st.2).2) := by
    induction n with
    | zero => rfl
    | succ n ih =>
      rw [addRows, Loop.run_succ, ← addRows, ih, addOne, Loop.run_succ, drawRows_succ]
      refine Prod.ext ?_ rfl
      dsimp only
      rw [Function.update_self]
      refine congrArg _ (Loop.run_congr (fun p hp out => ?_) _)
      rw [Function.update_of_ne hp.ne]
  exact (hrun 8).symm

end Terms
end Code

/-! ### The sums -/

section Sums
variable {F : Type} [Inhabited F] [AddCommGroup F] {A : CodeAes} {ctx : CoeffCtx F} (input : Source F) {seed : Block}
  {m k s w o : ℕ}

omit [AddCommGroup F] in
theorem run_addOne (ctx : CoeffCtx F) (hdiv : A.Divides) (place off : ℕ → ℕ) (n : ℕ) (out : Array F) {g : ExpanderModd}
    (G : ExpanderModd.At A seed m k g) :
    (Loop.run n (fun x => addOne A ctx input (place x) (off x)) (out, g)).1 = Loop.run n (fun x out =>
        addTo ctx (place x) (input.get (ExpanderModd.draw A seed m (k + x) + off x)) out) out ∧
      ExpanderModd.At A seed m (k + n) (Loop.run n (fun x => addOne A ctx input (place x) (off x)) (out, g)).2 :=
  G.run_draws hdiv (fun x draw => addTo ctx (place x) (input.get (draw + off x))) out

/-- Slot `p` takes one term in `s`. -/
theorem sum_column {M : Type*} [AddCommMonoid M] (term : ℕ → M) {p : ℕ} (hp : p < s) (w o : ℕ) :
    (∑ x ∈ Finset.range (w * s), if o + x % s = o + p then term x else 0) = ∑ j ∈ Finset.range w, term (j * s + p) := by
  rw [Ternary.sum_range_mul]
  refine Finset.sum_congr rfl fun j _ => ?_
  have hterm (q : ℕ) (hq : q ∈ Finset.range s) (hne : q ≠ p) :
      (if o + (j * s + q) % s = o + p then term (j * s + q) else 0) = 0 := by
    refine if_neg fun h => hne ?_
    rw [Loop.grid_mod (Finset.mem_range.mp hq)] at h
    omega
  rw [Finset.sum_eq_single_of_mem p (Finset.mem_range.mpr hp) hterm, if_pos (by rw [Loop.grid_mod hp])]

theorem run_addRows (hplus : ∀ x y, ctx.plus x y = x + y) (hdiv : A.Divides) (off : ℕ → ℕ) {out : Array F}
    {g : ExpanderModd} (G : ExpanderModd.At A seed m k g) (hs : 0 < s) (ho : o + s ≤ out.size) :
    Mapped o s (fun p v => v + ∑ j ∈ Finset.range w, input.get (ExpanderModd.draw A seed m (k + (j * s + p)) + off j)) out
        (Loop.run w (fun j => addRows A ctx input o s (off j)) (out, g)).1 ∧
      ExpanderModd.At A seed m (k + w * s) (Loop.run w (fun j => addRows A ctx input o s (off j)) (out, g)).2 := by
  have hnested : Loop.run w (fun j => addRows A ctx input o s (off j)) (out, g) =
      Loop.run (w * s) (fun x => addOne A ctx input (o + x % s) (off (x / s))) (out, g) :=
    Loop.run_nested w s (fun j p => addOne A ctx input (o + p) (off j)) (out, g)
  obtain ⟨hout, G'⟩ := run_addOne input ctx hdiv (fun x => o + x % s) (fun x => off (x / s)) (w * s) out G
  have hplace (x : ℕ) : o + x % s < out.size := by
    have hlt := Nat.mod_lt x hs
    omega
  obtain ⟨hsize, hread⟩ := run_addAt_spec hplus (fun x => o + x % s)
    (fun x => input.get (ExpanderModd.draw A seed m (k + x) + off (x / s))) (n := w * s) (v := out) fun x _ => hplace x
  rw [hnested, hout]
  refine ⟨⟨hsize, fun p hp => (hread _).trans ?_, fun x hx => (hread _).trans ?_⟩, G'⟩
  · rw [sum_column (fun x => input.get (ExpanderModd.draw A seed m (k + x) + off (x / s))) hp]
    refine congrArg _ (Finset.sum_congr rfl fun j _ => ?_)
    rw [Loop.grid_div hp]
  · rw [Finset.sum_eq_zero fun y _ => if_neg ?_, add_zero]
    have hlt := Nat.mod_lt y hs
    omega

end Sums

/-! ### The rows -/

def regSeed (c : ExpanderCode) : Block := c.mSeed ^^^ block 342342134 23421341

/-- The sizes that `expand` can work with. -/
structure Sized (c : ExpanderCode) : Prop where
  pos : 0 < c.mCodeSize
  lt : c.mCodeSize < 2 ^ 64
  weight : c.mRegular = true → 0 < c.mExpanderWeight
  regions : c.reg ≤ c.mCodeSize

theorem Sized.reg_pos {c : ExpanderCode} (C : c.Sized) (hreg : c.mRegular = true) : 0 < c.reg := by
  have hweight := C.weight hreg
  rw [reg, if_pos hreg]
  omega

theorem Sized.step_pos {c : ExpanderCode} (C : c.Sized) (hreg : c.mRegular = true) : 0 < c.step := by
  rw [step, if_pos hreg]
  exact Nat.div_pos C.regions (C.reg_pos hreg)

theorem step_mul_reg_le (c : ExpanderCode) : c.reg * c.step ≤ c.mCodeSize := by
  rw [step]
  split
  · exact Nat.mul_div_le c.mCodeSize c.reg
  · exact (Nat.mul_zero c.reg).le.trans (Nat.zero_le _)

theorem reg_eq_zero {c : ExpanderCode} (hreg : c.mRegular = false) : c.reg = 0 := by
  rw [reg, hreg]
  rfl

/-- The draw for term `j` of row `i`: eight rows take their draws together, the rows past the last eight one by one. -/
def drawIndex (n w i j : ℕ) : ℕ :=
  if i < n / 8 * 8 then i / 8 * (w * 8) + (j * 8 + i % 8) else n / 8 * (w * 8) + (i - n / 8 * 8) * w + j

def regIndex (A : CodeAes) (c : ExpanderCode) (i j : ℕ) : ℕ :=
  ExpanderModd.draw A c.regSeed c.step (drawIndex c.mMessageSize c.reg i j) + j * c.step

def uniIndex (A : CodeAes) (c : ExpanderCode) (i j : ℕ) : ℕ :=
  ExpanderModd.draw A c.mSeed c.mCodeSize (drawIndex c.mMessageSize c.uni i j)

theorem regIndex_lt (A : CodeAes) {c : ExpanderCode} (C : c.Sized) {i j : ℕ} (hj : j < c.reg) :
    c.regIndex A i j < c.mCodeSize := by
  have hreg : c.mRegular = true := by
    by_contra h
    rw [reg_eq_zero (Bool.eq_false_iff.mpr h)] at hj
    exact Nat.not_lt_zero j hj
  have hlt := ExpanderModd.draw_lt A c.regSeed (C.step_pos hreg) (drawIndex c.mMessageSize c.reg i j)
  calc c.regIndex A i j = j * c.step + ExpanderModd.draw A c.regSeed c.step (drawIndex c.mMessageSize c.reg i j) :=
        Nat.add_comm _ _
    _ < c.reg * c.step := Loop.grid_lt hj hlt
    _ ≤ c.mCodeSize := c.step_mul_reg_le

theorem uniIndex_lt (A : CodeAes) {c : ExpanderCode} (C : c.Sized) (i j : ℕ) : c.uniIndex A i j < c.mCodeSize :=
  ExpanderModd.draw_lt A c.mSeed C.pos _

section Rows
variable {F : Type} [Inhabited F] [AddCommGroup F] {A : CodeAes} {ctx : CoeffCtx F} {c : ExpanderCode} (input : Source F)
  {o s kr ku : ℕ} {st : Rows F}

/-- Row `i` of the expander matrix times the input. -/
def rowSum (A : CodeAes) (c : ExpanderCode) (input : Source F) (i : ℕ) : F :=
  ∑ j ∈ Finset.range c.reg, input.get (c.regIndex A i j) + ∑ j ∈ Finset.range c.uni, input.get (c.uniIndex A i j)

/-- The draws that were taken from the generators. -/
structure Rows.Drawn (A : CodeAes) (c : ExpanderCode) (kr ku : ℕ) (st : Rows F) : Prop where
  reg : c.mRegular = true → ExpanderModd.At A c.regSeed c.step kr st.reg
  uni : ExpanderModd.At A c.mSeed c.mCodeSize ku st.uni

/-- The sum of the terms of a row that has `p` rows before it in its group. -/
def termSum (A : CodeAes) (c : ExpanderCode) (input : Source F) (s kr ku p : ℕ) : F :=
  ∑ j ∈ Finset.range c.reg, input.get (ExpanderModd.draw A c.regSeed c.step (kr + (j * s + p)) + j * c.step) +
    ∑ j ∈ Finset.range c.uni, input.get (ExpanderModd.draw A c.mSeed c.mCodeSize (ku + (j * s + p)))

theorem addTerms_spec (hplus : ∀ x y, ctx.plus x y = x + y) (hdiv : A.Divides) (hs : 0 < s)
    (G : st.Drawn A c kr ku) (ho : o + s ≤ st.out.size) :
    Mapped o s (fun p v => v + termSum A c input s kr ku p) st.out (c.addTerms (addRows A ctx input o s) st).out ∧
      (c.addTerms (addRows A ctx input o s) st).Drawn A c (kr + c.reg * s) (ku + c.uni * s) := by
  have hreg : Mapped o s (fun p v => v + ∑ j ∈ Finset.range c.reg,
        input.get (ExpanderModd.draw A c.regSeed c.step (kr + (j * s + p)) + j * c.step)) st.out
        (Loop.run c.reg (fun j => addRows A ctx input o s (j * c.step)) (st.out, st.reg)).1 ∧
      (c.mRegular = true → ExpanderModd.At A c.regSeed c.step (kr + c.reg * s)
        (Loop.run c.reg (fun j => addRows A ctx input o s (j * c.step)) (st.out, st.reg)).2) := by
    cases hr : c.mRegular with
    | true =>
      obtain ⟨hmap, G'⟩ := run_addRows (w := c.reg) input hplus hdiv (fun j => j * c.step) (G.reg hr) hs ho
      exact ⟨hmap, fun _ => G'⟩
    | false =>
      rw [reg_eq_zero hr]
      exact ⟨⟨rfl, fun p _ => by simp [Loop.run], fun _ _ => rfl⟩, nofun⟩
  obtain ⟨hmap, Gr⟩ := hreg
  obtain ⟨hmap', Gu⟩ := run_addRows (w := c.uni) input hplus hdiv (fun _ => 0) G.uni hs (ho.trans hmap.size.ge)
  exact ⟨(hmap.trans hmap').congr fun p _ v => add_assoc _ _ _, Gr, Gu⟩

theorem termSum_group {b p : ℕ} (hb : b < c.mMessageSize / 8) (hp : p < 8) :
    termSum A c input 8 (b * (c.reg * 8)) (b * (c.uni * 8)) p = rowSum A c input (8 * b + p) := by
  have hdiv : (8 * b + p) / 8 = b := by omega
  have hmod : (8 * b + p) % 8 = p := by omega
  have hindex (w j : ℕ) : drawIndex c.mMessageSize w (8 * b + p) j = b * (w * 8) + (j * 8 + p) := by
    rw [drawIndex, if_pos (by omega), hdiv, hmod]
  simp only [termSum, rowSum, regIndex, uniIndex, hindex]

theorem termSum_row {i : ℕ} (kr ku : ℕ) (hr : kr = c.mMessageSize / 8 * (c.reg * 8) + i * c.reg)
    (hu : ku = c.mMessageSize / 8 * (c.uni * 8) + i * c.uni) :
    termSum A c input 1 kr ku 0 = rowSum A c input (c.mMessageSize / 8 * 8 + i) := by
  have hindex (w j : ℕ) : drawIndex c.mMessageSize w (c.mMessageSize / 8 * 8 + i) j =
      c.mMessageSize / 8 * (w * 8) + i * w + (j * 1 + 0) := by
    rw [drawIndex, if_neg (by omega), Nat.add_sub_cancel_left, Nat.mul_one, Nat.add_zero]
  simp only [termSum, rowSum, regIndex, uniIndex, hindex, hr, hu]

theorem zeroRows_mapped (hzero : ctx.zero = 0) {n : ℕ} {out : Array F} (ho : o + n ≤ out.size) :
    Mapped o n (fun _ _ => 0) out (zeroRows ctx o n out) := by
  rw [zeroRows, hzero]
  exact run_modify_mapped (fun _ _ => 0) ho

def rowBase (add : Bool) (v : F) : F := if add then v else 0

theorem clear_mapped (hzero : ctx.zero = 0) (add : Bool) {n : ℕ} (ho : o + n ≤ st.out.size) :
    Mapped o n (fun _ => rowBase add) st.out (if add then st else { st with out := zeroRows ctx o n st.out }).out := by
  cases add with
  | true => exact ⟨rfl, fun _ _ => rfl, fun _ _ => rfl⟩
  | false => exact zeroRows_mapped hzero ho

omit [Inhabited F] [AddCommGroup F] in
theorem Rows.Drawn.clear (G : st.Drawn A c kr ku) (add : Bool) (n : ℕ) :
    (if add then st else { st with out := zeroRows ctx o n st.out }).Drawn A c kr ku := by
  cases add with
  | true => exact G
  | false => exact ⟨G.reg, G.uni⟩

omit [Inhabited F] [AddCommGroup F] in
theorem drawn_init (hdiv : A.Divides) (C : c.Sized) (out : Array F) :
    (⟨out, c.regGen A, c.uniGen A⟩ : Rows F).Drawn A c 0 0 := by
  refine ⟨fun hreg => ?_, ExpanderModd.init_at hdiv C.pos C.lt c.mSeed⟩
  have hlt : c.step < 2 ^ 64 := by
    rw [step, if_pos hreg]
    exact (Nat.div_le_self _ _).trans_lt C.lt
  have G := ExpanderModd.init_at hdiv (C.step_pos hreg) hlt c.regSeed
  show ExpanderModd.At A c.regSeed c.step 0 (c.regGen A)
  rwa [regGen, if_pos hreg]

theorem run_groups (hplus : ∀ x y, ctx.plus x y = x + y) (hzero : ctx.zero = 0) (hdiv : A.Divides) (add : Bool)
    (G : st.Drawn A c 0 0) (ho : o + c.mMessageSize ≤ st.out.size) {n : ℕ} (hn : n ≤ c.mMessageSize / 8) :
    let st' := Loop.run n (fun b st =>
      let st := if add then st else { st with out := zeroRows ctx (o + 8 * b) 8 st.out }
      c.addTerms (addEight A ctx input (o + 8 * b)) st) st
    Mapped o (8 * n) (fun i v => rowBase add v + rowSum A c input i) st.out st'.out ∧
      st'.Drawn A c (n * (c.reg * 8)) (n * (c.uni * 8)) := by
  induction n with
  | zero =>
    rw [Nat.zero_mul, Nat.zero_mul]
    exact ⟨⟨rfl, nofun, fun _ _ => rfl⟩, G⟩
  | succ n ih =>
    obtain ⟨hmap, G'⟩ := ih (Nat.le_of_succ_le hn)
    rw [Loop.run_succ]
    generalize Loop.run n _ st = t at hmap G' ⊢
    have hsize : o + 8 * n + 8 ≤ t.out.size := by
      rw [hmap.size]
      omega
    have hclear := clear_mapped hzero add hsize
    obtain ⟨hadd, G''⟩ := addTerms_spec input hplus hdiv (Nat.succ_pos 7) (G'.clear add 8)
      (hsize.trans hclear.size.ge)
    simp only [show addEight A ctx input (o + 8 * n) = addRows A ctx input (o + 8 * n) 8 from
      funext fun off => addEight_eq (o + 8 * n) off]
    refine ⟨hmap.append ((hclear.trans hadd).congr fun p hp v => ?_), ?_⟩
    · rw [termSum_group input hn hp]
    · rw [Nat.succ_mul, Nat.succ_mul]
      exact G''

theorem run_rest (hplus : ∀ x y, ctx.plus x y = x + y) (hdiv : A.Divides)
    (G : st.Drawn A c (c.mMessageSize / 8 * (c.reg * 8)) (c.mMessageSize / 8 * (c.uni * 8))) {n : ℕ}
    (ho : o + c.mMessageSize / 8 * 8 + n ≤ st.out.size) :
    let st' := Loop.run n (fun i st => c.addTerms (addOne A ctx input (o + (c.mMessageSize / 8 * 8 + i))) st) st
    Mapped (o + c.mMessageSize / 8 * 8) n (fun i v => v + rowSum A c input (c.mMessageSize / 8 * 8 + i)) st.out st'.out ∧
      st'.Drawn A c (c.mMessageSize / 8 * (c.reg * 8) + n * c.reg) (c.mMessageSize / 8 * (c.uni * 8) + n * c.uni) := by
  induction n with
  | zero =>
    rw [Nat.zero_mul, Nat.zero_mul]
    exact ⟨⟨rfl, nofun, fun _ _ => rfl⟩, G⟩
  | succ n ih =>
    obtain ⟨hmap, G'⟩ := ih (by omega)
    rw [Loop.run_succ]
    generalize Loop.run n _ st = t at hmap G' ⊢
    have hsize : o + c.mMessageSize / 8 * 8 + n + 1 ≤ t.out.size := by
      rw [hmap.size]
      omega
    obtain ⟨hadd, G''⟩ := addTerms_spec input hplus hdiv Nat.one_pos G' hsize
    simp only [show addOne A ctx input (o + (c.mMessageSize / 8 * 8 + n)) =
      addRows A ctx input (o + c.mMessageSize / 8 * 8 + n) 1 from funext fun off => by rw [Nat.add_assoc]; rfl]
    refine ⟨hmap.append (hadd.congr fun p hp v => ?_), ?_⟩
    · obtain rfl : p = 0 := by omega
      rw [termSum_row input _ _ rfl rfl, Nat.add_zero]
    · rw [Nat.succ_mul, Nat.succ_mul, ← Nat.add_assoc, ← Nat.add_assoc]
      rwa [Nat.mul_one, Nat.mul_one] at G''

/-- Each row of the output is the row of the expander matrix times the input, on top of what it was if `add` is set. -/
theorem expand_mapped (hplus : ∀ x y, ctx.plus x y = x + y) (hzero : ctx.zero = 0) (hdiv : A.Divides) (C : c.Sized)
    (add : Bool) (output : Array F) (ho : o + c.mMessageSize ≤ output.size) :
    Mapped o c.mMessageSize (fun i v => rowBase add v + rowSum A c input i) output (c.expand A ctx add input o output) := by
  have hmain : c.mMessageSize / 8 * 8 + (c.mMessageSize - c.mMessageSize / 8 * 8) = c.mMessageSize := by omega
  rw [expand]
  dsimp only
  obtain ⟨hmap, G⟩ := run_groups input hplus hzero hdiv add (drawn_init hdiv C output) ho le_rfl
  generalize Loop.run (c.mMessageSize / 8) _ _ = t at hmap G ⊢
  have hsize : o + c.mMessageSize / 8 * 8 + (c.mMessageSize - c.mMessageSize / 8 * 8) ≤ t.out.size := by
    rw [hmap.size]
    exact (Nat.add_assoc ..).trans_le (hmain.symm ▸ ho)
  have hclear := clear_mapped hzero add hsize
  obtain ⟨hrest, -⟩ := run_rest input hplus hdiv (G.clear add _) (hsize.trans hclear.size.ge)
  rw [Nat.mul_comm] at hmap
  have hall := hmap.append ((hclear.trans hrest).congr fun p _ v => rfl)
  rwa [hmain] at hall

end Rows

/-! ### The matrix -/

section Matrix
variable {A : CodeAes} {seed : Block} {m k : ℕ} {g : ExpanderModd}

theorem run_writeDraws (hdiv : A.Divides) (G : ExpanderModd.At A seed m k g) (place off : ℕ → ℕ) {n : ℕ} (out : Array ℕ)
    (hlt : ∀ x < n, place x < out.size) (hinj : ∀ x < n, ∀ y < n, place x = place y → x = y) :
    let st := Loop.run n (fun x (st : Array ℕ × ExpanderModd) =>
      (write st.1 (place x) ((st.2.get A).1 + off x), (st.2.get A).2)) (out, g)
    (st.1.size = out.size ∧ (∀ x < n, read st.1 (place x) = ExpanderModd.draw A seed m (k + x) + off x) ∧
      ∀ y, (∀ x < n, place x ≠ y) → read st.1 y = read out y) ∧ ExpanderModd.At A seed m (k + n) st.2 := by
  obtain ⟨hrun, G'⟩ := G.run_draws hdiv (fun x draw out => write out (place x) (draw + off x)) (n := n) out
  exact ⟨hrun ▸ run_writeAt_spec place (fun x => ExpanderModd.draw A seed m (k + x) + off x) hlt hinj, G'⟩

/-- Where draw `x` of the groups of eight rows goes. -/
def groupPlace (w x : ℕ) : ℕ := (8 * (x / (w * 8)) + x % (w * 8) % 8) * w + x % (w * 8) / 8

theorem groupPlace_inj {w x y : ℕ} (hw : 0 < w) (h : groupPlace w x = groupPlace w y) : x = y := by
  have hlt (z : ℕ) : z % (w * 8) / 8 < w := by
    rw [Nat.div_lt_iff_lt_mul (by decide)]
    exact Nat.mod_lt z (by omega)
  obtain ⟨hrow, hterm⟩ := (Loop.grid_inj (hlt x) (hlt y)).mp h
  have hmod : x % (w * 8) = y % (w * 8) := by omega
  have hdiv : x / (w * 8) = y / (w * 8) := by omega
  rw [← Nat.div_add_mod x (w * 8), ← Nat.div_add_mod y (w * 8), hdiv, hmod]

theorem groupPlace_lt {w x a : ℕ} (hx : x < a * (w * 8)) : groupPlace w x < a * 8 * w := by
  have hw : 0 < w := by
    by_contra h
    obtain rfl : w = 0 := by omega
    simp at hx
  have hdiv : x / (w * 8) < a := (Nat.div_lt_iff_lt_mul (by omega)).mpr hx
  refine Loop.grid_lt (by omega) ?_
  rw [Nat.div_lt_iff_lt_mul (by decide)]
  exact Nat.mod_lt x (by omega)

theorem groupPlace_row {w i j : ℕ} (hj : j < w) :
    groupPlace w (i / 8 * (w * 8) + (j * 8 + i % 8)) = i * w + j ∧
      (i / 8 * (w * 8) + (j * 8 + i % 8)) % (w * 8) / 8 = j := by
  have hlt : j * 8 + i % 8 < w * 8 := Loop.grid_lt hj (Nat.mod_lt i (by decide))
  have hrow : 8 * (i / 8) + (j * 8 + i % 8) % 8 = i := by omega
  have hterm : (j * 8 + i % 8) / 8 = j := by omega
  rw [groupPlace, Loop.grid_div hlt, Loop.grid_mod hlt, hrow, hterm]
  exact ⟨rfl, rfl⟩

structure MatrixSized (c : ExpanderCode) (w m step : ℕ) : Prop where
  weight : c.mExpanderWeight = w
  modulus : (if c.mRegular then c.mCodeSize / w else c.mCodeSize) = m
  step : (if c.mRegular then c.mCodeSize / w else 0) = step
  pos : 0 < m
  lt : m < 2 ^ 64

theorem getMatrix_eq {c : ExpanderCode} {w m step n : ℕ} (M : c.MatrixSized w m step) (hn : c.mMessageSize = n) :
    c.getMatrix A = (Loop.run ((n - n / 8 * 8) * w) (fun x st =>
      (write st.1 (n / 8 * 8 * w + x) ((st.2.get A).1 + step * (x % w)), (st.2.get A).2))
      (Loop.run (n / 8 * (w * 8)) (fun x st =>
        (write st.1 (groupPlace w x) ((st.2.get A).1 + step * (x % (w * 8) / 8)), (st.2.get A).2))
        (Array.replicate (n * w) 0, ExpanderModd.init A c.mSeed m))).1 := by
  let entry (i j : ℕ) (st : Array ℕ × ExpanderModd) : Array ℕ × ExpanderModd :=
    (write st.1 (i * w + j) ((st.2.get A).1 + step * j), (st.2.get A).2)
  have hgroups (st : Array ℕ × ExpanderModd) :
      Loop.run (n / 8) (fun b st => Loop.run w (fun j st => Loop.run 8 (fun p => entry (8 * b + p) j) st) st) st =
        Loop.run (n / 8 * (w * 8)) (fun x st =>
          (write st.1 (groupPlace w x) ((st.2.get A).1 + step * (x % (w * 8) / 8)), (st.2.get A).2)) st := by
    have hinner (b : ℕ) (st : Array ℕ × ExpanderModd) := Loop.run_nested w 8 (fun j p => entry (8 * b + p) j) st
    simp only [hinner]
    exact Loop.run_nested (n / 8) (w * 8) (fun b y => entry (8 * b + y % 8) (y / 8)) st
  have hrest (st : Array ℕ × ExpanderModd) :
      Loop.run (n - n / 8 * 8) (fun i st => Loop.run w (fun j => entry (n / 8 * 8 + i) j) st) st =
        Loop.run ((n - n / 8 * 8) * w) (fun x st =>
          (write st.1 (n / 8 * 8 * w + x) ((st.2.get A).1 + step * (x % w)), (st.2.get A).2)) st := by
    refine (Loop.run_nested (n - n / 8 * 8) w (fun i j => entry (n / 8 * 8 + i) j) st).trans
      (Loop.run_congr (fun x _ st => ?_) st)
    simp only [entry, Nat.add_mul, Nat.add_assoc, Nat.div_add_mod']
  rw [getMatrix]
  simp only [M.weight, M.modulus, M.step, hn]
  rw [← hgroups, ← hrest]

theorem read_getMatrix (hdiv : A.Divides) {c : ExpanderCode} {w m step i j : ℕ} (M : c.MatrixSized w m step)
    (hi : i < c.mMessageSize) (hj : j < w) :
    read (c.getMatrix A) (i * w + j) =
      ExpanderModd.draw A c.mSeed m (drawIndex c.mMessageSize w i j) + step * j := by
  obtain ⟨n, hn⟩ : ∃ n, c.mMessageSize = n := ⟨_, rfl⟩
  rw [getMatrix_eq M hn, drawIndex, hn]
  rw [hn] at hi
  have hw : 0 < w := j.zero_le.trans_lt hj
  have hmain : n / 8 * 8 * w + (n - n / 8 * 8) * w = n * w := by
    rw [← Nat.add_mul]
    congr 1
    omega
  obtain ⟨⟨hsize, hread, -⟩, G⟩ := run_writeDraws hdiv (ExpanderModd.init_at hdiv M.pos M.lt c.mSeed) (groupPlace w)
    (fun x => step * (x % (w * 8) / 8)) (n := n / 8 * (w * 8)) (Array.replicate (n * w) 0) (fun x hx => by
      rw [Array.size_replicate]
      exact (groupPlace_lt hx).trans_le (by omega)) fun x _ y _ h => groupPlace_inj hw h
  generalize Loop.run (n / 8 * (w * 8)) _ _ = st at hsize hread G ⊢
  rw [Array.size_replicate] at hsize
  obtain ⟨⟨-, hread', hframe⟩, -⟩ := run_writeDraws hdiv G (fun x => n / 8 * 8 * w + x) (fun x => step * (x % w))
    (n := (n - n / 8 * 8) * w) st.1 (fun x hx => by omega) fun x _ y _ h => Nat.add_left_cancel h
  split
  next hrow =>
    obtain ⟨hplace, hterm⟩ := groupPlace_row (i := i) hj
    have hx : i / 8 * (w * 8) + (j * 8 + i % 8) < n / 8 * (w * 8) :=
      Loop.grid_lt (by omega) (Loop.grid_lt hj (Nat.mod_lt i (by decide)))
    have hlow : i * w + j < n / 8 * 8 * w := Loop.grid_lt hrow hj
    have h := hread _ hx
    rw [hplace, hterm, Nat.zero_add] at h
    rw [hframe _ fun x _ => by omega, h]
  next hrow =>
    have hx : (i - n / 8 * 8) * w + j < (n - n / 8 * 8) * w := Loop.grid_lt (by omega) hj
    have hplace : n / 8 * 8 * w + ((i - n / 8 * 8) * w + j) = i * w + j := by
      rw [← Nat.add_assoc, ← Nat.add_mul]
      congr 2
      omega
    have h := hread' _ hx
    rw [hplace, Loop.grid_mod hj, Nat.zero_add] at h
    rw [h, Nat.add_assoc]

theorem regIndex_div (A : CodeAes) {c : ExpanderCode} (C : c.Sized) (hreg : c.mRegular = true) (i j : ℕ) :
    c.regIndex A i j / c.step = j := by
  rw [regIndex, Nat.add_comm]
  exact Loop.grid_div (ExpanderModd.draw_lt A c.regSeed (C.step_pos hreg) _)

def index (A : CodeAes) (c : ExpanderCode) (i j : ℕ) : ℕ :=
  if j < c.reg then c.regIndex A i j else c.uniIndex A i (j - c.reg)

theorem index_of_lt {c : ExpanderCode} {i j : ℕ} (hj : j < c.reg) : c.index A i j = c.regIndex A i j := if_pos hj

@[simp] theorem index_add (A : CodeAes) (c : ExpanderCode) (i j : ℕ) : c.index A i (c.reg + j) = c.uniIndex A i j := by
  rw [index, if_neg (by omega), Nat.add_sub_cancel_left]

theorem index_lt (A : CodeAes) {c : ExpanderCode} (C : c.Sized) (i j : ℕ) : c.index A i j < c.mCodeSize := by
  rw [index]
  split
  next hj => exact regIndex_lt A C hj
  next => exact uniIndex_lt A C i _

theorem reg_add_uni (c : ExpanderCode) : c.reg + c.uni = c.mExpanderWeight := by
  rw [reg, uni]
  split <;> omega

/-- Without regions the indices are those of `getMatrix`. -/
theorem index_eq_getMatrix (hdiv : A.Divides) {c : ExpanderCode} (C : c.Sized) (hreg : c.mRegular = false) {i j : ℕ}
    (hi : i < c.mMessageSize) (hj : j < c.mExpanderWeight) :
    c.index A i j = read (c.getMatrix A) (i * c.mExpanderWeight + j) := by
  have M : c.MatrixSized c.mExpanderWeight c.mCodeSize 0 := ⟨rfl, by rw [hreg]; rfl, by rw [hreg]; rfl, C.pos, C.lt⟩
  have huni : c.uni = c.mExpanderWeight := by rw [← reg_add_uni, reg_eq_zero hreg, Nat.zero_add]
  have hindex : c.index A i j = c.uniIndex A i j := by
    have h := index_add A c i j
    rwa [reg_eq_zero hreg, Nat.zero_add] at h
  rw [hindex, read_getMatrix hdiv M hi hj, uniIndex, huni, Nat.zero_mul, Nat.add_zero]

end Matrix

section Rows
variable {F : Type} [Inhabited F] [AddCommGroup F] {A : CodeAes} {ctx : CoeffCtx F} {input : Source F}

theorem rowSum_eq (c : ExpanderCode) (i : ℕ) :
    c.rowSum A input i = ∑ j ∈ Finset.range c.mExpanderWeight, input.get (c.index A i j) := by
  rw [← reg_add_uni, Finset.sum_range_add, rowSum]
  refine congrArg₂ (· + ·) (Finset.sum_congr rfl fun j hj => ?_) (Finset.sum_congr rfl fun j _ => ?_)
  · rw [index_of_lt (Finset.mem_range.mp hj)]
  · rw [index_add]

/-- A row is the sum of the entries at its indices, on top of what it was if `add` is set. A regular code has one index
    in each of its regions and others anywhere, one that is not regular those that `getMatrix` names. -/
theorem expand_rows (ctx : CoeffCtx F) (hplus : ∀ x y, ctx.plus x y = x + y) (hzero : ctx.zero = 0) (hdiv : A.Divides)
    {c : ExpanderCode} (C : c.Sized) (add : Bool) (input : Source F) (o : ℕ) (output : Array F)
    (ho : o + c.mMessageSize ≤ output.size) :
    (c.expand A ctx add input o output).size = output.size ∧
      (∀ i < c.mMessageSize, read (c.expand A ctx add input o output) (o + i) =
        (if add then read output (o + i) else 0) + ∑ j ∈ Finset.range c.mExpanderWeight, input.get (c.index A i j)) ∧
      (∀ x, x < o ∨ o + c.mMessageSize ≤ x → read (c.expand A ctx add input o output) x = read output x) ∧
      (∀ i j, c.index A i j < c.mCodeSize) ∧
      (c.mRegular = true → ∀ i, ∀ j < c.reg, c.index A i j / c.step = j) ∧
      (c.mRegular = false → ∀ i < c.mMessageSize, ∀ j < c.mExpanderWeight,
        c.index A i j = read (c.getMatrix A) (i * c.mExpanderWeight + j)) := by
  have M := expand_mapped input hplus hzero hdiv C add output ho
  refine ⟨M.size, fun i hi => ?_, M.frame, index_lt A C, fun hreg i j hj => ?_, fun hreg i hi j hj =>
    index_eq_getMatrix hdiv C hreg hi hj⟩
  · rw [M.mapped i hi, rowSum_eq]
    rfl
  · rw [index_of_lt hj, regIndex_div A C hreg]

theorem expand_rows_ten :
    let A : CodeAes := ⟨fun k x => k ^^^ x, fun x k => x ^^^ k, fun x m => x / m⟩
    let c : ExpanderCode := config 10 64 3 true (block 0 7)
    let input : Source Block := ⟨Array.ofFn fun i : Fin 64 => block 0 i, 0⟩
    let out := c.expand A coeffCtxGF128 false input 0 (Array.replicate 10 0)
    out.size = 10 ∧ ∀ i < 10, read out i = ∑ j ∈ Finset.range 3, input.get (c.index A i j) := by
  intro A c input out
  obtain ⟨hsize, hread, -⟩ := expand_rows coeffCtxGF128 (A := A) (c := c) (fun _ _ => rfl) rfl (fun _ _ _ => rfl)
    ⟨by decide, by decide, fun _ => by decide, by decide⟩ false input 0 (Array.replicate 10 0) (by decide)
  refine ⟨hsize, fun i hi => (congrArg (read out) (Nat.zero_add i)).symm.trans ((hread i hi).trans (zero_add _))⟩

end Rows
end ExpanderCode
end ExtFieldPcg
