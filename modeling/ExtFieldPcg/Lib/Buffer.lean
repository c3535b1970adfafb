import Mathlib.Algebra.BigOperators.Group.Finset.Basic

/-! Counting loops, and buffers that loops read and write in place. -/

/-! ### Loops -/

namespace Loop

variable {σ ε : Type*}

/-- `for (j = 0; j < n; ++j) s = body j s`. -/
def run : ℕ → (ℕ → σ → σ) → σ → σ
  | 0, _, s => s
  | n + 1, body, s => body n (run n body s)

def tryRun : ℕ → (ℕ → σ → Except ε σ) → σ → Except ε σ
  | 0, _, s => .ok s
  | n + 1, body, s => tryRun n body s >>= body n

@[simp] theorem run_zero (body : ℕ → σ → σ) (s : σ) : run 0 body s = s := rfl

theorem run_succ (n : ℕ) (body : ℕ → σ → σ) (s : σ) : run (n + 1) body s = body n (run n body s) := rfl

theorem run_congr {n : ℕ} {f g : ℕ → σ → σ} (h : ∀ j < n, ∀ s, f j s = g j s) (s : σ) : run n f s = run n g s := by
  induction n with
  | zero => rfl
  | succ n ih => rw [run_succ, run_succ, ih fun j hj => h j (by omega), h n (by omega)]

theorem run_add (m n : ℕ) (f : ℕ → σ → σ) (s : σ) : run (m + n) f s = run n (fun j => f (m + j)) (run m f s) := by
  induction n with
  | zero => rfl
  | succ n ih => rw [← Nat.add_assoc, run_succ, run_succ, ih]

/-- Chunks of `b` rounds, the last one cut off at `d`, are `d` rounds. -/
theorem run_chunks (b d : ℕ) (f : ℕ → σ → σ) (s : σ) (a : ℕ) :
    run a (fun i s => run (min b (d - b * i)) (fun j s => f (b * i + j) s) s) s = run (min (b * a) d) f s := by
  induction a with
  | zero => simp
  | succ a ih =>
    rw [run_succ, ih, Nat.mul_succ]
    rcases Nat.le_total (b * a) d with h | h
    · have hsplit : min (b * a + b) d = b * a + min b (d - b * a) := by omega
      rw [hsplit, run_add, Nat.min_eq_left h]
    · rw [Nat.sub_eq_zero_of_le h, Nat.min_zero, run_zero, Nat.min_eq_right h, Nat.min_eq_right (by omega)]

/-- What holds before the loop and is kept by the body holds after it. -/
theorem run_induct (P : ℕ → σ → Prop) {n : ℕ} {f : ℕ → σ → σ} {s : σ} (h0 : P 0 s)
    (hstep : ∀ j < n, ∀ t, P j t → P (j + 1) (f j t)) : P n (run n f s) := by
  have hrun : ∀ m ≤ n, P m (run m f s) := by
    intro m
    induction m with
    | zero => exact fun _ => h0
    | succ m ih => exact fun h => hstep m (by omega) _ (ih (by omega))
  exact hrun n (Nat.le_refl n)

theorem run_injOn {S : Set σ} {m : ℕ} {f : ℕ → σ → σ} (hmaps : ∀ j < m, Set.MapsTo (f j) S S)
    (hinj : ∀ j < m, Set.InjOn (f j) S) : Set.InjOn (run m f) S ∧ Set.MapsTo (run m f) S S := by
  induction m with
  | zero => exact ⟨fun _ _ _ _ h => h, fun _ h => h⟩
  | succ m ih =>
    obtain ⟨hrun, hto⟩ := ih (fun j hj => hmaps j (by omega)) fun j hj => hinj j (by omega)
    exact ⟨(hinj m (Nat.lt_succ_self m)).comp hrun hto, (hmaps m (Nat.lt_succ_self m)).comp hto⟩

theorem grid_div {i j n : ℕ} (hj : j < n) : (i * n + j) / n = i := by
  rw [Nat.mul_comm, Nat.mul_add_div (by omega), Nat.div_eq_of_lt hj, add_zero]

theorem grid_mod {i j n : ℕ} (hj : j < n) : (i * n + j) % n = j := by
  rw [Nat.mul_comm, Nat.mul_add_mod, Nat.mod_eq_of_lt hj]

theorem grid_lt {i j a b : ℕ} (hi : i < a) (hj : j < b) : i * b + j < a * b := by
  calc i * b + j < i * b + b := by omega
    _ = (i + 1) * b := (Nat.succ_mul i b).symm
    _ ≤ a * b := Nat.mul_le_mul_right b hi

theorem grid_inj {i j i' j' n : ℕ} (hj : j < n) (hj' : j' < n) : i * n + j = i' * n + j' ↔ i = i' ∧ j = j' := by
  refine ⟨fun h => ?_, by rintro ⟨rfl, rfl⟩; rfl⟩
  have hdiv := congrArg (· / n) h
  have hmod := congrArg (· % n) h
  simp only [grid_div hj, grid_div hj', grid_mod hj, grid_mod hj'] at hdiv hmod
  exact ⟨hdiv, hmod⟩

/-- Two nested loops run through the cells of a grid row by row. -/
theorem run_grid (P : ℕ → σ → Prop) {a b : ℕ} {f : ℕ → ℕ → σ → σ} {s : σ} (h0 : P 0 s)
    (hstep : ∀ i < a, ∀ j < b, ∀ t, P (i * b + j) t → P (i * b + j + 1) (f i j t)) :
    P (a * b) (run a (fun i t => run b (f i) t) s) := by
  refine run_induct (fun i t => P (i * b) t) (by rwa [Nat.zero_mul]) fun i hi t ht => ?_
  rw [Nat.succ_mul]
  exact run_induct (fun j t => P (i * b + j) t) ht fun j hj t => hstep i hi j hj t

theorem run_nested (a b : ℕ) (f : ℕ → ℕ → σ → σ) (s : σ) :
    run a (fun i t => run b (f i) t) s = run (a * b) (fun x => f (x / b) (x % b)) s := by
  induction a with
  | zero => rw [Nat.zero_mul, run_zero, run_zero]
  | succ a ih =>
    rw [run_succ, ih, Nat.succ_mul, run_add]
    exact run_congr (fun j hj t => by rw [grid_div hj, grid_mod hj]) _

/-- A loop whose rounds each add a term to an observed value adds their sum. -/
theorem run_sum {M : Type*} [AddCommMonoid M] (P : σ → Prop) (v : σ → M) (c : ℕ → M) {n : ℕ} {f : ℕ → σ → σ}
    {s : σ} (h0 : P s) (hstep : ∀ j < n, ∀ t, P t → P (f j t) ∧ v (f j t) = v t + c j) :
    P (run n f s) ∧ v (run n f s) = v s + ∑ j ∈ Finset.range n, c j := by
  refine run_induct (fun j t => P t ∧ v t = v s + ∑ i ∈ Finset.range j, c i) ⟨h0, by simp⟩ ?_
  rintro j hj t ⟨hP, hv⟩
  obtain ⟨hP', hv'⟩ := hstep j hj t hP
  exact ⟨hP', by rw [hv', hv, Finset.sum_range_succ, add_assoc]⟩

/-- A loop whose rounds all succeed is a loop without errors. -/
theorem tryRun_eq_run {n : ℕ} {f : ℕ → σ → Except ε σ} {g : ℕ → σ → σ} (h : ∀ j < n, ∀ s, f j s = .ok (g j s)) (s : σ) :
    tryRun n f s = .ok (run n g s) := by
  induction n with
  | zero => rfl
  | succ n ih =>
    rw [tryRun, ih fun j hj => h j (by omega)]
    exact h n (by omega) _

/-- A loop whose body succeeds on the invariant ends, with the invariant. -/
theorem tryRun_induct (P : ℕ → σ → Prop) {n : ℕ} {f : ℕ → σ → Except ε σ} {s : σ} (h0 : P 0 s)
    (hstep : ∀ j < n, ∀ t, P j t → ∃ t', f j t = .ok t' ∧ P (j + 1) t') :
    ∃ t, tryRun n f s = .ok t ∧ P n t := by
  have hrun : ∀ m ≤ n, ∃ t, tryRun m f s = .ok t ∧ P m t := by
    intro m
    induction m with
    | zero => exact fun _ => ⟨s, rfl, h0⟩
    | succ m ih =>
      intro h
      obtain ⟨t, ht, hP⟩ := ih (by omega)
      obtain ⟨t', ht', hP'⟩ := hstep m (by omega) t hP
      exact ⟨t', by rw [tryRun, ht]; exact ht', hP'⟩
  exact hrun n (Nat.le_refl n)

/-- A loop whose body succeeds exactly where `good` holds: it ends, or it meets a bad round. -/
theorem tryRun_ok_iff (P : ℕ → σ → Prop) (good : ℕ → Prop) {n : ℕ} {f : ℕ → σ → Except ε σ} {s : σ} {e : ε} (h0 : P 0 s)
    (hok : ∀ j < n, ∀ t, P j t → good j → ∃ t', f j t = .ok t' ∧ P (j + 1) t')
    (herror : ∀ j < n, ∀ t, P j t → ¬ good j → f j t = .error e) :
    (∃ t, tryRun n f s = .ok t ∧ P n t ∧ ∀ j < n, good j) ∨ (tryRun n f s = .error e ∧ ∃ j < n, ¬ good j) := by
  induction n with
  | zero => exact .inl ⟨s, rfl, h0, fun j hj => absurd hj (Nat.not_lt_zero j)⟩
  | succ n ih =>
    obtain ⟨t, ht, hP, hgood⟩ | ⟨hrun, j, hj, hbad⟩ := ih (fun j hj => hok j (by omega)) fun j hj => herror j (by omega)
    · by_cases h : good n
      · obtain ⟨t', ht', hP'⟩ := hok n (by omega) t hP h
        refine .inl ⟨t', by rw [tryRun, ht]; exact ht', hP', fun j hj => ?_⟩
        rcases Nat.lt_succ_iff_lt_or_eq.mp hj with hlt | rfl
        · exact hgood j hlt
        · exact h
      · exact .inr ⟨by rw [tryRun, ht]; exact herror n (by omega) t hP h, n, by omega, h⟩
    · exact .inr ⟨by rw [tryRun, hrun]; rfl, j, by omega, hbad⟩

theorem tryRun_error {n : ℕ} {f : ℕ → σ → Except ε σ} {s : σ} {e : ε} (h : f 0 s = .error e) (hn : 0 < n) :
    tryRun n f s = .error e := by
  induction n with
  | zero => omega
  | succ n ih =>
    rcases Nat.eq_zero_or_pos n with rfl | hpos
    · exact h
    · rw [tryRun, ih hpos]
      rfl

/-- Items handled in batches of `w`, and one by one where they do not fill a batch. -/
theorem run_batches {w n : ℕ} {f g : ℕ → σ → σ} (F : ℕ → σ) (hf : ∀ k, f k (F k) = F (k + w))
    (hg : ∀ k, g k (F k) = F (k + 1)) :
    run (n - n / w * w) (fun t => g (n / w * w + t)) (run (n / w) (fun b => f (w * b)) (F 0)) = F n := by
  have hbatches : run (n / w) (fun b => f (w * b)) (F 0) = F (n / w * w) := by
    refine run_induct (fun b t => t = F (b * w)) (by rw [Nat.zero_mul]) ?_
    rintro b - t rfl
    rw [Nat.mul_comm w, hf, Nat.succ_mul]
  have hrest : run (n - n / w * w) (fun t => g (n / w * w + t)) (F (n / w * w)) =
      F (n / w * w + (n - n / w * w)) := by
    refine run_induct (fun m t => t = F (n / w * w + m)) rfl ?_
    rintro m - t rfl
    exact hg (n / w * w + m)
  rw [hbatches, hrest, Nat.add_sub_cancel' (Nat.div_mul_le_self n w)]

/-- Two pieces of a definition by cases that are one. -/
theorem ite_append {α : Type*} {p q r : Prop} [Decidable p] [Decidable q] [Decidable r] {x x' y : α} (hr : r ↔ p ∨ q)
    (hx : p → x' = x) : (if p then x' else if q then x else y) = if r then x else y := by
  by_cases hp : p
  · rw [if_pos hp, if_pos (hr.mpr (.inl hp)), hx hp]
  · rw [if_neg hp]
    exact if_congr (by rw [hr, or_iff_right hp]) rfl rfl

theorem run_update {α : Type*} (k : ℕ) (f : ℕ → α → α) (v : ℕ → α) (n : ℕ) :
    run n (fun q v => Function.update v (k + q) (f q (v (k + q)))) v =
      fun k' => if k ≤ k' ∧ k' < k + n then f (k' - k) (v k') else v k' := by
  refine run_induct (fun n t => t = fun k' =>
    if k ≤ k' ∧ k' < k + n then f (k' - k) (v k') else v k') ?_ ?_
  · funext k'
    rw [if_neg (by omega)]
  · rintro q - t rfl
    funext k'
    rw [Function.update_apply]
    refine ite_append (by omega) ?_
    rintro rfl
    rw [Nat.add_sub_cancel_left]
    exact congrArg (f q) (if_neg (by omega))

end Loop

/-! ### Buffers -/

namespace Buffer

variable {α : Type*}

def write (a : Array α) (i : ℕ) (v : α) : Array α := a.setIfInBounds i v

@[simp] theorem size_write (a : Array α) (i : ℕ) (v : α) : (write a i v).size = a.size := by simp [write]

theorem write_write (a : Array α) (i : ℕ) (v w : α) : write (write a i v) i w = write a i w :=
  Array.setIfInBounds_setIfInBounds ..

variable [Inhabited α]

/-- Entry `i` of a buffer; past its end the default. -/
def read (a : Array α) (i : ℕ) : α := a.getD i default

theorem read_write (a : Array α) (i j : ℕ) (v : α) :
    read (write a i v) j = if i = j ∧ i < a.size then v else read a j := by
  simp only [read, write, Array.getD_eq_getD_getElem?, Array.getElem?_setIfInBounds]
  split
  · subst_vars
    by_cases h : j < a.size <;> simp [h]
  · simp [*]

theorem read_write_self {a : Array α} {i : ℕ} (h : i < a.size) (v : α) : read (write a i v) i = v := by
  simp [read_write, h]

theorem read_write_ne {i j : ℕ} (h : i ≠ j) (a : Array α) (v : α) : read (write a i v) j = read a j := by
  simp [read_write, h]

theorem ext_read {a b : Array α} (hsize : a.size = b.size) (h : ∀ i < a.size, read a i = read b i) : a = b := by
  refine Array.ext hsize fun i h₁ h₂ => ?_
  have hi := h i h₁
  simpa [read, h₁, h₂] using hi

theorem read_ofFn {n i : ℕ} (f : ℕ → α) (h : i < n) : read (Array.ofFn fun j : Fin n => f j) i = f i := by
  simp [Buffer.read, h]

theorem read_of_le {a : Array α} {i : ℕ} (h : a.size ≤ i) : read a i = default := by
  simp [Buffer.read, Array.getD_eq_getD_getElem?, h]

theorem read_replicate_default (n i : ℕ) : read (Array.replicate n (default : α)) i = default := by
  by_cases h : i < n
  · simp [Buffer.read, h]
  · exact read_of_le (by simpa using h)

theorem read_replicate {n i : ℕ} (h : i < n) (x : α) : read (Array.replicate n x) i = x := by simp [Buffer.read, h]

theorem read_map {β : Type*} [Inhabited β] (f : β → α) {a : Array β} {i : ℕ} (h : i < a.size) :
    read (a.map f) i = f (read a i) := by
  simp [Buffer.read, h]

theorem read_zipWith (op : α → α → α) {a b : Array α} {i : ℕ} (ha : i < a.size) (hb : i < b.size) :
    read (Array.zipWith op a b) i = op (read a i) (read b i) := by
  simp [Buffer.read, ha, hb]

theorem read_push {a : Array α} {i : ℕ} (h : i < a.size) (x : α) : read (a.push x) i = read a i := by
  simp only [Buffer.read, Array.getD_eq_getD_getElem?]
  rw [Array.getElem?_push_lt h, Array.getElem?_eq_getElem h]

/-- A loop that updates the `n` entries from `off` on, each from its old value. -/
theorem run_modify_spec (f : ℕ → α → α) (off : ℕ) {n : ℕ} {a : Array α} (h : off + n ≤ a.size) :
    (Loop.run n (fun i a => write a (off + i) (f i (read a (off + i)))) a).size = a.size ∧
      ∀ i, read (Loop.run n (fun i a => write a (off + i) (f i (read a (off + i)))) a) i =
        if off ≤ i ∧ i < off + n then f (i - off) (read a i) else read a i := by
  refine Loop.run_induct (fun j t => Array.size t = a.size ∧
    ∀ i, read t i = if off ≤ i ∧ i < off + j then f (i - off) (read a i) else read a i) ⟨rfl, fun i => ?_⟩ ?_
  · rw [if_neg (by omega)]
  · rintro j hj t ⟨hsize, hread⟩
    refine ⟨by rw [size_write, hsize], fun i => ?_⟩
    by_cases hi : i = off + j
    · subst hi
      rw [read_write_self (by omega), hread, if_neg (by omega), if_pos (by omega), Nat.add_sub_cancel_left]
    · rw [read_write_ne (by omega), hread i]
      exact if_congr (by omega) rfl rfl

theorem run_write_spec (f : ℕ → α) (off : ℕ) {n : ℕ} {a : Array α} (h : off + n ≤ a.size) :
    (Loop.run n (fun i a => write a (off + i) (f i)) a).size = a.size ∧
      ∀ i, read (Loop.run n (fun i a => write a (off + i) (f i)) a) i =
        if off ≤ i ∧ i < off + n then f (i - off) else read a i :=
  run_modify_spec (fun i _ => f i) off h

/-- Entries written one after the other at distinct places. -/
theorem run_writeAt_spec (pos : ℕ → ℕ) (f : ℕ → α) {n : ℕ} {a : Array α} (hlt : ∀ i < n, pos i < a.size)
    (hinj : ∀ i < n, ∀ j < n, pos i = pos j → i = j) :
    let t := Loop.run n (fun i a => write a (pos i) (f i)) a
    t.size = a.size ∧ (∀ i < n, read t (pos i) = f i) ∧ ∀ x, (∀ i < n, pos i ≠ x) → read t x = read a x := by
  refine Loop.run_induct (fun m t => Array.size t = a.size ∧ (∀ i < m, read t (pos i) = f i) ∧
    ∀ x, (∀ i < m, pos i ≠ x) → read t x = read a x) ⟨rfl, by simp, fun _ _ => rfl⟩ ?_
  rintro m hm t ⟨hsize, hread, hrest⟩
  refine ⟨by rw [size_write, hsize], fun i hi => ?_, fun x hx => ?_⟩
  · rcases Nat.lt_succ_iff_lt_or_eq.mp hi with hi | rfl
    · rw [read_write_ne fun h => hi.ne (hinj m hm i (hi.trans hm) h).symm, hread i hi]
    · exact read_write_self (hsize ▸ hlt i hm) _
  · rw [read_write_ne (hx m (Nat.lt_succ_self m)), hrest x fun i hi => hx i (by omega)]

/-- Rows of `L` entries, written one after the other from `off` on. -/
theorem run_rows_spec (f : ℕ → ℕ → α) (off L : ℕ) {n : ℕ} {a : Array α} (h : off + n * L ≤ a.size) :
    let rows := Loop.run n (fun r a => Loop.run L (fun i a => write a (off + (r * L + i)) (f r i)) a) a
    rows.size = a.size ∧ (∀ r < n, ∀ i < L, read rows (off + (r * L + i)) = f r i) ∧
      ∀ x, x < off ∨ off + n * L ≤ x → read rows x = read a x := by
  intro rows
  have hflat : rows = Loop.run (n * L) (fun x a => write a (off + x) (f (x / L) (x % L))) a := by
    refine (Loop.run_nested n L (fun r i a => write a (off + (r * L + i)) (f r i)) a).trans (Loop.run_congr (fun x _ t => ?_) a)
    rw [Nat.div_add_mod']
  obtain ⟨hsize, hread⟩ := run_write_spec (fun x => f (x / L) (x % L)) off h
  rw [hflat]
  refine ⟨hsize, fun r hr i hi => ?_, fun x hx => (hread x).trans (if_neg (by omega))⟩
  have hlt := Loop.grid_lt hr hi
  rw [hread, if_pos (by omega), Nat.add_sub_cancel_left, Loop.grid_div hi, Loop.grid_mod hi]

theorem write_read (a : Array α) (i : ℕ) : write a i (read a i) = a := by
  refine ext_read (size_write a i _) fun j hj => ?_
  rw [size_write] at hj
  by_cases hij : i = j
  · rw [hij, read_write_self hj]
  · exact read_write_ne hij a _

/-- A write that the entry can be read back from. -/
theorem eq_of_write_eq {x x' : Array α} (hsize : x.size = x'.size) {p : ℕ} {v v' : α} (h : write x p v = write x' p v')
    (hp : v = v' → (∀ i, p ≠ i → read x i = read x' i) → read x p = read x' p) : x = x' := by
  have hne (i : ℕ) (hi : p ≠ i) : read x i = read x' i := by
    have hread := congrArg (read · i) h
    rwa [read_write_ne hi, read_write_ne hi] at hread
  refine ext_read hsize fun i hi => ?_
  by_cases hip : p = i
  · subst hip
    have hread := congrArg (read · p) h
    rw [read_write_self hi, read_write_self (hi.trans_eq hsize)] at hread
    exact hp hread hne
  · exact hne i hip

/-- `a'` is `a` with the `s` entries from `o` on mapped. -/
structure Mapped (o s : ℕ) (f : ℕ → α → α) (a a' : Array α) : Prop where
  size : a'.size = a.size
  mapped : ∀ p < s, read a' (o + p) = f p (read a (o + p))
  frame : ∀ x, x < o ∨ o + s ≤ x → read a' x = read a x

theorem Mapped.trans {o s : ℕ} {f g : ℕ → α → α} {a b c : Array α} (h : Mapped o s f a b) (h' : Mapped o s g b c) :
    Mapped o s (fun p v => g p (f p v)) a c :=
  ⟨h'.size.trans h.size, fun p hp => by rw [h'.mapped p hp, h.mapped p hp], fun x hx => (h'.frame x hx).trans (h.frame x hx)⟩

theorem Mapped.congr {o s : ℕ} {f g : ℕ → α → α} {a b : Array α} (h : Mapped o s f a b)
    (hfg : ∀ p < s, ∀ v, f p v = g p v) : Mapped o s g a b :=
  ⟨h.size, fun p hp => (h.mapped p hp).trans (hfg p hp _), h.frame⟩

/-- Neighbouring ranges. -/
theorem Mapped.append {o s t : ℕ} {f : ℕ → α → α} {a b c : Array α} (h : Mapped o s f a b)
    (h' : Mapped (o + s) t (fun p => f (s + p)) b c) : Mapped o (s + t) f a c := by
  refine ⟨h'.size.trans h.size, fun p hp => ?_, fun x hx => ?_⟩
  · by_cases hlt : p < s
    · rw [h'.frame _ (by omega), h.mapped p hlt]
    · obtain ⟨q, rfl⟩ := Nat.exists_eq_add_of_le (not_lt.mp hlt)
      rw [← Nat.add_assoc, h'.mapped q (by omega), h.frame _ (by omega)]
  · rw [h'.frame x (by omega), h.frame x (by omega)]

theorem run_modify_mapped (f : ℕ → α → α) {o n : ℕ} {a : Array α} (h : o + n ≤ a.size) :
    Mapped o n f a (Loop.run n (fun i a => write a (o + i) (f i (read a (o + i)))) a) := by
  obtain ⟨hsize, hread⟩ := run_modify_spec f o h
  refine ⟨hsize, fun p hp => ?_, fun x hx => (hread x).trans (if_neg (by omega))⟩
  rw [hread, if_pos (by omega), Nat.add_sub_cancel_left]

/-- `copy(src.begin(), src.end(), dst.begin() + off)`. -/
def copy (src dst : Array α) (off : ℕ) : Array α := Loop.run src.size (fun i dst => write dst (off + i) (read src i)) dst

@[simp] theorem size_copy (src dst : Array α) (off : ℕ) : (copy src dst off).size = dst.size :=
  Loop.run_induct (fun _ t => Array.size t = dst.size) rfl fun _ _ t ht => (size_write t _ _).trans ht

theorem copy_spec (src dst : Array α) (off : ℕ) (h : off + src.size ≤ dst.size) :
    (copy src dst off).size = dst.size ∧
      ∀ i, read (copy src dst off) i = if off ≤ i ∧ i < off + src.size then read src (i - off) else read dst i :=
  run_write_spec (read src) off h

theorem read_run_write (f : ℕ → α) {n : ℕ} {a : Array α} (hn : n ≤ a.size) :
    (Loop.run n (fun i a => write a i (f i)) a).size = a.size ∧
      ∀ i < n, read (Loop.run n (fun i a => write a i (f i)) a) i = f i := by
  have hspec := run_write_spec f 0 ((Nat.zero_add n).trans_le hn)
  simp only [Nat.zero_add, Nat.zero_le, true_and, Nat.sub_zero] at hspec
  refine ⟨hspec.1, fun i hi => ?_⟩
  rw [hspec.2, if_pos hi]

end Buffer
