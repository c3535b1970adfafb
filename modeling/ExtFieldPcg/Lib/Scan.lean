import Mathlib.Algebra.BigOperators.Group.Finset.Sigma
import Mathlib.Algebra.BigOperators.Pi
import Mathlib.Data.Finite.Prod
import Mathlib.Data.Fintype.Basic
import Mathlib.Data.List.OfFn
import Mathlib.Logic.Equiv.Fintype
import ExtFieldPcg.Lib.Buffer

/-! Buffers that loops run over in place: scans and prefix sums, entries moved along a table of indices, terms added
    at the places a table names. -/

namespace Buffer

variable {M : Type*}

/-- The first `n` entries as a function. -/
def cells [Inhabited M] (n : ℕ) (v : Array M) (i : Fin n) : M := read v i

theorem eq_of_cells_eq [Inhabited M] {n : ℕ} {v w : Array M} (hv : v.size = n) (hw : w.size = n)
    (h : cells n v = cells n w) : v = w :=
  ext_read (hv.trans hw.symm) fun i hi => congrFun h ⟨i, hi.trans_eq hv⟩

/-- An injective function on the buffers of one size, over a finite type, is onto them. -/
theorem surjOn_of_injOn [Inhabited M] [Finite M] {n : ℕ} {f : Array M → Array M} (hto : ∀ x, x.size = n → (f x).size = n)
    (hinj : Set.InjOn f {x | x.size = n}) : Set.SurjOn f {x | x.size = n} {x | x.size = n} := by
  let g (v : Fin n → M) : Fin n → M := cells n (f (Array.ofFn v))
  have hg : Function.Injective g := by
    intro v w h
    have hf := eq_of_cells_eq (hto _ Array.size_ofFn) (hto _ Array.size_ofFn) h
    have hlist := congrArg Array.toList (hinj Array.size_ofFn Array.size_ofFn hf)
    rw [Array.toList_ofFn, Array.toList_ofFn] at hlist
    exact List.ofFn_injective hlist
  intro y hy
  obtain ⟨v, hv⟩ := (Finite.injective_iff_surjective.mp hg) (cells n y)
  exact ⟨Array.ofFn v, Array.size_ofFn, eq_of_cells_eq (hto _ Array.size_ofFn) hy hv⟩

/-! ### Moves along a table -/

section Scatter
variable [Inhabited M]

/-- `for (j = 0; j < n; ++j) dst[table[j]] = src[j]`. -/
def scatter (n : ℕ) (table : Array ℕ) (src dst : Array M) : Array M :=
  Loop.run n (fun j dst => write dst (read table j) (read src j)) dst

theorem scatter_spec {n : ℕ} {table : Array ℕ} (src : Array M) {dst : Array M}
    (hlt : ∀ j < n, read table j < dst.size) (hinj : ∀ i < n, ∀ j < n, read table i = read table j → i = j) :
    (scatter n table src dst).size = dst.size ∧ ∀ j < n, read (scatter n table src dst) (read table j) = read src j := by
  refine Loop.run_induct (fun m t => Array.size t = dst.size ∧ ∀ j < m, read t (read table j) = read src j)
    ⟨rfl, by simp⟩ ?_
  rintro m hm t ⟨hsize, hread⟩
  refine ⟨by rw [size_write, hsize], fun j hj => ?_⟩
  rcases Nat.lt_succ_iff_lt_or_eq.mp hj with hj | rfl
  · have hne : read table m ≠ read table j := fun h => by
      have := hinj m hm j (hj.trans hm) h
      omega
    rw [read_write_ne hne, hread j hj]
  · exact read_write_self (hsize ▸ hlt j hm) _

end Scatter

/-! ### Scans -/

section Scan
variable [Inhabited M]

/-- `for (j = 1; j < n; ++j) v[j] = op(v[j - 1], v[j])`. -/
def scan (op : M → M → M) (n : ℕ) (v : Array M) : Array M :=
  Loop.run (n - 1) (fun j v => write v (j + 1) (op (read v j) (read v (j + 1)))) v

/-- An entry is computed from the new entry before it. -/
@[simp] theorem size_scan (op : M → M → M) (n : ℕ) (v : Array M) : (scan op n v).size = v.size :=
  Loop.run_induct (fun _ t => Array.size t = v.size) rfl fun _ _ t ht => (size_write t _ _).trans ht

theorem scan_rec (op : M → M → M) {n : ℕ} {v : Array M} (h : n ≤ v.size) :
    (scan op n v).size = v.size ∧ read (scan op n v) 0 = read v 0 ∧
      ∀ i, i + 1 < n → read (scan op n v) (i + 1) = op (read (scan op n v) i) (read v (i + 1)) := by
  have hrun := Loop.run_induct (fun j t => Array.size t = v.size ∧ read t 0 = read v 0 ∧
      (∀ i < j, read t (i + 1) = op (read t i) (read v (i + 1))) ∧ ∀ i, j < i → read t i = read v i)
    (n := n - 1) (f := fun j v => write v (j + 1) (op (read v j) (read v (j + 1)))) (s := v) ?_ ?_
  · obtain ⟨hsize, hzero, hstep, -⟩ := hrun
    exact ⟨hsize, hzero, fun i hi => hstep i (by omega)⟩
  · exact ⟨rfl, rfl, fun i hi => absurd hi (Nat.not_lt_zero i), fun _ _ => rfl⟩
  · rintro j hj t ⟨hsize, hzero, hstep, hrest⟩
    refine ⟨by rw [size_write, hsize], by rw [read_write_ne (by omega), hzero], fun i hi => ?_, fun i hi => ?_⟩
    · rw [read_write_ne (by omega : j + 1 ≠ i)]
      rcases Nat.lt_succ_iff_lt_or_eq.mp hi with hi | rfl
      · rw [read_write_ne (by omega), hstep i hi]
      · rw [read_write_self (by omega), hrest (i + 1) (by omega)]
    · rw [read_write_ne (by omega), hrest i (by omega)]

end Scan

/-! ### Sums in place -/

section Sums
variable [AddCommGroup M] [Inhabited M] {op : M → M → M}

theorem scan_spec (hop : ∀ x y, op x y = x + y) {n : ℕ} {v : Array M} (h : n ≤ v.size) :
    (scan op n v).size = v.size ∧ ∀ i < n, read (scan op n v) i = ∑ k ∈ Finset.range (i + 1), read v k := by
  obtain ⟨hsize, hzero, hstep⟩ := scan_rec op h
  refine ⟨hsize, fun i => ?_⟩
  induction i with
  | zero => exact fun _ => by rw [hzero, Finset.sum_range_one]
  | succ i ih => exact fun hi => by rw [hstep i hi, hop, ih (by omega), ← Finset.sum_range_succ]

/-- Terms added one after the other at the places `col` names, any of them more than once. -/
theorem run_addAt_spec (hop : ∀ x y, op x y = x + y) (col : ℕ → ℕ) (term : ℕ → M) {n : ℕ} {v : Array M}
    (hcol : ∀ j < n, col j < v.size) :
    (Loop.run n (fun j v => write v (col j) (op (read v (col j)) (term j))) v).size = v.size ∧
      ∀ k, read (Loop.run n (fun j v => write v (col j) (op (read v (col j)) (term j))) v) k =
        read v k + ∑ j ∈ Finset.range n, if col j = k then term j else 0 := by
  refine Loop.run_induct (fun m t => Array.size t = v.size ∧
    ∀ k, read t k = read v k + ∑ j ∈ Finset.range m, if col j = k then term j else 0) ⟨rfl, by simp⟩ ?_
  rintro m hm t ⟨hsize, hread⟩
  refine ⟨by rw [size_write, hsize], fun k => ?_⟩
  rw [Finset.sum_range_succ, ← add_assoc, ← hread k]
  by_cases hk : col m = k
  · rw [if_pos hk, ← hk, read_write_self (hsize ▸ hcol m hm), hop]
  · rw [if_neg hk, read_write_ne hk, add_zero]

end Sums
end Buffer

/-! ### The maps of functions -/

section Maps
variable {M : Type*} [AddCommGroup M] {n : ℕ}

/-- Prefix sums. -/
def accumulator (M : Type*) [AddCommGroup M] (n : ℕ) : (Fin n → M) →+ (Fin n → M) where
  toFun f i := ∑ j with j ≤ i, f j
  map_zero' := by
    funext i
    simp
  map_add' f g := by
    funext i
    simp [Finset.sum_add_distrib]

theorem accumulator_apply (f : Fin n → M) (i : Fin n) : accumulator M n f i = ∑ j with j ≤ i, f j := rfl

theorem accumulator_injective : Function.Injective (accumulator M n) := by
  rw [injective_iff_map_eq_zero]
  intro f hf
  -- an entry is its prefix sum less the sum before it, which consists of entries already known to vanish
  have hzero (k : ℕ) : ∀ i : Fin n, i.val = k → f i = 0 := by
    induction k using Nat.strong_induction_on with
    | h k ih =>
      rintro i rfl
      have hsum : ∑ j with j ≤ i, f j = 0 := congrFun hf i
      rwa [Finset.sum_eq_single_of_mem i (by simp)] at hsum
      intro j hj hne
      exact ih j (lt_of_le_of_ne (Finset.mem_filter.mp hj).2 (Fin.val_ne_of_ne hne)) j rfl
  funext i
  exact hzero i i rfl

/-- Sums over an initial piece of the indices, as a loop computes them. -/
theorem sum_range_eq_accumulator {i : ℕ} (hi : i < n) (f : ℕ → M) :
    ∑ k ∈ Finset.range (i + 1), f k = accumulator M n (fun j => f j) ⟨i, hi⟩ := by
  rw [accumulator_apply]
  symm
  refine Finset.sum_nbij (fun j => j.val) (fun j hj => ?_) (fun _ _ _ _ h => Fin.ext h) (fun k hk => ?_) fun _ _ => rfl
  · have hle : j.val ≤ i := (Finset.mem_filter.mp hj).2
    exact Finset.mem_range.mpr (by omega)
  · have hk := Finset.mem_range.mp hk
    refine ⟨⟨k, by omega⟩, ?_, rfl⟩
    rw [Finset.mem_coe, Finset.mem_filter]
    exact ⟨Finset.mem_univ _, Nat.lt_succ_iff.mp hk⟩

/-- A sum of entries at one slot each, over an initial piece of the slots. -/
theorem sum_slots (column : ℕ → ℕ → ℕ) (term : ℕ → ℕ → M) (a b i : ℕ) :
    ∑ k ∈ Finset.range (i + 1), ∑ x ∈ Finset.range a, ∑ y ∈ Finset.range b, (if column x y = k then term x y else 0) =
      ∑ x ∈ Finset.range a, ∑ y ∈ Finset.range b, if column x y ≤ i then term x y else 0 := by
  rw [Finset.sum_comm]
  refine Finset.sum_congr rfl fun x _ => ?_
  rw [Finset.sum_comm]
  refine Finset.sum_congr rfl fun y _ => ?_
  rw [Finset.sum_ite_eq]
  exact if_congr (Finset.mem_range.trans Nat.lt_succ_iff) rfl rfl

/-- Entry `j` moved to `σ j`. -/
def permute (M : Type*) [AddCommGroup M] (σ : Equiv.Perm (Fin n)) : (Fin n → M) →+ (Fin n → M) where
  toFun f i := f (σ.symm i)
  map_zero' := rfl
  map_add' _ _ := rfl

theorem permute_apply (σ : Equiv.Perm (Fin n)) (f : Fin n → M) (j : Fin n) : permute M σ f (σ j) = f j :=
  congrArg f (σ.symm_apply_apply j)

theorem permute_injective (σ : Equiv.Perm (Fin n)) : Function.Injective (permute M σ) := by
  intro f g h
  funext j
  rw [← permute_apply σ f, h, permute_apply]

end Maps

/-! ### Shuffled tables -/

/-- What a shuffle of `0, …, n - 1` leaves in a table. -/
structure Shuffled (n : ℕ) where
  table : Array ℕ
  perm : table.toList.Perm (List.range n)

namespace Shuffled

/-- A table that no shuffle has moved. -/
def sorted (n : ℕ) : Shuffled n := ⟨Array.range n, by rw [Array.toList_range]⟩

variable {n : ℕ} (p : Shuffled n)

theorem size : p.table.size = n := by
  rw [← Array.length_toList, p.perm.length_eq, List.length_range]

theorem read_eq {j : ℕ} (hj : j < p.table.toList.length) : Buffer.read p.table j = p.table.toList[j] := by
  rw [Array.length_toList] at hj
  simp [Buffer.read, hj]

theorem read_lt {j : ℕ} (hj : j < n) : Buffer.read p.table j < n := by
  have hlen : j < p.table.toList.length := by rwa [Array.length_toList, p.size]
  rw [p.read_eq hlen, ← List.mem_range]
  exact p.perm.subset (List.getElem_mem hlen)

theorem read_inj {i j : ℕ} (hi : i < n) (hj : j < n) (h : Buffer.read p.table i = Buffer.read p.table j) : i = j := by
  have hlen : p.table.toList.length = n := by rw [Array.length_toList, p.size]
  rw [p.read_eq (hi.trans_eq hlen.symm), p.read_eq (hj.trans_eq hlen.symm)] at h
  exact (p.perm.nodup_iff.mpr List.nodup_range).getElem_inj_iff.mp h

/-- The permutation that the table lists. -/
noncomputable def toPerm : Equiv.Perm (Fin n) :=
  Equiv.ofBijective (fun j => ⟨Buffer.read p.table j, p.read_lt j.isLt⟩) <|
    Finite.injective_iff_bijective.mp fun i j h => Fin.ext (p.read_inj i.isLt j.isLt (Fin.mk.inj h))

@[simp] theorem val_toPerm (j : Fin n) : (p.toPerm j).val = Buffer.read p.table j := rfl

end Shuffled

namespace Buffer

variable {M : Type*} [AddCommGroup M] [Inhabited M] {n : ℕ}

theorem cells_scatter (p : Shuffled n) (src : Array M) {dst : Array M} (h : dst.size = n) :
    (scatter n p.table src dst).size = n ∧ cells n (scatter n p.table src dst) = permute M p.toPerm (cells n src) := by
  obtain ⟨hsize, hread⟩ := scatter_spec src (fun j hj => (p.read_lt hj).trans_eq h.symm)
    fun i hi j hj => p.read_inj hi hj
  refine ⟨hsize.trans h, funext fun i => ?_⟩
  obtain ⟨j, rfl⟩ := p.toPerm.surjective i
  rw [permute_apply]
  exact hread j j.isLt

theorem cells_scan {op : M → M → M} (hop : ∀ x y, op x y = x + y) {v : Array M} (h : v.size = n) :
    (scan op n v).size = n ∧ cells n (scan op n v) = accumulator M n (cells n v) := by
  obtain ⟨hsize, hread⟩ := scan_spec hop h.ge
  refine ⟨hsize.trans h, funext fun i => ?_⟩
  exact (hread i i.isLt).trans (sum_range_eq_accumulator i.isLt (read v))

theorem cells_zipWith {op : M → M → M} (hop : ∀ x y, op x y = x + y) {v w : Array M} (hv : v.size = n) (hw : w.size = n) :
    cells n (Array.zipWith op v w) = cells n v + cells n w := by
  funext i
  exact (read_zipWith op (i.isLt.trans_eq hv.symm) (i.isLt.trans_eq hw.symm)).trans (hop _ _)

end Buffer
