import ExtFieldPcg.Fft
import ExtFieldPcg.Runtime

/-! `AlignedUnVector` of `cryptoTools/Common/Aligned.h` for blocks: a span of an allocation whose fresh memory
    is not initialised. -/

open Buffer

namespace ExtFieldPcg

/-- An allocation of `mCapacity` blocks and the size of the span at its start. -/
structure AlignedUnVector where
  mem : Array Block
  size : ℕ
  size_le : size ≤ mem.size

namespace AlignedUnVector

/-! ### The code -/

def empty : AlignedUnVector := ⟨#[], 0, le_rfl⟩

/-- What `begin() + i` points at, in the span or in the rest of the allocation. -/
def get (v : AlignedUnVector) (i : ℕ) : Block := read v.mem i

/-- `resize(n)`; `junk` is what fresh memory holds. Memory that is kept is not written. -/
def resize (v : AlignedUnVector) (n : ℕ) (junk : ℕ → Block) : Except Err AlignedUnVector :=
  if h : n ≤ v.mem.size then .ok ⟨v.mem, n, h⟩
  else do
    allocate n
    .ok ⟨Array.ofFn fun i : Fin n => if i < v.size then read v.mem i else junk i, n, Array.size_ofFn.ge⟩

def set (v : AlignedUnVector) (i : ℕ) (x : Block) : AlignedUnVector :=
  ⟨write v.mem i x, v.size, v.size_le.trans_eq (size_write v.mem i x).symm⟩

def fill (v : AlignedUnVector) (f : ℕ → Block) : AlignedUnVector :=
  ⟨Loop.run v.size (fun i m => write m i (f i)) v.mem, v.size,
    v.size_le.trans_eq (read_run_write f v.size_le).1.symm⟩

/-- `foleageFft(v, num_vars, v.size() / 3)`. -/
def fft (v : AlignedUnVector) (numVars : ℕ) : AlignedUnVector :=
  ⟨foleageFft v.mem numVars (v.size / 3), v.size, v.size_le.trans_eq (size_fft butterfly numVars _ 0 v.mem).symm⟩

/-! ### Entries -/

@[simp] theorem size_set (v : AlignedUnVector) (i : ℕ) (x : Block) : (v.set i x).size = v.size := rfl

@[simp] theorem size_fft (v : AlignedUnVector) (numVars : ℕ) : (v.fft numVars).size = v.size := rfl

theorem get_set_self {v : AlignedUnVector} {i : ℕ} (h : i < v.size) (x : Block) : (v.set i x).get i = x :=
  read_write_self (h.trans_le v.size_le) x

theorem get_set_ne {i j : ℕ} (h : i ≠ j) (v : AlignedUnVector) (x : Block) : (v.set i x).get j = v.get j :=
  read_write_ne h v.mem x

theorem get_fill (v : AlignedUnVector) (f : ℕ → Block) {i : ℕ} (h : i < v.size) : (v.fill f).get i = f i :=
  (read_run_write f v.size_le).2 i h

theorem get_fft (v : AlignedUnVector) (numVars i : ℕ) :
    (v.fft numVars).get i = read (foleageFft v.mem numVars (v.size / 3)) i := rfl

/-- A resize gives a span of the new size that keeps the old entries. -/
theorem resize_spec {v w : AlignedUnVector} {n : ℕ} {junk : ℕ → Block} (h : v.resize n junk = .ok w) :
    w.size = n ∧ ∀ i < n, i < v.size → w.get i = v.get i := by
  rw [resize] at h
  split at h
  · cases h
    exact ⟨rfl, fun _ _ _ => rfl⟩
  · by_cases hn : n ≤ maxBlocks
    · rw [allocate_ok hn, ok_bind] at h
      cases h
      refine ⟨rfl, fun i hi hv => ?_⟩
      rw [get, read_ofFn (fun i => if i < v.size then read v.mem i else junk i) hi, if_pos hv]
      rfl
    · rw [allocate_error (by omega), error_bind] at h
      cases h

/-- A resize fails only when its memory does not suffice and no more can be had. -/
theorem resize_ok_iff (v : AlignedUnVector) (n : ℕ) (junk : ℕ → Block) :
    (∃ w, v.resize n junk = .ok w) ↔ n ≤ v.mem.size ∨ n ≤ maxBlocks := by
  rw [resize]
  by_cases hcap : n ≤ v.mem.size
  · rw [dif_pos hcap]
    exact ⟨fun _ => .inl hcap, fun _ => ⟨_, rfl⟩⟩
  rw [dif_neg hcap]
  by_cases hmax : n ≤ maxBlocks
  · rw [allocate_ok hmax]
    exact ⟨fun _ => .inr hmax, fun _ => ⟨_, rfl⟩⟩
  · rw [allocate_error (by omega)]
    refine ⟨?_, fun h => absurd h (by omega)⟩
    rintro ⟨w, hw⟩
    cases hw

theorem resize_le {v : AlignedUnVector} {n : ℕ} (h : n ≤ v.size) (junk : ℕ → Block) :
    v.resize n junk = .ok ⟨v.mem, n, h.trans v.size_le⟩ := dif_pos (h.trans v.size_le)

@[simp] theorem resize_empty_zero (junk : ℕ → Block) : empty.resize 0 junk = .ok empty := rfl

/-- A fresh allocation has no spare capacity. -/
theorem resize_empty {n : ℕ} (h : n ≤ maxBlocks) (junk : ℕ → Block) :
    ∃ w, empty.resize n junk = .ok w ∧ w.size = n ∧ w.mem.size = n := by
  rw [resize]
  split
  next hcap => exact ⟨_, rfl, rfl, (Nat.le_zero.mp hcap).symm⟩
  next =>
    rw [allocate_ok h, ok_bind]
    exact ⟨_, rfl, rfl, Array.size_ofFn⟩

theorem resize_empty_error {n : ℕ} (h : maxBlocks < n) (junk : ℕ → Block) : empty.resize n junk = .error .badAlloc := by
  have hcap : ¬ n ≤ empty.mem.size := Nat.not_le.mpr ((Nat.zero_le _).trans_lt h)
  rw [resize, dif_neg hcap, allocate_error h, error_bind]

@[simp] theorem size_mem_set (v : AlignedUnVector) (i : ℕ) (x : Block) : (v.set i x).mem.size = v.mem.size :=
  size_write v.mem i x

@[simp] theorem size_mem_fill (v : AlignedUnVector) (f : ℕ → Block) : (v.fill f).mem.size = v.mem.size :=
  (read_run_write f v.size_le).1

/-- Growing past the allocation brings fresh memory. -/
theorem resize_grow {v : AlignedUnVector} {n : ℕ} (hcap : v.mem.size < n) (hn : n ≤ maxBlocks) (junk : ℕ → Block) :
    ∃ w, v.resize n junk = .ok w ∧ ∀ i < n, w.get i = if i < v.size then v.get i else junk i := by
  rw [resize, dif_neg (by omega), allocate_ok hn, ok_bind]
  exact ⟨_, rfl, fun i hi => read_ofFn (fun i => if i < v.size then read v.mem i else junk i) hi⟩

end AlignedUnVector
end ExtFieldPcg
