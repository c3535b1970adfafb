import Mathlib.Algebra.BigOperators.Group.Finset.Piecewise
import Mathlib.Tactic.Abel
import ExtFieldPcg.Lib.Buffer

/-! Binary trees of seeds that are grown level by level, with the path to one leaf left out, and the sums from which
    the siblings of that path are recovered. -/

namespace Ggm

variable {S : Type*} (child : Bool → S → S)

/-! ### Trees -/

/-- Node `i` of level `d`, counted from the left. -/
def node (root : S) : ℕ → ℕ → S
  | 0, _ => root
  | d + 1, i => child (i.testBit 0) (node root d (i / 2))

/-- Level `d` as it is seen by one who holds `z` in the place of node `a`. -/
def punctured (root z : S) (d a : ℕ) : ℕ → S := Function.update (node child root d) a z

variable {child} {root z : S} {d a i : ℕ}

theorem node_succ : node child root (d + 1) i = child (i.testBit 0) (node child root d (i / 2)) := rfl

theorem punctured_self : punctured child root z d a a = z := Function.update_self ..

theorem punctured_ne (h : i ≠ a) : punctured child root z d a i = node child root d i := Function.update_of_ne h ..

theorem xor_one_div_two (a : ℕ) : (a ^^^ 1) / 2 = a / 2 := by
  rw [Nat.xor_div_two]
  exact Nat.xor_zero _

theorem testBit_xor_one (a : ℕ) : (a ^^^ 1).testBit 0 = !a.testBit 0 := by
  rw [Nat.testBit_xor]
  simp

/-- Two nodes with one parent are equal or siblings. -/
theorem eq_or_sibling (h : i / 2 = a / 2) : i = a ∨ i = a ^^^ 1 := by
  by_cases hbit : i % 2 = a % 2
  · exact .inl (by omega)
  · refine .inr ?_
    have hdiv := xor_one_div_two a
    have hmod := testBit_xor_one a
    simp only [Nat.testBit_zero, ← decide_not, decide_eq_decide] at hmod
    omega

/-- The level below a punctured one: every child is grown from what is held there, then the sibling on the path is
    corrected and the child on the path is set to `z`. -/
theorem punctured_succ (root z : S) (d a i : ℕ) : punctured child root z (d + 1) a i =
    if i = a then z else if i = a ^^^ 1 then node child root (d + 1) (a ^^^ 1)
      else child (i.testBit 0) (punctured child root z d (a / 2) (i / 2)) := by
  by_cases ha : i = a
  · rw [if_pos ha, ha, punctured_self]
  · rw [if_neg ha, punctured_ne ha]
    by_cases hs : i = a ^^^ 1
    · rw [if_pos hs, hs]
    · have hdiv : i / 2 ≠ a / 2 := fun h => (eq_or_sibling h).elim ha hs
      rw [if_neg hs, punctured_ne hdiv, node_succ]

/-! ### Sums -/

section Sums
variable {M : Type*} [AddCommGroup M]

theorem sum_punctured (f : S → M) {w : ℕ} (ha : a < w) :
    ∑ i ∈ Finset.range w, f (punctured child root z d a i) =
      ∑ i ∈ Finset.range w, f (node child root d i) - f (node child root d a) + f z := by
  have hmem : a ∈ Finset.range w := Finset.mem_range.mpr ha
  rw [← Finset.add_sum_erase _ _ hmem, ← Finset.add_sum_erase _ (fun i => f (node child root d i)) hmem, punctured_self,
    add_sub_cancel_left, add_comm]
  refine congrArg (· + f z) (Finset.sum_congr rfl fun i hi => ?_)
  rw [punctured_ne (Finset.ne_of_mem_erase hi)]

/-- What is missing on a punctured level is the difference of the sums, once the term of `z` is out. -/
theorem recover (child : Bool → S → S) (root z : S) (d : ℕ) (f : S → M) {w : ℕ} (ha : a < w) :
    ∑ i ∈ Finset.range w, f (node child root d i) - (-f z + ∑ i ∈ Finset.range w, f (punctured child root z d a i)) =
      f (node child root d a) := by
  rw [sum_punctured f ha]
  abel

end Sums

/-! ### One level after the other in a buffer -/

section Level
open Buffer
variable {α : Type*} [Inhabited α] [AddCommMonoid α]

/-- The children of parent `p`, written from `dst` on, and what they add to the sums of the left and right ones. -/
def growParent (f : Bool → α → α) (src dst p : ℕ) (st : Array α × α × α) : Array α × α × α :=
  let parent := read st.1 (src + p)
  (write (write st.1 (dst + 2 * p) (f false parent)) (dst + 2 * p + 1) (f true parent),
    st.2.1 + f false parent, st.2.2 + f true parent)

/-- After `j` parents their children are written, and nothing else is touched. -/
structure Grown (f : Bool → α → α) (src dst : ℕ) (st : Array α × α × α) (j : ℕ) (st' : Array α × α × α) : Prop where
  size : st'.1.size = st.1.size
  child : ∀ c < 2 * j, read st'.1 (dst + c) = f (c.testBit 0) (read st.1 (src + c / 2))
  frame : ∀ x, x < dst ∨ dst + 2 * j ≤ x → read st'.1 x = read st.1 x
  left : st'.2.1 = st.2.1 + ∑ p ∈ Finset.range j, f false (read st.1 (src + p))
  right : st'.2.2 = st.2.2 + ∑ p ∈ Finset.range j, f true (read st.1 (src + p))

theorem grown_run (f : Bool → α → α) {src dst w : ℕ} (st : Array α × α × α) (hfit : dst + 2 * w ≤ st.1.size)
    (hdisj : dst + 2 * w ≤ src ∨ src + w ≤ dst) :
    Grown f src dst st w (Loop.run w (growParent f src dst) st) := by
  refine Loop.run_induct (Grown f src dst st) ⟨rfl, by simp, fun _ _ => rfl, by simp, by simp⟩ fun j hj t G => ?_
  have hparent : read t.1 (src + j) = read st.1 (src + j) := G.frame _ (by omega)
  have hsize := G.size
  refine ⟨by simp only [growParent, size_write, hsize], fun c hc => ?_, fun x hx => ?_, ?_, ?_⟩
  · simp only [growParent, hparent]
    rcases lt_or_ge c (2 * j) with hlt | hge
    · rw [read_write_ne (by omega), read_write_ne (by omega), G.child c hlt]
    · rcases (by omega : c = 2 * j ∨ c = 2 * j + 1) with rfl | rfl
      · rw [read_write_ne (by omega), read_write_self (by omega), Nat.mul_div_cancel_left j (by decide)]
        simp
      · have hdiv : (2 * j + 1) / 2 = j := by omega
        rw [← Nat.add_assoc, read_write_self (by rw [size_write]; omega), hdiv]
        simp
  · simp only [growParent]
    rw [read_write_ne (by omega), read_write_ne (by omega), G.frame x (by omega)]
  · simp only [growParent]
    rw [hparent, G.left, Finset.sum_range_succ, add_assoc]
  · simp only [growParent]
    rw [hparent, G.right, Finset.sum_range_succ, add_assoc]

end Level
end Ggm
