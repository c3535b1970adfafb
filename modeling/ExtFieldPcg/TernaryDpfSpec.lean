import Mathlib.Tactic.Abel
import ExtFieldPcg.TernaryDpfLevel

/-! Correctness of the ternary DPF: the outputs of the two parties at a tree add to its value at the leaf that
    the shared point selects, and to zero at every other leaf. -/

open Buffer

namespace ExtFieldPcg
namespace TernaryDpf

variable {A : Aes} {g : Bool → Draws} {d : Bool → TernaryDpf} {points : Bool → Array F3x32}
variable {values : Bool → Array Block} {domain n D : ℕ}

/-- The two objects are set up for one session: the same tree, and base OTs of one with the other. -/
structure Matched (d : Bool → TernaryDpf) (domain n D : ℕ) : Prop where
  party : ∀ p, (d p).mPartyIdx = p.toNat
  domain : ∀ p, (d p).mDomain = domain
  depth : ∀ p, (d p).mDepth = D
  numPoints : ∀ p, (d p).mNumPoints = n
  ots : ∀ p i, read (d p).mBaseRecvOts i = key (read (d !p).mBaseSendOts i) (read (d p).mBaseChoice i)

/-- The points are vectors of `D` ternary digits. -/
structure Shared (points : Bool → Array F3x32) (n D : ℕ) : Prop where
  valid : ∀ p, ∀ k < n, (read (points p) k).Valid
  lt : ∀ p, ∀ k < n, (read (points p) k).toInt < 3 ^ D

/-- The point that tree `k` is programmed at. -/
def point (points : Bool → Array F3x32) (k : ℕ) : ℕ := (read (points false) k + read (points true) k).toInt

/-- The node of level `i` above the point of tree `k`. -/
def active (points : Bool → Array F3x32) (D k i : ℕ) : ℕ := point points k / 3 ^ (D - i)

theorem point_lt (S : Shared points n D) (hD : D ≤ 32) {k : ℕ} (hk : k < n) : point points k < 3 ^ D := by
  rw [point, F3x32.toInt_add (S.valid false k hk) (S.valid true k hk) hD (S.lt false k hk) (S.lt true k hk)]
  exact Ternary.digitAdd_lt _ _

theorem active_lt (S : Shared points n D) (hD : D ≤ 32) {k i : ℕ} (hk : k < n) (hi : i ≤ D) :
    active points D k i < 3 ^ i := by
  refine Nat.div_lt_of_lt_mul ?_
  rw [← pow_add, (by omega : D - i + i = D)]
  exact point_lt S hD hk

theorem active_zero (S : Shared points n D) (hD : D ≤ 32) {k : ℕ} (hk : k < n) : active points D k 0 = 0 :=
  Nat.div_eq_of_lt (point_lt S hD hk)

theorem active_depth (k : ℕ) : active points D k D = point points k := by
  rw [active, Nat.sub_self, pow_zero, Nat.div_one]

theorem active_div {k i : ℕ} (hi : 1 ≤ i) (hD : i ≤ D) : active points D k i / 3 = active points D k (i - 1) := by
  rw [active, active, Nat.div_div_eq_div_mul, ← pow_succ, (by omega : D - i + 1 = D - (i - 1))]

/-- The digits that the two parties hold add to the last digit of the active node. -/
theorem active_mod (points : Bool → Array F3x32) (M : Matched d domain n D) (hD : D ≤ 32) {k i : ℕ} (hi : 1 ≤ i) (hiD : i ≤ D) :
    ((d false).digitAt (points false) i k + (d true).digitAt (points true) i k) % 3 = active points D k i % 3 := by
  rw [digitAt, digitAt, M.depth, M.depth, ← F3x32.digit_add _ _ (by omega), (F3x32.add_valid _ _).digit_eq (by omega)]
  rfl

theorem digitAt_lt (M : Matched d domain n D) (S : Shared points n D) (hD : D ≤ 32) (p : Bool) {k i : ℕ} (hk : k < n)
    (hi : 1 ≤ i) : (d p).digitAt (points p) i k < 3 := by
  rw [digitAt, M.depth]
  exact S.valid p k hk _ (by omega)

/-! ### Correction words -/

theorem Matched.advance (M : Matched d domain n D) (o : ℕ) :
    Matched (fun p => { d p with mOtIdx := o }) domain n D :=
  ⟨M.party, M.domain, M.depth, M.numPoints, M.ots⟩

/-- The key that `sender` derives at the digit of the other party is the one that party has. -/
theorem senderKey_eq (M : Matched d domain n D) (hidx : (d false).mOtIdx = (d true).mOtIdx) (p : Bool) (iter k : ℕ) :
    (d !p).senderKey ((d p).correction (points p) iter) k ((d p).digitAt (points p) iter k) =
      read (d p).mBaseRecvOts ((d p).mOtIdx + k * 2 + 0) ^^^ read (d p).mBaseRecvOts ((d p).mOtIdx + k * 2 + 1) := by
  have hother : (d !p).mOtIdx = (d p).mOtIdx := by cases p <;> simp [hidx]
  simp only [senderKey, correction, M.ots p, hother]
  rw [← Bool.xor_assoc, ← Bool.xor_assoc, Bool.xor_self, Bool.xor_self, Bool.false_xor, Bool.false_xor]

/-- What a party takes from the other's masks: `r` at the sum of the two digits. -/
theorem received_eq (M : Matched d domain n D) (hidx : (d false).mOtIdx = (d true).mOtIdx) (H : Block → Block)
    {p : Bool} {iter k a b : ℕ} (ha : (d p).digitAt (points p) iter k = a) (ha3 : a < 3)
    (hb : (d !p).digitAt (points !p) iter k = b) (hb3 : b < 3) (t : ℕ) :
    expand3 H (read (d p).mBaseRecvOts ((d p).mOtIdx + k * 2 + 0) ^^^
        read (d p).mBaseRecvOts ((d p).mOtIdx + k * 2 + 1)) t +
      (if a ≠ 0 then (d !p).sendBuffer H (g !p) (points !p) ((d p).correction (points p) iter) iter (k * 2 + a - 1) t
        else 0) =
    (d !p).senderMask H (g !p) (points !p) ((d p).correction (points p) iter) iter k t +
      (if t = (a + b) % 3 then (d !p).senderR (g !p) iter k else 0) := by
  rw [← senderKey_eq M hidx p iter k, ha]
  by_cases h0 : a = 0
  · subst h0
    rw [if_neg (by simp), zero_add, Nat.mod_eq_of_lt hb3, senderMask, hb, Block.xor_eq_add,
      Block.add_add_cancel_right, add_zero]
  · have hrow : (k * 2 + a - 1) / 2 = k := by omega
    have hcol : (k * 2 + a - 1) % 2 + 1 = a := by omega
    rw [if_pos h0, sendBuffer]
    simp only [hrow, hcol, hb, Block.xor_eq_add]
    rw [← add_assoc, ← add_assoc, Block.add_self, zero_add]

theorem Matched.senderR_bit (M : Matched d domain n D) (p : Bool) (iter k : ℕ) :
    ((d p).senderR (g p) iter k).bit 0 = p := by
  rw [senderR, setLowBit, Block.bit, Word.getLsbD_ofBits _ (by omega), if_pos rfl, M.party]
  cases p <;> rfl

def offset (d : Bool → TernaryDpf) (g : Bool → Draws) (iter k : ℕ) : Block :=
  (d false).senderR (g false) iter k + (d true).senderR (g true) iter k

theorem offset_bit (M : Matched d domain n D) (iter k : ℕ) : (offset d g iter k).bit 0 = true := by
  rw [offset, Block.bit_add, M.senderR_bit, M.senderR_bit]
  rfl

theorem sigmaShare_eq (H : Block → Block) (dp : TernaryDpf) (pts : Array F3x32) (iter : ℕ) (mask : ℕ → ℕ → Block)
    (buffer z : Rows Block) (t k : ℕ) :
    dp.sigmaShare H pts iter mask buffer z t k =
      expand3 H (read dp.mBaseRecvOts (dp.mOtIdx + k * 2 + 0) ^^^ read dp.mBaseRecvOts (dp.mOtIdx + k * 2 + 1)) t +
        (if dp.digitAt pts iter k ≠ 0 then buffer (k * 2 + dp.digitAt pts iter k - 1) t else 0) +
        mask k t + z t k := by
  simp only [sigmaShare, Block.xor_eq_add]
  split
  · abel
  · abel

/-- Both parties end with the same `sigma`: the sum of their `z`, off by the correction at the active child. -/
theorem correctionWord_sigma (S : Shared points n D) (hD : D ≤ 32) {st : Bool → Party}
    (M : Matched (fun p => (st p).d) domain n D) (hidx : (st false).d.mOtIdx = (st true).d.mOtIdx) {iter k t : ℕ}
    (hk : k < n) (hi : 1 ≤ iter) (hiD : iter ≤ D) (p : Bool) :
    (correctionWord A g points iter st p).sigma t k = (st false).z t k + (st true).z t k +
      (if t = active points D k iter % 3 then offset (fun p => (st p).d) g iter k else 0) := by
  have hfalse := digitAt_lt M S hD false hk hi
  have htrue := digitAt_lt M S hD true hk hi
  have hsum := active_mod points M hD (k := k) hi hiD
  have r₀ := received_eq (g := g) M hidx A.fixedKey (p := false) rfl hfalse rfl htrue t
  have r₁ := received_eq (g := g) M hidx A.fixedKey (p := true) rfl htrue rfl hfalse t
  simp only [Bool.not_false, Bool.not_true, Block.xor_eq_add] at r₀ r₁
  rw [hsum] at r₀
  rw [Nat.add_comm (digitAt _ _ _ _), hsum] at r₁
  have hshares : (correctionWord A g points iter st p).sigma t k =
      (correctionWord A g points iter st false).sigma t k := by
    cases p
    · rfl
    · exact add_comm _ _
  rw [hshares]
  simp only [correctionWord, sigmaShare_eq, Block.xor_eq_add, Bool.not_false, Bool.not_true]
  rw [r₀, r₁]
  -- each mask occurs in both shares
  have hcancel (m₀ m₁ x₀ x₁ z₀ z₁ : Block) :
      m₁ + x₁ + m₀ + z₀ + (m₀ + x₀ + m₁ + z₁) = z₀ + z₁ + (x₀ + x₁) + (m₀ + m₀) + (m₁ + m₁) := by abel
  rw [hcancel, Block.add_self, Block.add_self, add_zero, add_zero]
  split
  · rfl
  · rw [add_zero]

/-! ### One level -/

/-- The parties hold the same at every node of the tree off the active path, and complementary tags at the
    active node of the parent level: the state before iteration `i + 1`. -/
structure Ready (d : Bool → TernaryDpf) (points : Bool → Array F3x32) (n D i : ℕ) (st : Bool → Party) : Prop where
  objects : ∃ o, ∀ p, (st p).d = { d p with mOtIdx := o }
  tags : ∀ k < n, ∀ L < 3 ^ i, (st false).s (i % 3) L k + (st true).s (i % 3) L k =
    if L = active points D k i then Block.allSame 0xFF else 0
  seeds : ∀ k < n, ∀ r < 3 ^ (i + 1), r / 3 ≠ active points D k i →
    (st false).s ((i + 1) % 3) r k = (st true).s ((i + 1) % 3) r k
  z : ∀ k < n, ∀ j < 3, (st false).z j k + (st true).z j k =
    (st false).s ((i + 1) % 3) (3 * active points D k i + j) k +
      (st true).s ((i + 1) % 3) (3 * active points D k i + j) k

/-- The corrected seed of node `r` of level `i + 1` in tree `k`. -/
def seedOf (st : Party) (i r k : ℕ) : Block :=
  corrected (st.s (i % 3)) st.sigma (st.s ((i + 1) % 3)) r k

/-- After the correction the seeds agree off the active node, and differ in the low bit at it. -/
structure Fixed (d : Bool → TernaryDpf) (points : Bool → Array F3x32) (n D i : ℕ) (st : Bool → Party) : Prop where
  objects : ∃ o, ∀ p, (st p).d = { d p with mOtIdx := o }
  seeds : ∀ k < n, ∃ R : Block, R.bit 0 = true ∧ ∀ r < 3 ^ (i + 1),
    seedOf (st false) i r k + seedOf (st true) i r k = if r = active points D k (i + 1) then R else 0

theorem Ready.fix (M : Matched d domain n D) (S : Shared points n D) (hD : D ≤ 32) {i : ℕ} (hi : i < D)
    {st : Bool → Party} (Q : Ready d points n D i st) :
    Fixed d points n D i (correctionWord A g points (i + 1) st) := by
  obtain ⟨o, ho⟩ := Q.objects
  have M' : Matched (fun p => (st p).d) domain n D := by
    simp only [ho]
    exact M.advance o
  have hidx : (st false).d.mOtIdx = (st true).d.mOtIdx := by rw [ho, ho]
  refine ⟨⟨o + n * 2, fun p => ?_⟩, fun k hk => ⟨offset (fun p => (st p).d) g (i + 1) k, offset_bit M' _ _, ?_⟩⟩
  · simp only [correctionWord, ho, M.numPoints]
  · intro r hr
    have hdiv : active points D k (i + 1) / 3 = active points D k i := active_div (by omega) (by omega)
    have hsigma (p : Bool) := correctionWord_sigma (A := A) (g := g) S hD M' hidx hk (t := r % 3)
      (by omega : 1 ≤ i + 1) hi p
    have hL : r / 3 < 3 ^ i := by
      rw [pow_succ] at hr
      omega
    -- the two tags at the parent decide whether `sigma` survives
    have hsum : seedOf (correctionWord A g points (i + 1) st false) i r k +
        seedOf (correctionWord A g points (i + 1) st true) i r k =
        (st false).s ((i + 1) % 3) r k + (st true).s ((i + 1) % 3) r k +
          (((st false).s (i % 3) (r / 3) k + (st true).s (i % 3) (r / 3) k) &&&
            (correctionWord A g points (i + 1) st false).sigma (r % 3) k) := by
      simp only [seedOf, corrected, hsigma, Block.xor_eq_add, Block.add_and]
      simp only [correctionWord]
      abel
    rw [hsum, Q.tags k hk _ hL]
    by_cases hact : r / 3 = active points D k i
    · have hr' : r = 3 * active points D k i + r % 3 := by omega
      rw [if_pos hact, Block.allSame_and, hsigma, Q.z k hk (r % 3) (by omega), ← hr']
      by_cases hlast : r % 3 = active points D k (i + 1) % 3
      · rw [if_pos hlast, if_pos (by omega), ← add_assoc, Block.add_self, zero_add]
      · rw [if_neg hlast, if_neg (by rintro rfl; exact hlast rfl), add_zero, Block.add_self]
    · rw [if_neg hact, Block.zero_and, add_zero, Q.seeds k hk r hr hact, Block.add_self,
        if_neg (by rintro rfl; exact hact hdiv)]

theorem nextLevel_spec {st : Party} {i : ℕ} (hdepth : st.d.mDepth = D) (hnum : st.d.mNumPoints = n) (hi : i + 1 < D)
    (hD : D ≤ 32) :
    (nextLevel A (i + 1) st).d = st.d ∧
    (∀ r < 3 ^ (i + 1), ∀ k < n, (nextLevel A (i + 1) st).s ((i + 1) % 3) r k = tagOf (seedOf st i r k)) ∧
    (∀ r < 3 ^ (i + 1), ∀ j < 3, ∀ k < n,
      (nextLevel A (i + 1) st).s ((i + 2) % 3) (3 * r + j) k = A.hashBlock j (seedOf st i r k)) ∧
    (∀ j < 3, ∀ k < n,
      (nextLevel A (i + 1) st).z j k = ∑ r ∈ Finset.range (3 ^ (i + 1)), A.hashBlock j (seedOf st i r k)) := by
  have E := expandLevel_spec A n (ipow 3 (i + 1)) (st.s (i % 3)) st.sigma
    ⟨st.s ((i + 1) % 3), st.s ((i + 2) % 3), st.z⟩
  have hnodes : 3 * ((ipow 3 (i + 1) + 2) / 3) = 3 ^ (i + 1) := by
    rw [ipow_three (by omega), pow_succ]
    omega
  rw [hnodes] at E
  have hnext : nextLevel A (i + 1) st =
      let level := expandLevel A n (ipow 3 (i + 1)) (st.s (i % 3)) st.sigma
        ⟨st.s ((i + 1) % 3), st.s ((i + 2) % 3), st.z⟩
      { st with
        s := Function.update (Function.update st.s ((i + 1) % 3) level.seed) ((i + 2) % 3) level.child
        z := level.z } := by
    rw [nextLevel, if_pos (by omega), hnum]
    rfl
  rw [hnext]
  refine ⟨rfl, fun r hr k hk => ?_, fun r hr j hj k hk => ?_, E.z⟩
  · refine Eq.trans ?_ (E.seed r hr k hk)
    simp only [Function.update_of_ne (by omega : (i + 1) % 3 ≠ (i + 2) % 3), Function.update_self]
  · refine Eq.trans ?_ (E.child r hr j hj k hk)
    simp only [Function.update_self]

theorem tagOf_add {x y : Block} (h : (x + y).bit 0 = true) : tagOf x + tagOf y = Block.allSame 0xFF := by
  rw [Block.bit_add] at h
  rw [tagOf, tagOf]
  cases hx : x.bit 0 <;> cases hy : y.bit 0
  · simp [hx, hy] at h
  · simp
  · simp
  · simp [hx, hy] at h

section Fixed
variable {i : ℕ} {st : Bool → Party} (F : Fixed d points n D i st) {k : ℕ} (hk : k < n)
include F hk

theorem Fixed.seed_eq {r : ℕ} (hr : r < 3 ^ (i + 1)) (h : r ≠ active points D k (i + 1)) :
    seedOf (st false) i r k = seedOf (st true) i r k := by
  obtain ⟨R, -, hR⟩ := F.seeds k hk
  have hsum := hR r hr
  rw [if_neg h] at hsum
  exact Block.add_eq_zero_iff.mp hsum

theorem Fixed.tag_add {r : ℕ} (hr : r < 3 ^ (i + 1)) :
    tagOf (seedOf (st false) i r k) + tagOf (seedOf (st true) i r k) =
      if r = active points D k (i + 1) then Block.allSame 0xFF else 0 := by
  split
  · obtain ⟨R, hbit, hR⟩ := F.seeds k hk
    refine tagOf_add ?_
    rw [hR r hr, if_pos ‹_›, hbit]
  · rw [F.seed_eq hk hr ‹_›, Block.add_self]

/-- Of the values at the nodes only those at the active node are left in the sum of both parties. -/
theorem Fixed.sum_seeds (f : Block → Block) {m : ℕ} (hm : m ≤ 3 ^ (i + 1)) (hact : active points D k (i + 1) < m) :
    ∑ r ∈ Finset.range m, f (seedOf (st false) i r k) + ∑ r ∈ Finset.range m, f (seedOf (st true) i r k) =
      f (seedOf (st false) i (active points D k (i + 1)) k) + f (seedOf (st true) i (active points D k (i + 1)) k) := by
  rw [← Finset.sum_add_distrib]
  refine Finset.sum_eq_single_of_mem _ (Finset.mem_range.mpr hact) fun r hr hne => ?_
  rw [F.seed_eq hk ((Finset.mem_range.mp hr).trans_le hm) hne, Block.add_self]

end Fixed

theorem Fixed.next (M : Matched d domain n D) (S : Shared points n D) (hD : D ≤ 32) {i : ℕ} (hi : i + 1 < D) {st : Bool → Party}
    (F : Fixed d points n D i st) : Ready d points n D (i + 1) fun p => nextLevel A (i + 1) (st p) := by
  obtain ⟨o, ho⟩ := F.objects
  have hdepth (p : Bool) : (st p).d.mDepth = D := by
    rw [ho]
    exact M.depth p
  have hnum (p : Bool) : (st p).d.mNumPoints = n := by
    rw [ho]
    exact M.numPoints p
  have N (p : Bool) := nextLevel_spec (A := A) (hdepth p) (hnum p) hi hD
  constructor
  · exact ⟨o, fun p => (N p).1.trans (ho p)⟩
  · intro k hk L hL
    rw [(N false).2.1 L hL k hk, (N true).2.1 L hL k hk]
    exact F.tag_add hk hL
  · intro k hk r hr hact
    have hr' : r / 3 < 3 ^ (i + 1) := by
      rw [pow_succ] at hr
      omega
    rw [(by omega : r = 3 * (r / 3) + r % 3), (N false).2.2.1 _ hr' _ (by omega) k hk,
      (N true).2.2.1 _ hr' _ (by omega) k hk, F.seed_eq hk hr' hact]
  · intro k hk j hj
    have hact := active_lt S hD hk (i := i + 1) (by omega)
    rw [(N false).2.2.2 j hj k hk, (N true).2.2.2 j hj k hk, (N false).2.2.1 _ hact j hj k hk,
      (N true).2.2.1 _ hact j hj k hk]
    exact F.sum_seeds hk (A.hashBlock j) le_rfl hact

/-! ### The whole tree -/

theorem firstLevel_spec (dp : TernaryDpf) (gp : Draws) :
    (dp.firstLevel gp).d = dp ∧ ∀ k < dp.mNumPoints,
      (dp.firstLevel gp).s 0 0 k = Block.allSame (-(BitVec.ofNat 8 dp.mPartyIdx)) ∧
      ∀ j < 3, (dp.firstLevel gp).z j k = (dp.firstLevel gp).s 1 j k := by
  refine Loop.run_induct (fun m (st : Party) => st.d = dp ∧ ∀ k < m,
    st.s 0 0 k = Block.allSame (-(BitVec.ofNat 8 dp.mPartyIdx)) ∧ ∀ j < 3, st.z j k = st.s 1 j k) ⟨rfl, by simp⟩ ?_
  rintro m - st ⟨hd, hk⟩
  refine ⟨hd, fun k hlt => ?_⟩
  simp only [Function.update_self, Function.update_of_ne (by decide : (0 : ℕ) ≠ 1), Rows.set]
  rcases Nat.lt_succ_iff_lt_or_eq.mp hlt with hlt | rfl
  · have hne : k ≠ m := by omega
    simp only [hne, and_false, if_false]
    exact hk k hlt
  · refine ⟨by simp, fun j hj => ?_⟩
    obtain rfl | rfl | rfl : j = 0 ∨ j = 1 ∨ j = 2 := by omega
    all_goals simp

theorem ready_firstLevel (M : Matched d domain n D) (S : Shared points n D) (hD : D ≤ 32)
    (hidx : ∀ p, (d p).mOtIdx = 0) : Ready d points n D 0 fun p => (d p).firstLevel (g p) := by
  have N (p : Bool) := firstLevel_spec (d p) (g p)
  have hn (p : Bool) : (d p).mNumPoints = n := M.numPoints p
  refine ⟨⟨0, fun p => ?_⟩, fun k hk L hL => ?_, fun k hk r hr hact => ?_, fun k hk j hj => ?_⟩
  · rw [(N p).1, ← hidx p]
  · obtain rfl : L = 0 := by simpa using hL
    rw [Nat.zero_mod, ((N false).2 k (by rw [hn]; exact hk)).1, ((N true).2 k (by rw [hn]; exact hk)).1,
      active_zero S hD hk, if_pos rfl, M.party, M.party]
    decide +kernel
  · rw [active_zero S hD hk] at hact
    rw [zero_add, pow_one] at hr
    omega
  · rw [active_zero S hD hk, ((N false).2 k (by rw [hn]; exact hk)).2 j hj,
      ((N true).2 k (by rw [hn]; exact hk)).2 j hj, Nat.mul_zero, zero_add, zero_add]

theorem run_fixed (M : Matched d domain n D) (S : Shared points n D) (hD : D ≤ 32) (hpos : 0 < D)
    (hidx : ∀ p, (d p).mOtIdx = 0) :
    Fixed d points n D (D - 1)
      (Loop.run D (fun t st => iteration A g points (t + 1) st) fun p => (d p).firstLevel (g p)) := by
  have hrun := Loop.run_induct (n := D) (s := fun p => (d p).firstLevel (g p))
    (f := fun t st => iteration A g points (t + 1) st)
    (fun t st => if t < D then Ready d points n D t st else Fixed d points n D (D - 1) st)
    (by rw [if_pos hpos]; exact ready_firstLevel M S hD hidx) ?_
  · rwa [if_neg (by omega)] at hrun
  · intro t ht st Q
    rw [if_pos ht] at Q
    have F : Fixed d points n D t (correctionWord A g points (t + 1) st) := Q.fix M S hD ht
    split
    · exact F.next M S hD ‹_›
    · obtain ⟨o, ho⟩ := F.objects
      have hlast : iteration A g points (t + 1) st = correctionWord A g points (t + 1) st := by
        funext p
        rw [iteration, nextLevel, if_neg]
        rw [ho p]
        simp only [M.depth]
        omega
      rw [hlast, (by omega : D - 1 = t)]
      exact F

/-! ### The outputs -/

theorem leaves_spec {st : Party} (hdepth : st.d.mDepth = D) (hnum : st.d.mNumPoints = n) (hdom : st.d.mDomain = domain)
    (hpos : 0 < D) (memory : ℕ → Rows Block) :
    Leafed A n (seedOf st (D - 1)) domain (leaves A st memory) := by
  have L := lastLayer_spec A n domain (st.s ((D - 1) % 3)) (st.s (D % 3)) st.sigma
    ⟨fun i k => lsb (memory 5 i k), fun _ => 0, memory 6 0, 0⟩ (fun _ => rfl) rfl
  have hseed : seedOf st (D - 1) = corrected (st.s ((D - 1) % 3)) st.sigma (st.s (D % 3)) := by
    funext r k
    rw [seedOf, (by omega : D - 1 + 1 = D)]
  rw [leaves, hdepth, hnum, hdom, hseed]
  exact L

theorem valueOutput_add (M : Matched d domain n D) (hpos : 0 < D) (hdom : domain ≤ 3 ^ D)
    {st : Bool → Party} (F : Fixed d points n D (D - 1) st) {lv : Bool → Leaves}
    (hlv : ∀ p, Leafed A n (seedOf (st p) (D - 1)) domain (lv p)) {k l : ℕ} (hk : k < n) (hl : l < domain) :
    ((d false).valueOutput (lv false) (gamma (lv false) (values false) (diff (lv true) (values true))) k l).1 +
      ((d true).valueOutput (lv true) (gamma (lv true) (values true) (diff (lv false) (values false))) k l).1 =
    if l = point points k then read (values false) k + read (values true) k else 0 := by
  have hdepth : D - 1 + 1 = D := by omega
  have hactive : active points D k (D - 1 + 1) = point points k := by rw [hdepth, active_depth]
  have hle : domain ≤ 3 ^ (D - 1 + 1) := by rwa [hdepth]
  simp only [valueOutput, gamma, diff, M.numPoints, (hlv _).tag l hl k hk, (hlv _).leafVals l hl k hk,
    allSame_neg_lsb, Block.xor_eq_add]
  have hgamma : read (values false) k + (lv false).sums k + (lv true).sums k + read (values true) k =
      read (values true) k + (lv true).sums k + (lv false).sums k + read (values false) k := by abel
  rw [hgamma]
  split
  · subst_vars
    -- the tags add to all ones, the leaf values to the sums
    have hsums := F.sum_seeds hk (fun x => A.roundFn x x) hle (hactive.trans_lt hl)
    rw [← (hlv false).sums k hk, ← (hlv true).sums k hk, hactive] at hsums
    have htags := F.tag_add hk (hl.trans_le hle)
    rw [if_pos hactive.symm] at htags
    rw [add_add_add_comm, ← Block.and_add, htags, Block.and_allSame, ← hsums]
    have hcancel (v₀ v₁ s₀ s₁ : Block) : v₁ + s₁ + s₀ + v₀ + (s₀ + s₁) = v₀ + v₁ + (s₀ + s₀) + (s₁ + s₁) := by abel
    rw [hcancel, Block.add_self, Block.add_self, add_zero, add_zero]
  · rw [F.seed_eq hk (hl.trans_le hle) (hactive ▸ ‹_›), Block.add_self]

/-! ### The checks -/

theorem checkPoint_ok {dp : TernaryDpf} (hdepth : dp.mDepth = D) (hD : D ≤ 32) {q : F3x32} (hvalid : q.Valid)
    (hlt : q.toInt < 3 ^ D) : dp.checkPoint q = .ok () := by
  obtain ⟨v, hv, rfl⟩ := Loop.tryRun_induct (ε := Err) (n := D) (s := q.mVal)
    (f := fun _ v => if v &&& 3#64 = 3#64 then .error .invalidPointSharing else .ok (v >>> 2))
    (fun j v => v = q.mVal >>> (j * 2)) (by simp) fun j hj v hv => by
      have hdigit : v &&& 3#64 ≠ 3#64 := by
        intro h
        have hthree : q.digit j = 3 := by rw [F3x32.digit, ← hv, h]; rfl
        have := hvalid j (by omega)
        omega
      exact ⟨v >>> 2, if_neg hdigit, by rw [hv, ← BitVec.shiftRight_add, Nat.succ_mul]⟩
  have hzero : q.mVal >>> (D * 2) = 0#64 := by
    apply BitVec.eq_of_toNat_eq
    rw [BitVec.toNat_ushiftRight, Nat.shiftRight_eq_div_pow, pow_mul', (by decide : 2 ^ 2 = 4)]
    exact Nat.div_eq_of_lt (F3x32.toNat_lt hD fun i hi hDi => hvalid.digit_eq_zero hlt hi hDi)
  rw [checkPoint, hdepth, hv]
  exact if_neg (by simp [hzero])

theorem checkAllocation_ok {dp : TernaryDpf} (hdepth : dp.mDepth = D) (hnum : dp.mNumPoints = n) (hD : D ≤ 40)
    (hmem : n * 3 ^ D ≤ 3 * maxBlocks) : dp.checkAllocation = .ok () := by
  have hpow : 0 < 3 ^ D := Nat.pow_pos (by omega)
  have hbound : 16 * n * (3 ^ D + 3 ^ D / 3 + 3 ^ D / 9) + 16 * n * 3 * 2 < u64 := by
    have hsum : 3 ^ D + 3 ^ D / 3 + 3 ^ D / 9 ≤ 2 * 3 ^ D := by omega
    calc 16 * n * (3 ^ D + 3 ^ D / 3 + 3 ^ D / 9) + 16 * n * 3 * 2
        ≤ 16 * n * (2 * 3 ^ D) + 16 * n * 3 * 2 * 3 ^ D :=
          Nat.add_le_add (Nat.mul_le_mul_left _ hsum) (Nat.le_mul_of_pos_right _ hpow)
      _ = 128 * (n * 3 ^ D) := by ring
      _ ≤ 128 * (3 * maxBlocks) := Nat.mul_le_mul_left _ hmem
      _ < u64 := by decide
  rw [checkAllocation, hdepth, hnum, ipow_three hD]
  refine if_neg (Nat.not_lt.mpr (le_of_eq ?_))
  simp only [List.map_cons, List.map_nil, List.sum_cons, List.sum_nil]
  rw [Nat.mod_eq_of_lt hbound]
  ring

theorem checkPoints_ok (M : Matched d domain n D) (S : Shared points n D) (hD : D ≤ 32)
    (hmem : n * 3 ^ D ≤ 3 * maxBlocks) (p : Bool) : (d p).checkPoints (points p) = .ok () := by
  obtain ⟨_, hrun, -⟩ := Loop.tryRun_induct (ε := Err) (n := n) (s := ())
    (f := fun i _ => (d p).checkPoint (read (points p) i)) (fun _ _ => True) trivial fun k hk _ _ =>
      ⟨(), checkPoint_ok (M.depth p) hD (S.valid p k hk) (S.lt p k hk), trivial⟩
  rw [checkPoints, M.numPoints, hrun]
  exact checkAllocation_ok (M.depth p) (M.numPoints p) (by omega) hmem

/-- A session ends with shares of each value at its point, and of zero at every other leaf. -/
theorem expand_spec (M : Matched d domain n (log3ceil domain)) (S : Shared points n (log3ceil domain))
    (hidx : ∀ p, (d p).mOtIdx = 0) (hpoints : ∀ p, (points p).size = n) (hvalues : ∀ p, (values p).size = n)
    (hn : 0 < n) (hpos : 0 < domain) (hdom : domain ≤ 3 ^ 32) (hmem : n * domain ≤ maxBlocks) :
    ∃ out, expand A g d points values = .ok out ∧ ∀ k < n, ∀ l < domain,
      (out false k l).1 + (out true k l).1 =
        if l = point points k then read (values false) k + read (values true) k else 0 := by
  have hsizes (p : Bool) : (d p).checkSizes (points p) (values p) = .ok () := by
    rw [checkSizes, M.numPoints, hpoints, hvalues, if_neg (by omega), if_neg (by omega)]
  have hshape : ¬ ((d false).mDomain ≠ (d true).mDomain ∨ (d false).mNumPoints ≠ (d true).mNumPoints ∨
      (values false).size ≠ (values true).size) := by
    rw [M.domain, M.domain, M.numPoints, M.numPoints, hvalues, hvalues]
    omega
  obtain ⟨hle, hlow⟩ := log3ceil_spec hpos (hdom.trans (by decide))
  have hD : log3ceil domain ≤ 32 := by
    by_contra h
    exact Nat.lt_irrefl _ ((hlow 32 (by omega)).trans_le hdom)
  by_cases hone : domain = 1
  · subst hone
    refine ⟨fun p => (d p).trivialOutput (g p) (values p), ?_, fun k hk l hl => ?_⟩
    · rw [expand, hsizes, hsizes, ok_bind, ok_bind, if_neg hshape, M.domain, if_pos rfl]
    · have hpoint : point points k < 3 ^ 0 := point_lt S hD hk
      have hl' : l = point points k := by
        rw [pow_zero] at hpoint
        omega
      simp only [trivialOutput, hvalues, if_pos (by omega : n ≠ 0), if_pos hl']
  · have hpos' : 0 < log3ceil domain := by
      by_contra h
      rw [(by omega : log3ceil domain = 0), pow_zero] at hle
      omega
    have hmem' : n * 3 ^ log3ceil domain ≤ 3 * maxBlocks := by
      have hlow' := hlow (log3ceil domain - 1) (by omega)
      calc n * 3 ^ log3ceil domain = 3 * (n * 3 ^ (log3ceil domain - 1)) := by
            rw [Nat.mul_left_comm, ← pow_succ', (by omega : log3ceil domain - 1 + 1 = log3ceil domain)]
        _ ≤ 3 * (n * domain) := Nat.mul_le_mul_left _ (Nat.mul_le_mul_left _ hlow'.le)
        _ ≤ 3 * maxBlocks := Nat.mul_le_mul_left _ hmem
    have hchecks := checkPoints_ok M S hD hmem'
    have F := run_fixed (A := A) (g := g) M S hD hpos' hidx
    rw [expand, hsizes, hsizes, ok_bind, ok_bind, if_neg hshape, M.domain, if_neg hone, hchecks, hchecks, ok_bind,
      ok_bind, M.depth, hvalues, if_pos (by omega)]
    refine ⟨_, rfl, fun k hk l hl => ?_⟩
    obtain ⟨o, ho⟩ := F.objects
    exact valueOutput_add M hpos' hle F (fun p => leaves_spec (by rw [ho]; exact M.depth p)
      (by rw [ho]; exact M.numPoints p) (by rw [ho]; exact M.domain p) hpos' (g p).memory) hk hl

end TernaryDpf
end ExtFieldPcg
