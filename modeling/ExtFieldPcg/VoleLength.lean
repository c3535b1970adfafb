import ExtFieldPcg.VolePadding

/-! The length that `silentReceive` and `silentSend` deliver: an accepted request is even and the encoded vectors
    have odd lengths, so either they are shorter or they mix in memory that was never written. -/

open Buffer

namespace ExtFieldPcg

variable {ctx : CoeffCtx Block} {L : LibOTe ctx} {numVar : ℕ → ℕ} {g : SessionDraws ctx} {delta : Block} {n : ℕ}
  {P : Parties} {out : VoleOutput}

/-- The same draws with other fresh memory for the encoding. -/
def SessionDraws.withGrow (g : SessionDraws ctx) (growA growB growC : ℕ → Block) : SessionDraws ctx :=
  { g with growA := growA, growB := growB, growC := growC }

/-- The session delivers the correlated vectors `out` of `n` entries: all are entries of the encoded vectors, and
    fresh memory has no influence on them. -/
structure Delivers (L : LibOTe ctx) (numVar : ℕ → ℕ) (g : SessionDraws ctx) (delta : Block) (n : ℕ) (P : Parties)
    (out : VoleOutput) : Prop where
  size : ∃ P', P.inplace L numVar g delta n = .ok P' ∧
    n ≤ P'.recv.mC.size ∧ n ≤ P'.recv.mA.size ∧ n ≤ P'.send.mB.size
  output : ∀ growA growB growC, ∃ P', P.silentVole L numVar (g.withGrow growA growB growC) delta n = .ok (P', out)
  corr : ∀ i < n, read out.a i = ctx.plus (read out.b i) (ctx.mul (read out.c i) delta)

/-! ### The encoded length -/

theorem SilentWalshVoleReceiver.finish_mC {r r' : SilentWalshVoleReceiver} {growA growC : ℕ → Block}
    (h : r.finish numVar growA growC = .ok r') : encode (numVar r.mA.size) growC r.mC = .ok r'.mC := by
  obtain ⟨wA, -, h⟩ := bind_eq_ok.mp h
  obtain ⟨wC, hC, h⟩ := bind_eq_ok.mp h
  cases h
  exact hC

theorem Parties.finish_mC {P P' : Parties} (h : P.finish numVar g = .ok P') :
    encode (numVar P.recv.mA.size) g.growC P.recv.mC = .ok P'.recv.mC := by
  obtain ⟨r, hr, h⟩ := bind_eq_ok.mp h
  obtain ⟨s, -, h⟩ := bind_eq_ok.mp h
  cases h
  exact SilentWalshVoleReceiver.finish_mC hr

theorem Idle.inplace_inv (I : Idle P) (X : XorCtx ctx) (hn : n % 128 = 0) (hpos : 0 < n) {P' : Parties}
    (h : P.inplace L numVar g delta n = .ok P') :
    ∃ P₁, P.beforeEncoding L g delta n = .ok P₁ ∧ Expanded ctx g delta (n / 64) P₁ ∧
      encode (numVar n) g.growC P₁.recv.mC = .ok P'.recv.mC := by
  obtain ⟨domain, rfl⟩ : ∃ domain, n = domain * 64 := ⟨n / 64, by omega⟩
  obtain ⟨P₁, h₁, h₂⟩ := bind_eq_ok.mp h
  by_cases hmem : domain * 64 ≤ maxBlocks
  · obtain ⟨P₂, h₂', E⟩ := I.beforeEncoding_ok X L g delta (by omega) (by omega) hmem
    obtain rfl := Except.ok.inj (h₁.symm.trans h₂')
    rw [Nat.mul_div_cancel _ (by omega)]
    exact ⟨P₁, h₁, E, E.sizeA ▸ Parties.finish_mC h₂⟩
  · rw [I.beforeEncoding_error X L g delta (by omega) (by omega) (Nat.not_le.mp hmem)] at h₁
    cases h₁

/-- What is delivered is at most as long as the encoding. -/
theorem Delivers.le (D : Delivers L numVar g delta n P out) (I : Idle P) (X : XorCtx ctx) (hn : n % 128 = 0)
    (hpos : 0 < n) : 3 ^ numVar n < 2 ^ 31 ∧ n ≤ 3 ^ numVar n := by
  obtain ⟨P', hP', hC, -⟩ := D.size
  obtain ⟨_, -, -, hencode⟩ := I.inplace_inv X hn hpos hP'
  obtain ⟨h31, hsize⟩ := encode_size hencode
  exact ⟨h31, hC.trans_eq hsize⟩

/-! ### Fresh memory -/

theorem Idle.read_c_zero (I : Idle P) (X : XorCtx ctx) (hn : n % 128 = 0) (hpos : 0 < n) (h31 : 3 ^ numVar n < 2 ^ 31)
    (hlt : n < 3 ^ numVar n) {P₁ P' : Parties} (h₁ : P.beforeEncoding L g delta n = .ok P₁)
    (h : P.silentVole L numVar g delta n = .ok (P', out)) :
    read out.c 0 = ∑ i ∈ Finset.range (3 ^ numVar n), if i < n then P₁.recv.mC.get i else g.growC i := by
  obtain ⟨P₂, h₂, h⟩ := bind_eq_ok.mp h
  cases h
  obtain ⟨P₁', h₁', E, hencode⟩ := I.inplace_inv X hn hpos h₂
  obtain rfl := Except.ok.inj (h₁.symm.trans h₁')
  have hsize : P₁.recv.mC.size = n := by
    rw [E.sizeC]
    omega
  have hcap : P₁.recv.mC.mem.size < 3 ^ numVar n := by
    rw [E.capacityC]
    omega
  obtain ⟨w, hw, hget⟩ := encode_grow h31 g.growC hcap
  obtain rfl := Except.ok.inj (hw.symm.trans hencode)
  rw [hsize] at hget
  exact (read_copyOut _ hpos).trans hget

/-- Where the encoding is longer than the request, fresh memory shows. -/
theorem Delivers.not_lt (D : Delivers L numVar g delta n P out) (I : Idle P) (X : XorCtx ctx) (hn : n % 128 = 0)
    (hpos : 0 < n) (h31 : 3 ^ numVar n < 2 ^ 31) : ¬ n < 3 ^ numVar n := by
  intro hlt
  obtain ⟨_, hP', -⟩ := D.size
  obtain ⟨P₁, h₁, -⟩ := I.inplace_inv X hn hpos hP'
  have hsum (grow : ℕ → Block) :
      read out.c 0 = ∑ i ∈ Finset.range (3 ^ numVar n), if i < n then P₁.recv.mC.get i else grow i := by
    obtain ⟨_, h⟩ := D.output g.growA g.growB grow
    exact I.read_c_zero X hn hpos h31 hlt (g := g.withGrow g.growA g.growB grow) h₁ h
  have hdiff := (hsum 0).symm.trans (hsum (Pi.single n (block 0 1)))
  have hsplit (i : ℕ) : (if i < n then P₁.recv.mC.get i else (Pi.single n (block 0 1) : ℕ → Block) i) =
      (if i < n then P₁.recv.mC.get i else (0 : ℕ → Block) i) + if i = n then block 0 1 else 0 := by
    rcases lt_trichotomy i n with h | rfl | h
    · rw [if_pos h, if_pos h, if_neg h.ne, add_zero]
    · rw [if_neg (lt_irrefl i), if_neg (lt_irrefl i), if_pos rfl, Pi.single_eq_same, Pi.zero_apply, zero_add]
    · rw [if_neg h.not_gt, if_neg h.not_gt, if_neg h.ne', Pi.single_eq_of_ne h.ne', Pi.zero_apply, zero_add]
  rw [Finset.sum_congr rfl fun i _ => hsplit i, Finset.sum_add_distrib, Finset.sum_ite_eq', if_pos (Finset.mem_range.mpr hlt),
    left_eq_add] at hdiff
  exact absurd hdiff (by decide)

/-- No accepted request is delivered. -/
theorem not_delivers (I : Idle P) (L : LibOTe coeffCtxGF128F4) (numVar : ℕ → ℕ) (g : SessionDraws coeffCtxGF128F4)
    (delta : Block) (hacc : Accepts P.recv P.send n) : ¬ ∃ out, Delivers L numVar g delta n P out := by
  rintro ⟨out, D⟩
  obtain ⟨hmod, hpos⟩ := accepts_iff.mp hacc
  obtain ⟨h31, hle⟩ := D.le I coeffCtxGF128F4_xor hmod hpos
  have hodd : 3 ^ numVar n % 2 = 1 := Nat.odd_iff.mp (Odd.pow (by decide))
  exact D.not_lt I coeffCtxGF128F4_xor hmod hpos h31 (by omega)

/-- A request for `256` blocks gets `243` encoded ones. -/
theorem not_delivers_256 : ¬ ∃ out, Delivers (.clear coeffCtxGF128F4_xor) (fun _ => 5) (.ones coeffCtxGF128F4 rfl) 0 256 {}
    out :=
  not_delivers ⟨rfl, rfl, rfl, rfl, rfl⟩ _ _ _ 0 (accepts_iff.mpr (by decide))

/-- A request for `128` blocks gets `81` encoded ones. -/
theorem request_128_not_delivered : Accepts {} {} 128 ∧ NearestLog3 128 4 ∧
    ¬ ∃ out, Delivers (.clear coeffCtxGF128F4_xor) (fun _ => 4) (.ones coeffCtxGF128F4 rfl) 0 128 {} out := by
  refine ⟨accepts_iff.mpr (by decide), by unfold NearestLog3; decide, ?_⟩
  rintro ⟨out, D⟩
  have hle := (D.le ⟨rfl, rfl, rfl, rfl, rfl⟩ coeffCtxGF128F4_xor (by decide) (by decide)).2
  exact absurd hle (by decide)

end ExtFieldPcg
