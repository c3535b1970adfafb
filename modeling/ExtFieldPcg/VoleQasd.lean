import ExtFieldPcg.VolePadding

/-! `VOLE_QASD` of `test.h`: two sessions on the same two objects, and the shares that both parties make of the
    product of their outputs with a public vector. -/

open Buffer

namespace ExtFieldPcg

/-! ### The code -/

/-- The random values of one run, and what libOTe delivers in its sessions for `s` and for `e`. -/
structure QasdDraws (ctx : CoeffCtx Block) where
  d : Block
  a : ℕ → Block
  libS : LibOTe ctx
  libE : LibOTe ctx
  drawsS : SessionDraws ctx
  drawsE : SessionDraws ctx

/-- The first `n` entries of the vectors that are compared; the others are not written. -/
structure QasdOutput where
  vol : Array Block
  addshare1 : Array Block
  addshare2 : Array Block

/-- `a * x + y` on the first `n` entries. -/
def mulAdd (ctx : CoeffCtx Block) (n : ℕ) (a : ℕ → Block) (x y : Array Block) : Array Block :=
  Array.ofFn fun i : Fin n => ctx.plus (ctx.mul (a i) (read x i)) (read y i)

/-- The loops of both threads after the sessions. -/
def qasdOutput (ctx : CoeffCtx Block) (n : ℕ) (a : ℕ → Block) (s e : VoleOutput) : QasdOutput :=
  ⟨mulAdd ctx n a s.c e.c, mulAdd ctx n a s.a e.a, mulAdd ctx n a s.b e.b⟩

def qasdCheck (ctx : CoeffCtx Block) (d : Block) (n : ℕ) (out : QasdOutput) : Except Err Unit :=
  Loop.tryRun n (fun i _ =>
    let exp := ctx.plus (ctx.mul d (read out.vol i)) (read out.addshare2 i)
    if ctx.eq (read out.addshare1 i) exp = false then .error .rteLoc else .ok ()) ()

def voleQasd {ctx : CoeffCtx Block} (numVar : ℕ → ℕ) (g : QasdDraws ctx) (n : ℕ) : Except Err QasdOutput := do
  let parity := parity n
  let n := (n + parity) % u64
  allocate n
  let s ← Parties.silentVole g.libS numVar g.drawsS g.d n {}
  let e ← Parties.silentVole g.libE numVar g.drawsE g.d n s.1
  let n := (n + u64 - parity) % u64
  let out := qasdOutput ctx n g.a s.2 e.2
  qasdCheck ctx g.d n out
  .ok out

/-! ### One session -/

variable {k domain : ℕ} {numVar : ℕ → ℕ} {P : Parties} {g : QasdDraws coeffCtxGF128F4}

/-- A session whose encoding finds `3^k` leaves the parties idle, and correlated values in the first `3^k` places. -/
theorem Idle.silentVole_ok (I : Idle P) (L : LibOTe coeffCtxGF128F4) (g : SessionDraws coeffCtxGF128F4) (delta : Block)
    (heven : domain % 2 = 0) (hdomain : 2 ≤ domain) (hmem : domain * 64 ≤ maxBlocks) (h31 : 3 ^ k < 2 ^ 31)
    (hle : 3 ^ k ≤ domain * 64) (hvar : numVar (domain * 64) = k) :
    ∃ P' out, P.silentVole L numVar g delta (domain * 64) = .ok (P', out) ∧ Idle P' ∧
      (out.c.size = domain * 64 ∧ out.a.size = domain * 64 ∧ out.b.size = domain * 64) ∧
      ∀ i < 3 ^ k, read out.a i = read out.b i + f4Mul (read out.c i) delta := by
  obtain ⟨P₁, h₁, E⟩ := I.beforeEncoding_ok coeffCtxGF128F4_xor L g delta heven hdomain hmem
  obtain ⟨P₂, h₂, hrecv, hsend, hA, hB, hC⟩ := Parties.finish_ok h31 (E.sizeA.symm ▸ hvar) (E.sizeB.symm ▸ hvar)
    (E.sizeA.symm ▸ hle) (E.sizeB.symm ▸ hle) (E.sizeC.symm ▸ hle) g
  refine ⟨⟨P₂.recv.clear, P₂.send.clear⟩, _, by rw [Parties.silentVole, Parties.inplace, h₁, ok_bind, h₂, ok_bind],
    ⟨hrecv, hsend, rfl, rfl, rfl⟩, ⟨Array.size_ofFn, Array.size_ofFn, Array.size_ofFn⟩, fun i hi => ?_⟩
  have hlt := hi.trans_le hle
  rw [read_copyOut _ hlt, read_copyOut _ hlt, read_copyOut _ hlt, AlignedUnVector.get, AlignedUnVector.get,
    AlignedUnVector.get, hA, hB, hC]
  exact foleageFft_corr delta (hle.trans_eq E.capacityA.symm) (hle.trans_eq E.capacityB.symm)
    (hle.trans_eq E.capacityC.symm) (fun j hj => E.corr j (hj.trans_le hle)) hi

/-! ### The run -/

theorem qasdCheck_ok {d : Block} {n : ℕ} {out : QasdOutput}
    (h : ∀ i < n, read out.addshare1 i = f4Mul d (read out.vol i) ^^^ read out.addshare2 i) :
    qasdCheck coeffCtxGF128F4 d n out = .ok () := by
  obtain ⟨t, ht, -⟩ := Loop.tryRun_induct (n := n) (s := ()) (fun _ _ => True)
    (f := fun i _ =>
      let exp := coeffCtxGF128F4.plus (coeffCtxGF128F4.mul d (read out.vol i)) (read out.addshare2 i)
      if coeffCtxGF128F4.eq (read out.addshare1 i) exp = false then Except.error Err.rteLoc else .ok ()) trivial
    fun i hi _ _ => ⟨(), if_neg (by simpa [coeffCtxGF128F4, coeffCtxGF2] using h i hi), trivial⟩
  exact ht

/-- Correlated outputs of both sessions make shares of the product. -/
theorem qasdOutput_shares {d : Block} {n : ℕ} (a : ℕ → Block) {s e : VoleOutput}
    (hs : ∀ i < n, read s.a i = read s.b i + f4Mul (read s.c i) d)
    (he : ∀ i < n, read e.a i = read e.b i + f4Mul (read e.c i) d) :
    let out := qasdOutput coeffCtxGF128F4 n a s e
    ∀ i < n, read out.addshare1 i = f4Mul d (read out.vol i) ^^^ read out.addshare2 i := by
  intro out i hi
  have hentry (x y : Array Block) : read (mulAdd coeffCtxGF128F4 n a x y) i = f4Mul (a i) (read x i) + read y i :=
    read_ofFn (fun i => f4Mul (a i) (read x i) + read y i) hi
  simp only [out, qasdOutput]
  rw [hentry, hentry, hentry, hs i hi, he i hi, Block.xor_eq_add]
  apply toRing_injective
  simp only [map_add, toRing_f4Mul]
  ring

/-- Every run on an accepted power of three ends, with shares of `d` times the VOLE vector. -/
theorem voleQasd_correct (g : QasdDraws coeffCtxGF128F4) (hk : 4 ≤ k) (h31 : 3 ^ k < 2 ^ 31)
    (heven : padded (3 ^ k) / 64 % 2 = 0) (hnum : NearestLog3 (padded (3 ^ k)) (numVar (padded (3 ^ k)))) :
    ∃ out, voleQasd numVar g (3 ^ k) = .ok out ∧
      out.vol.size = 3 ^ k ∧ out.addshare1.size = 3 ^ k ∧ out.addshare2.size = 3 ^ k ∧
      ∀ i < 3 ^ k, read out.addshare1 i = f4Mul g.d (read out.vol i) ^^^ read out.addshare2 i := by
  have h64 : 3 ^ k < u64 := h31.trans (by decide)
  have hvar := hnum.unique (nearestLog3_padded h64 hk)
  obtain ⟨hpadded, hmod, hpad⟩ := padded_pow h64
  have hpow : 3 ^ 4 ≤ 3 ^ k := Nat.pow_le_pow_right (by omega) hk
  have hback : (padded (3 ^ k) + u64 - parity (3 ^ k)) % u64 = 3 ^ k := by
    rw [hpadded, (by omega : 3 ^ k + parity (3 ^ k) + u64 - parity (3 ^ k) = 3 ^ k + u64), Nat.add_mod_right,
      Nat.mod_eq_of_lt h64]
  obtain ⟨domain, hdomain⟩ : ∃ domain, padded (3 ^ k) = domain * 64 := ⟨padded (3 ^ k) / 64, by omega⟩
  have hmem : domain * 64 ≤ maxBlocks := by
    unfold maxBlocks
    omega
  rw [hdomain] at hvar hback
  have hstart : Idle {} := ⟨rfl, rfl, rfl, rfl, rfl⟩
  obtain ⟨P₁, s, h₁, I, -, hs⟩ := hstart.silentVole_ok g.libS g.drawsS g.d (by omega) (by omega) hmem h31 (by omega) hvar
  obtain ⟨P₂, e, h₂, -, -, he⟩ := I.silentVole_ok g.libE g.drawsE g.d (by omega) (by omega) hmem h31 (by omega) hvar
  have hshares := qasdOutput_shares g.a hs he
  refine ⟨qasdOutput _ (3 ^ k) g.a s e, ?_, Array.size_ofFn, Array.size_ofFn, Array.size_ofFn, hshares⟩
  have hsize : (3 ^ k + parity (3 ^ k)) % u64 = domain * 64 := hdomain
  simp only [voleQasd, hsize, allocate_ok hmem, h₁, h₂, hback, ok_bind]
  rw [qasdCheck_ok hshares, ok_bind]

/-- A run on `3^4` whose libOTe works in the clear. -/
theorem voleQasd_correct_81 :
    let g : QasdDraws coeffCtxGF128F4 := ⟨block 0 2, fun _ => block 0 3, .clear coeffCtxGF128F4_xor,
      .clear coeffCtxGF128F4_xor, .ones coeffCtxGF128F4 rfl, .ones coeffCtxGF128F4 rfl⟩
    ∃ out, voleQasd (fun _ => 4) g (3 ^ 4) = .ok out ∧
      out.vol.size = 3 ^ 4 ∧ out.addshare1.size = 3 ^ 4 ∧ out.addshare2.size = 3 ^ 4 ∧
      ∀ i < 3 ^ 4, read out.addshare1 i = f4Mul g.d (read out.vol i) ^^^ read out.addshare2 i :=
  voleQasd_correct (k := 4) _ (by decide) (by decide) (by decide) (by unfold NearestLog3; decide)

end ExtFieldPcg
