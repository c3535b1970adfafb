import ExtFieldPcg.VoleProtocol

/-! Runs of sessions on the same two objects: what each of them delivers. -/

open Buffer

namespace ExtFieldPcg

variable {ctx : CoeffCtx Block} {delta : Block} {n : ℕ} {P P' : Parties}

/-- The sparse vector of a session: its noise at the interleaved points. -/
def noiseVector (domain : ℕ) (g : SessionDraws ctx) : Array Block :=
  Array.ofFn fun x : Fin (domain * 64) =>
    ∑ j ∈ Finset.range 64, if noisePoint domain g.words j = x then g.noise.sample j else 0

theorem Expanded.mem_mC {domain : ℕ} {g : SessionDraws ctx} (E : Expanded ctx g delta domain P) (hdomain : 0 < domain) :
    P.recv.mC.mem = noiseVector domain g := by
  refine ext_read (E.capacityC.trans Array.size_ofFn.symm) fun x hx => ?_
  rw [E.capacityC] at hx
  refine Eq.trans ?_ (read_ofFn (fun x => ∑ j ∈ Finset.range 64, if noisePoint domain g.words j = x then g.noise.sample j
    else 0) hx).symm
  refine eq_sum_noise hdomain (fun j hj hpoint => ?_) (E.zero x hx)
  rw [← hpoint]
  exact E.noise j hj

/-- The receiver gets the encoding of its sparse vector. -/
theorem Idle.silentVole_c {domain k : ℕ} {L : LibOTe ctx} {numVar : ℕ → ℕ} {g : SessionDraws ctx} {out : VoleOutput}
    (I : Idle P) (X : XorCtx ctx) (heven : domain % 2 = 0) (hdomain : 2 ≤ domain) (hmem : domain * 64 ≤ maxBlocks)
    (h31 : 3 ^ k < 2 ^ 31) (hle : 3 ^ k ≤ domain * 64) (hvar : numVar (domain * 64) = k)
    (h : P.silentVole L numVar g delta (domain * 64) = .ok (P', out)) :
    ∀ i < 3 ^ k, read out.c i = read (foleageFft (noiseVector domain g) k (3 ^ k / 3)) i := by
  obtain ⟨P₁, h₁, E⟩ := I.beforeEncoding_ok X L g delta heven hdomain hmem
  obtain ⟨P₂, h₂, -, -, -, -, hC⟩ := Parties.finish_ok h31 (E.sizeA.symm ▸ hvar) (E.sizeB.symm ▸ hvar)
    (E.sizeA.symm ▸ hle) (E.sizeB.symm ▸ hle) (E.sizeC.symm ▸ hle) g
  rw [Parties.silentVole, Parties.inplace, h₁, ok_bind, h₂, ok_bind] at h
  cases h
  intro i hi
  rw [read_copyOut _ (hi.trans_le hle), AlignedUnVector.get, hC, E.mem_mC (by omega)]

namespace Protocol

/-- One session of a run. -/
structure Session (ctx : CoeffCtx Block) where
  draws : ProtocolDraws ctx
  delta : Block
  size : ℕ

/-- Sessions one after the other on the same two objects. -/
def run (A : PprfAes) (numVar : ℕ → ℕ) : List (Session ctx) → Parties → Except Err (Parties × List VoleOutput)
  | [], P => .ok (P, [])
  | s :: rest, P => do
    let one ← silentVole A numVar s.draws s.delta s.size P
    let run ← run A numVar rest one.1
    .ok (run.1, one.2 :: run.2)

/-- The encoding of `n` blocks needs no memory but theirs. -/
def Encodable (numVar : ℕ → ℕ) (n : ℕ) : Prop := 3 ^ numVar n < 2 ^ 31 ∧ 3 ^ numVar n ≤ n

instance (numVar : ℕ → ℕ) (n : ℕ) : Decidable (Encodable numVar n) := inferInstanceAs (Decidable (_ ∧ _))

/-- What a session delivers: the receiver the encoding of its sparse vector, and both shares of its product with
    `delta`. -/
structure Delivered (k : ℕ) (s : Session coeffCtxGF128F4) (out : VoleOutput) : Prop where
  sizeC : out.c.size = s.size
  sizeA : out.a.size = s.size
  sizeB : out.b.size = s.size
  c : ∀ i < 3 ^ k, read out.c i =
    read (foleageFft (noiseVector (s.size / 64) s.draws.toSessionDraws) k (3 ^ k / 3)) i
  corr : ∀ i < 3 ^ k, read out.a i = read out.b i + f4Mul (read out.c i) s.delta

/-- Every run of sessions whose sizes are accepted ends, and each session delivers. -/
theorem run_correct (I : Idle P) (A : PprfAes) (numVar : ℕ → ℕ) (sessions : List (Session coeffCtxGF128F4))
    (hsize : ∀ s ∈ sessions, s.size % 128 = 0 ∧ 0 < s.size ∧ s.size ≤ maxBlocks ∧ Encodable numVar s.size) :
    ∃ P' outs, run A numVar sessions P = .ok (P', outs) ∧ Idle P' ∧
      List.Forall₂ (fun s out => Delivered (numVar s.size) s out) sessions outs := by
  induction sessions generalizing P with
  | nil => exact ⟨P, [], rfl, I, .nil⟩
  | cons s rest ih =>
    obtain ⟨hmod, hpos, hmem, h31, hle⟩ := hsize s List.mem_cons_self
    obtain ⟨domain, hdomain⟩ : ∃ domain, s.size = domain * 64 := ⟨s.size / 64, by omega⟩
    rw [hdomain] at hmem h31 hle
    let L : LibOTe coeffCtxGF128F4 := .ofRun A coeffCtxGF128F4_bit s.draws
    obtain ⟨P₁, out, hone, I₁, ⟨hsizeC, hsizeA, hsizeB⟩, hcorr⟩ := I.silentVole_ok L s.draws.toSessionDraws s.delta (by omega) (by omega) hmem h31 hle
      rfl
    have hc := I.silentVole_c coeffCtxGF128F4_xor (by omega) (by omega) hmem h31 hle rfl hone
    rw [← silentVole_eq I numVar, ← hdomain] at hone
    obtain ⟨P₂, outs, hrest, I₂, hall⟩ := ih I₁ fun s' hs' => hsize s' (List.mem_cons_of_mem s hs')
    refine ⟨P₂, out :: outs, by rw [run, hone, ok_bind, hrest, ok_bind], I₂, .cons
      ⟨hsizeC.trans hdomain.symm, hsizeA.trans hdomain.symm, hsizeB.trans hdomain.symm, fun i hi => ?_, ?_⟩ hall⟩
    · rw [hdomain] at hi ⊢
      rw [Nat.mul_div_cancel _ (by decide)]
      exact hc i hi
    · rw [hdomain]
      exact hcorr

/-- A session on `128` blocks and one on `256`. -/
theorem run_correct_two :
    let g : ProtocolDraws coeffCtxGF128F4 := ⟨.ones coeffCtxGF128F4 rfl, fun i => (block 1 i, block 2 i), block 0 7, true,
      ⟨fun _ _ => 0, fun _ => 0⟩, ⟨fun _ _ => 0, fun _ => 0⟩⟩
    let numVar (n : ℕ) := if n = 256 then 5 else 4
    ∃ P' outs, run default numVar [⟨g, block 0 2, 128⟩, ⟨g, block 0 3, 256⟩] {} = .ok (P', outs) ∧ Idle P' ∧
      List.Forall₂ (fun s out => Delivered (numVar s.size) s out) [⟨g, block 0 2, 128⟩, ⟨g, block 0 3, 256⟩] outs :=
  run_correct ⟨rfl, rfl, rfl, rfl, rfl⟩ _ _ _ (by decide)

end Protocol
end ExtFieldPcg
