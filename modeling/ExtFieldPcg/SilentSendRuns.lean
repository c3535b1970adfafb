import ExtFieldPcg.SilentSendEffect

/-! Runs of calls on one sender: base correlations are single use unless a call expands with base OTs that one before it
    left behind when it threw, or completes after the exception of its noisy VOLE was lost. -/

namespace ExtFieldPcg
namespace SilentSend

/-! ### Runs of calls -/

/-- The history names installations that happened, and base OTs in the sender come with theirs. -/
structure Inv (s : Session) : Prop where
  ids : ∀ x ∈ s.expansions, ∃ base, x = (some base, some base) ∧ base.id < s.installed
  held : s.sender.mGen.hasBaseOts = true → Held s

section Steps
variable {numVar : ℕ → ℕ} {maliciousSupported : Bool} {c : Call} {s₀ s : Session}

theorem Source.lt {base : Base} {k : ℕ} (h : Source c s₀ base k) (inv : Inv s₀) : base.id < k ∧ s₀.installed ≤ k := by
  cases h with
  | found hbase _ hots =>
    obtain ⟨base', hots', -, hlt, -⟩ := (inv.held hbase).base
    rw [hots] at hots'
    cases hots'
    exact ⟨hlt, le_rfl⟩
  | installed => exact ⟨Nat.lt_succ_self _, Nat.le_succ _⟩

theorem Effect.inv (h : Effect numVar maliciousSupported c s₀ s) (inv : Inv s₀) : Inv s := by
  cases h with
  | untouched h =>
    refine ⟨fun x hx => ?_, fun hbase => ?_⟩
    · rw [h.expansions] at hx
      rw [h.installed]
      exact inv.ids x hx
    · cases h₀ : s₀.sender.mGen.hasBaseOts with
      | true => exact h.kept h₀ ▸ inv.held h₀
      | false => simp [h.none h₀] at hbase
  | loaded hbase h hexp =>
    refine ⟨fun x hx => ?_, fun _ => ⟨h.state, _, h.ots, h.baseB, ?_, fun hexp' => absurd hexp' hexp⟩⟩
    · rw [h.expansions] at hx
      obtain ⟨base, rfl, hlt⟩ := inv.ids x hx
      exact ⟨base, rfl, by rw [h.installed]; omega⟩
    · rw [h.installed]
      exact Nat.lt_succ_self _
  | expanded hsource _ h =>
    obtain ⟨hlt, hle⟩ := hsource.lt inv
    refine ⟨fun x hx => ?_, fun hbase => ?_⟩
    · rw [h.expansions, List.mem_append, List.mem_singleton] at hx
      rw [h.installed]
      rcases hx with hx | rfl
      · obtain ⟨base, rfl, hlt'⟩ := inv.ids x hx
        exact ⟨base, rfl, hlt'.trans_le hle⟩
      · exact ⟨_, rfl, hlt⟩
    · rcases h.held with hnone | ⟨-, hots, hbaseB, hstate⟩
      · simp [hnone] at hbase
      · refine ⟨hstate, _, hots, hbaseB, by rw [h.installed]; exact hlt, fun _ => ?_⟩
        rw [h.expansions]
        exact List.mem_append_right _ (List.mem_singleton_self _)

theorem SingleUse.congr (h : SingleUse s₀) (hexp : s.expansions = s₀.expansions) (hcomp : s.completed = s₀.completed) :
    SingleUse s := ⟨hexp ▸ h.ots, hexp ▸ h.baseB, hcomp ▸ h.delta⟩

theorem SingleUse.before {base : Base} {k : ℕ} (h : Expanded c s₀ base k s)
    (hcomp : ∀ x ∈ s₀.completed, x ∈ s.completed) (hs : SingleUse s) : SingleUse s₀ := by
  obtain ⟨hots, hbaseB, hdelta⟩ := hs
  rw [h.expansions, List.filterMap_append] at hots hbaseB
  exact ⟨hots.of_append_left, hbaseB.of_append_left, fun x hx => hdelta x (hcomp x hx)⟩

theorem nodup_filterMap_concat {α β : Type} {f : α → Option β} {l : List α} {x : α} {b : β} (h : (l.filterMap f).Nodup)
    (hx : f x = some b) (hnew : ∀ y ∈ l, f y ≠ some b) : ((l ++ [x]).filterMap f).Nodup := by
  rw [List.filterMap_append, List.filterMap_cons_some hx, List.filterMap_nil]
  refine h.append (List.nodup_singleton b) (List.disjoint_singleton.mpr fun hmem => ?_)
  obtain ⟨y, hy, heq⟩ := List.mem_filterMap.mp hmem
  exact hnew y hy heq

theorem SingleUse.after {base : Base} {k : ℕ} (inv : Inv s₀) (hs : SingleUse s₀) (h : Expanded c s₀ base k s)
    (hid : base.id = s₀.installed)
    (hcomp : ∀ x ∈ s.completed, x ∈ s₀.completed ∨ x = (c.delta, some base) ∧ base.delta = some c.delta) : SingleUse s := by
  have hfresh : ∀ x ∈ s₀.expansions, x.1 ≠ some base ∧ x.2 ≠ some base := by
    intro x hx
    obtain ⟨base', rfl, hlt⟩ := inv.ids x hx
    constructor <;>
    · rintro ⟨⟩
      exact hlt.ne hid
  refine ⟨?_, ?_, fun x hx => ?_⟩
  · rw [h.expansions]
    exact nodup_filterMap_concat hs.ots rfl fun x hx => (hfresh x hx).1
  · rw [h.expansions]
    exact nodup_filterMap_concat hs.baseB rfl fun x hx => (hfresh x hx).2
  · rcases hcomp x hx with hx | ⟨rfl, hdelta⟩
    · exact hs.delta x hx
    · exact ⟨base, rfl, hdelta⟩

theorem LosesVole.voleDelta (h : LosesVole numVar maliciousSupported c s₀) : c.voleDelta = none := by
  obtain ⟨e, he⟩ := h.vole
  rw [Call.voleDelta, he]

theorem LosesVole.installs (h : LosesVole numVar maliciousSupported c s₀) : Installs c s₀ := .inr h.unawaited

theorem voleDelta_of_not_losesVole (hnone : s₀.sender.mGen.hasBaseOts = false) (hinst : Installs c s₀)
    (hproceeds : Proceeds numVar maliciousSupported c s₀) (h : ¬ LosesVole numVar maliciousSupported c s₀) :
    c.voleDelta = some c.delta := by
  cases hvole : c.noisyVole c.delta with
  | ok b => rw [Call.voleDelta, hvole]
  | error e =>
    refine absurd ⟨hnone, ⟨e, hvole⟩, ?_, hproceeds⟩ h
    refine hinst.resolve_left ?_
    rintro ⟨-, b, hb⟩
    simp [hvole] at hb

/-- A call keeps single use exactly when it does not expand with base OTs that it found and does not complete on a `b`
    that was not generated. -/
theorem Effect.singleUse_iff (h : Effect numVar maliciousSupported c s₀ s) (inv : Inv s₀) :
    SingleUse s ↔ SingleUse s₀ ∧ ¬ Reuses c s₀ ∧ ¬ LosesVole numVar maliciousSupported c s₀ := by
  cases h with
  | untouched h hfresh hstop =>
    have hlose : ¬ LosesVole numVar maliciousSupported c s₀ := fun hlose => hstop hlose.needed hlose.installs hlose.proceeds
    exact ⟨fun hs => ⟨hs.congr h.expansions.symm h.completed.symm, hfresh, hlose⟩,
      fun hs => hs.1.congr h.expansions h.completed⟩
  | loaded hnone h _ hstop =>
    exact ⟨fun hs => ⟨hs.congr h.expansions.symm h.completed.symm, fun hreuse => hreuse.hasBaseOts hnone,
      fun hlose => hstop hlose.proceeds⟩, fun hs => hs.1.congr h.expansions h.completed⟩
  | expanded hsource hexp h hdone =>
    cases hsource with
    | found hbase hsize hots =>
      refine ⟨fun hs => ?_, fun hs => absurd ⟨hbase, hsize, hexp hbase⟩ hs.2.1⟩
      -- the base OTs that were found have been through an expansion already
      obtain ⟨base', hots', -, -, hmem⟩ := (inv.held hbase).base
      rw [hots] at hots'
      cases hots'
      have hused := hs.ots
      rw [h.expansions, List.filterMap_append] at hused
      exact (hused.disjoint (List.mem_filterMap.mpr ⟨_, hmem (hexp hbase), rfl⟩) (List.mem_singleton_self _)).elim
    | installed hnone hinst =>
      constructor
      · refine fun hs => ⟨hs.before h fun x hx => ?_, fun hreuse => hreuse.hasBaseOts hnone, fun hlose => ?_⟩
        · rcases hdone with ⟨hcomp, -⟩ | ⟨hcomp, -⟩
          · rwa [hcomp]
          · rw [hcomp]
            exact List.mem_append_left _ hx
        · rcases hdone with ⟨-, hstop⟩ | ⟨hcomp, -⟩
          · exact hstop hlose.proceeds
          · obtain ⟨base, hbase, hdelta⟩ := hs.delta _ (hcomp ▸ List.mem_append_right _ (List.mem_singleton_self _))
            cases hbase
            rw [hlose.voleDelta] at hdelta
            cases hdelta
      · rintro ⟨hs, -, hlose⟩
        refine hs.after inv h rfl fun x hx => ?_
        rcases hdone with ⟨hcomp, -⟩ | ⟨hcomp, hproceeds⟩
        · exact .inl (hcomp ▸ hx)
        · rw [hcomp, List.mem_append, List.mem_singleton] at hx
          exact hx.imp_right fun hx => ⟨hx, voleDelta_of_not_losesVole hnone hinst hproceeds hlose⟩

/-- A call that finds base OTs and meets no failure completes with the `mBaseB` that it found, whatever `delta` that was
    generated from. -/
theorem Effect.completed_of_reuses (h : Effect numVar maliciousSupported c s₀ s) (hreuse : Reuses c s₀)
    (hproceeds : Proceeds numVar maliciousSupported c s₀) : s.completed = s₀.completed ++ [(c.delta, s₀.baseB)] := by
  cases h with
  | untouched _ hfresh => exact absurd hreuse hfresh
  | loaded hnone => exact absurd hnone hreuse.hasBaseOts
  | expanded hsource _ _ hdone =>
    obtain ⟨hcomp, -⟩ := hdone.resolve_left fun h => h.2 hproceeds
    cases hsource with
    | found _ _ _ hbaseB => rw [hcomp, hbaseB]
    | installed hnone => exact absurd hnone hreuse.hasBaseOts

/-- A call that finds none and meets no failure completes with an `mBaseB` of its own. -/
theorem Effect.completed_of_installs (h : Effect numVar maliciousSupported c s₀ s)
    (hnone : s₀.sender.mGen.hasBaseOts = false) (hinst : Installs c s₀)
    (hproceeds : Proceeds numVar maliciousSupported c s₀) :
    s.completed = s₀.completed ++ [(c.delta, some ⟨s₀.installed, c.voleDelta⟩)] := by
  cases h with
  | untouched _ _ hstop => exact absurd hproceeds (hstop hnone hinst)
  | loaded _ _ _ hstop => exact absurd hproceeds hstop
  | expanded hsource _ _ hdone =>
    obtain ⟨hcomp, -⟩ := hdone.resolve_left fun h => h.2 hproceeds
    cases hsource with
    | found hbase => simp [hnone] at hbase
    | installed => exact hcomp

end Steps

section Run
variable (ctx : CoeffCtx Block) (numVar : ℕ → ℕ) (maliciousSupported : Bool)

theorem run_append (calls : List Call) (c : Call) (s : Session) :
    run ctx numVar maliciousSupported (calls ++ [c]) s =
      Hoare.final (silentSend ctx numVar maliciousSupported c) (run ctx numVar maliciousSupported calls s) := by
  rw [run, List.foldl_append]
  rfl

theorem run_inv (calls : List Call) {s : Session} (inv : Inv s) : Inv (run ctx numVar maliciousSupported calls s) := by
  induction calls using List.reverseRecOn with
  | nil => exact inv
  | append_singleton calls c ih =>
    rw [run_append]
    exact (silentSend_effect ctx numVar maliciousSupported ih.held).inv ih

theorem inv_fresh {sender : SilentWalshVoleSender} (h : sender.mGen.hasBaseOts = false) (baseType : SilentBaseType)
    (recver : Bool) : Inv { sender := sender, mBaseType := baseType, recverHasBaseOts := recver } :=
  ⟨fun _ hx => (List.not_mem_nil hx).elim, fun hbase => by simp [h] at hbase⟩

theorem singleUse_fresh (sender : SilentWalshVoleSender) (baseType : SilentBaseType) (recver : Bool) :
    SingleUse { sender := sender, mBaseType := baseType, recverHasBaseOts := recver } :=
  ⟨List.nodup_nil, List.nodup_nil, fun _ hx => (List.not_mem_nil hx).elim⟩

/-- Along every run of calls on a sender without base OTs, base correlations are single use exactly when no call finds
    base OTs, left by one that threw, and expands with them, and none loses the exception of its noisy VOLE and meets no
    other. -/
theorem singleUse_run_iff {sender : SilentWalshVoleSender} (h : sender.mGen.hasBaseOts = false)
    (baseType : SilentBaseType) (recver : Bool) (calls : List Call) :
    SingleUse (run ctx numVar maliciousSupported calls
        { sender := sender, mBaseType := baseType, recverHasBaseOts := recver }) ↔
      ∀ before c after, calls = before ++ c :: after →
        let s := run ctx numVar maliciousSupported before
          { sender := sender, mBaseType := baseType, recverHasBaseOts := recver }
        ¬ Reuses c s ∧ ¬ LosesVole numVar maliciousSupported c s := by
  induction calls using List.reverseRecOn with
  | nil =>
    refine ⟨fun _ before c after hcalls => ?_, fun _ => singleUse_fresh sender baseType recver⟩
    simp at hcalls
  | append_singleton calls c ih =>
    have inv := run_inv ctx numVar maliciousSupported calls (inv_fresh h baseType recver)
    rw [run_append, (silentSend_effect ctx numVar maliciousSupported inv.held).singleUse_iff inv, ih]
    constructor
    · rintro ⟨hbefore, hlast⟩ before c' after hcalls
      rcases List.eq_nil_or_concat after with rfl | ⟨rest, d, rfl⟩
      · obtain ⟨rfl, hc⟩ := List.append_inj' hcalls rfl
        cases hc
        exact hlast
      · rw [List.concat_eq_append, ← List.cons_append, ← List.append_assoc] at hcalls
        obtain ⟨rfl, -⟩ := List.append_inj' hcalls rfl
        exact hbefore before c' rest rfl
    · intro hall
      refine ⟨fun before c' after hcalls => hall before c' (after ++ [c]) ?_, hall calls c [] rfl⟩
      rw [hcalls, List.append_assoc, List.cons_append]

/-- A call for `n` correlations with `delta`, semi-honest and without debugging, over a channel. -/
def call (delta : Block) (n : ℕ) (chl : Message → Except Err Unit) : Call where
  delta := delta
  n := n
  malicious := false
  debug := false
  baseOts := .ok fun _ => default
  noisyVole delta := .ok fun _ => delta
  memMsg _ := default
  memVole _ := 0
  leaf _ _ _ := 0
  chl := chl
  memB _ := 0
  growB _ := 0

theorem finishes_call {delta : Block} {s : SilentWalshVoleSender} (hsize : s.mNoiseVecSize = 128)
    (hpartitions : s.mNumPartitions = 64) (hdomain : s.mGen.mDomain = 2) (hcount : s.mGen.mPntCount = 64) :
    Finishes (fun _ => 4) true (call delta 128 fun _ => .ok ()) s := by
  refine ⟨?_, fun _ _ => rfl, fun _ _ _ => rfl, fun _ => ⟨rfl, fun _ _ => rfl⟩, by decide⟩
  rw [Expandable, hsize, hpartitions, hdomain, hcount]
  exact ⟨.inr (by decide), .inr rfl, rfl⟩

/-- One call on a new sender, which completes. -/
theorem singleUse_run_iff_one :
    let s := run coeffCtxGF128 (fun _ => 4) true [call (block 0 1) 128 fun _ => .ok ()] { sender := {} }
    s.completed = [(block 0 1, some ⟨0, some (block 0 1)⟩)] ∧ SingleUse s := by
  intro s
  refine ⟨?_, (singleUse_run_iff coeffCtxGF128 (fun _ => 4) true rfl .baseExtend false _).mpr fun before c after h => ?_⟩
  · have hstart : ({} : SilentWalshVoleSender).start 128 =
        .ok { ({} : SilentWalshVoleSender).configured 128 with mGen := ⟨2, 1, 64, #[]⟩ } := rfl
    have inv : Inv { sender := {} } := inv_fresh rfl .baseExtend false
    have heffect := silentSend_effect coeffCtxGF128 (fun _ => 4) true (c := call (block 0 1) 128 fun _ => .ok ()) inv.held
    have hrun : s = _ := run_append coeffCtxGF128 (fun _ => 4) true [] _ _
    rw [hrun]
    exact heffect.completed_of_installs rfl (.inl ⟨⟨_, rfl⟩, _, rfl⟩) ⟨_, hstart, finishes_call rfl rfl rfl rfl⟩
  · cases before with
    | nil =>
      cases h
      refine ⟨fun hreuse => hreuse.hasBaseOts rfl, ?_⟩
      rintro ⟨-, ⟨e, ⟨⟩⟩, -⟩
    | cons d rest => simp at h

end Run

section Sent
variable {numVar : ℕ → ℕ} {maliciousSupported : Bool} {c : Call} {s₀ s : Session}

/-- Base OTs that are left when no message of an expansion failed belong to a sender that cannot expand. -/
theorem Effect.not_expandable (h : Effect numVar maliciousSupported c s₀ s) (hsent : ∀ i, c.chl (.tree i) = .ok ())
    (h₀ : s₀.sender.mGen.hasBaseOts = true → ¬ Expandable s₀.sender) (hbase : s.sender.mGen.hasBaseOts = true) :
    ¬ Expandable s.sender := by
  cases h with
  | untouched h =>
    cases hbase₀ : s₀.sender.mGen.hasBaseOts with
    | true => exact h.kept hbase₀ ▸ h₀ hbase₀
    | false => simp [h.none hbase₀] at hbase
  | loaded _ _ hexp => exact hexp
  | expanded _ _ h =>
    rcases h.held with hnone | ⟨⟨i, hfail⟩, -⟩
    · simp [hnone] at hbase
    · exact absurd (hsent i) hfail

/-- Calls may throw anywhere but in the noisy VOLE and at a message of the expansion. -/
theorem singleUse_of_trees_sent (ctx : CoeffCtx Block) {sender : SilentWalshVoleSender}
    (h : sender.mGen.hasBaseOts = false) (baseType : SilentBaseType) (recver : Bool) {calls : List Call}
    (hvole : ∀ c ∈ calls, ∃ b, c.noisyVole c.delta = .ok b) (hsent : ∀ c ∈ calls, ∀ i, c.chl (.tree i) = .ok ()) :
    SingleUse (run ctx numVar maliciousSupported calls
      { sender := sender, mBaseType := baseType, recverHasBaseOts := recver }) := by
  suffices hrun : ∀ s, s = run ctx numVar maliciousSupported calls
      { sender := sender, mBaseType := baseType, recverHasBaseOts := recver } →
      SingleUse s ∧ (s.sender.mGen.hasBaseOts = true → ¬ Expandable s.sender) from (hrun _ rfl).1
  rintro s rfl
  induction calls using List.reverseRecOn with
  | nil => exact ⟨singleUse_fresh sender baseType recver, fun hbase => by simp [run, h] at hbase⟩
  | append_singleton calls c ih =>
    obtain ⟨hsingle, hstuck⟩ := ih (fun c' hc' => hvole c' (List.mem_append_left _ hc'))
      fun c' hc' => hsent c' (List.mem_append_left _ hc')
    have hc : c ∈ calls ++ [c] := List.mem_append_right _ (List.mem_singleton_self c)
    have inv := run_inv ctx numVar maliciousSupported calls (inv_fresh h baseType recver)
    have heffect := silentSend_effect ctx numVar maliciousSupported (c := c) inv.held
    rw [run_append]
    refine ⟨(heffect.singleUse_iff inv).mpr ⟨hsingle, fun hreuse => hstuck hreuse.1 hreuse.2.2, fun hlose => ?_⟩,
      heffect.not_expandable (hsent c hc) hstuck⟩
    obtain ⟨b, hb⟩ := hvole c hc
    obtain ⟨e, he⟩ := hlose.vole
    simp [hb] at he

end Sent

/-! ### A call after one that failed -/

def failing : Message → Except Err Unit
  | .tree 0 => .error .channel
  | _ => .ok ()

/-- The sender after a call for 128 correlations that failed at its first message. -/
def afterFailure : Session :=
  run coeffCtxGF128 (fun _ => 4) true [call (block 0 1) 128 failing] { sender := {} }

/-- The second call masks with the base OTs of the first, and completes with an `mBaseB` for the `delta` of the first. -/
theorem singleUse_fails :
    let s := run coeffCtxGF128 (fun _ => 4) true
      [call (block 0 1) 128 failing, call (block 0 2) 128 fun _ => .ok ()] { sender := {} }
    s.completed = [(block 0 2, some ⟨0, some (block 0 1)⟩)] ∧ ¬ SingleUse s := by
  intro s
  have inv : Inv afterFailure := run_inv _ _ _ _ (inv_fresh rfl .baseExtend false)
  have hfound : afterFailure.sender.mGen.hasBaseOts = true := rfl
  have hbaseB : afterFailure.baseB = some ⟨0, some (block 0 1)⟩ := rfl
  have hnone : afterFailure.completed = [] := rfl
  have hstate : afterFailure.sender.mState = .configured := rfl
  have hrequest : afterFailure.sender.mRequestSize = 128 := rfl
  have hfin : Finishes (fun _ => 4) true (call (block 0 2) 128 fun _ => .ok ()) afterFailure.sender :=
    finishes_call rfl rfl rfl rfl
  have hstart : afterFailure.sender.start 128 = .ok afterFailure.sender := by
    rw [start_configured (by simp [hstate]), hrequest, if_neg (Nat.lt_irrefl 128)]
  have heffect := silentSend_effect coeffCtxGF128 (fun _ => 4) true (c := call (block 0 2) 128 fun _ => .ok ()) inv.held
  have hrun : s = Hoare.final (silentSend coeffCtxGF128 (fun _ => 4) true (call (block 0 2) 128 fun _ => .ok ()))
      afterFailure := run_append _ _ _ [call (block 0 1) 128 failing] _ _
  have hcompleted : s.completed = [(block 0 2, some ⟨0, some (block 0 1)⟩)] := by
    rw [hrun, heffect.completed_of_reuses ⟨hfound, hrequest.ge, hfin.expandable⟩ ⟨_, hstart, hfin⟩, hbaseB, hnone]
    rfl
  refine ⟨hcompleted, fun hs => ?_⟩
  obtain ⟨base, hbase, hdelta⟩ := hs.delta (block 0 2, some ⟨0, some (block 0 1)⟩) (hcompleted ▸ List.mem_singleton_self _)
  cases hbase
  exact absurd hdelta (by decide)

end SilentSend
end ExtFieldPcg
