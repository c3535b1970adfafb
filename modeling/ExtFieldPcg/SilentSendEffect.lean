import ExtFieldPcg.SilentSend

/-! What one call of `silentSend` can do to the base OTs of the sender, whether it completes or throws. -/

namespace ExtFieldPcg
namespace SilentSend

/-! ### The sender -/

theorem onSender_triple {P : Session → Prop} {Q : Unit → Session → Prop} {E : Session → Prop}
    {f : SilentWalshVoleSender → Except Err SilentWalshVoleSender}
    (hok : ∀ s sender, P s → f s.sender = .ok sender → Q () { s with sender := sender })
    (herr : ∀ s e, P s → f s.sender = .error e → E s) : Hoare.Triple P (onSender f) Q E := by
  refine .update (fun s s' hs h => ?_) fun s e hs h => ?_
  · cases hf : f s.sender with
    | ok sender =>
      rw [hf] at h
      cases h
      exact hok s sender hs hf
    | error e =>
      rw [hf] at h
      cases h
  · cases hf : f s.sender with
    | ok sender =>
      rw [hf] at h
      cases h
    | error e' => exact herr s e' hs hf

theorem prepare_ok_iff (memB : ℕ → Block) (s : SilentWalshVoleSender) :
    (∃ s', prepare memB s = .ok s') ↔ Expandable s := by
  have hresize : (∃ w, (s.mB.resize 0 memB >>= (·.resize s.mNoiseVecSize memB)) = .ok w) ↔
      s.mNoiseVecSize ≤ s.mB.mem.size ∨ s.mNoiseVecSize ≤ maxBlocks := by
    rw [AlignedUnVector.resize_le (Nat.zero_le _), ok_bind, AlignedUnVector.resize_ok_iff]
  have hbind : prepare memB s = (s.mB.resize 0 memB >>= (·.resize s.mNoiseVecSize memB)) >>= fun mB =>
      if s.mNumPartitions ≠ 1 ∧ s.mNumPartitions ≠ s.mGen.mPntCount then .error .rteLoc
      else validateExpandFormat mB.size s.mGen.mDomain s.mGen.mPntCount >>= fun _ => .ok { s with mB := mB } := by
    rw [prepare, bind_assoc]
  have hsize {w : AlignedUnVector} (h : (s.mB.resize 0 memB >>= (·.resize s.mNoiseVecSize memB)) = .ok w) :
      w.size = s.mNoiseVecSize := by
    obtain ⟨v, -, hv⟩ := bind_eq_ok.mp h
    exact (AlignedUnVector.resize_spec hv).1
  rw [hbind, Expandable, ← hresize]
  constructor
  · rintro ⟨s', h⟩
    obtain ⟨w, hw, h⟩ := bind_eq_ok.mp h
    split at h
    · cases h
    next hvalue =>
      obtain ⟨⟨⟩, hformat, -⟩ := bind_eq_ok.mp h
      rw [hsize hw] at hformat
      exact ⟨⟨w, hw⟩, by omega, hformat⟩
  · rintro ⟨⟨w, hw⟩, hvalue, hformat⟩
    refine ⟨{ s with mB := w }, bind_eq_ok.mpr ⟨w, hw, ?_⟩⟩
    rw [if_neg (by omega), hsize hw, hformat, ok_bind]

theorem prepare_frame {memB : ℕ → Block} {s s' : SilentWalshVoleSender} (h : prepare memB s = .ok s') :
    ∃ mB, mB.size = s.mNoiseVecSize ∧ s' = { s with mB := mB } := by
  rw [prepare] at h
  obtain ⟨v, -, h⟩ := bind_eq_ok.mp h
  obtain ⟨mB, hmB, h⟩ := bind_eq_ok.mp h
  split at h
  · cases h
  · obtain ⟨-, -, h⟩ := bind_eq_ok.mp h
    cases h
    exact ⟨mB, (AlignedUnVector.resize_spec hmB).1, rfl⟩

/-- The base OTs of a configured sender are installed whatever the protocols leave. -/
theorem setSilentBaseOts_ok (ctx : CoeffCtx Block) {malicious : Bool} (msg : Array (Block × Block)) (b : Array Block)
    {s : SilentWalshVoleSender} (hstate : s.mState ≠ .default) (hmsg : msg.size = s.mGen.baseOtCount)
    (hb : b.size = baseVoleCount malicious s) :
    ∃ ots mBaseB, setSilentBaseOts ctx malicious msg b s =
      .ok { s with mGen := { s.mGen with mBaseOTs := ots }, mBaseB := mBaseB } := by
  refine ⟨Array.ofFn fun i : Fin (s.mGen.mPntCount * s.mGen.mDepth) => Buffer.read msg i,
    Array.ofFn fun i : Fin b.size => ctx.minus ctx.zero (Buffer.read b i), ?_⟩
  rw [setSilentBaseOts, if_neg hstate, if_neg (not_not.mpr hmsg), if_neg (not_not.mpr hb), RegularPprf.setBase,
    if_neg (not_not.mpr hmsg.symm), ok_bind]

/-! ### Sessions during a call -/

/-- No base OTs were installed or used; base OTs that were there are still there, with everything around them. -/
structure Untouched (s₀ s : Session) : Prop where
  expansions : s.expansions = s₀.expansions
  completed : s.completed = s₀.completed
  installed : s.installed = s₀.installed
  kept : s₀.sender.mGen.hasBaseOts = true → s = s₀
  none : s₀.sender.mGen.hasBaseOts = false → s.sender.mGen.hasBaseOts = false

theorem Untouched.refl (s : Session) : Untouched s s := ⟨rfl, rfl, rfl, fun _ => rfl, id⟩

/-- The sender is configured for the call. -/
structure Started (c : Call) (s₀ s : Session) : Prop extends Untouched s₀ s where
  start : s₀.sender.start c.n = .ok s.sender
  state : s.sender.mState ≠ .default
  unawaited : Unawaited s ↔ Unawaited s₀

/-- The sender holds the base OTs and the `mBaseB` of one installation, and no expansion has started since `s₀`. -/
structure Loaded (s₀ : Session) (base : Base) (installed : ℕ) (s : Session) : Prop where
  ots : s.ots = some base
  baseB : s.baseB = some base
  installed : s.installed = installed
  state : s.sender.mState ≠ .default
  expansions : s.expansions = s₀.expansions
  completed : s.completed = s₀.completed

/-- The sender may change but for its state. -/
theorem Loaded.with_sender {s₀ s : Session} {base : Base} {k : ℕ} (h : Loaded s₀ base k s)
    {sender : SilentWalshVoleSender} (hstate : sender.mState = s.sender.mState) :
    Loaded s₀ base k { s with sender := sender } :=
  ⟨h.ots, h.baseB, h.installed, hstate ▸ h.state, h.expansions, h.completed⟩

/-- An expansion used the installation: it sent everything and dropped the base OTs, or a message failed and the
    base OTs are still there. -/
structure Expanded (c : Call) (s₀ : Session) (base : Base) (installed : ℕ) (s : Session) : Prop where
  installed : s.installed = installed
  expansions : s.expansions = s₀.expansions ++ [(some base, some base)]
  held : s.sender.mGen.hasBaseOts = false ∨
    (∃ i, c.chl (.tree i) ≠ .ok ()) ∧ s.ots = some base ∧ s.baseB = some base ∧ s.sender.mState ≠ .default

/-- The call has yet to complete, if it does. -/
structure Pending (c : Call) (s₀ : Session) (base : Base) (installed : ℕ) (s : Session) : Prop
    extends Expanded c s₀ base installed s where
  completed : s.completed = s₀.completed

/-- All messages of the expansion are sent and its base OTs are gone. -/
structure Sent (c : Call) (s₀ : Session) (base : Base) (installed : ℕ) (s : Session) : Prop
    extends Pending c s₀ base installed s where
  dropped : s.sender.mGen.hasBaseOts = false

/-- The sender may change but for its PPRF, and lose `mBaseB`. -/
theorem Sent.with_sender {c : Call} {s₀ s : Session} {base : Base} {k : ℕ} (h : Sent c s₀ base k s)
    {sender : SilentWalshVoleSender} (hgen : sender.mGen = s.sender.mGen) (baseB : Option Base) :
    Sent c s₀ base k { s with sender := sender, baseB := baseB } := by
  have hdropped : sender.mGen.hasBaseOts = false := hgen ▸ h.dropped
  exact ⟨⟨⟨h.installed, h.expansions, .inl hdropped⟩, h.completed⟩, hdropped⟩

/-! ### The phases of a call -/

section Phases
variable {c : Call} {s₀ : Session}

theorem hasBaseOts_configure {domainSize pointCount : ℕ} {gen : RegularPprf (Block × Block)}
    (h : RegularPprf.configure domainSize pointCount = .ok gen) : gen.hasBaseOts = false := by
  rw [RegularPprf.configure] at h
  split at h
  · cases h
  · split at h
    · cases h
    · cases h
      rfl

theorem configured_spec {s sender : SilentWalshVoleSender} {n : ℕ} (h : s.configure n = .ok sender) :
    sender.mGen.hasBaseOts = false ∧ sender.mRequestSize = n ∧ sender.mState = .configured := by
  obtain ⟨gen, hgen, h⟩ := bind_eq_ok.mp h
  cases h
  exact ⟨hasBaseOts_configure hgen, rfl, rfl⟩

theorem start_default {s : SilentWalshVoleSender} (hdefault : s.mState = .default) (n : ℕ) : s.start n = s.configure n := by
  rw [SilentWalshVoleSender.start, if_pos hdefault]
  cases h : s.configure n with
  | ok sender =>
    show (if sender.mRequestSize < n then _ else _) = _
    rw [(configured_spec h).2.1, if_neg (Nat.lt_irrefl n)]
  | error e => rfl

theorem start_configured {s : SilentWalshVoleSender} (hstate : s.mState ≠ .default) (n : ℕ) :
    s.start n = if s.mRequestSize < n then .error .requestSize else .ok s := by
  rw [SilentWalshVoleSender.start, if_neg hstate, ok_bind]

/-- A sender without base OTs has none after `configure`, whether the PPRF refuses the size or not. -/
theorem configure_exact (hnone : s₀.sender.mGen.hasBaseOts = false) (hdefault : s₀.sender.mState = .default) :
    Hoare.Exact (· = s₀) (∃ sender, s₀.sender.start c.n = .ok sender) (configure c.n)
      (fun _ s => Started c s₀ s ∧ s.sender.mRequestSize = c.n) (Untouched s₀) := by
  rintro s rfl
  have huntouched {s' : Session} (h : s'.sender.mGen.hasBaseOts = false) (hexp : s'.expansions = s.expansions)
      (hcomp : s'.completed = s.completed) (hinst : s'.installed = s.installed) : Untouched s s' :=
    ⟨hexp, hcomp, hinst, fun h₀ => by simp [hnone] at h₀, fun _ => h⟩
  rw [configure_eq, start_default hdefault]
  cases h : s.sender.configure c.n with
  | ok sender =>
    obtain ⟨hgen, hrequest, hstate⟩ := configured_spec h
    refine ⟨⟨_, rfl⟩, ⟨huntouched hgen rfl rfl rfl, ?_, ?_, ?_⟩, hrequest⟩
    · rw [start_default hdefault, h]
    · simp [hstate]
    · simp [Unawaited, hdefault]
  | error e =>
    exact ⟨by rintro ⟨_, ⟨⟩⟩, huntouched hnone rfl rfl rfl⟩

theorem start_exact (hheld : s₀.sender.mGen.hasBaseOts = true → s₀.sender.mState ≠ .default) :
    Hoare.Exact (· = s₀) (∃ sender, s₀.sender.start c.n = .ok sender) (start c) (fun _ => Started c s₀) (Untouched s₀) := by
  refine .get_bind fun s hs => ?_
  subst hs
  by_cases hdefault : s.sender.mState = .default
  · have hnone : s.sender.mGen.hasBaseOts = false := by
      rw [← Bool.not_eq_true]
      exact fun h => hheld h hdefault
    rw [if_pos hdefault]
    refine Hoare.Triple.bind (configure_exact hnone hdefault) fun _ => .get_bind ?_
    rintro s' ⟨hok, hs', hrequest⟩
    rw [if_neg (by omega)]
    refine .pure _ ?_
    rintro _ rfl
    exact ⟨hok, hs'⟩
  · rw [if_neg hdefault, start_configured hdefault]
    refine Hoare.Triple.bind (Q := fun _ => (· = s)) (.pure _ fun _ h => h) fun _ => .get_bind ?_
    rintro s' rfl
    refine .ite (fun hlt => .throw _ ?_) fun hle => .pure _ ?_
    · rintro _ rfl
      rw [if_pos hlt]
      exact ⟨by rintro ⟨_, ⟨⟩⟩, .refl _⟩
    · rintro _ rfl
      rw [if_neg hle]
      refine ⟨⟨_, rfl⟩, .refl _, ?_, hdefault, Iff.rfl⟩
      rw [start_configured hdefault, if_neg hle]

/-- The call has what it installs as base OTs. -/
def Installs (c : Call) (s : Session) : Prop :=
  ((∃ msg, c.baseOts = .ok msg) ∧ ∃ b, c.noisyVole c.delta = .ok b) ∨ Unawaited s

theorem baseProtocols_exact {s₁ : Session} (hstate : s₁.sender.mState ≠ .default) :
    Hoare.Exact (· = s₁) (Installs c s₁) (baseProtocols c) (fun _ s => ∃ r, s = { s₁ with recverHasBaseOts := r })
      (fun s => ∃ r, s = { s₁ with recverHasBaseOts := r }) := by
  refine .get_bind fun s hs => ?_
  subst hs
  have hsame (s' : Session) (h : s' = s) : ∃ r, s' = { s with recverHasBaseOts := r } := ⟨s.recverHasBaseOts, h⟩
  split
  next htype hrecver =>
    have hawaited : ¬ Unawaited s := by simp [Unawaited, htype, hrecver]
    refine Hoare.Triple.bind (Q := fun _ s' => (∃ msg, c.baseOts = .ok msg) ∧ s' = s) ?_ fun _ =>
      .bind (Q := fun _ s' => (∃ msg, c.baseOts = .ok msg) ∧ s' = { s with recverHasBaseOts := true })
        (.modify ?_) fun _ => .bind (Q := fun _ s' => Installs c s ∧ ∃ r, s' = { s with recverHasBaseOts := r }) ?_
          fun _ => .pure _ fun _ h => h
    · refine .lift (fun msg _ hmsg hs => ⟨⟨msg, hmsg⟩, hs⟩) fun e s' he hs => ⟨?_, hsame s' hs⟩
      rintro (⟨⟨msg, hmsg⟩, -⟩ | h)
      · simp [he] at hmsg
      · exact hawaited h
    · rintro s' ⟨hmsg, rfl⟩
      exact ⟨hmsg, rfl⟩
    · refine .lift (fun b _ hb hs => ⟨.inl ⟨hs.1, b, hb⟩, true, hs.2⟩) fun e s' he hs => ⟨?_, true, hs.2⟩
      rintro (⟨-, b, hb⟩ | h)
      · simp [he] at hb
      · exact hawaited h
  next hother =>
    have hunawaited : Unawaited s := by
      cases hrecver : s.recverHasBaseOts with
      | true => exact .inl hrecver
      | false =>
        cases htype : s.mBaseType with
        | base => exact .inr ⟨hstate, htype⟩
        | baseExtend => exact (hother htype hrecver).elim
    exact .pure _ fun s' hs => ⟨.inr hunawaited, hsame s' hs⟩

section Completion
variable (numVar : ℕ → ℕ) (maliciousSupported : Bool)

theorem Started.proceeds_iff {s : Session} (h : Started c s₀ s) :
    Proceeds numVar maliciousSupported c s₀ ↔ Finishes numVar maliciousSupported c s.sender := by
  refine ⟨?_, fun hfin => ⟨_, h.start, hfin⟩⟩
  rintro ⟨sender, hsender, hfin⟩
  rw [h.start] at hsender
  cases hsender
  exact hfin

theorem genSilentBaseOts_exact (ctx : CoeffCtx Block) {s₁ : Session} (h₁ : Started c s₀ s₁)
    (hnone : s₀.sender.mGen.hasBaseOts = false) :
    Hoare.Exact (· = s₁) (Installs c s₀) (genSilentBaseOts ctx c)
      (fun _ s => Loaded s₀ ⟨s₀.installed, c.voleDelta⟩ (s₀.installed + 1) s ∧
        (Proceeds numVar maliciousSupported c s₀ ↔ Finishes numVar maliciousSupported c s.sender))
      (Untouched s₀) := by
  have hinstalls : Installs c s₁ ↔ Installs c s₀ := or_congr_right h₁.unawaited
  have huntouched {s : Session} (h : ∃ r, s = { s₁ with recverHasBaseOts := r }) : Untouched s₀ s := by
    obtain ⟨r, rfl⟩ := h
    exact ⟨h₁.expansions, h₁.completed, h₁.installed, fun h₀ => by simp [hnone] at h₀, h₁.none⟩
  refine .get_bind fun s hs => ?_
  subst hs
  rw [if_neg h₁.state]
  refine Hoare.Triple.bind (Q := fun _ => (· = s)) (.pure _ fun _ h => h) fun _ =>
    .bind (((baseProtocols_exact h₁.state).congr hinstalls).weaken (fun _ h => h) (fun _ _ h => h)
      fun _ h => ⟨h.1, huntouched h.2⟩) fun out => ?_
  obtain ⟨ots, mBaseB, hok⟩ := setSilentBaseOts_ok ctx (Array.ofFn fun i : Fin s.sender.mGen.baseOtCount => out.1 i)
    (Array.ofFn fun i : Fin (baseVoleCount c.malicious s.sender) => out.2 i) h₁.state Array.size_ofFn Array.size_ofFn
  let sender : SilentWalshVoleSender := { s.sender with mGen := { s.sender.mGen with mBaseOTs := ots }, mBaseB := mBaseB }
  refine .bind (Q := fun _ s' => Installs c s₀ ∧ ∃ r, s' = { s with sender := sender, recverHasBaseOts := r })
    (onSender_triple ?_ ?_) fun _ => .modify ?_
  · rintro _ sender' ⟨hinst, r, rfl⟩ h
    rw [hok] at h
    cases h
    exact ⟨hinst, r, rfl⟩
  · rintro _ e ⟨-, r, rfl⟩ h
    rw [hok] at h
    cases h
  · rintro _ ⟨hinst, r, rfl⟩
    rw [← h₁.installed, h₁.proceeds_iff]
    exact ⟨hinst, ⟨rfl, rfl, rfl, h₁.state, h₁.expansions, h₁.completed⟩,
      fun h => ⟨h.expandable, h.trees, h.checkRT, h.maliciousCheck, h.encode⟩,
      fun h => ⟨h.expandable, h.trees, h.checkRT, h.maliciousCheck, h.encode⟩⟩

def Session.used (s₀ : Session) (base : Base) : Session :=
  { s₀ with expansions := s₀.expansions ++ [(some base, some base)] }

theorem expandBatch_exact {base : Base} {k size : ℕ} (i : ℕ) :
    Hoare.Exact (fun s => Loaded (s₀.used base) base k s ∧ s.sender.mB.size = size) (c.chl (.tree i) = .ok ())
      (expandBatch c i) (fun _ s => Loaded (s₀.used base) base k s ∧ s.sender.mB.size = size)
      (fun s => (∃ i, c.chl (.tree i) ≠ .ok ()) ∧ Loaded (s₀.used base) base k s) := by
  refine Hoare.Triple.bind (Q := fun _ s => Loaded (s₀.used base) base k s ∧ s.sender.mB.size = size)
    (.modify fun s hs => ⟨hs.1.with_sender rfl, hs.2⟩) fun _ => .lift (fun _ _ hok hs => ⟨hok, hs⟩) fun e s herr hs => ?_
  have hfail : c.chl (.tree i) ≠ .ok () := by simp [herr]
  exact ⟨hfail, ⟨i, hfail⟩, hs.1⟩

/-- An expansion that passes its checks uses what is loaded, whatever becomes of its messages. -/
theorem expand_triple {base : Base} {k : ℕ} {s₁ : Session} (h₁ : Loaded s₀ base k s₁) :
    Hoare.Triple (· = s₁) (expand c)
      (fun used s => used.2 = some base ∧ Expandable s₁.sender ∧
        (∀ i < (s₁.sender.mGen.mPntCount + 7) / 8, c.chl (.tree i) = .ok ()) ∧
        Sent c s₀ base k s ∧ s.sender.mB.size = s₁.sender.mNoiseVecSize)
      (fun s => s = s₁ ∧ ¬ Expandable s₁.sender ∨ Expandable s₁.sender ∧
        ¬ (∀ i < (s₁.sender.mGen.mPntCount + 7) / 8, c.chl (.tree i) = .ok ()) ∧ Pending c s₀ base k s) := by
  refine .bind (Q := fun _ s => Expandable s₁.sender ∧ Loaded s₀ base k s ∧ s.sender.mGen = s₁.sender.mGen ∧
      s.sender.mB.size = s₁.sender.mNoiseVecSize) ?_ fun _ => .get_bind ?_
  · refine onSender_triple ?_ ?_
    · rintro _ sender rfl h
      obtain ⟨mB, hsize, rfl⟩ := prepare_frame h
      exact ⟨(prepare_ok_iff _ _).mp ⟨_, h⟩, h₁.with_sender rfl, rfl, hsize⟩
    · rintro _ e rfl h
      refine .inl ⟨rfl, fun hexp => ?_⟩
      obtain ⟨s', hok⟩ := (prepare_ok_iff c.memB _).mpr hexp
      rw [hok] at h
      cases h
  rintro s ⟨hexp, hs, hgen, hsize⟩
  rw [hgen]
  refine .bind (Q := fun _ s' => Loaded (s₀.used base) base k s' ∧ s'.sender.mB.size = s₁.sender.mNoiseVecSize)
    (.modify ?_) fun _ => .bind ((Hoare.Exact.repeatFor fun i _ => expandBatch_exact i).weaken (fun _ h => h)
      (fun _ _ h => h) ?_) fun _ => .bind (Q := fun _ s' => (∀ i < (s₁.sender.mGen.mPntCount + 7) / 8,
        c.chl (.tree i) = .ok ()) ∧ Sent c s₀ base k s' ∧ s'.sender.mB.size = s₁.sender.mNoiseVecSize)
          (.modify ?_) fun _ => .pure _ ?_
  · rintro s rfl
    refine ⟨⟨hs.ots, hs.baseB, hs.installed, hs.state, ?_, hs.completed⟩, hsize⟩
    show s.expansions ++ [(s.ots, s.baseB)] = _
    rw [hs.ots, hs.baseB, hs.expansions]
    rfl
  · rintro s' ⟨hall, hfail, hs'⟩
    exact .inr ⟨hexp, hall, ⟨hs'.installed, hs'.expansions, .inr ⟨hfail, hs'.ots, hs'.baseB, hs'.state⟩⟩, hs'.completed⟩
  · rintro s' ⟨hall, hs', hsize'⟩
    exact ⟨hall, ⟨⟨⟨hs'.installed, hs'.expansions, .inl rfl⟩, hs'.completed⟩, rfl⟩, hsize'⟩
  · exact fun s' hs' => ⟨hs.baseB, hexp, hs'⟩

/-- After the expansion nothing touches the history of expansions, and no base OTs come back. -/
theorem finish_exact {base : Base} {k size : ℕ} :
    Hoare.Exact (fun s => Sent c s₀ base k s ∧ s.sender.mB.size = size)
      ((c.debug = true → ∀ m ∈ [.delta, .b, .baseB], c.chl m = .ok ()) ∧
        (c.malicious = true → maliciousSupported = true ∧ ∀ m ∈ [.x, .hash], c.chl m = .ok ()) ∧
        3 ^ numVar size < 2 ^ 31)
      (finish numVar maliciousSupported c) (fun _ => Sent c s₀ base k) (Pending c s₀ base k) := by
  have hmessage (m : Message) : Hoare.Exact (fun s => Sent c s₀ base k s ∧ s.sender.mB.size = size) (c.chl m = .ok ())
      (Hoare.lift (c.chl m) : SendM Unit) (fun _ s => Sent c s₀ base k s ∧ s.sender.mB.size = size)
      (Pending c s₀ base k) := .lift fun _ hs => hs.1.toPending
  refine .bind (.ite_pure ?_) fun _ => .bind (.ite_pure ?_) fun _ => ?_
  · refine (Hoare.Exact.bind (hmessage .delta) fun _ => (hmessage .b).bind fun _ => hmessage .baseB).congr ?_
    simp
  · refine ((hmessage .x).bind fun _ => Hoare.Exact.bind (p := maliciousSupported = true) ?_ fun _ => hmessage .hash).congr ?_
    · exact .ite (fun h => .pure _ fun _ hs => ⟨h, hs⟩) fun h => .throw _ fun _ hs => ⟨h, hs.1.toPending⟩
    · simp [and_left_comm]
  · refine Hoare.Triple.bind (Q := fun _ s => 3 ^ numVar size < 2 ^ 31 ∧ Sent c s₀ base k s) (onSender_triple ?_ ?_)
      fun _ => .modify ?_
    · rintro s sender ⟨hs, rfl⟩ h
      obtain ⟨mB, hmB, h⟩ := bind_eq_ok.mp h
      cases h
      exact ⟨(encode_size hmB).1, hs.with_sender (by rfl) s.baseB⟩
    · rintro s e ⟨hs, rfl⟩ h
      refine ⟨fun hsize => ?_, hs.toPending⟩
      obtain ⟨w, hw⟩ := (encode_ok_iff _ c.growB s.sender.mB).mpr hsize
      rw [SilentWalshVoleSender.finish, hw] at h
      cases h
    · exact fun s hs => ⟨hs.1, hs.2.with_sender rfl none⟩

end Completion

/-! ### What a call can do -/

/-- Where the base OTs of an expansion come from: a call that finds some takes them, any other installs new ones. -/
inductive Source (c : Call) (s₀ : Session) : Base → ℕ → Prop where
  | found {base : Base} (hbase : s₀.sender.mGen.hasBaseOts = true) (hsize : c.n ≤ s₀.sender.mRequestSize)
      (hots : s₀.ots = some base) (hbaseB : s₀.baseB = some base) : Source c s₀ base s₀.installed
  | installed (hnone : s₀.sender.mGen.hasBaseOts = false) (hinst : Installs c s₀) :
      Source c s₀ ⟨s₀.installed, c.voleDelta⟩ (s₀.installed + 1)

/-- All that a call can do, whether it completes or throws. -/
inductive Effect (numVar : ℕ → ℕ) (maliciousSupported : Bool) (c : Call) (s₀ s : Session) : Prop where
  | untouched (h : Untouched s₀ s) (hfresh : ¬ Reuses c s₀)
      (hstop : s₀.sender.mGen.hasBaseOts = false → Installs c s₀ → ¬ Proceeds numVar maliciousSupported c s₀)
  | loaded (hnone : s₀.sender.mGen.hasBaseOts = false)
      (h : Loaded s₀ ⟨s₀.installed, c.voleDelta⟩ (s₀.installed + 1) s) (hexp : ¬ Expandable s.sender)
      (hstop : ¬ Proceeds numVar maliciousSupported c s₀)
  | expanded {base : Base} {k : ℕ} (hsource : Source c s₀ base k)
      (hexp : s₀.sender.mGen.hasBaseOts = true → Expandable s₀.sender) (h : Expanded c s₀ base k s)
      (hdone : s.completed = s₀.completed ∧ ¬ Proceeds numVar maliciousSupported c s₀ ∨
        s.completed = s₀.completed ++ [(c.delta, some base)] ∧ Proceeds numVar maliciousSupported c s₀)

theorem Reuses.hasBaseOts (h : Reuses c s₀) : s₀.sender.mGen.hasBaseOts ≠ false := by simp [h.1]

/-- A call that starts and finds base OTs has a size they are for. -/
theorem Started.le {s : Session} (h : Started c s₀ s) (hbase : s₀.sender.mGen.hasBaseOts = true) :
    c.n ≤ s₀.sender.mRequestSize := by
  have hs := h.kept hbase
  subst hs
  have hstart := h.start
  rw [start_configured h.state] at hstart
  split at hstart
  · cases hstart
  · omega

/-- What base OTs in the sender come with. -/
structure Held (s : Session) : Prop where
  state : s.sender.mState ≠ .default
  base : ∃ base, s.ots = some base ∧ s.baseB = some base ∧ base.id < s.installed ∧
    (Expandable s.sender → (some base, some base) ∈ s.expansions)

variable (ctx : CoeffCtx Block) (numVar : ℕ → ℕ) (maliciousSupported : Bool)

/-- The base OTs that an expansion starts with. -/
theorem ensureBaseOts_triple {s₁ : Session} (hheld : s₀.sender.mGen.hasBaseOts = true → Held s₀) (h₁ : Started c s₀ s₁) :
    Hoare.Triple (· = s₁) (ensureBaseOts ctx c)
      (fun _ s => ∃ base k, Source c s₀ base k ∧ Loaded s₀ base k s ∧ (s₀.sender.mGen.hasBaseOts = true → s = s₀) ∧
        (Proceeds numVar maliciousSupported c s₀ ↔ Finishes numVar maliciousSupported c s.sender))
      (Effect numVar maliciousSupported c s₀) := by
  refine .get_bind fun s hs => ?_
  subst hs
  cases hbase : s₀.sender.mGen.hasBaseOts with
  | true =>
    have hs := h₁.kept hbase
    subst hs
    rw [hbase]
    refine .ite (fun _ => .pure _ ?_) fun h => absurd rfl h
    rintro _ rfl
    obtain ⟨base, hots, hbaseB, -⟩ := (hheld hbase).base
    exact ⟨base, _, .found hbase (h₁.le hbase) hots hbaseB, ⟨hots, hbaseB, rfl, h₁.state, rfl, rfl⟩, fun _ => rfl,
      h₁.proceeds_iff numVar maliciousSupported⟩
  | false =>
    rw [h₁.none hbase]
    refine .ite (fun h => by cases h) fun _ => ?_
    refine (genSilentBaseOts_exact numVar maliciousSupported ctx h₁ hbase).weaken (fun _ h => h) ?_ ?_
    · exact fun _ s h => ⟨_, _, .installed hbase h.1, h.2.1, fun h₀ => absurd h₀ Bool.false_ne_true, h.2.2⟩
    · exact fun s h => .untouched h.2 (fun hreuse => hreuse.hasBaseOts hbase) fun _ hinst => absurd hinst h.1

theorem silentSendInplace_triple (hheld : s₀.sender.mGen.hasBaseOts = true → Held s₀) :
    Hoare.Triple (· = s₀) (silentSendInplace ctx numVar maliciousSupported c)
      (fun used s => ∃ base k, used = some base ∧ Source c s₀ base k ∧
        (s₀.sender.mGen.hasBaseOts = true → Expandable s₀.sender) ∧ Sent c s₀ base k s ∧
        Proceeds numVar maliciousSupported c s₀)
      (Effect numVar maliciousSupported c s₀) := by
  have hstart : Hoare.Triple (· = s₀) (start c) (fun _ => Started c s₀) (Effect numVar maliciousSupported c s₀) := by
    refine (start_exact fun h => (hheld h).state).weaken (fun _ h => h) (fun _ _ h => h.2) fun s h =>
      .untouched h.2 (fun hreuse => h.1 ⟨s₀.sender, ?_⟩) fun _ _ hproceeds => h.1 ⟨_, hproceeds.choose_spec.1⟩
    rw [start_configured (hheld hreuse.1).state, if_neg (Nat.not_lt.mpr hreuse.2.1)]
  refine .bind hstart fun _ => .bind (.of_state fun s hs => ensureBaseOts_triple ctx numVar maliciousSupported hheld hs)
    fun _ => .of_state ?_
  rintro s ⟨base, k, hsource, hs, hkept, hproceeds⟩
  refine .bind ((expand_triple hs).weaken (fun _ h => h) (fun _ _ h => h) ?_) fun used => .of_state ?_
  · rintro s' (⟨rfl, hexp⟩ | ⟨hexp, htrees, h⟩)
    · have hstop : ¬ Proceeds numVar maliciousSupported c s₀ := fun h => hexp (hproceeds.mp h).expandable
      cases hsource with
      | found hbase =>
        refine .untouched (hkept hbase ▸ .refl _) (fun hreuse => hexp ?_) fun _ _ => hstop
        rw [hkept hbase]
        exact hreuse.2.2
      | installed hnone => exact .loaded hnone hs hexp hstop
    · exact .expanded hsource (fun h₀ => hkept h₀ ▸ hexp) h.toExpanded
        (.inl ⟨h.completed, fun hp => htrees (hproceeds.mp hp).trees⟩)
  · rintro s' ⟨hused, hexp, htrees, hsent, hsize⟩
    refine .bind (.weaken (P := fun t => Sent c s₀ base k t ∧ t.sender.mB.size = s.sender.mNoiseVecSize)
      (finish_exact numVar maliciousSupported) ?_ (fun _ _ h => h) ?_) fun _ => .pure _ ?_
    · rintro _ rfl
      exact ⟨hsent, hsize⟩
    · rintro s'' ⟨hfail, h⟩
      refine .expanded hsource (fun h₀ => hkept h₀ ▸ hexp) h.toExpanded (.inl ⟨h.completed, fun hp => hfail ?_⟩)
      have hfin := hproceeds.mp hp
      exact ⟨hfin.checkRT, hfin.maliciousCheck, hfin.encode⟩
    · rintro s'' ⟨⟨hcheck, hmal, hencode⟩, h⟩
      exact ⟨base, k, hused, hsource, fun h₀ => hkept h₀ ▸ hexp, h, hproceeds.mpr ⟨hexp, htrees, hcheck, hmal, hencode⟩⟩

theorem silentSend_effect (hheld : s₀.sender.mGen.hasBaseOts = true → Held s₀) :
    Effect numVar maliciousSupported c s₀ (Hoare.final (silentSend ctx numVar maliciousSupported c) s₀) := by
  refine Hoare.Triple.final (P := (· = s₀)) ?_ rfl
  refine .bind (silentSendInplace_triple ctx numVar maliciousSupported hheld) fun used => .modify ?_
  rintro s ⟨base, k, rfl, hsource, hexp, hsent, hproceeds⟩
  refine .expanded hsource hexp ⟨hsent.installed, hsent.expansions, .inl rfl⟩ (.inr ⟨?_, hproceeds⟩)
  show s.completed ++ _ = _
  rw [hsent.completed]

end Phases

end SilentSend
end ExtFieldPcg
