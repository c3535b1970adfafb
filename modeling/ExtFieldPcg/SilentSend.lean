import ExtFieldPcg.Lib.Hoare
import ExtFieldPcg.SilentWalshVole

/-! Sequences of calls of `silentSend` on one sender, any of which can throw on the way and then leaves the sender as
    it is. History variables record which base OTs and which `mBaseB` each expansion used, and where they came from. -/

open Buffer

namespace ExtFieldPcg
namespace SilentSend

/-! ### The code -/

/-- What a call sends or receives once it has base OTs. -/
inductive Message where
  /-- A batch of eight trees of the PPRF. -/
  | tree (batch : ℕ)
  /-- `delta`, `mB` and `mBaseB`, sent when debugging. -/
  | delta | b | baseB
  /-- The challenge and the answer of the malicious check. -/
  | x | hash

inductive SilentBaseType where
  | base
  | baseExtend
deriving DecidableEq, Repr

/-- The arguments of a call, the public flags of the sender at its start, and what its channel and libOTe answer. -/
structure Call where
  delta : Block
  n : ℕ
  malicious : Bool
  debug : Bool
  /-- `msg` from the OT extension or the base OTs, or the exception that they end with. -/
  baseOts : Except Err (ℕ → Block × Block)
  /-- `b` from the noisy VOLE on `delta`, or the exception that it ends with. -/
  noisyVole : Block → Except Err (ℕ → Block)
  /-- What `msg` and `b` hold after an exception. -/
  memMsg : ℕ → Block × Block
  memVole : ℕ → Block
  /-- The interleaved leaves of the PPRF on `mGen` and `baseB`. -/
  leaf : RegularPprf (Block × Block) → Array Block → ℕ → Block
  chl : Message → Except Err Unit
  memB : ℕ → Block
  growB : ℕ → Block

/-- History: a run of `setSilentBaseOts`, and the `delta` that its `b` was generated from, if it was generated. -/
structure Base where
  id : ℕ
  delta : Option Block
deriving DecidableEq, Repr

structure Session where
  sender : SilentWalshVoleSender
  mBaseType : SilentBaseType := .baseExtend
  /-- `mOtExtRecver` has base OTs. It never drops them. -/
  recverHasBaseOts : Bool := false
  /-- History: where `mGen.mBaseOTs` and `mBaseB` come from. -/
  ots : Option Base := none
  baseB : Option Base := none
  /-- History: the number of runs of `setSilentBaseOts`. -/
  installed : ℕ := 0
  /-- History: the base OTs and the `mBaseB` of every expansion that started. -/
  expansions : List (Option Base × Option Base) := []
  /-- History: `delta` and the `mBaseB` of every call that completed. -/
  completed : List (Block × Option Base) := []

abbrev SendM := EStateM Err Session

def onSender (f : SilentWalshVoleSender → Except Err SilentWalshVoleSender) : SendM Unit :=
  Hoare.update fun s => (f s.sender).map fun sender => { s with sender := sender }

/-- `configure(n, BaseExtend)`. It sets its own fields before the PPRF can refuse the size. -/
def configure (n : ℕ) : SendM Unit := do
  modify fun s => { s with sender := s.sender.configured n, mBaseType := .baseExtend }
  onSender fun s => do
    let gen ← RegularPprf.configure s.mSizePer s.mNumPartitions
    .ok { s with mGen := gen }

def baseVoleCount (malicious : Bool) (s : SilentWalshVoleSender) : ℕ := s.mNumPartitions + malicious.toNat

def setSilentBaseOts (ctx : CoeffCtx Block) (malicious : Bool) (sendBaseOts : Array (Block × Block)) (b : Array Block)
    (s : SilentWalshVoleSender) : Except Err SilentWalshVoleSender :=
  if s.mState = .default then .error .notConfigured
  else if sendBaseOts.size ≠ s.mGen.baseOtCount then .error .rteLoc
  else if b.size ≠ baseVoleCount malicious s then .error .rteLoc
  else do
    let gen ← s.mGen.setBase s.mGen.mPntCount sendBaseOts
    .ok { s with mGen := gen, mBaseB := Array.ofFn fun i : Fin b.size => ctx.minus ctx.zero (read b i) }

/-- `when_all_ready` of the two protocols. Nobody asks for their results, so an exception is lost. -/
def whenAllReady (c : Call) : (ℕ → Block × Block) × (ℕ → Block) :=
  (c.baseOts.toOption.getD c.memMsg, (c.noisyVole c.delta).toOption.getD c.memVole)

/-- `msg` and `b` of `genSilentBaseOts`. -/
def baseProtocols (c : Call) : SendM ((ℕ → Block × Block) × (ℕ → Block)) := do
  let s ← get
  match s.mBaseType, s.recverHasBaseOts with
  | .baseExtend, false => do
    let msg ← Hoare.lift c.baseOts
    modify fun s => { s with recverHasBaseOts := true }
    let b ← Hoare.lift (c.noisyVole c.delta)
    pure (msg, b)
  | _, _ => pure (whenAllReady c)

/-- History: the `delta` that the noisy VOLE of this call leaves a `b` for. -/
def Call.voleDelta (c : Call) : Option Block :=
  match c.noisyVole c.delta with
  | .ok _ => some c.delta
  | .error _ => none

def genSilentBaseOts (ctx : CoeffCtx Block) (c : Call) : SendM Unit := do
  let s ← get
  (if s.sender.mState = .default then throw .notConfigured else pure ())
  let out ← baseProtocols c
  let msg := Array.ofFn fun i : Fin s.sender.mGen.baseOtCount => out.1 i
  let b := Array.ofFn fun i : Fin (baseVoleCount c.malicious s.sender) => out.2 i
  onSender (setSilentBaseOts ctx c.malicious msg b)
  let base : Base := ⟨s.installed, c.voleDelta⟩
  modify fun s => { s with ots := some base, baseB := some base, installed := s.installed + 1 }

/-- The start of `silentSendInplace(delta, n)`. -/
def start (c : Call) : SendM Unit := do
  let s ← get
  (if s.sender.mState = .default then configure c.n else pure ())
  let s ← get
  (if s.sender.mRequestSize < c.n then throw .requestSize else pure ())

def ensureBaseOts (ctx : CoeffCtx Block) (c : Call) : SendM Unit := do
  let s ← get
  (if s.sender.mGen.hasBaseOts then pure () else genSilentBaseOts ctx c)

/-- `mB` before the expansion, the check of `setValue` and that of the output format. When a check throws, `mB` keeps
    its old size here; the next expansion resizes it in any case. -/
def prepare (memB : ℕ → Block) (s : SilentWalshVoleSender) : Except Err SilentWalshVoleSender := do
  let mB ← s.mB.resize 0 memB
  let mB ← mB.resize s.mNoiseVecSize memB
  if s.mNumPartitions ≠ 1 ∧ s.mNumPartitions ≠ s.mGen.mPntCount then .error .rteLoc
  else do
    validateExpandFormat mB.size s.mGen.mDomain s.mGen.mPntCount
    .ok { s with mB := mB }

/-- Eight trees are expanded into `mB`. -/
def expandOne (c : Call) (i : ℕ) (s : SilentWalshVoleSender) : SilentWalshVoleSender :=
  let leaf := c.leaf s.mGen s.baseB
  { s with mB := s.mB.fill fun x =>
      if i * 8 * s.mGen.mDomain ≤ x ∧ x < (i + 1) * 8 * s.mGen.mDomain then leaf x else s.mB.get x }

def expandBatch (c : Call) (i : ℕ) : SendM Unit := do
  modify fun s => { s with sender := expandOne c i s.sender }
  Hoare.lift (c.chl (.tree i))

/-- The expansion. It drops the base OTs after its last message. -/
def expand (c : Call) : SendM (Option Base × Option Base) := do
  onSender (prepare c.memB)
  let s ← get
  modify fun s => { s with expansions := s.expansions ++ [(s.ots, s.baseB)] }
  Hoare.repeatFor ((s.sender.mGen.mPntCount + 7) / 8) (expandBatch c)
  modify fun s => { s with sender.mGen.mBaseOTs := #[], ots := none }
  pure (s.ots, s.baseB)

def checkRT (c : Call) : SendM Unit := do
  Hoare.lift (c.chl .delta)
  Hoare.lift (c.chl .b)
  Hoare.lift (c.chl .baseB)

def maliciousCheck (maliciousSupported : Bool) (c : Call) : SendM Unit := do
  Hoare.lift (c.chl .x)
  (if maliciousSupported then pure () else throw .maliciousUnsupported)
  Hoare.lift (c.chl .hash)

variable (ctx : CoeffCtx Block) (numVar : ℕ → ℕ) (maliciousSupported : Bool)

/-- What follows the expansion. -/
def finish (c : Call) : SendM Unit := do
  (if c.debug then checkRT c else pure ())
  (if c.malicious then maliciousCheck maliciousSupported c else pure ())
  onSender (·.finish numVar c.growB)
  modify fun s => { s with baseB := none }

def silentSendInplace (c : Call) : SendM (Option Base) := do
  start c
  ensureBaseOts ctx c
  let used ← expand c
  finish numVar maliciousSupported c
  pure used.2

def silentSend (c : Call) : SendM Unit := do
  let baseB ← silentSendInplace ctx numVar maliciousSupported c
  modify fun s => { s with sender := s.sender.clear, completed := s.completed ++ [(c.delta, baseB)] }

/-- The calls one after the other, whether they throw or not. -/
def run (calls : List Call) (s : Session) : Session :=
  calls.foldl (fun s c => Hoare.final (silentSend ctx numVar maliciousSupported c) s) s

/-! ### The steps of a session -/

theorem setSilentBaseOts_semiHonest (ots : Array (Block × Block)) (b : Array Block) (s : SilentWalshVoleSender) :
    setSilentBaseOts ctx false ots b s = s.setSilentBaseOts ctx ots b := rfl

theorem prepare_eq_beginExpand {s : SilentWalshVoleSender} (h : s.mNumPartitions = s.mGen.mPntCount) (memB : ℕ → Block) :
    prepare memB s = s.beginExpand memB := by
  have hvalue : ¬ (s.mNumPartitions ≠ 1 ∧ s.mNumPartitions ≠ s.mGen.mPntCount) := fun hne => hne.2 h
  rw [prepare, SilentWalshVoleSender.beginExpand]
  simp only [if_neg hvalue]

/-- When the PPRF refuses the size, the sender counts as configured all the same. -/
theorem configure_eq (n : ℕ) (s : Session) :
    configure n s = match s.sender.configure n with
      | .ok sender => .ok () { s with sender := sender, mBaseType := .baseExtend }
      | .error e => .error e { s with sender := s.sender.configured n, mBaseType := .baseExtend } := by
  rw [configure, Hoare.modify_bind, onSender, Hoare.update, SilentWalshVoleSender.configure]
  cases RegularPprf.configure (s.sender.configured n).mSizePer (s.sender.configured n).mNumPartitions <;> rfl

/-! ### Single use -/

/-- No installation serves two expansions, and every call that completed used an `mBaseB` generated from its own
    `delta`. -/
structure SingleUse (s : Session) : Prop where
  ots : (s.expansions.filterMap (·.1)).Nodup
  baseB : (s.expansions.filterMap (·.2)).Nodup
  delta : ∀ x ∈ s.completed, ∃ base, x.2 = some base ∧ base.delta = some x.1

/-- The expansion of this sender passes its checks. -/
def Expandable (s : SilentWalshVoleSender) : Prop :=
  (s.mNoiseVecSize ≤ s.mB.mem.size ∨ s.mNoiseVecSize ≤ maxBlocks) ∧
    (s.mNumPartitions = 1 ∨ s.mNumPartitions = s.mGen.mPntCount) ∧
    validateExpandFormat s.mNoiseVecSize s.mGen.mDomain s.mGen.mPntCount = .ok ()

/-- The call finds base OTs, left by a call that threw, and expands with them. -/
def Reuses (c : Call) (s : Session) : Prop :=
  s.sender.mGen.hasBaseOts = true ∧ c.n ≤ s.sender.mRequestSize ∧ Expandable s.sender

/-- Nothing fails after the base OTs. -/
structure Finishes (c : Call) (s : SilentWalshVoleSender) : Prop where
  expandable : Expandable s
  trees : ∀ i < (s.mGen.mPntCount + 7) / 8, c.chl (.tree i) = .ok ()
  checkRT : c.debug = true → ∀ m ∈ [.delta, .b, .baseB], c.chl m = .ok ()
  maliciousCheck : c.malicious = true → maliciousSupported = true ∧ ∀ m ∈ [.x, .hash], c.chl m = .ok ()
  encode : 3 ^ numVar s.mNoiseVecSize < 2 ^ 31

/-- The base OTs apart, nothing in the call fails. -/
def Proceeds (c : Call) (s : Session) : Prop :=
  ∃ sender, s.sender.start c.n = .ok sender ∧ Finishes numVar maliciousSupported c sender

/-- The call gets its base OTs by `when_all_ready`. -/
def Unawaited (s : Session) : Prop :=
  s.recverHasBaseOts = true ∨ s.sender.mState ≠ .default ∧ s.mBaseType = .base

/-- The call needs base OTs, the exception of its noisy VOLE is lost, and nothing else fails. -/
structure LosesVole (c : Call) (s : Session) : Prop where
  needed : s.sender.mGen.hasBaseOts = false
  vole : ∃ e, c.noisyVole c.delta = .error e
  unawaited : Unawaited s
  proceeds : Proceeds numVar maliciousSupported c s

end SilentSend
end ExtFieldPcg
