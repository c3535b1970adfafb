/-! Hoare triples for programs on a state that can throw and then leave the state as it is: one postcondition for a
    result and one for an exception. -/

namespace Hoare

variable {σ ε α β : Type}

/-- From a state with `P`, `x` ends with `Q` or throws with `E`. -/
def Triple (P : σ → Prop) (x : EStateM ε σ α) (Q : α → σ → Prop) (E : σ → Prop) : Prop :=
  ∀ s, P s → match x s with
    | .ok a s' => Q a s'
    | .error _ s' => E s'

/-- A result that may be an exception, with the state as it is. -/
def lift (x : Except ε α) : EStateM ε σ α := fun s =>
  match x with
  | .ok a => .ok a s
  | .error e => .error e s

/-- A step on the state that changes nothing when it throws. -/
def update (f : σ → Except ε σ) : EStateM ε σ Unit := fun s =>
  match f s with
  | .ok s' => .ok () s'
  | .error e => .error e s

/-- `body 0`, …, `body (n - 1)`, until one of them throws. -/
def repeatFor : Nat → (Nat → EStateM ε σ Unit) → EStateM ε σ Unit
  | 0, _ => pure ()
  | n + 1, body => do
    repeatFor n body
    body n

/-- The state that a program leaves behind. -/
def final (x : EStateM ε σ α) (s : σ) : σ :=
  match x s with
  | .ok _ s' => s'
  | .error _ s' => s'

theorem modify_bind (f : σ → σ) (x : Unit → EStateM ε σ α) (s : σ) :
    (modify f >>= x : EStateM ε σ α) s = x () (f s) := rfl

namespace Triple

variable {P P' : σ → Prop} {Q Q' : α → σ → Prop} {E E' : σ → Prop} {x : EStateM ε σ α}

theorem weaken (h : Triple P x Q E) (hP : ∀ s, P' s → P s) (hQ : ∀ a s, Q a s → Q' a s) (hE : ∀ s, E s → E' s) :
    Triple P' x Q' E' := by
  intro s hs
  have hx := h s (hP s hs)
  cases hres : x s with
  | ok a s' =>
    rw [hres] at hx
    exact hQ a s' hx
  | error e s' =>
    rw [hres] at hx
    exact hE s' hx

/-- A triple may be proved from each state on its own. -/
theorem of_state (h : ∀ s, P s → Triple (· = s) x Q E) : Triple P x Q E := fun s hs => h s hs s rfl

theorem pure (a : α) (h : ∀ s, P s → Q a s) : Triple P (pure a : EStateM ε σ α) Q E := h

theorem throw (e : ε) (h : ∀ s, P s → E s) : Triple P (throw e : EStateM ε σ α) Q E := h

theorem bind {R : β → σ → Prop} {f : α → EStateM ε σ β} (hx : Triple P x Q E) (hf : ∀ a, Triple (Q a) (f a) R E) :
    Triple P (x >>= f) R E := by
  intro s hs
  have hx := hx s hs
  show match EStateM.bind x f s with
    | .ok a s' => R a s'
    | .error _ s' => E s'
  unfold EStateM.bind
  cases hres : x s with
  | ok a s' =>
    rw [hres] at hx
    exact hf a s' hx
  | error e s' =>
    rw [hres] at hx
    exact hx

/-- What follows may use the state that was read. -/
theorem get_bind {R : β → σ → Prop} {f : σ → EStateM ε σ β} (h : ∀ s, P s → Triple (· = s) (f s) R E) :
    Triple P (get >>= f) R E := fun s hs => h s hs s rfl

theorem modify {f : σ → σ} {Q : Unit → σ → Prop} (h : ∀ s, P s → Q () (f s)) :
    Triple P (modify f : EStateM ε σ Unit) Q E := h

theorem lift {r : Except ε α} (hok : ∀ a s, r = .ok a → P s → Q a s) (herr : ∀ e s, r = .error e → P s → E s) :
    Triple P (Hoare.lift r) Q E := by
  intro s hs
  cases r with
  | ok a => exact hok a s rfl hs
  | error e => exact herr e s rfl hs

theorem update {f : σ → Except ε σ} {Q : Unit → σ → Prop} (hok : ∀ s s', P s → f s = .ok s' → Q () s')
    (herr : ∀ s e, P s → f s = .error e → E s) : Triple P (Hoare.update f) Q E := by
  intro s hs
  unfold Hoare.update
  cases hres : f s with
  | ok s' => exact hok s s' hs hres
  | error e => exact herr s e hs hres

theorem ite {c : Prop} [Decidable c] {y : EStateM ε σ α} (hpos : c → Triple P x Q E) (hneg : ¬c → Triple P y Q E) :
    Triple P (if c then x else y) Q E := by
  by_cases h : c
  · rw [if_pos h]
    exact hpos h
  · rw [if_neg h]
    exact hneg h

/-- What every round keeps, and leaves to an exception, the loop does. -/
theorem repeatFor {n : Nat} {body : Nat → EStateM ε σ Unit} {E : σ → Prop}
    (h : ∀ i < n, Triple P (body i) (fun _ => P) E) : Triple P (repeatFor n body) (fun _ => P) E := by
  induction n with
  | zero => exact fun s hs => hs
  | succ n ih => exact bind (ih fun i hi => h i (Nat.lt_succ_of_lt hi)) fun _ => h n (Nat.lt_succ_self n)

/-- When both postconditions are one, the state left behind has it. -/
theorem final {F : σ → Prop} (h : Triple P x (fun _ => F) F) {s : σ} (hs : P s) : F (final x s) := by
  have hx := h s hs
  unfold Hoare.final
  cases hres : x s with
  | ok a s' =>
    rw [hres] at hx
    exact hx
  | error e s' =>
    rw [hres] at hx
    exact hx

end Triple

/-- From a state with `P`, `x` ends with `Q` if `p` holds and throws with `E` if it does not. -/
def Exact (P : σ → Prop) (p : Prop) (x : EStateM ε σ α) (Q : α → σ → Prop) (E : σ → Prop) : Prop :=
  Triple P x (fun a s => p ∧ Q a s) fun s => ¬p ∧ E s

namespace Exact

variable {P : σ → Prop} {p q : Prop} {Q : α → σ → Prop} {E : σ → Prop} {x : EStateM ε σ α}

theorem congr (h : Exact P p x Q E) (hpq : p ↔ q) : Exact P q x Q E :=
  h.weaken (fun _ hs => hs) (fun _ _ hs => ⟨hpq.mp hs.1, hs.2⟩) fun _ hs => ⟨fun hq => hs.1 (hpq.mpr hq), hs.2⟩

theorem bind {R : β → σ → Prop} {f : α → EStateM ε σ β} (hx : Exact P p x Q E) (hf : ∀ a, Exact (Q a) q (f a) R E) :
    Exact P (p ∧ q) (x >>= f) R E := by
  refine Triple.bind (Q := fun a s => p ∧ Q a s) ?_ fun a => .of_state fun s hs => ?_
  · exact hx.weaken (fun _ hs => hs) (fun _ _ hs => hs) fun _ hs => ⟨fun h => hs.1 h.1, hs.2⟩
  · refine (hf a).weaken ?_ (fun _ _ h => ⟨⟨hs.1, h.1⟩, h.2⟩) fun _ h => ⟨fun hpq => h.1 hpq.2, h.2⟩
    rintro _ rfl
    exact hs.2

theorem lift {r : Except ε Unit} (h : ∀ s, P s → E s) : Exact P (r = .ok ()) (Hoare.lift r) (fun _ => P) E :=
  Triple.lift (fun _ _ hr hs => ⟨hr, hs⟩) fun _ s hr hs => ⟨fun hok => by simp [hr] at hok, h s hs⟩

/-- A part that a flag turns on. -/
theorem ite_pure {b : Bool} {x : EStateM ε σ Unit} (h : Exact P p x (fun _ => P) E) :
    Exact P (b = true → p) (if b then x else Pure.pure ()) (fun _ => P) E := by
  refine .ite (fun hb => ?_) fun hb => Triple.pure _ fun s hs => ⟨fun hb' => absurd hb' hb, hs⟩
  exact congr h ⟨fun hp _ => hp, fun hp => hp hb⟩

/-- A loop ends when all its rounds do. -/
theorem repeatFor {n : Nat} {p : Nat → Prop} {body : Nat → EStateM ε σ Unit}
    (h : ∀ i < n, Exact P (p i) (body i) (fun _ => P) E) :
    Exact P (∀ i < n, p i) (repeatFor n body) (fun _ => P) E := by
  induction n with
  | zero => exact fun s hs => ⟨fun i hi => absurd hi (Nat.not_lt_zero i), hs⟩
  | succ n ih =>
    refine congr (bind (ih fun i hi => h i (Nat.lt_succ_of_lt hi)) fun _ => h n (Nat.lt_succ_self n)) ?_
    constructor
    · rintro ⟨hall, hlast⟩ i hi
      rcases Nat.lt_succ_iff_lt_or_eq.mp hi with hi | rfl
      · exact hall i hi
      · exact hlast
    · exact fun hall => ⟨fun i hi => hall i (Nat.lt_succ_of_lt hi), hall n (Nat.lt_succ_self n)⟩

end Exact
end Hoare
