/-
  Computations over a state that can stop in three ways.

  An error that is reported (`err`) is handled by the caller, who goes on with the state
  as it was left. A critical error ends the whole run. A panic is a failed assertion.

  `Holds m s Q R`: run from the state `s`, the computation `m` reaches no failed
  assertion, a value it returns satisfies `Q` and an error it reports satisfies `R`, each
  with the state it is left in. Of a critical error nothing is said. The rules below take a
  computation apart along its binds; a loop is an induction over what it runs through.
-/
import Mathlib.Tactic.TypeStar

namespace Rollback

inductive Outcome (C E α : Type) where
  | ok (a : α)
  | err (e : E)
  | critical (c : C)
  | panic (msg : String)

namespace Outcome

variable {C E α : Type}

def isOk : Outcome C E α → Bool
  | ok _ => true
  | _ => false

def isErr : Outcome C E α → Bool
  | err _ => true
  | _ => false

variable {σ : Type}

theorem exists_of_isOk {out : Outcome C E α × σ} (h : out.1.isOk = true) :
    ∃ a, out = (ok a, out.2) := by
  obtain ⟨out, s⟩ := out
  cases out with
  | ok a => exact ⟨a, rfl⟩
  | _ => cases h

theorem exists_of_isErr {out : Outcome C E α × σ} (h : out.1.isErr = true) :
    ∃ e, out = (err e, out.2) := by
  obtain ⟨out, s⟩ := out
  cases out with
  | err e => exact ⟨e, rfl⟩
  | _ => cases h

end Outcome

/-- A computation over the state `σ`, with critical errors `C` and reported errors `E`. -/
def Exec (σ C E α : Type) : Type := σ → Outcome C E α × σ

namespace Exec

variable {σ C E E' α β : Type}

def andThen (m : Exec σ C E α) (k : α → Exec σ C E β) : Exec σ C E β := fun s =>
  match m s with
  | (.ok a, s) => k a s
  | (.err e, s) => (.err e, s)
  | (.critical c, s) => (.critical c, s)
  | (.panic msg, s) => (.panic msg, s)

instance : Monad (Exec σ C E) where
  pure a := fun s => (.ok a, s)
  bind := andThen

/-- Report an error. -/
def fail (e : E) : Exec σ C E α := fun s => (.err e, s)

/-- End the run. -/
def abort (c : C) : Exec σ C E α := fun s => (.critical c, s)

/-- A failed assertion. -/
def crash (msg : String) : Exec σ C E α := fun s => (.panic msg, s)

def getState : Exec σ C E σ := fun s => (.ok s, s)

def setState (s : σ) : Exec σ C E Unit := fun _ => (.ok (), s)

/-- Run `m` and hand an error it reports to the caller as a value. -/
def attempt (m : Exec σ C E α) : Exec σ C E' (Except E α) := fun s =>
  match m s with
  | (.ok a, s) => (.ok (.ok a), s)
  | (.err e, s) => (.ok (.error e), s)
  | (.critical c, s) => (.critical c, s)
  | (.panic msg, s) => (.panic msg, s)

/-- Report the error of a result. -/
def ofExcept : Except E α → Exec σ C E α
  | .ok a => pure a
  | .error e => fail e

/-- End the run with the error of a result. -/
def orAbort : Except C α → Exec σ C E α
  | .ok a => pure a
  | .error c => abort c

/-- Assert that a value is there. -/
def unwrap : Option α → Exec σ C E α
  | some a => pure a
  | none => crash "called `Option::unwrap()` on a `None` value"

/-- Report the errors of `m` in another form. -/
def mapErr (f : E → E') (m : Exec σ C E α) : Exec σ C E' α := fun s =>
  match m s with
  | (.ok a, s) => (.ok a, s)
  | (.err e, s) => (.err (f e), s)
  | (.critical c, s) => (.critical c, s)
  | (.panic msg, s) => (.panic msg, s)

/-- Report critical errors too. -/
def report {C' : Type} (onErr : E → E') (onCritical : C → E') (m : Exec σ C E α) :
    Exec σ C' E' α := fun s =>
  match m s with
  | (.ok a, s) => (.ok a, s)
  | (.err e, s) => (.err (onErr e), s)
  | (.critical c, s) => (.err (onCritical c), s)
  | (.panic msg, s) => (.panic msg, s)

/-- Run `m` on a part of the state. -/
def zoom {τ : Type} (get : τ → σ) (set : σ → τ → τ) (m : Exec σ C E α) : Exec τ C E α := fun t =>
  match m (get t) with
  | (out, s) => (out, set s t)

/-! ## Pre- and postconditions -/

/-- No assertion fails, values end in `Q` and reported errors in `R`. -/
def Holds (m : Exec σ C E α) (s : σ) (Q : α → σ → Prop) (R : E → σ → Prop) : Prop :=
  match m s with
  | (.ok a, s') => Q a s'
  | (.err e, s') => R e s'
  | (.critical _, _) => True
  | (.panic _, _) => False

variable {m : Exec σ C E α} {k : α → Exec σ C E β} {s s' : σ} {Q Q' : α → σ → Prop}
  {P : β → σ → Prop} {R R' : E → σ → Prop}

theorem Holds.mono (h : m.Holds s Q R) (hQ : ∀ a s', Q a s' → Q' a s')
    (hR : ∀ e s', R e s' → R' e s') : m.Holds s Q' R' := by
  unfold Holds at h ⊢
  generalize m s = out at h ⊢
  obtain ⟨_ | _ | _ | _, _⟩ := out
  · exact hQ _ _ h
  · exact hR _ _ h
  · trivial
  · exact h

theorem Holds.imp (h : m.Holds s Q R) (hQ : ∀ a s', Q a s' → Q' a s') : m.Holds s Q' R :=
  h.mono hQ fun _ _ he => he

theorem Holds.and (h : m.Holds s Q R) (h' : m.Holds s Q' R') :
    m.Holds s (fun a s' => Q a s' ∧ Q' a s') fun e s' => R e s' ∧ R' e s' := by
  unfold Holds at *
  generalize m s = out at *
  obtain ⟨_ | _ | _ | _, _⟩ := out
  · exact ⟨h, h'⟩
  · exact ⟨h, h'⟩
  · trivial
  · exact h

/-! What a run that is known to have ended shows. -/

variable {a : α} {e : E}

theorem Holds.of_ok (h : m.Holds s Q R) (hm : m s = (.ok a, s')) : Q a s' := by
  rwa [Holds, hm] at h

theorem Holds.of_err (h : m.Holds s Q R) (hm : m s = (.err e, s')) : R e s' := by
  rwa [Holds, hm] at h

/-! One rule for each way to build a computation. -/

theorem Holds.pure (h : Q a s) : Holds (pure a : Exec σ C E α) s Q R := h

theorem Holds.fail (h : R e s) : Holds (fail e : Exec σ C E α) s Q R := h

theorem Holds.abort {c : C} : Holds (abort c : Exec σ C E α) s Q R := trivial

theorem Holds.getState {Q : σ → σ → Prop} (h : Q s s) : Holds (getState : Exec σ C E σ) s Q R := h

/-- A sequence holds when its rest holds wherever its first part ends. -/
theorem Holds.bind (h : m.Holds s (fun a s' => (k a).Holds s' P R) R) : Holds (m >>= k) s P R := by
  change (andThen m k).Holds s P R
  unfold Holds andThen at *
  revert h
  rcases m s with ⟨_ | _ | _ | _, _⟩ <;> exact id

variable {R' : E' → σ → Prop}

theorem Holds.attempt {Q : Except E α → σ → Prop}
    (h : m.Holds s (fun a s' => Q (.ok a) s') (fun e s' => Q (.error e) s')) :
    Holds (attempt m : Exec σ C E' (Except E α)) s Q R' := by
  unfold Holds Exec.attempt at *
  revert h
  rcases m s with ⟨_ | _ | _ | _, _⟩ <;> exact id

theorem Holds.mapErr {f : E → E'}
    (h : m.Holds s Q (fun e s' => R' (f e) s')) : (mapErr f m).Holds s Q R' := by
  unfold Holds Exec.mapErr at *
  revert h
  rcases m s with ⟨_ | _ | _ | _, _⟩ <;> exact id

theorem Holds.report {C' : Type} {onErr : E → E'} {onCritical : C → E'}
    (h : m.Holds s Q fun e s' => R' (onErr e) s') (hc : ∀ c s', R' (onCritical c) s') :
    (report onErr onCritical m : Exec σ C' E' α).Holds s Q R' := by
  unfold Holds Exec.report at *
  generalize m s = out at h ⊢
  obtain ⟨_ | _ | _ | _, _⟩ := out
  · exact h
  · exact h
  · exact hc ..
  · exact h

theorem Holds.ofExcept {x : Except E α} (hok : ∀ a, x = .ok a → Q a s)
    (herr : ∀ e, x = .error e → R e s) : Holds (ofExcept x : Exec σ C E α) s Q R := by
  cases x with
  | ok a => exact hok a rfl
  | error e => exact herr e rfl

theorem Holds.orAbort {x : Except C α} (hok : ∀ a, x = .ok a → Q a s) :
    Holds (orAbort x : Exec σ C E α) s Q R := by
  cases x with
  | ok a => exact hok a rfl
  | error c => trivial

/-! ## What a computation that returned has done -/

section Returned

variable {a : α} {b b' : β} {s'' : σ}

@[simp]
theorem pure_eq_ok : (pure b : Exec σ C E β) s = (.ok b', s') ↔ b = b' ∧ s = s' := by
  change (Outcome.ok b, s) = _ ↔ _
  simp

@[simp]
theorem bind_eq_ok : (m >>= k) s = (.ok b, s'') ↔
    ∃ a s', m s = (.ok a, s') ∧ k a s' = (.ok b, s'') := by
  change andThen m k s = _ ↔ _
  unfold andThen
  rcases m s with ⟨_ | _ | _ | _, s'⟩ <;> simp [and_assoc]

@[simp]
theorem fail_ne_ok {e : E} : (fail e : Exec σ C E α) s ≠ (.ok a, s') := by
  simp [fail]

@[simp]
theorem crash_ne_ok {msg : String} : (crash msg : Exec σ C E α) s ≠ (.ok a, s') := by
  simp [crash]

variable {r : σ}

@[simp]
theorem getState_eq_ok : (getState : Exec σ C E σ) s = (.ok r, s') ↔ s = r ∧ s = s' := by
  simp [getState]

@[simp]
theorem setState_eq_ok {u : Unit} : (setState r : Exec σ C E Unit) s = (.ok u, s') ↔ r = s' := by
  simp [setState]

@[simp]
theorem ofExcept_eq_ok {x : Except E α} :
    (ofExcept x : Exec σ C E α) s = (.ok a, s') ↔ x = .ok a ∧ s = s' := by
  cases x with
  | ok a | error e => simp [ofExcept]

@[simp]
theorem unwrap_eq_ok {x : Option α} :
    (unwrap x : Exec σ C E α) s = (.ok a, s') ↔ x = some a ∧ s = s' := by
  cases x with
  | some a | none => simp [unwrap]

@[simp]
theorem mapErr_eq_ok {f : E → E'} : mapErr f m s = (.ok a, s') ↔ m s = (.ok a, s') := by
  unfold mapErr
  rcases m s with ⟨_ | _ | _ | _, _⟩ <;> simp

@[simp]
theorem report_eq_ok {C' : Type} {onErr : E → E'} {onCritical : C → E'} :
    (report onErr onCritical m : Exec σ C' E' α) s = (.ok a, s') ↔ m s = (.ok a, s') := by
  unfold report
  rcases m s with ⟨_ | _ | _ | _, _⟩ <;> simp

theorem attempt_eq_ok {r : Except E α} :
    (attempt m : Exec σ C E' (Except E α)) s = (.ok r, s') ↔
      (∃ a, m s = (.ok a, s') ∧ r = .ok a) ∨ ∃ e, m s = (.err e, s') ∧ r = .error e := by
  unfold attempt
  rcases m s with ⟨_ | _ | _ | _, _⟩ <;> simp [and_assoc]
  all_goals exact ⟨fun ⟨h, h'⟩ => ⟨h', h.symm⟩, fun ⟨h, h'⟩ => ⟨h'.symm, h⟩⟩

@[simp]
theorem zoom_eq_ok {τ : Type} {get : τ → σ} {set : σ → τ → τ} {t t' : τ} :
    zoom get set m t = (.ok a, t') ↔ ∃ s', m (get t) = (.ok a, s') ∧ set s' t = t' := by
  unfold zoom
  rcases m (get t) with ⟨_ | _ | _ | _, _⟩ <;> simp [and_assoc]

end Returned

/-! ## Where a computation that reported an error did so -/

section Reported

variable {a : α} {e d : E} {e' : E'} {s'' r : σ}

@[simp]
theorem pure_ne_err : (pure a : Exec σ C E α) s ≠ (.err e, s') := by
  change (Outcome.ok a, s) ≠ _
  simp

@[simp]
theorem bind_eq_err : (m >>= k) s = (.err e, s'') ↔
    m s = (.err e, s'') ∨ ∃ a s', m s = (.ok a, s') ∧ k a s' = (.err e, s'') := by
  change andThen m k s = _ ↔ _
  unfold andThen
  rcases m s with ⟨_ | _ | _ | _, s'⟩ <;> simp [and_assoc]

@[simp]
theorem fail_eq_err : (fail d : Exec σ C E α) s = (.err e, s') ↔ d = e ∧ s = s' := by
  simp [fail]

@[simp]
theorem getState_ne_err : (getState : Exec σ C E σ) s ≠ (.err e, s') := by
  simp [getState]

@[simp]
theorem setState_ne_err : (setState r : Exec σ C E Unit) s ≠ (.err e, s') := by
  simp [setState]

@[simp]
theorem ofExcept_eq_err {x : Except E α} :
    (ofExcept x : Exec σ C E α) s = (.err e, s') ↔ x = .error e ∧ s = s' := by
  cases x with
  | ok a | error e => simp [ofExcept]

@[simp]
theorem attempt_ne_err : (attempt m : Exec σ C E' (Except E α)) s ≠ (.err e', s') := by
  unfold attempt
  rcases m s with ⟨_ | _ | _ | _, _⟩ <;> simp

@[simp]
theorem mapErr_eq_err {f : E → E'} :
    mapErr f m s = (.err e', s') ↔ ∃ e, m s = (.err e, s') ∧ f e = e' := by
  unfold mapErr
  rcases m s with ⟨_ | _ | _ | _, _⟩ <;> simp [and_assoc]
  exact and_comm

theorem report_eq_err {C' : Type} {onErr : E → E'} {onCritical : C → E'} :
    (report onErr onCritical m : Exec σ C' E' α) s = (.err e', s') ↔
      (∃ e, m s = (.err e, s') ∧ onErr e = e') ∨
        ∃ c, m s = (.critical c, s') ∧ onCritical c = e' := by
  unfold report
  rcases m s with ⟨_ | _ | _ | _, _⟩ <;> simp [and_assoc]
  all_goals exact and_comm

@[simp]
theorem zoom_eq_err {τ : Type} {get : τ → σ} {set : σ → τ → τ} {t t' : τ} :
    zoom get set m t = (.err e, t') ↔ ∃ s', m (get t) = (.err e, s') ∧ set s' t = t' := by
  unfold zoom
  rcases m (get t) with ⟨_ | _ | _ | _, _⟩ <;> simp [and_assoc]

end Reported

/-! ## Invariants

  `Ends m s P`: however `m` ends, it leaves a state that satisfies `P`. -/

def Ends (m : Exec σ C E α) (s : σ) (P : σ → Prop) : Prop := P (m s).2

section Invariants

variable {P : σ → Prop}

theorem Ends.of_eq {out : Outcome C E α} (h : m.Ends s P) (hm : m s = (out, s')) : P s' := by
  rwa [Ends, hm] at h

variable {a : α} {x : Except E α} {τ : Type}

theorem Ends.pure (h : P s) : Ends (pure a : Exec σ C E α) s P := h

theorem Ends.fail {e : E} (h : P s) : Ends (fail e : Exec σ C E α) s P := h

theorem Ends.getState (h : P s) : Ends (getState : Exec σ C E σ) s P := h

theorem Ends.ofExcept (h : P s) : Ends (ofExcept x : Exec σ C E α) s P := by
  cases x with
  | ok a | error e => exact h

/-- The rest of a sequence runs only where its first part returned. -/
theorem Ends.bind (h : m.Ends s P)
    (hk : ∀ a s', m s = (.ok a, s') → (k a).Ends s' P) : Ends (m >>= k) s P := by
  change P (andThen m k s).2
  unfold Ends at h hk
  unfold andThen
  generalize m s = out at h hk
  obtain ⟨a | _ | _ | _, s'⟩ := out
  · exact hk a s' rfl
  all_goals exact h

theorem Ends.getState_bind {k : σ → Exec σ C E β} (h : (k s).Ends s P) :
    Ends (Exec.getState >>= k) s P :=
  h

theorem Ends.setState_bind {k : Unit → Exec σ C E β} (h : (k ()).Ends s' P) :
    Ends (setState s' >>= k) s P :=
  h

theorem Ends.ofExcept_bind (h : P s) (hk : ∀ a, x = .ok a → (k a).Ends s P) :
    Ends (Exec.ofExcept x >>= k) s P := by
  cases x with
  | ok a => exact hk a rfl
  | error e => exact h

theorem Ends.unwrap_bind {x : Option α} (h : P s) (hk : ∀ a, x = some a → (k a).Ends s P) :
    Ends (Exec.unwrap x >>= k) s P := by
  cases x with
  | some a => exact hk a rfl
  | none => exact h

theorem Ends.attempt (h : m.Ends s P) : (attempt m : Exec σ C E' (Except E α)).Ends s P := by
  unfold Ends Exec.attempt at *
  revert h
  rcases m s with ⟨_ | _ | _ | _, _⟩ <;> exact id

theorem Ends.report {C' : Type} {onErr : E → E'} {onCritical : C → E'} (h : m.Ends s P) :
    (report onErr onCritical m : Exec σ C' E' α).Ends s P := by
  unfold Ends Exec.report at *
  revert h
  rcases m s with ⟨_ | _ | _ | _, _⟩ <;> exact id

theorem Ends.mapErr {g : E → E'} (h : m.Ends s P) : (mapErr g m : Exec σ C E' α).Ends s P := by
  unfold Ends Exec.mapErr at *
  revert h
  rcases m s with ⟨_ | _ | _ | _, _⟩ <;> exact id

theorem Ends.zoom {get : τ → σ} {set : σ → τ → τ} {t : τ} {P : τ → Prop}
    (h : m.Ends (get t) fun s' => P (set s' t)) : (zoom get set m).Ends t P :=
  h

/-- If `m` does not return, it leaves a state that satisfies `P`. -/
def Stops (m : Exec σ C E α) (s : σ) (P : σ → Prop) : Prop := (m s).1.isOk = false → P (m s).2

theorem Stops.of_ends (h : m.Ends s P) : m.Stops s P := fun _ => h

theorem Ends.of_stops (hok : ∀ a s', m s = (.ok a, s') → P s') (hstop : m.Stops s P) :
    m.Ends s P := by
  unfold Stops at hstop
  unfold Ends
  generalize m s = out at hok hstop
  obtain ⟨a | _ | _ | _, s'⟩ := out
  · exact hok a s' rfl
  all_goals exact hstop rfl

theorem Ends.mono {Q : σ → Prop} (h : m.Ends s P) (hPQ : ∀ s', P s' → Q s') : m.Ends s Q := hPQ _ h

theorem Stops.of_eq_ok (h : m s = (.ok a, s')) : m.Stops s P := by
  intro hstop
  rw [h] at hstop
  cases hstop

theorem Stops.bind (h : m.Stops s P)
    (hk : ∀ a s', m s = (.ok a, s') → (k a).Stops s' P) : Stops (m >>= k) s P := by
  change (andThen m k s).1.isOk = false → P (andThen m k s).2
  unfold Stops at h hk
  unfold andThen
  generalize m s = out at h hk
  obtain ⟨a | _ | _ | _, s'⟩ := out
  · exact hk a s' rfl
  all_goals exact h

theorem Stops.zoom {get : τ → σ} {set : σ → τ → τ} {t : τ} {P : τ → Prop}
    (h : m.Stops (get t) fun s' => P (set s' t)) : (zoom get set m).Stops t P :=
  h

/-- However a sequence ends: its first part did not return, or the rest ended. -/
theorem Stops.ends_bind (h : m.Stops s P)
    (hk : ∀ a s', m s = (.ok a, s') → (k a).Ends s' P) : Ends (m >>= k) s P := by
  change P (andThen m k s).2
  unfold Stops at h
  unfold andThen
  generalize m s = out at h hk
  obtain ⟨a | _ | _ | _, s'⟩ := out
  · exact hk a s' rfl
  all_goals exact h rfl

end Invariants

end Exec

end Rollback
