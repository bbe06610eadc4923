import LmdGhost.Outcome
/-!
How the result and the state of a sequence of operations follow from those of its parts.
-/

namespace LmdGhost

theorem except_bind_eq_ok {α β ε : Type} {first : Except ε α} {next : α → Except ε β} {b : β} :
    first >>= next = .ok b ↔ ∃ a, first = .ok a ∧ next a = .ok b := by
  cases first with
  | error cause => simp [bind, Except.bind]
  | ok a => simp [bind, Except.bind]

theorem except_bind_eq_error {α β ε : Type} {first : Except ε α} {next : α → Except ε β}
    {cause : ε} : first >>= next = .error cause ↔
      first = .error cause ∨ ∃ a, first = .ok a ∧ next a = .error cause := by
  cases first with
  | error cause => simp [bind, Except.bind]
  | ok a => simp [bind, Except.bind]

namespace Outcome

variable {σ τ ε ε' α β : Type}

def cause? (outcome : Outcome σ ε α) : Option ε :=
  match outcome.result with
  | .ok _ => none
  | .error cause => some cause

theorem cause?_eq_some {outcome : Outcome σ ε α} {cause : ε} :
    outcome.cause? = some cause ↔ outcome.result = .error cause := by
  rw [cause?]
  cases outcome.result <;> simp

@[simp]
theorem result_done (state : σ) (value : α) :
    (done state value : Outcome σ ε α).result = .ok value :=
  rfl

@[simp]
theorem state_done (state : σ) (value : α) : (done state value : Outcome σ ε α).state = state :=
  rfl

@[simp]
theorem result_fail (state : σ) (cause : ε) :
    (fail state cause : Outcome σ ε α).result = .error cause :=
  rfl

@[simp]
theorem state_fail (state : σ) (cause : ε) : (fail state cause : Outcome σ ε α).state = state :=
  rfl

@[simp]
theorem result_report (outcome : Outcome σ ε α) (notices : List Notice) :
    (outcome.report notices).result = outcome.result :=
  rfl

@[simp]
theorem state_report (outcome : Outcome σ ε α) (notices : List Notice) :
    (outcome.report notices).state = outcome.state :=
  rfl

@[simp]
theorem result_lift (put : σ → τ) (cause : ε → ε') (part : Outcome σ ε α) :
    (part.lift put cause).result = part.result.mapError cause :=
  rfl

@[simp]
theorem state_lift (put : σ → τ) (cause : ε → ε') (part : Outcome σ ε α) :
    (part.lift put cause).state = put part.state :=
  rfl

theorem result_bind_of_ok {first : Outcome σ ε α} (next : σ → α → Outcome σ ε β)
    (h : first.result = .ok a) : (first.bind next).result = (next first.state a).result := by
  simp only [bind, h]

theorem state_bind_of_ok {first : Outcome σ ε α} (next : σ → α → Outcome σ ε β)
    (h : first.result = .ok a) : (first.bind next).state = (next first.state a).state := by
  simp only [bind, h]

theorem result_bind_of_error {first : Outcome σ ε α} (next : σ → α → Outcome σ ε β)
    (h : first.result = .error cause) : (first.bind next).result = .error cause := by
  simp only [bind, h]

theorem state_bind_of_error {first : Outcome σ ε α} (next : σ → α → Outcome σ ε β)
    (h : first.result = .error cause) : (first.bind next).state = first.state := by
  simp only [bind, h]

theorem bind_eq_ok_iff {first : Outcome σ ε α} {next : σ → α → Outcome σ ε β} :
    (first.bind next).result = .ok b ↔
      ∃ a, first.result = .ok a ∧ (next first.state a).result = .ok b := by
  cases h : first.result with
  | error cause => simp [result_bind_of_error next h]
  | ok a => simp [result_bind_of_ok next h]

/-- What the first operation leaves behind and the second one keeps holds at the end. -/
theorem state_bind {P : σ → Prop} {first : Outcome σ ε α} {next : σ → α → Outcome σ ε β}
    (left : P first.state) (kept : ∀ a, first.result = .ok a → P (next first.state a).state) :
    P (first.bind next).state := by
  cases h : first.result with
  | error cause => rwa [state_bind_of_error next h]
  | ok a =>
    rw [state_bind_of_ok next h]
    exact kept a h

theorem eq_ok_get {result : Except ε α} (ok : result.toOption.isSome = true) :
    result = .ok (result.toOption.get ok) := by
  cases result with
  | error cause => contradiction
  | ok a => rfl

@[simp]
theorem mapError_ok (a : α) (cause : ε → ε') :
    (.ok a : Except ε α).mapError cause = .ok a :=
  rfl

@[simp]
theorem mapError_error (error : ε) (cause : ε → ε') :
    (.error error : Except ε α).mapError cause = .error (cause error) :=
  rfl

@[simp]
theorem mapError_eq_ok_iff {result : Except ε α} {cause : ε → ε'} :
    result.mapError cause = .ok a ↔ result = .ok a := by
  cases result <;> simp

@[simp]
theorem mapError_id (result : Except ε α) : result.mapError id = result := by
  cases result <;> rfl

/-- A sequence seen from the whole is the sequence of its parts as seen from the whole. -/
theorem lift_bind {put : σ → τ} {first : Outcome σ ε α} {next : σ → α → Outcome σ ε β}
    (next' : τ → α → Outcome τ ε β)
    (same : ∀ state a, (next state a).lift put id = next' (put state) a) :
    (first.bind next).lift put id = (first.lift put id).bind next' := by
  cases h : first.result with
  | error cause => simp [bind, lift, h]
  | ok a =>
    simp [bind, lift, h, ← same first.state a]

end Outcome

end LmdGhost
