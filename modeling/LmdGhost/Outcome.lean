import LmdGhost.Notice
/-!
What an operation leaves behind: its result, the state it ends in and the notices it gave. An
operation that fails may have changed the state before, so the state is there in both cases.
Operations follow one another by `bind`, which stops at the first failure.
-/

namespace LmdGhost

structure Outcome (σ ε α : Type) where
  result : Except ε α
  state : σ
  log : List Notice := []

namespace Outcome

variable {σ τ ε ε' α β : Type}

/-- An operation that succeeds. -/
def done (state : σ) (value : α) : Outcome σ ε α :=
  { result := .ok value, state }

/-- An operation that fails. -/
def fail (state : σ) (cause : ε) : Outcome σ ε α :=
  { result := .error cause, state }

/-- Goes on with the state and the value of an operation that succeeded. -/
def bind (first : Outcome σ ε α) (next : σ → α → Outcome σ ε β) : Outcome σ ε β :=
  match first.result with
  | .ok value =>
    let second := next first.state value
    { second with log := first.log ++ second.log }
  | .error cause => { result := .error cause, state := first.state, log := first.log }

/-- An operation on a part, as an operation on the whole. -/
def lift (put : σ → τ) (cause : ε → ε') (part : Outcome σ ε α) : Outcome τ ε' α :=
  { result := part.result.mapError cause, state := put part.state, log := part.log }

/-- Adds notices that follow those given so far. -/
def report (outcome : Outcome σ ε α) (notices : List Notice) : Outcome σ ε α :=
  { outcome with log := outcome.log ++ notices }

@[simp]
theorem bind_done (state : σ) (value : α) (next : σ → α → Outcome σ ε β) :
    (done state value).bind next = next state value := by
  simp [bind, done]

@[simp]
theorem bind_fail (state : σ) (cause : ε) (next : σ → α → Outcome σ ε β) :
    (fail state cause).bind next = fail state cause := by
  simp [bind, fail]

end Outcome

end LmdGhost
