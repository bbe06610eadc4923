/-!
Runs of a system by calls from outside. Which calls may be made can depend on what has happened
before, so a run carries its history. What holds at the start and is kept by every call holds in all
states of a run.
-/

namespace LmdGhost

/-- A call, with the state in which it was made. -/
structure Event (σ κ : Type) where
  before : σ
  call : κ

/-- The states that allowed calls lead to, each with the calls that led there, latest first. -/
inductive Run (next : σ → κ → σ) (allowed : List (Event σ κ) → σ → κ → Prop) (init : σ) :
    List (Event σ κ) → σ → Prop where
  | start : Run next allowed init [] init
  | call : Run next allowed init history state → (call : κ) → allowed history state call →
      Run next allowed init (⟨state, call⟩ :: history) (next state call)

namespace Run

variable {next : σ → κ → σ} {allowed : List (Event σ κ) → σ → κ → Prop} {init : σ}

theorem invariant {P : List (Event σ κ) → σ → Prop} (initial : P [] init)
    (kept : ∀ {history state call}, P history state → allowed history state call →
      P (⟨state, call⟩ :: history) (next state call))
    (run : Run next allowed init history state) : P history state := by
  induction run with
  | start => exact initial
  | call _ _ permitted ih => exact kept ih permitted

/-- All calls of a run were allowed. -/
theorem allowed_of_mem {event : Event σ κ} (run : Run next allowed init history state)
    (member : event ∈ history) : ∃ earlier, allowed earlier event.before event.call := by
  induction run with
  | start => contradiction
  | call _ _ permitted ih =>
    rcases List.mem_cons.mp member with rfl | member
    · exact ⟨_, permitted⟩
    · exact ih member

/-- A run goes on with any calls if all calls are allowed. -/
theorem calls (run : Run next (fun _ _ _ => True) init history state) (calls : List κ) :
    ∃ history, Run next (fun _ _ _ => True) init history (calls.foldl next state) := by
  induction calls generalizing history state with
  | nil => exact ⟨history, run⟩
  | cons call calls ih => exact ih (run.call call trivial)

end Run

end LmdGhost
