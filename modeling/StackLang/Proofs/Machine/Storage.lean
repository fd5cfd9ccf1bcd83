import StackLang.Proofs.Executable.Routines
import StackLang.Proofs.Machine.Advance

/-!
# What the active frames hold of the variables

The variables of all active frames lie one behind the other, in the order of the frames, and the
places of a scope's instances are those where the frames of its functions begin. `Holds e frames size
instances` says of some frames how many variables they hold and which places they make; both follow
from the frames alone (`Holds.unique`). `kept_of_visits`: in every run of an executable whose functions
carry their places as their ids, the state's own variables and places are what its frames hold.
-/

namespace StackLang

open RunM

namespace Executable

/-- Active frames, the innermost first, hold so many variables and make these places. -/
inductive Holds (e : Executable) : List Frame → Nat → Array (List Nat) → Prop
  | nil : Holds e [] 0 (Array.replicate e.scopeCount [])
  | cons {frame : Frame} {frames : List Frame} {r : Routine} {instances : Array (List Nat)}
      (hr : e.routine? frame.function = some r) (h : Holds e frames frame.varsBase instances) :
      Holds e (frame :: frames) (frame.varsBase + r.locals)
        (enterInstances frame.varsBase r.layout instances)

namespace Holds

variable {e : Executable} {frames : List Frame} {size size' : Nat}
  {instances instances' : Array (List Nat)}

theorem unique (h : Holds e frames size instances) (h' : Holds e frames size' instances') :
    size = size' ∧ instances = instances' := by
  induction h generalizing size' instances' with
  | nil =>
    cases h'
    exact ⟨rfl, rfl⟩
  | cons hr _ ih =>
    cases h' with
    | cons hr' h' =>
      obtain rfl := Option.some.inj (hr.symm.trans hr')
      obtain ⟨-, rfl⟩ := ih h'
      exact ⟨rfl, rfl⟩

/-- Where a frame is to go on does not matter. -/
theorem congr {frame : Frame} (h : Holds e (frame :: frames) size instances) (ip : Nat) :
    Holds e ({ frame with returnIp := ip } :: frames) size instances := by
  cases h with
  | cons hr h => exact @Holds.cons e { frame with returnIp := ip } _ _ _ hr h

end Holds

end Executable

open Executable

variable {σ : Type} {env : Env σ} {vars : List HostVar} {sink : Sink} {host : σ}

/-- The variables and the places of a state are what its frames hold. -/
def State.Kept (e : Executable) (s : State σ) : Prop := e.Holds s.frames s.vars.size s.instances

theorem State.Framed.kept {e : Executable} {s s' : State σ} (h : s.Framed s') (hs : s.Kept e) :
    s'.Kept e := by
  unfold Kept
  rw [h.frames, h.vars, h.instances]
  exact hs

theorem State.Kept.entered {e : Executable} {s : State σ} (hids : e.IdsArePlaces) (hs : s.Kept e)
    {id : UInt16} {r : Routine} (hr : e.routine? id = some r) : (s.entered r).Kept e := by
  unfold Kept
  simp only [State.entered, Array.size_append, Array.size_replicate]
  exact @Holds.cons e ⟨r.id, 0, s.stack.size - r.arity, s.vars.size⟩ _ _ _ (hids.routine? hr) hs

/-- Where every function carries its place as its id, the innermost frame names the function that is
running. -/
theorem routine_of_visits (hids : env.exe.IdsArePlaces) {c : Cursor} {s : State σ}
    (hv : Visits env vars sink host c s) :
    ∃ frame, s.frames.head? = some frame ∧ env.exe.routine? frame.function = some c.routine := by
  induction hv with
  | start h =>
    have hstart := started h
    exact ⟨_, by rw [hstart.framed.frames]; rfl, hids.routine?_of_top? hstart.top⟩
  | advance _ h ih =>
    cases advances_of_advance h with
    | next hi hstep => rwa [(framed_of_stepInstr hstep).frames]
    | call hi hid hr hfits => exact ⟨_, rfl, hids.routine? hr⟩
    | ret hi hop hframes hr _ => exact ⟨_, rfl, hr⟩

theorem StartsAt.kept (hids : env.exe.IdsArePlaces) {c : Cursor} {s : State σ}
    (h : StartsAt env sink host c s) : s.Kept env.exe := by
  have hinitial : (initial env.exe sink host).Kept env.exe := .nil
  exact h.framed.kept (hinitial.entered hids (hids.routine?_of_top? h.top))

/-- An instruction that succeeds keeps the books. -/
theorem Advances.kept (hids : env.exe.IdsArePlaces) {c c' : Cursor} {s s' : State σ}
    (ha : Advances env c s c' s') {frame : Frame} (hhead : s.frames.head? = some frame)
    (hr : env.exe.routine? frame.function = some c.routine) (h : s.Kept env.exe) :
    s'.Kept env.exe := by
  obtain ⟨frames, hframes⟩ := List.head?_eq_some_iff.mp hhead
  cases ha with
  | next hi hstep => exact (framed_of_stepInstr hstep).kept h
  | @call i id callee hi hid hcallee hfits =>
    refine State.Kept.entered hids ?_ hcallee
    unfold State.Kept at *
    rw [paused_of_frames (s := { s with steps := s.steps + 1 }) hframes]
    rw [hframes] at h
    exact h.congr i.next
  | @ret i frame' caller frames' r' hi hop hframes' hr' hvalue =>
    obtain ⟨rfl, rfl⟩ : frame = frame' ∧ frames = caller :: frames' :=
      List.cons.inj (hframes.symm.trans hframes')
    unfold State.Kept at *
    rw [hframes] at h
    generalize hsize : s.vars.size = size at h ⊢
    generalize s.instances = instances at h ⊢
    cases h with
    | @cons _ _ r _ hr'' h =>
      obtain rfl := Option.some.inj (hr.symm.trans hr'')
      have hbase : min frame.varsBase s.vars.size = frame.varsBase := by omega
      simp only [State.left, Array.size_shrink, hbase]
      change env.exe.Holds (caller :: frames') frame.varsBase
        (leaveInstances c.routine.layout (enterInstances _ _ _))
      rw [leaveInstances_enterInstances]
      exact h

/-- **The variables and the places of every state of a run are what its frames hold.** -/
theorem kept_of_visits (hids : env.exe.IdsArePlaces) {c : Cursor} {s : State σ}
    (hv : Visits env vars sink host c s) : s.Kept env.exe := by
  induction hv with
  | start h => exact (started h).kept hids
  | advance hv h ih =>
    obtain ⟨frame, hhead, hr⟩ := routine_of_visits hids hv
    exact (advances_of_advance h).kept hids hhead hr ih

end StackLang
