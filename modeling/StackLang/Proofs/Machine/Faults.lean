import StackLang.Proofs.Machine.Bookkeeping
import StackLang.Proofs.Machine.Exchanges
import StackLang.Proofs.Storage.ReadBack

/-!
# Where an instruction fails

An instruction may fail at its operands, on the way into a function or on the way out of one. Each
time the frames are still those of the functions that were active in front of it, so that the fault
names them (`wpRun_advance_failsAt`). Only a call meets the limit of the depth, with as many frames
as the limit allows (`depth_of_visits`). In code that is `Sealed`, control is always where an
instruction begins (`begins_of_visits`).
-/

namespace StackLang

open MachineM (wp)
open Executable RunM

variable {σ : Type} {env : Env σ} {vars : List HostVar} {sink : Sink} {host : σ} {c c' : Cursor}
  {s s' : State σ}

/-! ## Failing steps -/

namespace MachineM

/-- No instruction fails over entering a function, whatever it names. -/
theorem wp_stepInstr_onEntry {code : Code} {offset : Nat} {i : Instr}
    (hi : code.decodeAt offset = .ok i) (s : State σ) :
    wp (stepInstr env i) (fun _ _ => True) (fun trap _ => trap.onEntry = false) s := by
  have hkind := (Code.decodeAt_cases hi).2.1
  by_cases htakes : i.op ≠ .call ∧ ∃ effect, i.Takes env.exe effect
  · obtain ⟨hcall, effect, htakes⟩ := htakes
    exact wp_mono (Exchanges.stepInstr hkind htakes hcall s) (fun _ _ _ => trivial) fun _ _ h => h
  · -- What is left are calls, and calls of the host that name nothing.
    obtain ⟨_, op, operand⟩ := i
    have hnone : ∀ effect, op.effect = some effect → op = .call := fun effect h =>
      by_contra fun hcall => htakes ⟨hcall, effect, .plain h⟩
    cases op with
    | call =>
      cases operand <;> cases hkind
      trivial
    | callNative =>
      cases operand <;> cases hkind
      rename_i id
      cases hn : env.exe.native? id with
      | none =>
        refine (wp_bind _ _).mpr ?_
        unfold stepNative
        rw [hn]
        exact rfl
      | some native => exact absurd ⟨nofun, _, .callNative rfl hn⟩ htakes
    | _ => cases hnone _ rfl

theorem wp_step_onEntry (r : Routine) (ip : Nat) (s : State σ) :
    wp (step env r ip) (fun _ _ => True) (fun trap _ => trap.onEntry = false) s := by
  rw [step, wp_bind]
  refine wp_tick (fun _ _ => rfl) (fun _ _ => rfl) ?_
  cases hi : r.code.decodeAt ip with
  | error e => exact rfl
  | ok i => exact wp_stepInstr_onEntry hi _

/-- Scopes are entered before the frame is made. -/
theorem wp_enterScopes_frames {varsBase : Nat} {layout : List ScopeLayout} {s : State σ} :
    wp (enterScopes varsBase layout) (fun _ s' => s'.frames = s.frames)
      (fun trap s' => (∃ scope, trap = .unknownScope scope) ∧ s'.frames = s.frames) s := by
  induction layout generalizing s with
  | nil => exact rfl
  | cons l layout ih =>
    simp only [enterScopes, wp_bind, wp_get]
    rw [wp_ite]
    exact ⟨fun _ => ⟨⟨_, rfl⟩, rfl⟩, fun _ => ih⟩

/-- A function is entered if the limit leaves room for its frame. Whatever it fails over, the frames
are as they were. -/
theorem wp_enter_depth {config : Config} {r : Routine} {s : State σ} :
    wp (enter config r)
      (fun _ s' => s'.frames.length = s.frames.length + 1 ∧ s.frames.length < config.maxCallDepth)
      (fun trap s' => s'.frames = s.frames ∧ ∀ n name, trap = .callDepth n name →
        n = config.maxCallDepth ∧ config.maxCallDepth ≤ s.frames.length) s := by
  simp only [enter, wp_bind, wp_get]
  rw [wp_ite]
  refine ⟨fun hle => ⟨rfl, ?_⟩, fun hlt => ?_⟩
  · rintro n name ⟨⟩
    exact ⟨rfl, hle⟩
  rw [wp_ite]
  refine ⟨fun _ => ⟨rfl, fun _ _ h => by cases h⟩, fun _ => ?_⟩
  simp only [wp_bind, wp_modify]
  refine wp_mono wp_enterScopes_frames (fun _ s' hframes => ?_) fun trap s' h => ?_
  · rw [hframes]
    exact ⟨rfl, Nat.lt_of_not_le hlt⟩
  · obtain ⟨⟨scope, rfl⟩, hframes⟩ := h
    exact ⟨hframes, fun _ _ h => by cases h⟩

end MachineM

/-! ## Failing instructions -/

/-- The names of the active functions depend on their frames' functions only. -/
theorem activeNames_congr {exe : Executable}
    (h : s'.frames.map (·.function) = s.frames.map (·.function)) :
    activeNames exe s' = activeNames exe s := by
  have hnames : ∀ s : State σ, activeNames exe s = ((s.frames.map (·.function)).reverse.map
      fun id => ((exe.routine? id).map (·.name)).getD "<unknown>").toArray := fun s => by
    rw [activeNames, ← List.map_reverse, List.map_map]
    rfl
  rw [hnames, hnames, h]

/-- The fault of the instruction at the cursor: it names the active functions, and if it is over the
limit of the depth, there are as many of them as the limit says. -/
structure FailsAt (env : Env σ) (c : Cursor) (s : State σ) (fault : Fault) (s' : State σ) :
    Prop where
  frames : s'.frames.map (·.function) = s.frames.map (·.function)
  located : fault = faultAt env.exe c fault.trap s
  depth : ∀ n name, fault.trap = .callDepth n name →
    n = env.config.maxCallDepth ∧ env.config.maxCallDepth ≤ s.frames.length

theorem failsAt_faultAt {trap : Trap} (h : s'.frames.map (·.function) = s.frames.map (·.function))
    (hdepth : ∀ n name, trap = .callDepth n name →
      n = env.config.maxCallDepth ∧ env.config.maxCallDepth ≤ s.frames.length) :
    FailsAt env c s (faultAt env.exe c trap s') s' := by
  refine ⟨h, ?_, hdepth⟩
  rw [faultAt, activeNames_congr h]
  rfl

theorem map_function_paused (s : State σ) (returnIp : Nat) :
    (paused s returnIp).frames.map (·.function) = s.frames.map (·.function) := by
  unfold paused
  split
  · rfl
  · rename_i h
    rw [h]
    rfl

/-- **An instruction that fails says where**, and one that succeeds keeps to the limit of the
depth. -/
theorem wpRun_advance_failsAt (hs : s.Kept env.exe) : wpRun (advance env c)
    (fun _ s' => s.frames.length ≤ env.config.maxCallDepth →
      s'.frames.length ≤ env.config.maxCallDepth) (FailsAt env c s) s := by
  have hkeeps : wp (MachineM.step env c.routine c.ip) (fun _ s' => s.Framed s')
      (fun _ s' => s.Framed s') s :=
    MachineM.Keeps.step (R := framed env.bridge) trivial c.routine c.ip s
  refine wp_advance (MachineM.wp_of_cases (fun flow s₁ h => ?_) fun trap s₁ h => ?_)
  · have hframes : s₁.frames = s.frames := (MachineM.wp_of_ok hkeeps h).frames
    cases flow with
    | next ip => exact fun hle => hframes ▸ hle
    | halt => exact fun hle => hframes ▸ hle
    | call callee returnIp =>
      have hpaused := map_function_paused s₁ returnIp
      rw [hframes] at hpaused
      have hlen : (paused s₁ returnIp).frames.length = s.frames.length := by
        simpa only [List.length_map] using congrArg List.length hpaused
      refine wp_call (fun _ => failsAt_faultAt hpaused nofun) fun r hr => ?_
      refine MachineM.wp_mono MachineM.wp_enter_depth (fun _ s₂ h₂ _ => ?_) fun trap s₂ h₂ => ?_
      · obtain ⟨hlen₂, hlt⟩ := h₂
        omega
      · obtain ⟨hframes₂, hdepth⟩ := h₂
        exact failsAt_faultAt (hframes₂ ▸ hpaused) (hlen ▸ hdepth)
    | ret =>
      refine ⟨fun _ hle => hframes ▸ hle, fun hlen => ?_⟩
      obtain ⟨frame, caller, frames, hframes₁⟩ : ∃ frame caller frames,
          s₁.frames = frame :: caller :: frames := by
        match hframes₁ : s₁.frames with
        | [] => simp [hframes₁] at hlen
        | [_] => simp [hframes₁] at hlen
        | frame :: caller :: frames => exact ⟨frame, caller, frames, rfl⟩
      refine MachineM.wp_leave hframes₁
        (fun _ _ => failsAt_faultAt (congrArg (List.map _) hframes) nofun) fun _ => ?_
      -- The caller's frame is one of the run, so it names a function.
      obtain ⟨r, hr⟩ := Option.isSome_iff_exists.mp
        (Executable.Holds.routine?_isSome hs caller (by rw [← hframes, hframes₁]; simp))
      refine wp_resume rfl hr fun hle => ?_
      rw [← hframes, hframes₁] at hle
      exact Nat.le_of_succ_le hle
  · exact failsAt_faultAt (congrArg (List.map _) (MachineM.wp_of_error hkeeps h).frames)
      fun n name heq => by
        have hentry := MachineM.wp_of_error (MachineM.wp_step_onEntry c.routine c.ip s) h
        rw [heq] at hentry
        cases hentry

/-- **No more functions are active than the limit of the depth allows**, in every state of a run. -/
theorem depth_of_visits (hids : env.exe.IdsArePlaces) (hv : Visits env vars sink host c s) :
    s.frames.length ≤ env.config.maxCallDepth := by
  induction hv with
  | start h =>
    obtain ⟨-, -, t, henter, -⟩ := begun_of_start h
    have hlt := (MachineM.wp_of_ok MachineM.wp_enter_depth henter).2
    rw [(started h).framed.frames]
    exact hlt
  | advance hv h ih =>
    exact wpRun_of_ok (wpRun_advance_failsAt (kept_of_visits hids hv)) h ih

/-! ## Where control is -/

namespace Code

/-- The code ends at `m` with a return or a stop. The instructions in front of it branch only to one
of them or to `m`. -/
structure Sealed (c : Code) (m : Nat) : Prop where
  last : ∃ op, c.Line m [(op, .none)] c.size ∧ (op = .ret ∨ op = .stop)
  line : ∃ line, c.Line 0 line m ∧ ∀ i ∈ line, ∀ t, i.2 = .target t → c.Joint 0 m t

/-- An instruction begins here. -/
def Begins (c : Code) (ip : Nat) : Prop := ∃ m, c.Sealed m ∧ c.Joint 0 m ip

variable {c : Code} {ip m t : Nat} {i : Instr}

theorem Sealed.begins_zero (h : c.Sealed m) : c.Begins 0 := by
  obtain ⟨line, hline, -⟩ := h.line
  exact ⟨m, h, hline.leads.joint_start⟩

/-- The last instruction is the one that ends the function. -/
theorem Sealed.ends (h : c.Sealed m) (hi : c.decodeAt m = .ok i) :
    (i.op = .ret ∨ i.op = .stop) ∧ i.operand = .none := by
  obtain ⟨op, hlast, hop⟩ := h.last
  obtain rfl := Except.ok.inj (hlast.1.symm.trans hi)
  exact ⟨hop, rfl⟩

theorem Begins.next (h : c.Begins ip) (hi : c.decodeAt ip = .ok i) (hret : i.op ≠ .ret)
    (hstop : i.op ≠ .stop) : c.Begins i.next := by
  obtain ⟨m, hm, hjoint⟩ := h
  refine ⟨m, hm, hjoint.next ?_ hi⟩
  rintro rfl
  rcases (hm.ends hi).1 with hop | hop
  · exact hret hop
  · exact hstop hop

theorem Begins.target (h : c.Begins ip) (hi : c.decodeAt ip = .ok i) (ht : i.operand = .target t) :
    c.Begins t := by
  obtain ⟨m, hm, hjoint⟩ := h
  obtain ⟨line, hline, htargets⟩ := hm.line
  refine ⟨m, hm, htargets _ (hjoint.mem_line ?_ hi hline) t ht⟩
  rintro rfl
  cases (hm.ends hi).2.symm.trans ht

/-- What begins there is one of the instructions that the code is read as. -/
theorem Begins.exists_instr (h : c.Begins ip) :
    ∃ instrs i, c.instructions = .ok instrs ∧ i ∈ instrs ∧ i.offset = ip := by
  obtain ⟨m, hm, hjoint⟩ := h
  obtain ⟨line, hline, -⟩ := hm.line
  obtain ⟨op, hlast, -⟩ := hm.last
  have hcode := hline.append hlast
  obtain ⟨instrs, hread, hoffsets, -⟩ := instructionsFrom_of_line hcode #[]
  have hoffset := hjoint.mem_lineOffsets hlast hcode
  rw [← hoffsets] at hoffset
  obtain ⟨i, hi, hip⟩ := List.mem_map.mp hoffset
  rw [Array.empty_append] at hread
  exact ⟨instrs, i, hread, Array.mem_toList_iff.mp hi, hip⟩

end Code

/-- Control is where an instruction begins, and so are the places where the active functions go
on. -/
structure OnInstrs (e : Executable) (c : Cursor) (s : State σ) : Prop where
  cursor : c.routine.code.Begins c.ip
  frames : ∀ frame ∈ s.frames, ∀ r, e.routine? frame.function = some r →
    r.code.Begins frame.returnIp

theorem MachineM.ne_stop_of_next {code : Code} {offset ip : Nat} {i : Instr}
    (hi : code.decodeAt offset = .ok i) (h : stepInstr env i s = .ok (.next ip) s') :
    i.op ≠ .stop := by
  obtain ⟨-, hkind, -⟩ := Code.decodeAt_cases hi
  obtain ⟨_, op, operand⟩ := i
  rintro rfl
  cases operand <;> cases hkind
  cases h

/-- A function begins with an instruction. -/
theorem begins_entry {e : Executable} (hsealed : ∀ r ∈ e.routines, ∃ m, r.code.Sealed m)
    {id : UInt16} {r : Routine} (hr : e.routine? id = some r) : r.code.Begins 0 := by
  obtain ⟨m, hm⟩ := hsealed r (mem_of_routine? hr)
  exact hm.begins_zero

theorem Advances.onInstrs (hsealed : ∀ r ∈ env.exe.routines, ∃ m, r.code.Sealed m)
    (ha : Advances env c s c' s') {frame : Frame} {frames : List Frame}
    (hframes : s.frames = frame :: frames)
    (hroutine : env.exe.routine? frame.function = some c.routine) (h : OnInstrs env.exe c s) :
    OnInstrs env.exe c' s' := by
  cases ha with
  | @next i ip _ hi hstep =>
    refine ⟨?_, by rw [(framed_of_stepInstr hstep).frames]; exact h.frames⟩
    rcases MachineM.next_of_stepInstr hstep with rfl | htarget
    · exact h.cursor.next hi (MachineM.op_of_next hi hstep).2 (MachineM.ne_stop_of_next hi hstep)
    · exact h.cursor.target hi htarget
  | @call i id r hi hid hr hfits =>
    have hcall := Code.op_of_function hi hid
    refine ⟨begins_entry hsealed hr, ?_⟩
    rw [frames_entered_paused (s := { s with steps := s.steps + 1 }) hframes]
    refine List.forall_mem_cons.mpr ⟨fun r' hr' => begins_entry hsealed hr',
      List.forall_mem_cons.mpr ⟨fun r' hr' => ?_, fun frame' hmem => ?_⟩⟩
    · obtain rfl := Option.some.inj (hroutine.symm.trans hr')
      exact h.cursor.next hi (by rw [hcall]; nofun) (by rw [hcall]; nofun)
    · exact h.frames frame' (hframes ▸ List.mem_cons_of_mem _ hmem)
  | @ret i frame' caller frames' r hi hop hframes' hr _ =>
    have hresume : ∀ frame ∈ caller :: frames', ∀ r, env.exe.routine? frame.function = some r →
        r.code.Begins frame.returnIp := fun frame hmem =>
      h.frames frame (hframes' ▸ List.mem_cons_of_mem _ hmem)
    exact ⟨hresume caller List.mem_cons_self r hr, hresume⟩

/-- **Control only comes to where an instruction begins**, never behind the last one. -/
theorem begins_of_visits (hids : env.exe.IdsArePlaces)
    (hsealed : ∀ r ∈ env.exe.routines, ∃ m, r.code.Sealed m)
    (hv : Visits env vars sink host c s) : OnInstrs env.exe c s := by
  induction hv with
  | start h =>
    have hstart := started h
    refine ⟨hstart.ip ▸ begins_entry hsealed (hids.routine?_of_top? hstart.top), ?_⟩
    rw [hstart.framed.frames]
    exact List.forall_mem_cons.mpr
      ⟨fun r hr => begins_entry hsealed hr, List.forall_mem_nil _⟩
  | advance hv h ih =>
    obtain ⟨frame, hhead, hr⟩ := routine_of_visits hids hv
    obtain ⟨frames, hframes⟩ := List.head?_eq_some_iff.mp hhead
    exact (advances_of_advance h).onInstrs hsealed hframes hr ih

end StackLang
