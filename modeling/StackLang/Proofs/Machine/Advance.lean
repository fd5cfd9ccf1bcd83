import StackLang.Proofs.Code.Decode
import StackLang.Proofs.Machine.Draws
import StackLang.Proofs.Machine.Operations
import StackLang.Proofs.Machine.Visits

/-!
# How a run goes on

`Advances env c s c' s'` lists the three ways in which an instruction that succeeds leads to another
one: it goes on inside its function, it enters a function, or it returns from one. Nothing is assumed
of the executable. `started` says where a run begins: with these two an invariant of the states of a
run is proved by induction on `Visits`.
-/

namespace StackLang

open MachineM (wp)
open RunM

variable {σ : Type} {env : Env σ} {vars : List HostVar} {sink : Sink} {host : σ}

namespace MachineM

/-- A step, by what comes of it. -/
theorem wp_of_cases {α : Type} {m : MachineM σ α} {Q : α → State σ → Prop}
    {E : Trap → State σ → Prop} {s : State σ} (hQ : ∀ a s', m s = .ok a s' → Q a s')
    (hE : ∀ trap s', m s = .error trap s' → E trap s') : wp m Q E s := by
  unfold wp
  cases hm : m s with
  | ok a s' => exact hQ a s' hm
  | error trap s' => exact hE trap s' hm

/-! ## Entering a function -/

/-- What a function finds when it is entered: its arguments, and its scopes among those of the run. -/
structure Fits (r : Routine) (s : State σ) : Prop where
  args : r.arity ≤ s.stack.size
  scopes : ∀ l ∈ r.layout, l.scope.toNat < s.instances.size

theorem wp_enterScopes_fits {varsBase : Nat} {layout : List ScopeLayout} {n : Nat} {s : State σ}
    (hn : s.instances.size = n) :
    wp (enterScopes varsBase layout) (fun _ _ => ∀ l ∈ layout, l.scope.toNat < n)
      (fun _ _ => True) s := by
  induction layout generalizing s with
  | nil => exact fun _ h => nomatch h
  | cons l layout ih =>
    simp only [enterScopes, wp_bind, wp_get]
    rw [wp_ite]
    refine ⟨fun _ => trivial, fun hl => ?_⟩
    rw [wp_bind, wp_modify]
    refine wp_mono (ih (by rw [Array.size_modify, hn])) (fun _ _ h => ?_) fun _ _ h => h
    exact List.forall_mem_cons.mpr ⟨hn ▸ Nat.lt_of_not_le hl, h⟩

theorem wp_enter_fits {config : Config} {r : Routine} {s : State σ} :
    wp (enter config r) (fun _ _ => Fits r s) (fun _ _ => True) s := by
  simp only [enter, wp_bind, wp_get]
  rw [wp_ite]
  refine ⟨fun _ => trivial, fun _ => ?_⟩
  rw [wp_ite]
  refine ⟨fun _ => trivial, fun hargs => ?_⟩
  simp only [wp_bind, wp_modify]
  exact wp_mono (wp_enterScopes_fits rfl) (fun _ _ h => ⟨Nat.le_of_not_lt hargs, h⟩) fun _ _ h => h

theorem wp_enter_entered {config : Config} {r : Routine} {s : State σ} :
    wp (enter config r) (fun _ s' => s' = s.entered r ∧ Fits r s) (fun _ _ => True) s := by
  have hentered : wp (enter config r) (fun _ s' => s' = s.entered r) (fun _ _ => True) s :=
    wp_enter (fun _ => trivial) (fun _ => trivial) (fun _ _ _ _ => trivial) rfl
  have hfits : wp (enter config r) (fun _ _ => Fits r s) (fun _ _ => True) s := wp_enter_fits
  unfold wp at *
  split <;> simp_all

end MachineM

/-! ## Where an instruction leads -/

/-- What an instruction that leads there has done; of one that stays in its function it says only where
control goes. -/
def Flow.Of (i : Instr) (s : State σ) : Flow → State σ → Prop
  | .next ip, _ => ip = i.next ∨ i.operand = .target ip
  | .call id ip, s' => i.operand = .function id ∧ ip = i.next ∧ s' = s
  | .ret, s' => i.op = .ret ∧ s' = s
  | .halt, s' => i.op = .stop ∧ s' = s

namespace MachineM

theorem wp_then_next {α : Type} {m : MachineM σ α} {ip : α → Nat} {i : Instr} {s s' : State σ}
    (h : ∀ a, ip a = i.next ∨ i.operand = .target (ip a)) :
    wp (m >>= fun a => pure (Flow.next (ip a))) (Flow.Of i s) (fun _ _ => True) s' :=
  (wp_bind _ _).mpr (wp_of_cases (fun a _ _ => h a) fun _ _ _ => trivial)

theorem wp_stepBranch_flow {op : Opcode} {target : Nat} {i : Instr} {s s' : State σ}
    (hi : i.operand = .target target) :
    wp (stepBranch op target i.next) (Flow.Of i s) (fun _ _ => True) s' := by
  unfold stepBranch
  rw [wp_ite]
  refine ⟨fun _ => .inr hi, fun _ => ?_⟩
  cases jumpRelation op with
  | none => trivial
  | some relation =>
    refine (wp_bind _ _).mpr (wp_of_cases (fun upper _ _ => wp_then_next fun lower => ?_)
      fun _ _ _ => trivial)
    cases relation upper lower with
    | true => exact .inr hi
    | false => exact .inl rfl

theorem wp_stepInstr_flow (env : Env σ) (i : Instr) (s : State σ) :
    wp (stepInstr env i) (Flow.Of i s) (fun _ _ => True) s := by
  obtain ⟨offset, op, operand⟩ := i
  cases operand with
  | none =>
    cases op with
    | ret | stop => exact ⟨rfl, rfl⟩
    | _ => exact wp_then_next fun _ => .inl rfl
  | int n | double d | string id => exact wp_then_next fun _ => .inl rfl
  | var addr => exact wp_then_next fun _ => .inl rfl
  | target target => exact wp_stepBranch_flow rfl
  | function id => exact ⟨rfl, rfl, rfl⟩
  | native id => exact wp_then_next fun _ => .inl rfl

/-- An instruction that stays in its function goes on behind itself, or where it branches to. -/
theorem next_of_stepInstr {i : Instr} {ip : Nat} {s s' : State σ}
    (h : stepInstr env i s = .ok (.next ip) s') : ip = i.next ∨ i.operand = .target ip :=
  wp_of_ok (wp_stepInstr_flow env i s) h

end MachineM

/-- An instruction that stays in its function is neither a call nor a return. -/
theorem MachineM.op_of_next {c : Code} {offset ip : Nat} {i : Instr} {s s' : State σ}
    (hi : c.decodeAt offset = .ok i) (h : stepInstr env i s = .ok (.next ip) s') :
    i.op ≠ .call ∧ i.op ≠ .ret := by
  obtain ⟨-, hkind, -⟩ := Code.decodeAt_cases hi
  obtain ⟨_, op, operand⟩ := i
  constructor <;> rintro rfl <;> cases operand <;> cases hkind <;> cases h

/-- Only calls name a function. -/
theorem Code.op_of_function {c : Code} {offset : Nat} {i : Instr} {id : UInt16}
    (hi : c.decodeAt offset = .ok i) (h : i.operand = .function id) : i.op = .call := by
  have hkind := (Code.decodeAt_cases hi).2.1
  rw [h] at hkind
  obtain ⟨_, op, _⟩ := i
  cases op <;> cases hkind
  rfl

open MachineM (Fits)

/-! ## One instruction -/

/-- How an instruction leads to another. -/
inductive Advances (env : Env σ) (c : Cursor) (s : State σ) : Cursor → State σ → Prop
  | next {i : Instr} {ip : Nat} {s' : State σ} (hi : c.routine.code.decodeAt c.ip = .ok i)
      (h : MachineM.stepInstr env i { s with steps := s.steps + 1 } = .ok (.next ip) s') :
      Advances env c s { c with ip } s'
  | call {i : Instr} {id : UInt16} {r : Routine} (hi : c.routine.code.decodeAt c.ip = .ok i)
      (hid : i.operand = .function id) (hr : env.exe.routine? id = some r)
      (hfits : Fits r (paused { s with steps := s.steps + 1 } i.next)) :
      Advances env c s ⟨r, 0⟩ ((paused { s with steps := s.steps + 1 } i.next).entered r)
  | ret {i : Instr} {frame caller : Frame} {frames : List Frame} {r : Routine}
      (hi : c.routine.code.decodeAt c.ip = .ok i) (hop : i.op = .ret)
      (hframes : s.frames = frame :: caller :: frames)
      (hr : env.exe.routine? caller.function = some r)
      (hvalue : c.routine.returnsValue = true → frame.stackBase < s.stack.size) :
      Advances env c s ⟨r, caller.returnIp⟩
        (({ s with steps := s.steps + 1 } : State σ).left c.routine frame (caller :: frames))

/-- An instruction that succeeds and does not end the run leads on in one of the three ways. -/
theorem advances_of_advance {c c' : Cursor} {s s' : State σ}
    (h : advance env c s = .ok (some c') s') : Advances env c s c' s' := by
  have hwp : wpRun (advance env c) (fun c'? t => ∀ c', c'? = some c' → Advances env c s c' t)
      (fun _ _ => True) s := by
    refine wp_advance ?_
    rw [MachineM.step, MachineM.wp_bind]
    refine MachineM.wp_tick (fun _ _ => trivial) (fun _ _ => trivial) ?_
    cases hi : c.routine.code.decodeAt c.ip with
    | error e => trivial
    | ok i =>
      refine MachineM.wp_of_cases (fun flow t hstep => ?_) fun _ _ _ => trivial
      have hflow := MachineM.wp_of_ok (MachineM.wp_stepInstr_flow env i _) hstep
      cases flow with
      | next ip =>
        rintro c' ⟨⟩
        exact .next hi hstep
      | halt => exact fun _ h => nomatch h
      | call id ip =>
        obtain ⟨hid, rfl, rfl⟩ := hflow
        refine wp_call (fun _ => trivial) fun r hr => ?_
        refine MachineM.wp_mono MachineM.wp_enter_entered (fun _ t ht => ?_) fun _ _ h => h
        obtain ⟨rfl, hfits⟩ := ht
        rintro c' ⟨⟩
        exact .call hi hid hr hfits
      | ret =>
        obtain ⟨hop, rfl⟩ := hflow
        refine ⟨fun _ _ h => (nomatch h), fun hlen => ?_⟩
        obtain ⟨frame, caller, frames, hframes⟩ : ∃ frame caller frames,
            s.frames = frame :: caller :: frames := by
          match hframes : s.frames with
          | [] => simp [hframes] at hlen
          | [_] => simp [hframes] at hlen
          | frame :: caller :: frames => exact ⟨frame, caller, frames, rfl⟩
        refine MachineM.wp_leave hframes (fun _ _ => trivial) fun hvalue => ?_
        cases hr : env.exe.routine? caller.function with
        | none =>
          simp only [resume, MachineM.wp_bind, MachineM.wp_get, State.left, hr]
          trivial
        | some r =>
          refine wp_resume rfl hr ?_
          rintro c' ⟨⟩
          exact .ret hi hop hframes hr hvalue
  exact wpRun_of_ok hwp h c' rfl

/-- **How a run is ended by an instruction**: by one that stops it, or by the return of the outermost
function. All else is left as it was. -/
theorem exists_end_of_advance {c : Cursor} {s s' : State σ} (h : advance env c s = .ok none s') :
    ∃ i, c.routine.code.decodeAt c.ip = .ok i ∧ (i.op = .stop ∨ i.op = .ret ∧ s.frames.length ≤ 1) ∧
      s' = { s with steps := s.steps + 1 } := by
  have hwp : wpRun (advance env c) (fun c'? t => c'? = none →
      ∃ i, c.routine.code.decodeAt c.ip = .ok i ∧
        (i.op = .stop ∨ i.op = .ret ∧ s.frames.length ≤ 1) ∧ t = { s with steps := s.steps + 1 })
      (fun _ _ => True) s := by
    refine wp_advance ?_
    rw [MachineM.step, MachineM.wp_bind]
    refine MachineM.wp_tick (fun _ _ => trivial) (fun _ _ => trivial) ?_
    cases hi : c.routine.code.decodeAt c.ip with
    | error e => trivial
    | ok i =>
      refine MachineM.wp_mono (MachineM.wp_stepInstr_flow env i _) (fun flow t hflow => ?_)
        fun _ _ _ => trivial
      cases flow with
      | next ip => exact fun h => nomatch h
      | halt => exact fun _ => ⟨i, rfl, .inl hflow.1, hflow.2⟩
      | call id ip =>
        exact MachineM.wp_of_cases (fun _ _ _ h => nomatch h) fun _ _ _ => trivial
      | ret =>
        obtain ⟨hop, rfl⟩ := hflow
        refine ⟨fun hlen _ => ⟨i, rfl, .inr ⟨hop, hlen⟩, rfl⟩, fun _ => ?_⟩
        refine MachineM.wp_of_cases (fun _ _ _ => ?_) fun _ _ _ => trivial
        exact MachineM.wp_of_cases (fun _ _ _ h => nomatch h) fun _ _ _ => trivial
  exact wpRun_of_ok hwp h rfl

/-- An instruction that ends the run leaves everything as it was. -/
theorem ended_of_advance {c : Cursor} {s s' : State σ} (h : advance env c s = .ok none s') :
    s' = { s with steps := s.steps + 1 } := by
  obtain ⟨-, -, -, hs⟩ := exists_end_of_advance h
  exact hs

/-- An instruction that stays in its function leaves the frames and the places of variables. -/
theorem framed_of_stepInstr {i : Instr} {flow : Flow} {s s' : State σ}
    (h : MachineM.stepInstr env i { s with steps := s.steps + 1 } = .ok flow s') : s.Framed s' := by
  have hkeeps := MachineM.Keeps.stepInstr (R := framed env.bridge) i (fun _ => trivial)
    { s with steps := s.steps + 1 }
  exact (framed env.bridge).trans ((framed env.bridge).steps s)
    (MachineM.wp_of_ok (Q := fun _ s' => State.Framed _ s') hkeeps h)

/-- An instruction that stores nothing changes no variable. -/
theorem vars_of_stepInstr {i : Instr} {flow : Flow} {s s' : State σ}
    (hstore : ¬ i.op.isStore = true)
    (h : MachineM.stepInstr env i { s with steps := s.steps + 1 } = .ok flow s') :
    s'.vars = s.vars := by
  have hkeeps := MachineM.Keeps.stepInstr (R := readonly env.bridge) i
    (fun h => absurd h hstore) { s with steps := s.steps + 1 }
  exact MachineM.wp_of_ok (Q := fun _ s' => s'.vars = s.vars) hkeeps h

/-- The frames after a call: one for the callee, and the caller's, which has noted where to go on. -/
theorem frames_entered_paused {frame : Frame} {frames : List Frame} {s : State σ} {r : Routine}
    (hframes : s.frames = frame :: frames) (returnIp : Nat) :
    ((paused s returnIp).entered r).frames =
      { function := r.id, returnIp := 0, stackBase := s.stack.size - r.arity,
        varsBase := s.vars.size } :: { frame with returnIp } :: frames := by
  rw [paused_of_frames hframes]
  rfl

/-- Where a call leads. -/
theorem Advances.of_call {c c' : Cursor} {s s' : State σ} {i : Instr} (h : Advances env c s c' s')
    (hi : c.routine.code.decodeAt c.ip = .ok i) (hcall : i.op = .call) :
    ∃ id r, i.operand = .function id ∧ env.exe.routine? id = some r ∧ c' = ⟨r, 0⟩ ∧
      s' = (paused { s with steps := s.steps + 1 } i.next).entered r := by
  cases h with
  | next hi' hstep =>
    obtain rfl := Except.ok.inj (hi.symm.trans hi')
    exact absurd hcall (MachineM.op_of_next hi hstep).1
  | @call i' id r hi' hid hr hfits =>
    obtain rfl := Except.ok.inj (hi.symm.trans hi')
    exact ⟨id, r, hid, hr, rfl, rfl⟩
  | ret hi' hop hframes hr _ =>
    obtain rfl := Except.ok.inj (hi.symm.trans hi')
    rw [hcall] at hop
    cases hop

/-- Where a return leads. -/
theorem Advances.of_ret {c c' : Cursor} {s s' : State σ} {i : Instr} (h : Advances env c s c' s')
    (hi : c.routine.code.decodeAt c.ip = .ok i) (hret : i.op = .ret) :
    ∃ frame caller frames r, s.frames = frame :: caller :: frames ∧
      env.exe.routine? caller.function = some r ∧ c' = ⟨r, caller.returnIp⟩ ∧
      (c.routine.returnsValue = true → frame.stackBase < s.stack.size) ∧
      s' = ({ s with steps := s.steps + 1 } : State σ).left c.routine frame (caller :: frames) := by
  cases h with
  | next hi' hstep =>
    obtain rfl := Except.ok.inj (hi.symm.trans hi')
    exact absurd hret (MachineM.op_of_next hi hstep).2
  | call hi' hid hr hfits =>
    obtain rfl := Except.ok.inj (hi.symm.trans hi')
    cases hret.symm.trans (Code.op_of_function hi hid)
  | ret hi' hop hframes hr hvalue => exact ⟨_, _, _, _, hframes, hr, rfl, hvalue, rfl⟩

/-! ## Where a run begins -/

/-- A run begins at the entry of `<top>`, with nothing on the operand stack and the host's variables
written to the frame of `<top>`. -/
structure StartsAt (env : Env σ) (sink : Sink) (host : σ) (c : Cursor) (s : State σ) : Prop where
  top : env.exe.top? = some c.routine
  ip : c.ip = 0
  fits : Fits c.routine (initial env.exe sink host)
  framed : ((initial env.exe sink host).entered c.routine).Framed s
  height : s.stack.size = 0

theorem started {c : Cursor} {s : State σ}
    (h : start env vars (initial env.exe sink host) = .ok c s) : StartsAt env sink host c s := by
  have hbegin : wp (enterTop env vars) (StartsAt env sink host) (fun _ _ => True)
      (initial env.exe sink host) := by
    unfold enterTop
    cases htop : env.exe.top? with
    | none => trivial
    | some r =>
      rw [MachineM.wp_bind]
      refine MachineM.wp_mono MachineM.wp_enter_entered (fun _ t ht => ?_) fun _ _ h => h
      obtain ⟨rfl, hfits⟩ := ht
      rw [MachineM.wp_bind]
      refine MachineM.wp_of_cases (fun _ t hbind => ?_) fun _ _ _ => trivial
      have hframed := MachineM.wp_of_ok
        (MachineM.Keeps.bindVars (R := framed env.bridge) trivial env.exe vars _) hbind
      have hdraws : MachineM.Draws .invalid 0 0 (bindVars env.exe vars : MachineM σ Unit) :=
        .bindVars env.exe vars
      obtain ⟨-, -, hheight⟩ := MachineM.wp_of_ok (hdraws _) hbind
      exact ⟨htop, rfl, hfits, hframed, hheight⟩
  have hwp : wp (start env vars) (StartsAt env sink host) (fun _ _ => True)
      (initial env.exe sink host) := by
    rw [start_eq]
    cases env.config.verify with
    | false => exact hbegin
    | true =>
      cases env.exe.verify with
      | error e => trivial
      | ok _ => exact hbegin
  exact MachineM.wp_of_ok hwp h

end StackLang
