import StackLang.Proofs.Machine.Progress
import StackLang.Proofs.Simulation.Agreement
import StackLang.Proofs.Simulation.Operands

/-!
# A run beside an evaluation

`Call.Beside ip vs w c s`: the machine is at `ip` in the function of a call, with the values `vs` of
the call on its stack, and its state is that of the program's world `w`. `Call.Sim n m Q w c s` says
that the machine does from there what the evaluation `m` does from `w`: where `m` gives a value the
run comes to where `Q` holds, where `m` stops the run comes to where it stops in the same way
(`Call.Stopped`), and where `m` has no rounds left the run executes `n` instructions.
-/

namespace StackLang

open MachineM (wp)
open RunM
open Reference (World EvalM Stop)

variable {σ : Type}

/-- A call under way. -/
structure Call where
  act : Activation
  /-- The activations around it. -/
  callers : List Activation
  /-- The id of its function. -/
  id : UInt16
  /-- The frames around it. -/
  frames : List Frame
  /-- What the frames around it have on the stack. -/
  below : List HostValue
  /-- Places of hidden slots that nothing may change for now, with what they hold. -/
  kept : List (Nat × Int64)

namespace Call

/-- All activations, the call's own first. -/
def acts (x : Call) : List Activation := x.act :: x.callers

/-- The frame of the call. -/
def frame (x : Call) (returnIp : Nat) : Frame where
  function := x.id
  returnIp
  stackBase := x.below.length
  varsBase := x.act.base

/-- The call is one of the program's. -/
structure Sound (x : Call) (z : Setting σ) : Prop where
  stacked : z.Stacked x.acts
  routine : z.env.exe.routine? x.id = some x.act.routine
  depth : x.frames.length = x.callers.length

/-- The machine stands at `ip` in the call's function, and its state is that of the program, with
these values on the stack, the top first. -/
structure Beside (x : Call) (z : Setting σ) (ip : Nat) (vs : List HostValue) (w : World σ)
    (c : Cursor) (s : State σ) : Prop where
  cursor : c = ⟨x.act.routine, ip⟩
  frames : ∃ returnIp, s.frames = x.frame returnIp :: x.frames
  values : List.Forall₂ (Denotes z.env.exe s.overlay) s.stack.toList.reverse (vs ++ x.below)
  agree : z.Agree x.acts w s
  kept : ∀ k ∈ x.kept, s.vars[k.1]? = some (some (.int k.2))

end Call

/-! ## How runs and evaluations stop -/

/-- The traps that end a run earlier than the program's meaning says. -/
inductive Setting.Cut (z : Setting σ) : Trap → Prop
  | stepLimit (limit : Nat) : Cut z (.stepLimit limit)
  | stackLimit (limit : Nat) : Cut z (.stackLimit limit)
  | callDepth (limit : Nat) (function : String) : Cut z (.callDepth limit function)
  | poolExhausted : Cut z .poolExhausted
  | output (reason : String) (h : z.sink.capacity ≠ none) : Cut z (.output reason)

theorem Setting.cutsLimits (z : Setting σ) : CutsLimits z.Cut :=
  ⟨.stepLimit, .stackLimit, .callDepth, .poolExhausted⟩

/-- The failures that a program can mean, at the instruction where the machine meets them. -/
inductive Raised (e : Executable) (c : Cursor) : Trap → Prop
  | divisionByZero : Raised e c .divisionByZero
  | missingValue (function : String) : Raised e c (.missingValue function)
  | unresolvedNative (symbol : String) : Raised e c (.unresolvedNative symbol)
  | nativeFailed (symbol reason : String) : Raised e c (.nativeFailed symbol reason)
  | nativeWithoutValue (symbol : String) : Raised e c (.nativeWithoutValue symbol)
  /-- The host's value cannot be made one of the type declared. -/
  | typeMismatch {id : UInt16} {native : NativeDecl} (hr : c.routine ∈ e.routines)
      (h : c.routine.code.At c.ip .callNative (.native id)) (hn : e.native? id = some native)
      (found : String) : Raised e c (.typeMismatch native.result found)

/-- The next instruction fails with this trap. -/
def Setting.Fails (z : Setting σ) (trap : Trap) (w : World σ) (c : Cursor) (s : State σ) : Prop :=
  Raised z.env.exe c trap ∧ wpRun (advance z.env c) (fun _ _ => False)
    (fun fault s' => z.Cut fault.trap ∨ fault.trap = trap ∧ z.Outside w s') s

/-- The next instruction is the end of `<top>`. -/
def Setting.Halts (z : Setting σ) (w : World σ) (c : Cursor) (s : State σ) : Prop :=
  ∃ (x : Call) (ip : Nat) (vs : List HostValue), x.Sound z ∧ x.Beside z ip vs w c s ∧
    x.act.function.name = Program.topName ∧ x.act.routine.code.At ip .stop .none

/-- What an expression of this type evaluates to: one without a value has type `void`. -/
inductive Yields (ty : Ty) : Option HostValue → Prop
  | value {v : HostValue} (hty : v.ty = ty) : Yields ty (some v)
  | void (hty : ty = .void) : Yields ty none

namespace Call

/-- The next instruction returns from the call, with this value. -/
def Returns (x : Call) (z : Setting σ) (v : Option HostValue) (w : World σ) (c : Cursor)
    (s : State σ) : Prop :=
  ∃ ip vs, x.Beside z ip (v.toList ++ vs) w c s ∧ x.act.routine.code.At ip .ret .none ∧
    Yields x.act.function.result v

/-- The machine is where an evaluation has stopped. -/
def Stopped (x : Call) (z : Setting σ) :
    Stop → World σ → Cursor → State σ → Prop
  | .returned v => x.Returns z v
  | .halted => z.Halts
  | .failed trap => z.Fails trap
  | .timeout | .stuck => fun _ _ _ => False

/-- The run of the machine from `c` and `s` is that of the evaluation of `m` in the world `w`. -/
def Sim {α : Type} (x : Call) (z : Setting σ) (n : Nat) (m : EvalM σ α)
    (Q : α → World σ → Cursor → State σ → Prop) (w : World σ) (c : Cursor) (s : State σ) : Prop :=
  match m w with
  | .ok a w' => Runs z.env z.Cut (Q a w') c s
  | .error .timeout _ => Lasts z.env z.Cut n c s
  | .error stop w' => Runs z.env z.Cut (x.Stopped z stop w') c s

/-! ## Laws of simulation -/

section Laws

variable {α β : Type} {x y : Call} {z : Setting σ} {n k : Nat} {m : EvalM σ α}
  {Q R : α → World σ → Cursor → State σ → Prop} {w : World σ} {c : Cursor} {s : State σ}

theorem sim_pure {a : α} (h : Q a w c s) : x.Sim z n (pure a) Q w c s := .here h

/-- The run goes on to where the rest can be simulated. -/
theorem sim_of_runs (h : Runs z.env z.Cut (x.Sim z n m Q w) c s) : x.Sim z n m Q w c s := by
  unfold Sim at *
  split at h
  · exact h.bind fun _ _ h => h
  · exact h.lasts fun _ _ h => h
  · exact h.bind fun _ _ h => h

theorem sim_bind {f : α → EvalM σ β} {Q : β → World σ → Cursor → State σ → Prop}
    (h : x.Sim z n m (fun a => x.Sim z n (f a) Q) w c s) : x.Sim z n (m >>= f) Q w c s := by
  unfold Sim at h ⊢
  simp only [bind, EStateM.bind]
  cases hm : m w with
  | ok a w' =>
    rw [hm] at h
    exact sim_of_runs (m := f a) h
  | error stop w' =>
    rw [hm] at h
    cases stop <;> exact h

theorem Sim.mono (h : x.Sim z n m Q w c s) (hQ : ∀ a w c s, Q a w c s → R a w c s) :
    x.Sim z n m R w c s := by
  unfold Sim at *
  split at h
  · exact h.mono (hQ _ _)
  · exact h
  · exact h

theorem Sim.bind {f : α → EvalM σ β} {Q' : β → World σ → Cursor → State σ → Prop}
    (h : x.Sim z n m Q w c s) (hf : ∀ a w c s, Q a w c s → x.Sim z n (f a) Q' w c s) :
    x.Sim z n (m >>= f) Q' w c s := sim_bind (h.mono hf)

/-- The run goes on after an evaluation. -/
theorem Sim.runs (h : x.Sim z n m Q w c s)
    (hQ : ∀ a w c s, Q a w c s → Runs z.env z.Cut (R a w) c s) : x.Sim z n m R w c s := by
  unfold Sim at *
  split at h
  · exact h.bind (hQ _ _)
  · exact h
  · exact h

theorem Sim.le (h : x.Sim z n m Q w c s) (hle : k ≤ n) : x.Sim z k m Q w c s := by
  unfold Sim at *
  split at h
  · exact h
  · exact h.le hle
  · exact h

/-- What comes after an instruction has one more instruction to last. -/
theorem sim_of_steps (h : Steps z.env z.Cut (x.Sim z n m Q w) c s) :
    x.Sim z (n + 1) m Q w c s := by
  unfold Sim at *
  split at h
  · exact (h.mono fun _ _ h => h).runs
  · exact (h.mono fun _ _ h => h).lasts
  · exact (h.mono fun _ _ h => h).runs

theorem Steps.sim (h : Steps z.env z.Cut (x.Sim z n m Q w) c s) : x.Sim z n m Q w c s :=
  (sim_of_steps h).le (Nat.le_succ n)

/-- Calls may stop in the same way. -/
theorem Sim.of_stopped (h : x.Sim z n m Q w c s)
    (hstopped : ∀ stop w c s, x.Stopped z stop w c s → y.Stopped z stop w c s) :
    y.Sim z n m Q w c s := by
  unfold Sim at *
  split at h
  · exact h
  · exact h
  · exact h.mono (hstopped _ _)

/-- A step that the machine need not take. -/
theorem sim_ok {a : α} {w' : World σ} (hm : m w = .ok a w') (h : Q a w' c s) :
    x.Sim z n m Q w c s := by
  unfold Sim
  rw [hm]
  exact .here h

theorem sim_of_ok {f : α → EvalM σ β} {Q : β → World σ → Cursor → State σ → Prop} {a : α}
    {w' : World σ} (hm : m w = .ok a w') (h : x.Sim z n (f a) Q w' c s) :
    x.Sim z n (m >>= f) Q w c s := sim_bind (sim_ok hm h)

theorem sim_lift {r : Except Stop α} {a : α} (hr : r = .ok a) (h : Q a w c s) :
    x.Sim z n (Reference.lift r) Q w c s := by
  subst hr
  exact .here h

theorem sim_lift_failed {r : Except Stop α} {trap : Trap} (hr : r = .error (.failed trap))
    (h : Runs z.env z.Cut (z.Fails trap w) c s) : x.Sim z n (Reference.lift r) Q w c s := by
  subst hr
  exact h

end Laws

/-! ## Places of the machine -/

section Beside

variable {x : Call} {z : Setting σ} {ip : Nat} {vs : List HostValue} {w : World σ} {c : Cursor}
  {s : State σ}

theorem Beside.onStack (h : x.Beside z ip vs w c s) : OnStack z.env.exe x.below vs s where
  base := by
    obtain ⟨_, hframes⟩ := h.frames
    exact State.frameBase_of_frames hframes
  values := h.values

/-- Only the stack has changed, and the count of instructions. -/
theorem Beside.next (h : x.Beside z ip vs w c s) {ip' : Nat} {vs' : List HostValue}
    {stack : Array Value} {steps : Nat}
    (hs : OnStack z.env.exe x.below vs' { s with stack, steps }) :
    x.Beside z ip' vs' w ⟨x.act.routine, ip'⟩ { s with stack, steps } where
  cursor := rfl
  frames := h.frames
  values := hs.values
  agree := h.agree.of_same
  kept := h.kept

/-- An instruction is taken, and makes of the state what it stands beside afterwards. -/
theorem Beside.steps (h : x.Beside z ip vs w c s) {op : Opcode} {operand : Operand}
    (hi : x.act.routine.code.At ip op operand) {Q : Cursor → State σ → Prop}
    (hw : wp (MachineM.stepInstr z.env ⟨ip, op, operand⟩)
      (fun flow s' => ∃ ip', flow = .next ip' ∧ Q ⟨x.act.routine, ip'⟩ s')
      (fun trap _ => z.Cut trap) { s with steps := s.steps + 1 }) :
    Steps z.env z.Cut Q c s := by
  obtain rfl := h.cursor
  exact steps_next z.cutsLimits hi hw

/-- An instruction fails. -/
theorem Beside.fails (h : x.Beside z ip vs w c s) {op : Opcode} {operand : Operand} {trap : Trap}
    {w' : World σ} (hi : x.act.routine.code.At ip op operand) (hr : Raised z.env.exe c trap)
    (hw : wp (MachineM.stepInstr z.env ⟨ip, op, operand⟩) (fun _ _ => False)
      (fun trap' s' => z.Cut trap' ∨ trap' = trap ∧ z.Outside w' s')
      { s with steps := s.steps + 1 }) : z.Fails trap w' c s := by
  refine ⟨hr, ?_⟩
  obtain rfl := h.cursor
  exact fails_of_wp (E := fun trap' s' => z.Cut trap' ∨ trap' = trap ∧ z.Outside w' s')
    z.cutsLimits .inl hi hw

end Beside

end Call

end StackLang
