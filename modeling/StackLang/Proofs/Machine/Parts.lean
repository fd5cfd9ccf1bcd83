import StackLang.Proofs.Verify.Tracks

/-!
# The frames' parts of the operand stack

A frame's part of the operand stack begins at its base. No instruction removes an operand that lies
below the innermost frame's part, and one that takes more operands than this frame holds fails
(`operands_keep_to_parts`); this holds of any executable, verified or not. A call is the exception to
what one would expect next: it counts the operands of the whole stack. So it can hand to a function
what belongs to a caller of its caller (`call_reaches_below`), and the callee's part then begins below
its caller's. As long as every call finds its arguments in its own function's part, the parts lie one
above the other (`Stacked`).
-/

namespace StackLang

open MachineM (wp)
open RunM

variable {σ : Type} {env : Env σ} {vars : List HostVar} {sink : Sink} {host : σ}

/-! ## What lies below a frame -/

namespace State

variable {s s' : State σ}

theorem KeepsBelow.le_size (h : s.KeepsBelow s') (hle : s.frameBase ≤ s.stack.size) :
    s.frameBase ≤ s'.stack.size := by
  by_cases hzero : s.frameBase = 0
  · omega
  · have hlt : s.frameBase - 1 < s.stack.size := by omega
    have hkept := h (s.frameBase - 1) (by omega) _ (Array.getElem?_eq_getElem hlt)
    obtain ⟨hlt', -⟩ := Array.getElem?_eq_some_iff.mp hkept
    omega

theorem keepsBelow_of_stack (h : s'.stack = s.stack) : s.KeepsBelow s' := by
  intro k _ v hv
  rw [h]
  exact hv

/-- What lies below a frame is still there when its function has ended. -/
theorem getElem?_stack_left {r : Routine} {frame : Frame} {frames : List Frame} {k : Nat} {v : Value}
    (hk : k < frame.stackBase) (hv : s.stack[k]? = some v) :
    (s.left r frame frames).stack[k]? = some v := by
  have hshrink : (s.stack.shrink frame.stackBase)[k]? = some v := by
    rw [← Array.getElem?_toList, Array.toList_shrink, List.getElem?_take, if_pos hk,
      Array.getElem?_toList, hv]
  unfold left
  dsimp only
  split
  · rw [Array.getElem?_push, if_neg (Nat.ne_of_lt (Array.getElem?_eq_some_iff.mp hshrink).1),
      hshrink]
  · exact hshrink

/-- The parts of the active frames lie one above the other on the stack. -/
structure Stacked (s : State σ) : Prop where
  /-- The innermost frame comes first. -/
  bases : (s.frames.map (·.stackBase)).Pairwise (· ≥ ·)
  top : s.frameBase ≤ s.stack.size

/-- In such a state no frame begins above the innermost one. -/
theorem Stacked.le_frameBase (h : s.Stacked) {frame : Frame} (hmem : frame ∈ s.frames) :
    frame.stackBase ≤ s.frameBase := by
  have hbases := h.bases
  cases hframes : s.frames with
  | nil => simp [hframes] at hmem
  | cons first rest =>
    rw [hframes] at hmem hbases
    rw [frameBase_of_frames hframes]
    rcases List.mem_cons.mp hmem with rfl | hmem
    · exact Nat.le_refl _
    · exact List.rel_of_pairwise_cons hbases (List.mem_map_of_mem hmem)

end State

/-! ## Calls leave the stack alone -/

namespace MachineM

theorem wp_enterScopes_stack (varsBase : Nat) (layout : List ScopeLayout) (s : State σ) :
    wp (enterScopes varsBase layout) (fun _ s' => s'.stack = s.stack)
      (fun _ s' => s'.stack = s.stack) s := by
  induction layout generalizing s with
  | nil => rfl
  | cons l layout ih =>
    simp only [enterScopes, wp_bind, wp_get]
    rw [wp_ite]
    refine ⟨fun _ => rfl, fun _ => ?_⟩
    rw [wp_bind, wp_modify]
    exact ih _

theorem wp_enter_stack (config : Config) (r : Routine) (s : State σ) :
    wp (enter config r) (fun _ s' => s'.stack = s.stack) (fun _ s' => s'.stack = s.stack) s := by
  simp only [enter, wp_bind, wp_get]
  rw [wp_ite]
  refine ⟨fun _ => rfl, fun _ => ?_⟩
  rw [wp_ite]
  refine ⟨fun _ => rfl, fun _ => ?_⟩
  simp only [wp_bind, wp_modify]
  exact wp_mono (wp_enterScopes_stack _ _ _) (fun _ _ h => h) fun _ _ h => h

end MachineM

@[simp] theorem RunM.stack_paused (s : State σ) (ip : Nat) : (paused s ip).stack = s.stack := by
  unfold paused
  split <;> rfl

theorem RunM.wp_call_stack (id : UInt16) (ip : Nat) (s : State σ) :
    wp (call env id ip) (fun _ s' => s'.stack = s.stack) (fun _ s' => s'.stack = s.stack) s := by
  refine wp_call (fun _ => stack_paused s ip) fun r _ => ?_
  have h := MachineM.wp_enter_stack env.config r (paused s ip)
  rwa [stack_paused] at h

theorem RunM.wp_resume_state (exe : Executable) (s : State σ) :
    wp (resume exe) (fun _ s' => s' = s) (fun _ s' => s' = s) s := by
  simp only [resume, MachineM.wp_bind, MachineM.wp_get]
  split
  · rfl
  · split
    · rfl
    · rfl

/-! ## One instruction -/

/-- **No instruction removes an operand below the innermost frame's part**, whatever comes of it. -/
theorem keepsBelow_of_advance (env : Env σ) (c : Cursor) (s : State σ) :
    wpRun (advance env c) (fun _ s' => s.KeepsBelow s') (fun _ s' => s.KeepsBelow s') s := by
  refine wp_advance ?_
  have hkeeps := MachineM.Keeps.step (R := below env.bridge) trivial c.routine c.ip s
  refine MachineM.wp_mono hkeeps (fun flow s₁ h₁ => ?_) fun _ _ h => h.2
  obtain ⟨hbase, h₁⟩ := h₁
  have hafter : ∀ {s₂ : State σ}, s₁.KeepsBelow s₂ → s.KeepsBelow s₂ := fun h₂ k hk v hv =>
    h₂ k (by rw [hbase]; exact hk) v (h₁ k hk v hv)
  cases flow with
  | next ip => exact h₁
  | halt => exact h₁
  | call id ip =>
    exact MachineM.wp_mono (wp_call_stack id ip s₁)
      (fun _ _ h => hafter (State.keepsBelow_of_stack h))
      fun _ _ h => hafter (State.keepsBelow_of_stack h)
  | ret =>
    refine ⟨fun _ => h₁, fun hlen => ?_⟩
    obtain ⟨frame, frames, hframes⟩ := List.exists_cons_of_ne_nil
      (List.ne_nil_of_length_pos (by omega : 0 < s₁.frames.length))
    have hleft : s.KeepsBelow (s₁.left c.routine frame frames) := hafter fun k hk v hv => by
      rw [State.frameBase_of_frames hframes] at hk
      exact State.getElem?_stack_left hk hv
    refine MachineM.wp_leave hframes (fun _ _ => h₁) fun _ => ?_
    refine MachineM.wp_mono (wp_resume_state env.exe _) (fun _ s₂ h => ?_) fun _ s₂ h => ?_
    · rw [h]
      exact hleft
    · rw [h]
      exact hleft

/-- A limit of a run. -/
def Trap.OnLimits : Trap → Prop
  | .stepLimit _ | .stackLimit _ | .callDepth _ _ => True
  | _ => False

section Failing

variable {c : Cursor} {s : State σ} {i : Instr}

theorem exists_error_of_wpRun {α : Type} {m : RunM σ α} {E : Fault → State σ → Prop}
    (h : wpRun m (fun _ _ => False) E s) : ∃ fault s', m s = .error fault s' ∧ E fault s' := by
  unfold wpRun at h
  split at h
  · exact h.elim
  · exact ⟨_, _, ‹_›, h⟩

/-- **An instruction that takes more operands than the innermost frame holds fails**, a call apart:
an operand is missing, or one that is there is not what it should be. -/
theorem fails_of_held_lt (hi : c.routine.code.decodeAt c.ip = .ok i) {effect : Effect}
    (htakes : i.Takes env.exe effect) (hcall : i.op ≠ .call) (hlt : s.held < effect.pops) :
    ∃ fault s', advance env c s = .error fault s' ∧
      (fault.trap.OnOperands i.op ∨ fault.trap.OnLimits) := by
  obtain ⟨-, hkind, -⟩ := Code.decodeAt_cases hi
  refine exists_error_of_wpRun (wp_advance ?_)
  rw [MachineM.step, MachineM.wp_bind]
  refine MachineM.wp_tick (fun _ _ => .inr trivial) (fun _ _ => .inr trivial) ?_
  rw [hi]
  refine MachineM.wp_mono (MachineM.Draws.stepInstr hkind htakes hcall _) (fun _ _ h => ?_)
    fun _ _ h => .inl (h hlt)
  exact absurd hlt (Nat.not_lt.mpr h.2.1)

/-- A function that returns a value fails to return without one, unless it is the outermost. -/
theorem fails_of_missing_value (hi : c.routine.code.decodeAt c.ip = .ok i) (hret : i.op = .ret)
    (hvalue : c.routine.returnsValue = true) (hlen : 1 < s.frames.length) (hnone : s.held = 0) :
    ∃ fault s', advance env c s = .error fault s' ∧
      (fault.trap = .missingValue c.routine.name ∨ fault.trap.OnLimits) := by
  obtain ⟨-, hkind, -⟩ := Code.decodeAt_cases hi
  refine exists_error_of_wpRun (wp_advance ?_)
  rw [MachineM.step, MachineM.wp_bind]
  refine MachineM.wp_tick (fun _ _ => .inr trivial) (fun _ _ => .inr trivial) ?_
  rw [hi]
  obtain ⟨offset, op, operand⟩ := i
  obtain rfl : op = _ := hret
  cases operand <;> cases hkind
  refine ⟨fun h => absurd hlen (Nat.not_lt.mpr h), fun _ => ?_⟩
  obtain ⟨frame, frames, hframes⟩ := List.exists_cons_of_ne_nil
    (List.ne_nil_of_length_pos (by omega : 0 < s.frames.length))
  refine MachineM.wp_leave (s := { s with steps := s.steps + 1 }) hframes (fun _ _ => .inl rfl)
    fun h => ?_
  have hbase := State.frameBase_of_frames hframes
  have hlt : frame.stackBase < s.stack.size := h hvalue
  rw [State.held] at hnone
  omega

/-- A call fails if the whole stack holds too few operands. -/
theorem fails_of_size_lt (hi : c.routine.code.decodeAt c.ip = .ok i) {id : UInt16} {r : Routine}
    (hid : i.operand = .function id) (hr : env.exe.routine? id = some r)
    (hlt : s.stack.size < r.arity) :
    ∃ fault s', advance env c s = .error fault s' ∧
      (fault.trap = .stackUnderflow "CALL" ∨ fault.trap.OnLimits) := by
  refine exists_error_of_wpRun (wp_advance ?_)
  rw [MachineM.step, MachineM.wp_bind]
  refine MachineM.wp_tick (fun _ _ => .inr trivial) (fun _ _ => .inr trivial) ?_
  rw [hi]
  obtain ⟨offset, op, operand⟩ := i
  obtain rfl : operand = _ := hid
  refine wp_call (fun hnone => by cases hnone.symm.trans hr) fun r' hr' => ?_
  obtain rfl : r' = r := Option.some.inj (hr'.symm.trans hr)
  simp only [MachineM.enter, MachineM.wp_bind, MachineM.wp_get]
  rw [MachineM.wp_ite]
  refine ⟨fun _ => .inr trivial, fun _ => ?_⟩
  rw [MachineM.wp_ite, stack_paused]
  exact ⟨fun _ => .inl rfl, fun h => absurd hlt h⟩

/-- A call hands on the topmost operands of the whole stack. -/
theorem handed_of_call (hi : c.routine.code.decodeAt c.ip = .ok i) {id : UInt16} {r : Routine}
    (hid : i.operand = .function id) (hr : env.exe.routine? id = some r) {c' : Cursor}
    {s' : State σ} (h : advance env c s = .ok (some c') s') :
    c' = ⟨r, 0⟩ ∧ s'.stack = s.stack ∧ s'.frameBase + r.arity = s.stack.size := by
  cases advances_of_advance h with
  | next hi' hstep =>
    obtain rfl := Except.ok.inj (hi.symm.trans hi')
    exact absurd (Code.op_of_function hi hid) (MachineM.op_of_next hi hstep).1
  | @call i' id' r' hi' hid' hr' hfits =>
    obtain rfl := Except.ok.inj (hi.symm.trans hi')
    obtain rfl : id = id' := Operand.function.inj (hid.symm.trans hid')
    obtain rfl : r = r' := Option.some.inj (hr.symm.trans hr')
    have hargs := hfits.args
    rw [stack_paused] at hargs
    refine ⟨rfl, by rw [State.entered, stack_paused], ?_⟩
    simp only [State.frameBase, State.entered, stack_paused] at *
    omega
  | ret hi' hop _ _ _ =>
    obtain rfl := Except.ok.inj (hi.symm.trans hi')
    cases hop.symm.trans (Code.op_of_function hi hid)

end Failing

/-! ## Whole runs -/

/-- If a call finds its arguments, the parts stay one above the other. -/
theorem Advances.stacked {c c' : Cursor} {s s' : State σ} (h : Advances env c s c' s')
    (hs : s.Stacked) (hargs : FindsArguments env c s) : s'.Stacked := by
  cases h with
  | next hi hstep =>
    have hframed := framed_of_stepInstr hstep
    have hbelow : s.KeepsBelow s' := by
      have hkeeps := MachineM.wp_of_ok
        (MachineM.Keeps.stepInstr (R := below env.bridge) _ (fun _ => trivial) _) hstep
      exact hkeeps.2
    have hbase : s'.frameBase = s.frameBase := by rw [State.frameBase, State.frameBase, hframed.frames]
    exact ⟨hframed.frames ▸ hs.bases, hbase ▸ hbelow.le_size hs.top⟩
  | @call i id r hi hid hr hfits =>
    have harity := hargs i id r hi hid hr
    refine ⟨?_, Nat.sub_le _ _⟩
    by_cases hnil : s.frames = []
    · simp [State.entered, paused, hnil]
    · obtain ⟨frame, frames, hframes⟩ := List.exists_cons_of_ne_nil hnil
      rw [frames_entered_paused (s := { s with steps := s.steps + 1 }) hframes]
      have hbases := hs.bases
      rw [hframes] at hbases
      refine List.pairwise_cons.mpr ⟨fun base hbase => ?_, hbases⟩
      obtain ⟨frame', hmem, rfl⟩ : ∃ frame' ∈ s.frames, frame'.stackBase = base := by
        rw [hframes]
        exact List.mem_map.mp hbase
      have hle := hs.le_frameBase hmem
      have htop := hs.top
      rw [State.held] at harity
      simp only
      omega
  | @ret i frame caller frames r hi hop hframes hr hvalue =>
    have hbases := hs.bases
    have htop := hs.top
    rw [State.frameBase_of_frames hframes] at htop
    rw [hframes] at hbases
    have hle : caller.stackBase ≤ frame.stackBase :=
      List.rel_of_pairwise_cons hbases List.mem_cons_self
    refine ⟨(List.pairwise_cons.mp hbases).2, ?_⟩
    rw [State.size_stack_left (s := { s with steps := s.steps + 1 }) _ htop hvalue]
    change caller.stackBase ≤ _
    omega

/-- **As long as every call finds its arguments, the parts lie one above the other.** -/
theorem stacked_of_visits
    (hargs : ∀ c s, Visits env vars sink host c s → FindsArguments env c s) {c : Cursor}
    {s : State σ} (hv : Visits env vars sink host c s) : s.Stacked := by
  induction hv with
  | start h =>
    have hstart := started h
    refine ⟨by rw [hstart.framed.frames]; simp [State.entered, initial], ?_⟩
    rw [State.frameBase, hstart.framed.frames]
    simp [State.entered, initial]
  | advance hv h ih => exact (advances_of_advance h).stacked ih (hargs _ _ hv)

/-- **Instructions keep to their frame's part of the stack**, in every run of any executable. Whatever
comes of an instruction, the operands below the innermost frame's part are still there. One that takes
more operands than this frame holds fails, and so does a return without the value to return. A call
alone looks at the whole stack: it hands on the topmost operands, and fails if there are too few. If
every call of the run finds its arguments in its own function's part, then the bases of the active
frames never decrease from the outermost to the innermost, and never exceed the height of the stack. -/
theorem operands_keep_to_parts (c : Cursor) (s : State σ) (hv : Visits env vars sink host c s) :
    wpRun (advance env c) (fun _ s' => s.KeepsBelow s') (fun _ s' => s.KeepsBelow s') s ∧
    (∀ i effect, c.routine.code.decodeAt c.ip = .ok i → i.Takes env.exe effect → i.op ≠ .call →
      s.held < effect.pops → ∃ fault s', advance env c s = .error fault s' ∧
        (fault.trap.OnOperands i.op ∨ fault.trap.OnLimits)) ∧
    (∀ i, c.routine.code.decodeAt c.ip = .ok i → i.op = .ret → c.routine.returnsValue = true →
      1 < s.frames.length → s.held = 0 → ∃ fault s', advance env c s = .error fault s' ∧
        (fault.trap = .missingValue c.routine.name ∨ fault.trap.OnLimits)) ∧
    (∀ i id r, c.routine.code.decodeAt c.ip = .ok i → i.operand = .function id →
      env.exe.routine? id = some r →
      (s.stack.size < r.arity → ∃ fault s', advance env c s = .error fault s' ∧
        (fault.trap = .stackUnderflow "CALL" ∨ fault.trap.OnLimits)) ∧
      ∀ c' s', advance env c s = .ok (some c') s' →
        c' = ⟨r, 0⟩ ∧ s'.stack = s.stack ∧ s'.frameBase + r.arity = s.stack.size) ∧
    ((∀ c s, Visits env vars sink host c s → FindsArguments env c s) → s.Stacked) :=
  ⟨keepsBelow_of_advance env c s,
    fun _ _ hi htakes hcall hlt => fails_of_held_lt hi htakes hcall hlt,
    fun _ hi hret hvalue hlen hnone => fails_of_missing_value hi hret hvalue hlen hnone,
    fun _ _ _ hi hid hr => ⟨fails_of_size_lt hi hid hr, fun _ _ h => handed_of_call hi hid hr h⟩,
    fun hargs => stacked_of_visits hargs hv⟩

namespace PartsExample

/-- Pushes 1 and calls `f`. -/
def top : Routine :=
  { id := 0, name := "<top>", declaringScope := 0, scope := 0, params := [], result := .void,
    locals := 0, layout := [], code := ⟨#[8, 47, 1, 0, 50]⟩ }

/-- Has no parameters. -/
def f (code : Array UInt8) : Routine :=
  { id := 1, name := "f", declaringScope := 0, scope := 0, params := [], result := .void,
    locals := 0, layout := [], code := ⟨code⟩ }

/-- Prints its argument. -/
def g : Routine :=
  { id := 2, name := "g", declaringScope := 0, scope := 0, params := [.int], result := .void,
    locals := 0, layout := [], code := ⟨#[25, 49]⟩ }

/-- `<top>` calls `f` with one operand of its own on the stack; what `f` does is left open. -/
def setting (code : Array UInt8) (others : List Routine) : Env Unit :=
  { exe := { routines := #[top, f code] ++ others.toArray, byName := .ofList [("<top>", (0 : UInt16))] }
    config := { verify := false }
    bridge := ⟨fun _ _ host => (none, host)⟩ }

/-- In front of the first instruction of `f`, which holds nothing. -/
def inside : State Unit :=
  { host := (), steps := 2, stack := #[.int 1], frames := [⟨1, 0, 1, 0⟩, ⟨0, 4, 0, 0⟩] }

end PartsExample

open PartsExample

/-- The operand of `<top>` is still there when `f` has failed to take one. -/
theorem starvedPop_keeps_below :
    ∃ fault s', advance (setting #[31] []) ⟨f #[31], 0⟩ inside = .error fault s' ∧
      fault.trap.OnOperands .pop ∧ s'.stack[0]? = some (.int 1) ∧ inside.Stacked := by
  have hv : Visits (setting #[31] []) [] {} () ⟨f #[31], 0⟩ inside :=
    visits_of_visited? (n := 2) rfl
  have hargs : ∀ c s, Visits (setting #[31] []) [] {} () c s → FindsArguments (setting #[31] []) c s := by
    intro c s _ i id r _ _ hr
    have hmem := Executable.mem_of_routine? hr
    obtain rfl | rfl : r = top ∨ r = f #[31] := by simpa [setting] using hmem
    · exact Nat.zero_le _
    · exact Nat.zero_le _
  obtain ⟨hbelow, hfew, -, -, hstacked⟩ := operands_keep_to_parts ⟨f #[31], 0⟩ inside hv
  obtain ⟨fault, s', hfault, htrap⟩ := hfew ⟨0, .pop, .none⟩ ⟨1, 0⟩ rfl (.plain rfl) nofun
    (by decide)
  have hkept := wpRun_of_error hbelow hfault
  have hunderflow : fault.trap = .stackUnderflow "POP" := by
    have h : advance (setting #[31] []) ⟨f #[31], 0⟩ inside = .error
        (faultAt (setting #[31] []).exe ⟨f #[31], 0⟩ (.stackUnderflow "POP") inside)
        { inside with steps := 3 } := rfl
    rw [h] at hfault
    cases hfault
    rfl
  refine ⟨fault, s', hfault, ?_, hkept 0 (by decide) (.int 1) rfl, hstacked hargs⟩
  rw [hunderflow]
  rfl

/-- **A call reaches below its function's part of the stack**: here `f`, which holds nothing, calls `g`
with an operand of `<top>` for an argument. -/
theorem call_reaches_below :
    ¬ ∀ (env : Env Unit) (vars : List HostVar) (sink : Sink) (host : Unit) (c : Cursor)
      (s : State Unit) (i : Instr) (id : UInt16) (r : Routine), env.config.verify = false →
      Visits env vars sink host c s → c.routine.code.decodeAt c.ip = .ok i →
      i.operand = .function id → env.exe.routine? id = some r → s.held < r.arity →
      ∃ fault s', advance env c s = .error fault s' := by
  intro h
  have hv : Visits (setting #[47, 2, 0, 49] [g]) [] {} () ⟨f #[47, 2, 0, 49], 0⟩ inside :=
    visits_of_visited? (n := 2) rfl
  obtain ⟨fault, s', hfails⟩ := h (setting #[47, 2, 0, 49] [g]) [] {} () ⟨f #[47, 2, 0, 49], 0⟩ inside
    ⟨0, .call, .function 2⟩ 2 g rfl hv rfl rfl rfl (by decide)
  have hsucceeds : advance (setting #[47, 2, 0, 49] [g]) ⟨f #[47, 2, 0, 49], 0⟩ inside =
      .ok (some ⟨g, 0⟩) { inside with
        steps := 3
        frames := [⟨2, 0, 0, 0⟩, ⟨1, 3, 1, 0⟩, ⟨0, 4, 0, 0⟩] } := rfl
  rw [hsucceeds] at hfails
  cases hfails

end StackLang
