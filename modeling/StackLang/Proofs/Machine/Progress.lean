import StackLang.Proofs.Machine.Visits

/-!
# Where a run comes to

`Runs env cut Q c s` says that a run from the instruction at `c` comes to where `Q` holds, unless a
trap in `cut` ends it before; `Lasts env cut n c s`, that it executes `n` instructions, with the
same exception. `Steps` is one instruction: `steps_next`, `steps_call` and `steps_ret` say where it
leads; `execute_of_runs` and `execute_of_lasts` say what runs mean for `execute`.
-/

namespace StackLang

open MachineM (wp)
open RunM

variable {σ : Type} {env : Env σ} {cut : Trap → Prop} {Q R : Cursor → State σ → Prop}
  {c : Cursor} {s : State σ} {n m : Nat}

/-- A run comes to where `Q` holds, or is cut short. -/
inductive Runs (env : Env σ) (cut : Trap → Prop) (Q : Cursor → State σ → Prop) :
    Cursor → State σ → Prop
  | here {c : Cursor} {s : State σ} (h : Q c s) : Runs env cut Q c s
  | step {c c' : Cursor} {s s' : State σ} (ha : advance env c s = .ok (some c') s')
      (h : Runs env cut Q c' s') : Runs env cut Q c s
  | cut {c : Cursor} {s s' : State σ} {fault : Fault} (ha : advance env c s = .error fault s')
      (hcut : cut fault.trap) : Runs env cut Q c s

/-- A run executes `n` instructions and does not end with them, or is cut short. -/
inductive Lasts (env : Env σ) (cut : Trap → Prop) : Nat → Cursor → State σ → Prop
  | zero {c : Cursor} {s : State σ} : Lasts env cut 0 c s
  | step {n : Nat} {c c' : Cursor} {s s' : State σ} (ha : advance env c s = .ok (some c') s')
      (h : Lasts env cut n c' s') : Lasts env cut (n + 1) c s
  | cut {n : Nat} {c : Cursor} {s s' : State σ} {fault : Fault}
      (ha : advance env c s = .error fault s') (hcut : cut fault.trap) : Lasts env cut n c s

theorem Runs.bind (h : Runs env cut Q c s) (hQ : ∀ c s, Q c s → Runs env cut R c s) :
    Runs env cut R c s := by
  induction h with
  | here h => exact hQ _ _ h
  | step ha _ ih => exact .step ha ih
  | cut ha hcut => exact .cut ha hcut

theorem Runs.mono (h : Runs env cut Q c s) (hQ : ∀ c s, Q c s → R c s) : Runs env cut R c s :=
  h.bind fun c s hq => .here (hQ c s hq)

theorem Lasts.le (h : Lasts env cut n c s) (hle : m ≤ n) : Lasts env cut m c s := by
  induction h generalizing m with
  | zero =>
    obtain rfl := Nat.le_zero.mp hle
    exact .zero
  | step ha _ ih =>
    cases m with
    | zero => exact .zero
    | succ m => exact .step ha (ih (Nat.le_of_succ_le_succ hle))
  | cut ha hcut => exact .cut ha hcut

theorem Runs.lasts (h : Runs env cut Q c s) (hQ : ∀ c s, Q c s → Lasts env cut n c s) :
    Lasts env cut n c s := by
  induction h with
  | here h => exact hQ _ _ h
  | step ha _ ih => exact (Lasts.step ha ih).le (Nat.le_succ n)
  | cut ha hcut => exact .cut ha hcut

/-! ## One instruction -/

/-- A run executes the instruction at a cursor and comes to where `Q` holds, or is cut short. -/
def Steps (env : Env σ) (cut : Trap → Prop) (Q : Cursor → State σ → Prop) (c : Cursor)
    (s : State σ) : Prop :=
  wpRun (advance env c) (fun c'? s' => ∃ c', c'? = some c' ∧ Q c' s') (fun fault _ => cut fault.trap) s

theorem Steps.runs (h : Steps env cut (Runs env cut Q) c s) : Runs env cut Q c s := by
  cases ha : advance env c s with
  | ok c'? s' =>
    obtain ⟨c', rfl, h'⟩ := wpRun_of_ok h ha
    exact .step ha h'
  | error fault s' => exact .cut ha (wpRun_of_error h ha)

theorem Steps.lasts (h : Steps env cut (Lasts env cut n) c s) : Lasts env cut (n + 1) c s := by
  cases ha : advance env c s with
  | ok c'? s' =>
    obtain ⟨c', rfl, h'⟩ := wpRun_of_ok h ha
    exact .step ha h'
  | error fault s' => exact .cut ha (wpRun_of_error h ha)

theorem Steps.mono (h : Steps env cut Q c s) (hQ : ∀ c s, Q c s → R c s) : Steps env cut R c s := by
  unfold Steps wpRun at *
  split at h
  · obtain ⟨c', rfl, h⟩ := h
    exact ⟨c', rfl, hQ _ _ h⟩
  · exact h

/-- Limits of the machine cut runs short. -/
structure CutsLimits (cut : Trap → Prop) : Prop where
  steps : ∀ limit, cut (.stepLimit limit)
  stack : ∀ limit, cut (.stackLimit limit)
  depth : ∀ limit name, cut (.callDepth limit name)
  pool : cut .poolExhausted

/-- The instruction at a cursor, the check of the limits apart. -/
theorem wpRun_advance {E : Trap → State σ → Prop} (hcut : CutsLimits cut)
    (hE : ∀ {trap s'}, cut trap → E trap s') {i : Instr}
    (hi : c.routine.code.decodeAt c.ip = .ok i) {Q : Option Cursor → State σ → Prop}
    (h : wp (MachineM.stepInstr env i) (fun flow s' =>
        match flow with
        | .next ip => Q (some { c with ip }) s'
        | .call callee returnIp => wp (call env callee returnIp) (fun c' => Q (some c')) E s'
        | .ret =>
          (s'.frames.length ≤ 1 → Q none s') ∧ (1 < s'.frames.length →
            wp (MachineM.leave c.routine) (fun _ s'' =>
              wp (resume env.exe) (fun c' => Q (some c')) E s'') E s')
        | .halt => Q none s')
      E { s with steps := s.steps + 1 }) :
    wpRun (advance env c) Q (fun fault s' => E fault.trap s') s := by
  refine wp_advance ?_
  rw [MachineM.step, MachineM.wp_bind]
  refine MachineM.wp_tick (fun _ _ => hE (hcut.steps _)) (fun _ _ => hE (hcut.stack _)) ?_
  rw [hi]
  exact h

/-- An instruction that only goes on. -/
theorem steps_next (hcut : CutsLimits cut) {i : Instr}
    (hi : c.routine.code.decodeAt c.ip = .ok i)
    (h : wp (MachineM.stepInstr env i)
      (fun flow s' => ∃ ip, flow = .next ip ∧ Q { c with ip } s')
      (fun trap _ => cut trap) { s with steps := s.steps + 1 }) : Steps env cut Q c s := by
  refine wpRun_advance (E := fun trap _ => cut trap) hcut (fun h => h) hi ?_
  refine MachineM.wp_mono h (fun flow s' h => ?_) fun _ _ h => h
  obtain ⟨ip, rfl, h⟩ := h
  exact ⟨_, rfl, h⟩

/-- An instruction that fails. -/
theorem fails_of_wp {E : Trap → State σ → Prop} (hcut : CutsLimits cut)
    (hE : ∀ {trap s'}, cut trap → E trap s') {i : Instr}
    (hi : c.routine.code.decodeAt c.ip = .ok i)
    (h : wp (MachineM.stepInstr env i) (fun _ _ => False) E { s with steps := s.steps + 1 }) :
    wpRun (advance env c) (fun _ _ => False) (fun fault s' => E fault.trap s') s := by
  refine wpRun_advance (E := E) hcut hE hi ?_
  exact MachineM.wp_mono h (fun _ _ h => h.elim) fun _ _ h => h

theorem steps_call (hcut : CutsLimits cut) {i : Instr} {id : UInt16} {r : Routine}
    (hi : c.routine.code.decodeAt c.ip = .ok i) (hid : i.operand = .function id)
    (hr : env.exe.routine? id = some r) (hargs : r.arity ≤ s.stack.size)
    (hscopes : ∀ l ∈ r.layout, l.scope.toNat < s.instances.size)
    (h : Q ⟨r, 0⟩ ((paused { s with steps := s.steps + 1 } i.next).entered r)) :
    Steps env cut Q c s := by
  refine wpRun_advance (E := fun trap _ => cut trap) hcut (fun h => h) hi ?_
  simp only [MachineM.stepInstr, hid, MachineM.wp_pure]
  have hpaused : (paused { s with steps := s.steps + 1 } i.next).stack = s.stack ∧
      (paused { s with steps := s.steps + 1 } i.next).instances = s.instances := by
    unfold paused
    split <;> exact ⟨rfl, rfl⟩
  refine wp_call (fun hnone => absurd (hr.symm.trans hnone) (by simp)) fun r' hr' => ?_
  obtain rfl := Option.some.inj (hr.symm.trans hr')
  refine MachineM.wp_enter (fun _ => hcut.depth _ _) (fun hlt => ?_) (fun l hl hle => ?_)
    ⟨_, rfl, h⟩
  · rw [hpaused.1] at hlt
    omega
  · rw [hpaused.2] at hle
    exact absurd (hscopes l hl) (Nat.not_lt.mpr hle)

theorem steps_ret (hcut : CutsLimits cut) {i : Instr} {frame caller : Frame} {frames : List Frame}
    {r : Routine} (hi : c.routine.code.decodeAt c.ip = .ok i) (hop : i.op = .ret)
    (hoperand : i.operand = .none) (hframes : s.frames = frame :: caller :: frames)
    (hvalue : c.routine.returnsValue = true → frame.stackBase < s.stack.size)
    (hr : env.exe.routine? caller.function = some r)
    (h : Q ⟨r, caller.returnIp⟩
      (({ s with steps := s.steps + 1 } : State σ).left c.routine frame (caller :: frames))) :
    Steps env cut Q c s := by
  refine wpRun_advance (E := fun trap _ => cut trap) hcut (fun h => h) hi ?_
  simp only [MachineM.stepInstr, hoperand, hop, MachineM.wp_pure]
  refine ⟨fun hle => by simp [hframes] at hle, fun _ => ?_⟩
  refine MachineM.wp_leave (s := { s with steps := s.steps + 1 }) hframes
    (fun hret hle => absurd (hvalue hret) (Nat.not_lt.mpr hle)) fun _ => ?_
  exact wp_resume rfl hr ⟨_, rfl, h⟩

/-! ## What it means for execution -/

theorem execute_le {fuel more : Nat} {result : EStateM.Result Fault (State σ) Unit}
    (h : execute env fuel c s = some result) (hle : fuel ≤ more) :
    execute env more c s = some result := by
  induction fuel generalizing c s more with
  | zero => cases h
  | succ fuel ih =>
    obtain ⟨more, rfl⟩ := Nat.exists_eq_add_of_le' (Nat.le_trans (Nat.succ_pos fuel) hle)
    unfold execute at h ⊢
    cases ha : advance env c s with
    | error fault s' => rwa [ha] at h
    | ok c'? s' =>
      rw [ha] at h
      cases c'? with
      | none => exact h
      | some c' => exact ih h (Nat.le_of_succ_le_succ hle)

section Outcomes

variable {vars : List HostVar} {sink : Sink} {host : σ} {fuel more : Nat} {out out' : Outcome σ}

theorem run_le (h : env.run vars sink host fuel = some out) (hle : fuel ≤ more) :
    env.run vars sink host more = some out := by
  unfold Env.run at h ⊢
  cases hstart : unlocated (start env vars) (initial env.exe sink host) with
  | error fault state =>
    rw [hstart] at h
    exact h
  | ok c s =>
    rw [hstart] at h
    dsimp only at h ⊢
    cases hexec : execute env fuel c s with
    | none =>
      rw [hexec] at h
      cases h
    | some result =>
      rw [hexec] at h
      rw [execute_le hexec hle]
      exact h

/-- A run has one outcome. -/
theorem run_unique (h : env.run vars sink host fuel = some out)
    (h' : env.run vars sink host more = some out') : out = out' := by
  rcases Nat.le_total fuel more with hle | hle
  · exact Option.some.inj ((run_le h hle).symm.trans h')
  · exact Option.some.inj (h.symm.trans (run_le h' hle))

end Outcomes

/-- A run that is not cut short comes to where `Q` holds. -/
theorem execute_of_runs (h : Runs env cut Q c s) :
    (∃ fuel fault s', execute env fuel c s = some (.error fault s') ∧ cut fault.trap) ∨
    ∃ fuel c' s', Q c' s' ∧ ∀ more, execute env (fuel + more) c s = execute env more c' s' := by
  induction h with
  | @here c s h => exact .inr ⟨0, c, s, h, fun more => by rw [Nat.zero_add]⟩
  | @step c c' s s' ha _ ih =>
    rcases ih with ⟨fuel, fault, s'', hexec, hcut⟩ | ⟨fuel, c'', s'', hq, hexec⟩
    · refine .inl ⟨fuel + 1, fault, s'', ?_, hcut⟩
      rw [execute, ha]
      exact hexec
    · refine .inr ⟨fuel + 1, c'', s'', hq, fun more => ?_⟩
      rw [Nat.add_right_comm, execute, ha]
      exact hexec more
  | @cut c s s' fault ha hcut =>
    refine .inl ⟨1, fault, s', ?_, hcut⟩
    rw [execute, ha]

/-- A run that lasts is not over before, unless it is cut short. -/
theorem execute_of_lasts (h : Lasts env cut n c s)
    {result : EStateM.Result Fault (State σ) Unit} {fuel : Nat} (hle : fuel ≤ n)
    (hexec : execute env fuel c s = some result) :
    ∃ fault s', result = .error fault s' ∧ cut fault.trap := by
  induction h generalizing fuel with
  | zero =>
    obtain rfl := Nat.le_zero.mp hle
    cases hexec
  | step ha _ ih =>
    cases fuel with
    | zero => cases hexec
    | succ fuel =>
      rw [execute, ha] at hexec
      exact ih (Nat.le_of_succ_le_succ hle) hexec
  | cut ha hcut =>
    cases fuel with
    | zero => cases hexec
    | succ fuel =>
      rw [execute, ha] at hexec
      cases hexec
      exact ⟨_, _, rfl, hcut⟩

end StackLang
