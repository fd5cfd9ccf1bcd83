import StackLang.Proofs.Machine.Frames

/-!
# The states of a run

`Visits env vars sink host c s` says that a run comes to the instruction at `c` in state `s`.
`run_cases` says how a run can end: before the first instruction, at an instruction that fails, or
at one that ends it. `wp_advance` takes a statement about an instruction apart into one about its
step, its call and its return.
-/

namespace StackLang

open MachineM (wp)

namespace RunM

variable {σ α : Type}

/-- `Q` holds of the result of a step of a run if it succeeds, `E` of its fault if it fails. -/
def wpRun (m : RunM σ α) (Q : α → State σ → Prop) (E : Fault → State σ → Prop)
    (s : State σ) : Prop :=
  match m s with
  | .ok a s' => Q a s'
  | .error fault s' => E fault s'

theorem wpRun_of_ok {m : RunM σ α} {Q : α → State σ → Prop} {E : Fault → State σ → Prop}
    {s s' : State σ} {a : α} (h : wpRun m Q E s) (hm : m s = .ok a s') : Q a s' := by
  rwa [wpRun, hm] at h

theorem wpRun_of_error {m : RunM σ α} {Q : α → State σ → Prop} {E : Fault → State σ → Prop}
    {s s' : State σ} {fault : Fault} (h : wpRun m Q E s) (hm : m s = .error fault s') :
    E fault s' := by
  rwa [wpRun, hm] at h

/-- A step of a run, by what comes of it. -/
theorem wpRun_of_cases {m : RunM σ α} {Q : α → State σ → Prop} {E : Fault → State σ → Prop}
    {s : State σ} (hQ : ∀ a s', m s = .ok a s' → Q a s')
    (hE : ∀ fault s', m s = .error fault s' → E fault s') : wpRun m Q E s := by
  unfold wpRun
  cases hm : m s with
  | ok a s' => exact hQ a s' hm
  | error fault s' => exact hE fault s' hm

/-! ## The beginning -/

/-- What `start` does with an executable that is not rejected. -/
def enterTop (env : Env σ) (vars : List HostVar) : MachineM σ Cursor :=
  match env.exe.top? with
  | none => throw .noTop
  | some routine => do
    MachineM.enter env.config routine
    bindVars env.exe vars
    return { routine, ip := 0 }

theorem start_eq (env : Env σ) (vars : List HostVar) :
    start env vars =
      if env.config.verify then
        match env.exe.verify with
        | .error e => throw (.rejected e)
        | .ok _ => enterTop env vars
      else enterTop env vars := by
  unfold start enterTop
  cases env.config.verify with
  | false => rfl
  | true => cases env.exe.verify <;> rfl

/-! ## Calls and returns -/

section Control

variable {env : Env σ} {s : State σ} {Q : Cursor → State σ → Prop} {E : Trap → State σ → Prop}

/-- The state in which the innermost function has noted where it goes on. -/
def paused (s : State σ) (returnIp : Nat) : State σ :=
  match s.frames with
  | [] => s
  | frame :: frames => { s with frames := { frame with returnIp } :: frames }

theorem paused_of_frames {frame : Frame} {frames : List Frame} (h : s.frames = frame :: frames)
    (returnIp : Nat) :
    paused s returnIp = { s with frames := { frame with returnIp } :: frames } := by
  rw [paused, h]

theorem wp_call {callee : UInt16} {returnIp : Nat}
    (hnone : env.exe.routine? callee = none → E (.unknownFunction callee) (paused s returnIp))
    (hsome : ∀ r, env.exe.routine? callee = some r →
      wp (MachineM.enter env.config r) (fun _ s' => Q { routine := r, ip := 0 } s') E
        (paused s returnIp)) :
    wp (call env callee returnIp) Q E s := by
  simp only [call, MachineM.wp_bind, MachineM.wp_modify]
  change wp _ Q E (paused s returnIp)
  cases hr : env.exe.routine? callee with
  | none => exact hnone hr
  | some r =>
    simp only [MachineM.wp_bind, MachineM.wp_pure]
    exact hsome r hr

theorem wp_resume {frame : Frame} {frames : List Frame} {r : Routine}
    (hframes : s.frames = frame :: frames) (hr : env.exe.routine? frame.function = some r)
    (hQ : Q { routine := r, ip := frame.returnIp } s) : wp (resume env.exe) Q E s := by
  simp only [resume, MachineM.wp_bind, MachineM.wp_get, hframes, hr]
  exact hQ

end Control

/-! ## One instruction -/

/-- The fault of an instruction that traps. -/
def faultAt (exe : Executable) (c : Cursor) (trap : Trap) (s : State σ) : Fault :=
  Fault.located { trap, callStack := activeNames exe s } c.routine.name c.ip

section Laws

variable {β : Type} {Q : α → State σ → Prop} {E : Fault → State σ → Prop} {s : State σ}

theorem wpRun_pure (a : α) : wpRun (pure a : RunM σ α) Q E s ↔ Q a s := Iff.rfl

theorem wpRun_get {Q : State σ → State σ → Prop} :
    wpRun (get : RunM σ (State σ)) Q E s ↔ Q s s := Iff.rfl

theorem wpRun_bind (m : RunM σ β) (f : β → RunM σ α) :
    wpRun (m >>= f) Q E s ↔ wpRun m (fun b s' => wpRun (f b) Q E s') E s := by
  unfold wpRun
  simp only [bind, EStateM.bind]
  cases m s <;> rfl

theorem wpRun_located (exe : Executable) (c : Cursor) (m : MachineM σ α) :
    wpRun (located exe c m) Q E s ↔ wp m Q (fun trap s' => E (faultAt exe c trap s') s') s := by
  unfold wpRun wp located
  cases m s <;> rfl

theorem wpRun_unlocated (m : MachineM σ α) :
    wpRun (unlocated m) Q E s ↔ wp m Q (fun trap s' => E { trap } s') s := by
  unfold wpRun wp unlocated
  cases m s <;> rfl

end Laws

/-- An instruction, taken apart. -/
theorem wp_advance {env : Env σ} {c : Cursor} {s : State σ} {Q : Option Cursor → State σ → Prop}
    {E : Fault → State σ → Prop}
    (h : wp (MachineM.step env c.routine c.ip) (fun flow s' =>
        match flow with
        | .next ip => Q (some { c with ip }) s'
        | .call callee returnIp =>
          wp (call env callee returnIp) (fun c' => Q (some c'))
            (fun trap s'' => E (faultAt env.exe c trap s'') s'') s'
        | .ret =>
          (s'.frames.length ≤ 1 → Q none s') ∧ (1 < s'.frames.length →
            wp (MachineM.leave c.routine) (fun _ s'' =>
                wp (resume env.exe) (fun c' => Q (some c')) (fun trap => E { trap }) s'')
              (fun trap s'' => E (faultAt env.exe c trap s'') s'') s')
        | .halt => Q none s')
      (fun trap s' => E (faultAt env.exe c trap s') s') s) :
    wpRun (advance env c) Q E s := by
  rw [advance, wpRun_bind, wpRun_located]
  refine MachineM.wp_mono h (fun flow s' h => ?_) fun _ _ h => h
  cases flow with
  | next ip => exact h
  | halt => exact h
  | call callee returnIp =>
    simp only [wpRun_bind, wpRun_located, wpRun_pure]
    exact h
  | ret =>
    simp only [wpRun_bind, wpRun_get]
    match hf : s'.frames with
    | [] => exact h.1 (by simp [hf])
    | [_] => exact h.1 (by simp [hf])
    | _ :: _ :: _ =>
      simp only [wpRun_bind, wpRun_located, wpRun_unlocated, wpRun_pure]
      exact h.2 (by simp [hf])

end RunM

open RunM

variable {σ : Type}

/-- A run comes to the instruction at a cursor in a state. -/
inductive Visits (env : Env σ) (vars : List HostVar) (sink : Sink) (host : σ) :
    Cursor → State σ → Prop
  | start {c : Cursor} {s : State σ} (h : start env vars (initial env.exe sink host) = .ok c s) :
      Visits env vars sink host c s
  | advance {c c' : Cursor} {s s' : State σ} (hv : Visits env vars sink host c s)
      (h : advance env c s = .ok (some c') s') : Visits env vars sink host c' s'

/-- Where a run is after a number of instructions, if it has come so far. -/
def RunM.visited? (env : Env σ) (vars : List HostVar) (sink : Sink) (host : σ) :
    (n : Nat) → Option (Cursor × State σ)
  | 0 =>
    match start env vars (initial env.exe sink host) with
    | .ok c s => some (c, s)
    | .error _ _ => none
  | n + 1 => (visited? env vars sink host n).bind fun x =>
    match advance env x.1 x.2 with
    | .ok (some c) s => some (c, s)
    | _ => none

variable {env : Env σ} {vars : List HostVar} {sink : Sink} {host : σ}

theorem visits_of_visited? {n : Nat} {c : Cursor} {s : State σ}
    (h : visited? env vars sink host n = some (c, s)) : Visits env vars sink host c s := by
  induction n generalizing c s with
  | zero =>
    unfold visited? at h
    split at h
    · cases h
      exact .start ‹_›
    · cases h
  | succ n ih =>
    obtain ⟨⟨c', s'⟩, hbefore, h⟩ := Option.bind_eq_some_iff.mp h
    split at h
    · cases h
      exact (ih hbefore).advance ‹_›
    · cases h

/-- One more instruction has led there. -/
theorem advance_of_visited? {n : Nat} {x y : Cursor × State σ}
    (h : visited? env vars sink host n = some x) (h' : visited? env vars sink host (n + 1) = some y) :
    advance env x.1 x.2 = .ok (some y.1) y.2 := by
  rw [visited?, h, Option.bind_some] at h'
  split at h'
  · cases h'
    assumption
  · cases h'

theorem execute_cases {fuel : Nat} {c : Cursor} {s : State σ}
    {result : EStateM.Result Fault (State σ) Unit} (hv : Visits env vars sink host c s)
    (h : execute env fuel c s = some result) :
    ∃ c' s', Visits env vars sink host c' s' ∧
      ((∃ fault s'', advance env c' s' = .error fault s'' ∧ result = .error fault s'') ∨
        ∃ s'', advance env c' s' = .ok none s'' ∧ result = .ok () s'') := by
  induction fuel generalizing c s with
  | zero => cases h
  | succ fuel ih =>
    unfold execute at h
    split at h
    · rename_i c' s' ha
      exact ih (hv.advance ha) h
    · rename_i s' ha
      exact ⟨c, s, hv, .inr ⟨s', ha, by cases h; rfl⟩⟩
    · rename_i fault s' ha
      exact ⟨c, s, hv, .inl ⟨fault, s', ha, by cases h; rfl⟩⟩

/-- **How a run ends**: before the first instruction, at an instruction that fails, or at one that
ends it. -/
theorem run_cases {fuel : Nat} {out : Outcome σ} (h : env.run vars sink host fuel = some out) :
    (∃ trap s, start env vars (initial env.exe sink host) = .error trap s ∧
      out = { result := .error { trap }, vars, state := s }) ∨
    (∃ c s fault s', Visits env vars sink host c s ∧ advance env c s = .error fault s' ∧
      out = { result := .error fault, vars, state := s' }) ∨
    ∃ c s s', Visits env vars sink host c s ∧ advance env c s = .ok none s' ∧
      out = conclude env vars s' := by
  unfold Env.run unlocated at h
  cases hstart : start env vars (initial env.exe sink host) with
  | error trap s =>
    rw [hstart] at h
    cases h
    exact .inl ⟨trap, s, rfl, rfl⟩
  | ok c s =>
    rw [hstart] at h
    dsimp only at h
    cases hexec : execute env fuel c s with
    | none => rw [hexec] at h; cases h
    | some result =>
      rw [hexec] at h
      obtain ⟨c', s', hv, ⟨fault, s'', ha, rfl⟩ | ⟨s'', ha, rfl⟩⟩ :=
        execute_cases (.start hstart) hexec
      · cases h
        exact .inr (.inl ⟨c', s', fault, s'', hv, ha, rfl⟩)
      · cases h
        exact .inr (.inr ⟨c', s', s'', hv, ha, rfl⟩)

end StackLang
