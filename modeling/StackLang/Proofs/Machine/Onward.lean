import StackLang.Proofs.Machine.Operations
import StackLang.Proofs.Machine.Visits

/-!
# Output and calls of the host only grow

Nothing that has been printed is taken back, and no call of the host is undone. `Onward b s s'` says
so of two states. It is an allowance, so instructions keep to it; calls and returns do as well, and
`onward_of_run` says it of a whole run.
-/

namespace StackLang

open MachineM (wp)
open RunM

variable {σ α β : Type} {b : Bridge σ}

/-! ## States -/

/-- The state of the host after some more calls. -/
inductive Bridge.Reaches (b : Bridge σ) (host : σ) : σ → Prop
  | refl : Reaches b host host
  | call {host' : σ} (h : Reaches b host host') (symbol : String) (args : List HostValue) :
      Reaches b host (b.call symbol args host').2

theorem Bridge.Reaches.trans {host host' host'' : σ} (h : b.Reaches host host')
    (h' : b.Reaches host' host'') : b.Reaches host host'' := by
  induction h' with
  | refl => exact h
  | call _ symbol args ih => exact .call ih symbol args

/-- `s'` is `s` after more output and more calls of the host. -/
structure State.Onward (b : Bridge σ) (s s' : State σ) : Prop where
  written : ∃ more, s'.sink.written = s.sink.written ++ more
  host : b.Reaches s.host s'.host

namespace State.Onward

variable {s s' s'' : State σ}

theorem of_same (hsink : s'.sink = s.sink) (hhost : s'.host = s.host) : s.Onward b s' :=
  ⟨⟨.empty, by rw [hsink, ByteArray.append_empty]⟩, hhost ▸ .refl⟩

theorem refl (s : State σ) : s.Onward b s := .of_same rfl rfl

theorem trans (h : s.Onward b s') (h' : s'.Onward b s'') : s.Onward b s'' := by
  obtain ⟨more, hmore⟩ := h.written
  obtain ⟨more', hmore'⟩ := h'.written
  exact ⟨⟨more ++ more', by rw [hmore', hmore, ByteArray.append_assoc]⟩, h.host.trans h'.host⟩

end State.Onward

/-- A sink takes a text, or the beginning of it. -/
theorem Sink.written_write (sink : Sink) (text : String) :
    ∃ more, (sink.write text).2.written = sink.written ++ more := by
  unfold Sink.write
  dsimp only
  split
  · exact ⟨_, rfl⟩
  · split <;> exact ⟨_, rfl⟩

/-- Every operation of an instruction only adds to the output and to the calls of the host. -/
def onward (b : Bridge σ) : Allowance b where
  rel := State.Onward b
  refl := State.Onward.refl
  trans := State.Onward.trans
  push _ _ := .of_same rfl rfl
  pop _ _ := .of_same rfl rfl
  var _ _ _ _ := .of_same rfl rfl
  overlay _ _ := .of_same rfl rfl
  steps _ := .of_same rfl rfl
  sink s text := ⟨s.sink.written_write text, .refl⟩
  host _ symbol args := ⟨⟨.empty, ByteArray.append_empty.symm⟩, .call .refl symbol args⟩

/-! ## Calls and returns -/

section Control

open MachineM

/-- A change of the state that touches neither the sink nor the host. -/
theorem onward_modify {f : State σ → State σ}
    (h : ∀ s, (f s).sink = s.sink ∧ (f s).host = s.host) :
    Keeps (onward b) (modify f : MachineM σ Unit) :=
  Keeps.of_modify fun s => .of_same (h s).1 (h s).2

theorem onward_enterScopes (varsBase : Nat) (layout : List ScopeLayout) :
    Keeps (onward b) (enterScopes varsBase layout : MachineM σ Unit) := by
  induction layout with
  | nil => exact .pure ()
  | cons l layout ih =>
    exact Keeps.get.bind fun _ =>
      (Keeps.throw _).ite ((onward_modify (by simp)).bind fun _ => ih)

theorem onward_enter (config : Config) (r : Routine) :
    Keeps (onward b) (enter config r : MachineM σ Unit) :=
  Keeps.get.bind fun _ => (Keeps.throw _).ite ((Keeps.throw _).ite
    ((onward_modify (by simp)).bind fun _ => (onward_enterScopes _ _).bind fun _ =>
      onward_modify (by simp)))

theorem onward_leave (r : Routine) : Keeps (onward b) (leave r : MachineM σ Unit) :=
  (Keeps.takeResult r).bind fun result => Keeps.get.bind fun s => by
    cases s.frames with
    | nil => exact .throw _
    | cons frame frames =>
      refine Keeps.bind (onward_modify (by simp)) fun _ => ?_
      cases result with
      | none => exact .pure ()
      | some v => exact .push v

end Control

/-! ## Runs -/

namespace RunM

open MachineM (Keeps)

theorem onward_call {env : Env σ} (callee : UInt16) (returnIp : Nat) :
    Keeps (onward env.bridge) (call env callee returnIp) := by
  refine Keeps.bind (onward_modify ?_) fun _ => ?_
  · intro s
    cases s.frames <;> exact ⟨rfl, rfl⟩
  · cases env.exe.routine? callee with
    | none => exact .throw _
    | some routine => exact (onward_enter _ _).bind fun _ => .pure _

theorem onward_resume (exe : Executable) : Keeps (onward b) (resume exe) :=
  Keeps.get.bind fun s => by
    cases s.frames with
    | nil => exact .throw _
    | cons frame frames =>
      dsimp only
      cases exe.routine? frame.function with
      | none => exact .throw _
      | some routine => exact .pure _

/-- An instruction of a run only adds to the output and to the calls of the host. -/
theorem onward_of_advance (env : Env σ) (c : Cursor) (s : State σ) :
    wpRun (advance env c) (fun _ s' => s.Onward env.bridge s')
      (fun _ s' => s.Onward env.bridge s') s := by
  refine wp_advance (MachineM.wp_mono (Keeps.step (R := onward env.bridge) trivial c.routine c.ip s) (fun flow s' h => ?_)
    fun _ _ h => h)
  cases flow with
  | next ip => exact h
  | halt => exact h
  | call callee returnIp =>
    exact MachineM.wp_mono (onward_call callee returnIp s') (fun _ _ h' => h.trans h')
      fun _ _ h' => h.trans h'
  | ret =>
    refine ⟨fun _ => h, fun _ => ?_⟩
    refine MachineM.wp_mono (onward_leave c.routine s') (fun _ s'' h' => ?_) fun _ _ h' => h.trans h'
    exact MachineM.wp_mono (onward_resume env.exe s'') (fun _ _ h'' => (h.trans h').trans h'')
      fun _ _ h'' => (h.trans h').trans h''

/-- The state in which a computation ended. -/
def resultState {ε : Type} : EStateM.Result ε (State σ) α → State σ
  | .ok _ s => s
  | .error _ s => s

theorem onward_of_execute {env : Env σ} {fuel : Nat} {c : Cursor} {s : State σ}
    {result : EStateM.Result Fault (State σ) Unit} (h : execute env fuel c s = some result) :
    s.Onward env.bridge (resultState result) := by
  induction fuel generalizing c s with
  | zero => cases h
  | succ fuel ih =>
    have hstep := onward_of_advance env c s
    unfold execute at h
    split at h
    · rename_i c' s' ha
      exact (wpRun_of_ok hstep ha).trans (ih h)
    · rename_i s' ha
      cases h
      exact wpRun_of_ok (Q := fun _ s' => s.Onward env.bridge s') hstep ha
    · rename_i fault s' ha
      cases h
      exact wpRun_of_error (E := fun _ s' => s.Onward env.bridge s') hstep ha

theorem onward_start (env : Env σ) (vars : List HostVar) :
    Keeps (onward env.bridge) (start env vars) := by
  have hbegin : Keeps (onward env.bridge) (enterTop env vars) := by
    unfold enterTop
    cases env.exe.top? with
    | none => exact .throw _
    | some routine =>
      exact (onward_enter _ _).bind fun _ => (Keeps.bindVars trivial _ _).bind fun _ => .pure _
  rw [start_eq]
  cases env.config.verify with
  | false => exact hbegin
  | true =>
    cases env.exe.verify with
    | error e => exact Keeps.throw _
    | ok _ => exact hbegin

theorem conclude_state (env : Env σ) (vars : List HostVar) (s : State σ) :
    (conclude env vars s).state = s := by
  unfold conclude
  cases s.sink.flush <;> rfl

end RunM

open RunM

/-- What a run leaves once it has come to the first instruction. -/
theorem executed_of_run {env : Env σ} {vars : List HostVar} {sink : Sink} {host : σ} {fuel : Nat}
    {out : Outcome σ} {c : Cursor} {s : State σ}
    (hstart : unlocated (start env vars) (initial env.exe sink host) = .ok c s)
    (h : env.run vars sink host fuel = some out) :
    ∃ result, execute env fuel c s = some result ∧ out.state = resultState result := by
  unfold Env.run at h
  rw [hstart] at h
  dsimp only at h
  split at h
  · cases h
  · rename_i fault s' hexec
    cases h
    exact ⟨_, hexec, rfl⟩
  · rename_i s' hexec
    cases h
    exact ⟨_, hexec, conclude_state env vars s'⟩

/-- **Output and calls only grow**: what a run leaves is what it began with, after more output and
more calls of the host. -/
theorem onward_of_run {env : Env σ} {vars : List HostVar} {sink : Sink} {host : σ} {fuel : Nat}
    {out : Outcome σ} (h : env.run vars sink host fuel = some out) :
    (initial env.exe sink host).Onward env.bridge out.state := by
  have hgoes : wpRun (unlocated (start env vars))
      (fun _ s => (initial env.exe sink host).Onward env.bridge s)
      (fun _ s => (initial env.exe sink host).Onward env.bridge s) (initial env.exe sink host) :=
    (wpRun_unlocated _).mpr (onward_start env vars _)
  cases hstart : unlocated (start env vars) (initial env.exe sink host) with
  | error fault s =>
    unfold Env.run at h
    rw [hstart] at h
    cases h
    exact wpRun_of_error hgoes hstart
  | ok c s =>
    obtain ⟨result, hexec, hstate⟩ := executed_of_run hstart h
    rw [hstate]
    exact (wpRun_of_ok hgoes hstart).trans (onward_of_execute hexec)

end StackLang
