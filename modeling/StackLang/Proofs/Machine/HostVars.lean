import StackLang.Proofs.Machine.Visits

/-!
# The host's variables after a failed run

A run writes the host's variables only at its very end, one after the other. `vars_of_failed_run`:
if it fails before that, whatever the stage, every entry has the value it had. If an entry cannot
be read back, the ones in front of it have been overwritten by then, and the run fails all the same
(`failed_run_changes_vars`).
-/

namespace StackLang

open RunM

variable {σ : Type} {env : Env σ}

namespace RunM

/-- Reading back came to an entry that cannot be read. The entries in front of it have their new
values; it and the ones behind it are as they were. -/
inductive ReadUpTo (exe : Executable) (s : State σ) (trap : Trap) :
    List HostVar → List HostVar → Prop
  | stop {var : HostVar} {vars : List HostVar} (h : readVar exe s var = .error trap) :
      ReadUpTo exe s trap (var :: vars) (var :: vars)
  | next {var var' : HostVar} {vars vars' : List HostVar} (h : readVar exe s var = .ok var')
      (hvars : ReadUpTo exe s trap vars vars') : ReadUpTo exe s trap (var :: vars) (var' :: vars')

theorem readUpTo_of_readBack {exe : Executable} {s : State σ} {vars vars' : List HostVar}
    {trap : Trap} (h : readBack exe s vars = (vars', .error trap)) :
    ReadUpTo exe s trap vars vars' := by
  induction vars generalizing vars' with
  | nil => cases h
  | cons var vars ih =>
    unfold readBack at h
    cases hr : readVar exe s var with
    | error trap' =>
      rw [hr] at h
      cases h
      exact .stop hr
    | ok var' =>
      rw [hr] at h
      cases hback : readBack exe s vars with
      | mk vars'' result =>
        rw [hback] at h
        cases h
        exact .next hr (ih hback)

/-- What a failure of the last stage leaves: nothing was read back, or reading back failed. -/
theorem vars_of_conclude {vars : List HostVar} {s : State σ} {fault : Fault}
    (h : (conclude env vars s).result = .error fault) :
    (conclude env vars s).vars = vars ∨
      ReadUpTo env.exe s fault.trap vars (conclude env vars s).vars := by
  unfold conclude at h ⊢
  split
  · exact .inl rfl
  · rename_i hflush
    rw [hflush] at h
    dsimp only at h ⊢
    cases hback : readBack env.exe s vars with
    | mk vars' result =>
      rw [hback] at h
      cases result with
      | ok _ => cases h
      | error trap =>
        cases h
        exact .inr (readUpTo_of_readBack hback)

end RunM

/-- **A run that fails leaves the host's variables alone, unless reading them back is what fails.**
It makes no difference whether the executable was rejected, `<top>` could not be entered, a
variable could not be bound, an instruction failed or the output could not be flushed. -/
theorem vars_of_failed_run (vars : List HostVar) (sink : Sink) (host : σ) (fuel : Nat)
    (out : Outcome σ) (hrun : env.run vars sink host fuel = some out) (fault : Fault)
    (hfault : out.result = .error fault) :
    out.vars = vars ∨ ReadUpTo env.exe out.state fault.trap vars out.vars := by
  rcases run_cases hrun with ⟨trap, s, -, rfl⟩ | ⟨c, s, fault', s', -, -, rfl⟩ |
    ⟨c, s, s', -, -, rfl⟩
  · exact .inl rfl
  · exact .inl rfl
  · have hstate : (conclude env vars s').state = s' := by
      unfold conclude
      split <;> rfl
    rw [hstate]
    exact vars_of_conclude hfault

/-- `<top>` calls `f`, which stops. Both hold an instance of scope 1, where the host's variables
`a` and `b` are, but the one of `f` has no room for `b`. -/
def strayInstance : Executable :=
  let top : Routine :=
    { id := 0, name := "<top>", declaringScope := 0, scope := 1, params := [], result := .void,
      locals := 2, layout := [⟨1, 0, 2⟩], code := ⟨#[47, 1, 0, 50]⟩ }
  let f : Routine :=
    { id := 1, name := "f", declaringScope := 0, scope := 1, params := [], result := .void,
      locals := 1, layout := [⟨1, 0, 1⟩], code := ⟨#[50]⟩ }
  { ((({} : Executable).addRoutine top).2.addRoutine f).2 with
    scopeCount := 2
    topVars := [⟨"a", .int, ⟨1, 0⟩⟩, ⟨"b", .int, ⟨1, 1⟩⟩] }

/-- A host that knows no function. -/
def noHost : Bridge Unit := ⟨fun _ _ s => (none, s)⟩

/-- The variables that a run of `strayInstance` is given. -/
def strayVars : List HostVar := [⟨"a", .int 5⟩, ⟨"b", .int 7⟩]

theorem run_strayInstance :
    ∃ out, Env.run ⟨strayInstance, {}, noHost⟩ strayVars {} () 9 = some out ∧
      out.result = .error { trap := .outsideFrame ⟨1, 1⟩ } ∧
      out.vars = [⟨"a", .int 0⟩, ⟨"b", .int 7⟩] := by
  have hrun : (Env.run ⟨strayInstance, {}, noHost⟩ strayVars {} () 9).map
      (fun out => (out.result, out.vars)) =
        some (.error { trap := .outsideFrame ⟨1, 1⟩ }, [⟨"a", .int 0⟩, ⟨"b", .int 7⟩]) := by cbv
  obtain ⟨out, hout, h⟩ := Option.map_eq_some_iff.mp hrun
  exact ⟨out, hout, congrArg Prod.fst h, congrArg Prod.snd h⟩

theorem strayInstance_readUpTo :
    ∃ out, Env.run ⟨strayInstance, {}, noHost⟩ strayVars {} () 9 = some out ∧
      out.result = .error { trap := .outsideFrame ⟨1, 1⟩ } ∧
      (out.vars = strayVars ∨
        ReadUpTo strayInstance out.state (.outsideFrame ⟨1, 1⟩) strayVars out.vars) := by
  obtain ⟨out, hout, hresult, -⟩ := run_strayInstance
  exact ⟨out, hout, hresult, vars_of_failed_run strayVars {} () 9 out hout _ hresult⟩

/-- **A failed run can change a variable of the host**, even of a verified executable. -/
theorem failed_run_changes_vars :
    ¬ ∀ (env : Env Unit) (vars : List HostVar) (sink : Sink) (host : Unit) (fuel : Nat)
      (out : Outcome Unit), env.exe.verify = .ok () →
        env.run vars sink host fuel = some out → out.result.isOk = false → out.vars = vars := by
  intro h
  obtain ⟨out, hout, hresult, hvars⟩ := run_strayInstance
  have hverify : strayInstance.verify = .ok () := by cbv
  have hsame := h ⟨strayInstance, {}, noHost⟩ strayVars {} () 9 out hverify hout
    (by rw [hresult]; rfl)
  rw [hvars] at hsame
  exact absurd hsame (by decide)

end StackLang
