import StackLang.Proofs.Verify.Runs

/-!
# Soundness of verification

`verify_sound`: whatever its host variables, its host and its limits, a run of a verified
executable never underflows the stack, never leaves the code of a function, never meets bytes that
are no instruction, and never names a function, a host function or a string that does not exist.
The executable may have been made by hand; only the ids of its functions must be their places, its
strings must be a pool made by the pool's own operations, and `<top>` must take no parameters.
-/

namespace StackLang

open Executable RunM

variable {σ : Type} {env : Env σ}

/-- **A run that fails has not met a structural trap**, at any call depth. -/
theorem Executable.Sound.run_not_structural (he : env.exe.Sound) {vars : List HostVar}
    {sink : Sink} {host : σ} {fuel : Nat} {out : Outcome σ}
    (hrun : env.run vars sink host fuel = some out) {fault : Fault}
    (hfault : out.result = .error fault) : fault.trap.isStructural = false := by
  rcases run_cases hrun with ⟨trap, s, hstart, rfl⟩ | ⟨c, s, fault', s', hv, ha, rfl⟩ |
    ⟨c, s, s', hv, ha, rfl⟩
  · cases hfault
    exact MachineM.wp_of_error (wp_start_onPaths he vars sink host) hstart
  · cases hfault
    exact wpRun_of_error (wpRun_advance_onPaths he (onPaths_of_visits he hv)) ha
  · have hknown : s'.KnownValues env.exe :=
      (wpRun_of_ok (wpRun_advance_onPaths he (onPaths_of_visits he hv)) ha).2.2
    unfold conclude at hfault
    split at hfault
    · cases hfault
      rfl
    · dsimp only at hfault
      cases hback : (readBack env.exe s' vars).2 with
      | ok _ =>
        rw [hback] at hfault
        cases hfault
      | error trap =>
        rw [hback] at hfault
        cases hfault
        exact readBack_not_structural he.pool hknown hback

/-- **Verification is sound.** No run of a verified executable meets a structural trap: a stack
underflow, an instruction that cannot be decoded, or a function, a host function or a string that
does not exist. -/
theorem verify_sound (hpool : env.exe.strings.Built) (hids : env.exe.IdsArePlaces)
    (hverify : env.exe.verify = .ok ()) (htop : ∀ r, env.exe.top? = some r → r.arity = 0)
    (vars : List HostVar) (sink : Sink) (host : σ) (fuel : Nat) (out : Outcome σ)
    (hrun : env.run vars sink host fuel = some out) (fault : Fault)
    (hfault : out.result = .error fault) : fault.trap.isStructural = false :=
  Sound.run_not_structural ⟨hpool.sound, hids, hverify, htop⟩ hrun hfault

/-- `<top>` is int0, call f, printInt, stop, and `f` is int1, divInt, ret: it divides 1 by 0. -/
def divisionExample : Executable :=
  let top : Routine :=
    { id := 0, name := "<top>", declaringScope := 0, scope := 1, params := [], result := .void,
      locals := 0, layout := [],
      code := ⟨#[5, 47, 1, 0, 25, 50]⟩ }
  let f : Routine :=
    { id := 1, name := "f", declaringScope := 0, scope := 2, params := [.int],
      result := .int, locals := 0, layout := [],
      code := ⟨#[8, 18, 49]⟩ }
  ((({} : Executable).addRoutine top).2.addRoutine f).2

theorem divisionExample_not_structural :
    divisionExample.strings.Built ∧ divisionExample.IdsArePlaces ∧
      divisionExample.verify = .ok () ∧ (∀ r, divisionExample.top? = some r → r.arity = 0) ∧
      ∃ out fault, Env.run ⟨divisionExample, {}, ⟨fun _ _ s => (none, s)⟩⟩ [] {} () 9 = some out ∧
        out.result = .error fault ∧ fault.trap.isStructural = false := by
  have hpool : divisionExample.strings.Built := by
    unfold divisionExample Executable.addRoutine
    repeat' split
    all_goals exact StringPool.built_empty
  have hids : divisionExample.IdsArePlaces :=
    IdsArePlaces.addRoutine (IdsArePlaces.addRoutine idsArePlaces_empty _) _
  have hverify : divisionExample.verify = .ok () := by cbv
  have htop : ∀ r, divisionExample.top? = some r → r.arity = 0 := by
    intro r h
    have harity : divisionExample.top?.map (·.arity) = some 0 := by cbv
    simpa [h] using harity
  have hrun : (Env.run ⟨divisionExample, {}, ⟨fun _ _ s => (none, s)⟩⟩ [] {} () 9).map
      (fun out => out.result.isOk) = some false := by cbv
  obtain ⟨out, hout, hresult⟩ := Option.map_eq_some_iff.mp hrun
  cases hfault : out.result with
  | ok _ => rw [hfault] at hresult; cases hresult
  | error fault =>
    exact ⟨hpool, hids, hverify, htop, out, fault, hout, hfault,
      verify_sound hpool hids hverify htop [] {} () 9 out hout fault hfault⟩

end StackLang
