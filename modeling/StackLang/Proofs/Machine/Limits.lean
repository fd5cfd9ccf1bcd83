import StackLang.Proofs.Machine.Advance
import StackLang.Proofs.Machine.Onward
import StackLang.Proofs.Machine.Progress

/-!
# What a limit changes

Two runs of one executable, with one host, under two configurations of which the second allows at
least as much. `limits_only_cut_short`: they are the same run, unless a limit of the first ends it;
then its output and its calls of the host are the beginning of those of the second.

The two runs are compared instruction by instruction. The limits are looked at in two places, in
front of an instruction and on entering a function; `Cut` says of either that the two do the same or
that the first ends there, with nothing printed and the host not called.
-/

namespace StackLang

open MachineM (wp)
open RunM

variable {σ α β : Type} {exe : Executable} {config config' : Config} {b : Bridge σ}

/-- `config'` differs in its limits only and allows at least as much. -/
structure Config.LimitsLe (config config' : Config) : Prop where
  verify : config'.verify = config.verify
  depth : config.maxCallDepth ≤ config'.maxCallDepth
  steps : ∀ limit', config'.maxSteps = some limit' →
    ∃ limit, config.maxSteps = some limit ∧ limit ≤ limit'
  stack : config.maxStackSize ≤ config'.maxStackSize

/-- The traps with which a limit of the configuration ends a run. -/
def Trap.isConfigured : Trap → Bool
  | stepLimit _ | stackLimit _ | callDepth _ _ => true
  | _ => false

/-- A limit of the configuration has ended the run. -/
def Outcome.CutShort (out : Outcome σ) : Prop :=
  ∃ fault, out.result = .error fault ∧ fault.trap.isConfigured = true

/-! ## Calls of the host -/

/-- The host keeps a record of the calls it was made, each with its arguments. -/
def Bridge.Logs (b : Bridge σ) (log : σ → List (String × List HostValue)) : Prop :=
  ∀ symbol args host, log (b.call symbol args host).2 = log host ++ [(symbol, args)]

/-- The same host, with a record of its calls. -/
def Bridge.recording (b : Bridge σ) : Bridge (σ × List (String × List HostValue)) where
  call symbol args host :=
    ((b.call symbol args host.1).1, (b.call symbol args host.1).2, host.2 ++ [(symbol, args)])

/-- Any host can be made to keep a record. -/
theorem Bridge.recording_logs (b : Bridge σ) : b.recording.Logs Prod.snd := fun _ _ _ => rfl

theorem Bridge.Logs.prefix_of_reaches {log : σ → List (String × List HostValue)} {host host' : σ}
    (hlog : b.Logs log) (h : b.Reaches host host') : log host <+: log host' := by
  induction h with
  | refl => exact List.prefix_refl _
  | call _ symbol args ih =>
    rw [hlog]
    exact ih.trans (List.prefix_append _ _)

/-! ## Two computations -/

/-- Nothing has been printed and the host has not been called. -/
def State.Quiet (s s' : State σ) : Prop := s'.sink = s.sink ∧ s'.host = s.host

theorem State.Quiet.trans {s s' s'' : State σ} (h : s.Quiet s') (h' : s'.Quiet s'') :
    s.Quiet s'' :=
  ⟨h'.1.trans h.1, h'.2.trans h.2⟩

/-- Two computations do the same from a state, or a limit ends the first, which has been quiet until
then. -/
def Cut {ε : Type} (limited : ε → Prop) (m m' : EStateM ε (State σ) α) (s : State σ) : Prop :=
  m s = m' s ∨ ∃ e s', m s = .error e s' ∧ limited e ∧ s.Quiet s'

namespace Cut

variable {ε : Type} {limited : ε → Prop} {s : State σ}

/-- Two computations one after the other. What follows the first may differ where that was quiet. -/
theorem bind {m m' : EStateM ε (State σ) β} {f f' : β → EStateM ε (State σ) α}
    (hm : Cut limited m m' s)
    (h : ∀ x s', m s = .ok x s' → f x s' = f' x s' ∨ s.Quiet s' ∧ Cut limited (f x) (f' x) s') :
    Cut limited (m >>= f) (m' >>= f') s := by
  rcases hm with hm | ⟨e, s', hm, hrest⟩
  · cases hms : m s with
    | error e s' =>
      left
      simp only [Bind.bind, EStateM.bind, ← hm, hms]
    | ok x s' =>
      rcases h x s' hms with h | ⟨hquiet, h | ⟨e, s'', h, he, hquiet'⟩⟩
      · left
        simp only [Bind.bind, EStateM.bind, ← hm, hms, h]
      · left
        simp only [Bind.bind, EStateM.bind, ← hm, hms, h]
      · right
        refine ⟨e, s'', ?_, he, hquiet.trans hquiet'⟩
        simp only [Bind.bind, EStateM.bind, hms, h]
  · right
    refine ⟨e, s', ?_, hrest⟩
    simp only [Bind.bind, EStateM.bind, hm]

theorem bind_same {m m' : EStateM ε (State σ) β} (h : Cut limited m m' s)
    (f : β → EStateM ε (State σ) α) : Cut limited (m >>= f) (m' >>= f) s :=
  h.bind fun _ _ _ => .inl rfl

end Cut

/-! ## Steps of the machine -/

namespace MachineM

/-- `Cut` for a step of the machine. -/
abbrev Limited (trap : Trap) : Prop := trap.isConfigured = true

theorem cut_of_same {m m' : MachineM σ Unit} {s s' : State σ}
    (h : wp m (fun _ t => t = s') (fun _ _ => False) s)
    (h' : wp m' (fun _ t => t = s') (fun _ _ => False) s) : Cut Limited m m' s := by
  left
  unfold wp at h h'
  cases hm : m s <;> cases hm' : m' s <;> simp_all

theorem cut_of_error {m m' : MachineM σ α} {s : State σ}
    (h : wp m (fun _ _ => False) (fun trap s' => Limited trap ∧ s.Quiet s') s) :
    Cut Limited m m' s := by
  cases hm : m s with
  | ok a s' => exact (wp_of_ok h hm).elim
  | error trap s' => exact .inr ⟨trap, s', hm, wp_of_error h hm⟩

/-- The limits let the machine execute the next instruction. -/
def Admits (config : Config) (s : State σ) : Prop :=
  (∀ limit, config.maxSteps = some limit → s.steps < limit) ∧ s.stack.size ≤ config.maxStackSize

theorem Admits.mono {s : State σ} (h : Admits config s) (hle : config.LimitsLe config') :
    Admits config' s := by
  refine ⟨fun limit' hlimit' => ?_, Nat.le_trans h.2 hle.stack⟩
  obtain ⟨limit, hlimit, hlt⟩ := hle.steps limit' hlimit'
  exact Nat.lt_of_lt_of_le (h.1 limit hlimit) hlt

theorem wp_tick_of_admits {s : State σ} (h : Admits config s) :
    wp (tick config) (fun _ s' => s' = { s with steps := s.steps + 1 }) (fun _ _ => False) s := by
  obtain ⟨hsteps, hstack⟩ := h
  simp only [tick, wp_bind, wp_modify, wp_get]
  cases hlimit : config.maxSteps with
  | none =>
    simp only [wp_ite, wp_throw, wp_pure]
    exact ⟨fun hlt => absurd hstack (Nat.not_le.mpr hlt), fun _ => trivial⟩
  | some limit =>
    simp only [wp_ite, wp_throw, wp_pure, wp_bind]
    have hlt := hsteps limit hlimit
    exact ⟨fun hgt => absurd hlt (by omega),
      fun _ => ⟨fun hgt => absurd hstack (Nat.not_le.mpr hgt), fun _ => trivial⟩⟩

theorem wp_tick_of_not_admits {s : State σ} (h : ¬ Admits config s) :
    wp (tick config) (fun _ _ => False) (fun trap s' => Limited trap ∧ s.Quiet s') s := by
  simp only [tick, wp_bind, wp_modify, wp_get]
  cases hlimit : config.maxSteps with
  | none =>
    simp only [wp_ite, wp_throw, wp_pure]
    exact ⟨fun _ => ⟨rfl, rfl, rfl⟩, fun hle => h ⟨by simp [hlimit], by omega⟩⟩
  | some limit =>
    simp only [wp_ite, wp_throw, wp_pure, wp_bind]
    refine ⟨fun _ => ⟨rfl, rfl, rfl⟩, fun hle => ⟨fun _ => ⟨rfl, rfl, rfl⟩, fun hle' => h ⟨?_, ?_⟩⟩⟩
    · intro limit' hlimit'
      obtain rfl := Option.some.inj (hlimit.symm.trans hlimit')
      omega
    · omega

/-- In front of an instruction, a limit that the second configuration meets is met under the first
as well. -/
theorem cut_tick (hle : config.LimitsLe config') (s : State σ) :
    Cut Limited (tick config) (tick config') s := by
  by_cases h : Admits config s
  · exact cut_of_same (wp_tick_of_admits h) (wp_tick_of_admits (h.mono hle))
  · exact cut_of_error (wp_tick_of_not_admits h)

/-- On entering a function as well. -/
theorem cut_enter (hle : config.LimitsLe config') (r : Routine) (s : State σ) :
    Cut Limited (enter config r) (enter config' r) s := by
  by_cases h : config.maxCallDepth ≤ s.frames.length
  · refine cut_of_error ?_
    simp only [enter, wp_bind, wp_get, if_pos h]
    exact ⟨rfl, rfl, rfl⟩
  · have h' : ¬ config'.maxCallDepth ≤ s.frames.length := by
      have := hle.depth
      omega
    left
    simp only [enter, bind, EStateM.bind, get, getThe, MonadStateOf.get, EStateM.get, if_neg h,
      if_neg h']

theorem cut_step (hle : config.LimitsLe config') (r : Routine) (ip : Nat) (s : State σ) :
    Cut Limited (step ⟨exe, config, b⟩ r ip) (step ⟨exe, config', b⟩ r ip) s :=
  (cut_tick hle s).bind_same _

/-- A call has only counted the instruction by the time it enters the function. -/
def QuietCall (s : State σ) (flow : Flow) (s' : State σ) : Prop :=
  ∀ callee returnIp, flow = .call callee returnIp → s.Quiet s'

theorem wp_step_quiet (env : Env σ) (r : Routine) (ip : Nat) (s : State σ) :
    wp (step env r ip) (QuietCall s) (fun _ _ => True) s := by
  rw [step, wp_bind]
  refine wp_tick (fun _ _ => trivial) (fun _ _ => trivial) ?_
  cases r.code.decodeAt ip with
  | error e => trivial
  | ok i =>
    refine wp_mono (wp_stepInstr_flow env i _) (fun flow s' h => ?_) fun _ _ h => h
    rintro callee returnIp rfl
    obtain ⟨-, -, rfl⟩ := h
    exact ⟨rfl, rfl⟩

end MachineM

/-! ## Runs -/

namespace RunM

open MachineM (Limited cut_enter cut_step)

/-- `Cut` for a step of a run. -/
abbrev LimitedFault (fault : Fault) : Prop := Limited fault.trap

theorem cut_unlocated {m m' : MachineM σ α} {s : State σ} (h : Cut Limited m m' s) :
    Cut LimitedFault (unlocated m) (unlocated m') s := by
  rcases h with h | ⟨trap, s', h, htrap, hquiet⟩
  · exact .inl (by rw [unlocated, unlocated, h])
  · exact .inr ⟨_, s', by rw [unlocated, h], htrap, hquiet⟩

theorem cut_located {m m' : MachineM σ α} {s : State σ} (c : Cursor) (h : Cut Limited m m' s) :
    Cut LimitedFault (located exe c m) (located exe c m') s := by
  rcases h with h | ⟨trap, s', h, htrap, hquiet⟩
  · exact .inl (by rw [located, located, h])
  · exact .inr ⟨_, s', by rw [located, h], htrap, hquiet⟩

theorem quiet_paused (s : State σ) (returnIp : Nat) : s.Quiet (paused s returnIp) := by
  unfold paused
  split <;> exact ⟨rfl, rfl⟩

theorem cut_call (hle : config.LimitsLe config') (callee : UInt16) (returnIp : Nat) (s : State σ) :
    Cut Limited (call ⟨exe, config, b⟩ callee returnIp) (call ⟨exe, config', b⟩ callee returnIp)
      s := by
  refine Cut.bind (.inl rfl) fun _ s' hs' => .inr ⟨?_, ?_⟩
  · cases hs'
    exact quiet_paused s returnIp
  · cases hr : exe.routine? callee with
    | none => exact .inl rfl
    | some r => exact (cut_enter hle r s').bind_same _

theorem located_ok {c : Cursor} {m : MachineM σ α} {s s' : State σ} {a : α}
    (h : located exe c m s = .ok a s') : m s = .ok a s' := by
  unfold located at h
  split at h
  · rename_i hm
    cases h
    exact hm
  · cases h

/-- An instruction of a run. -/
theorem cut_advance (hle : config.LimitsLe config') (c : Cursor) (s : State σ) :
    Cut LimitedFault (advance ⟨exe, config, b⟩ c) (advance ⟨exe, config', b⟩ c) s := by
  unfold advance
  refine (cut_located c (cut_step hle c.routine c.ip s)).bind fun flow s' hflow => ?_
  cases flow with
  | next ip => exact .inl rfl
  | ret => exact .inl rfl
  | halt => exact .inl rfl
  | call callee returnIp =>
    have hquiet := MachineM.wp_of_ok
      (MachineM.wp_step_quiet ⟨exe, config, b⟩ c.routine c.ip s) (located_ok hflow)
    exact .inr ⟨hquiet callee returnIp rfl,
      (cut_located c (cut_call hle callee returnIp s')).bind_same _⟩

theorem cut_start (hle : config.LimitsLe config') (vars : List HostVar) (s : State σ) :
    Cut Limited (start ⟨exe, config, b⟩ vars) (start ⟨exe, config', b⟩ vars) s := by
  have hbegin :
      Cut Limited (enterTop ⟨exe, config, b⟩ vars) (enterTop ⟨exe, config', b⟩ vars) s := by
    unfold enterTop
    cases exe.top? with
    | none => exact .inl rfl
    | some routine => exact (cut_enter hle routine s).bind_same _
  simp only [start_eq, hle.verify]
  cases config.verify with
  | false => exact hbegin
  | true =>
    cases exe.verify with
    | error e => exact .inl rfl
    | ok _ => exact hbegin

theorem onward_of_quiet {s s' s'' : State σ} (h : s.Quiet s') (h' : s.Onward b s'') :
    s'.Onward b s'' :=
  ⟨h.1 ▸ h'.written, h.2 ▸ h'.host⟩

/-- The instructions of a run, against any number of instructions of the other. -/
theorem execute_limits (hle : config.LimitsLe config') {fuel : Nat} {c : Cursor} {s : State σ}
    {result : EStateM.Result Fault (State σ) Unit}
    (h : execute ⟨exe, config, b⟩ fuel c s = some result) :
    execute ⟨exe, config', b⟩ fuel c s = some result ∨
      ∃ fault s', result = .error fault s' ∧ LimitedFault fault ∧
        ∀ fuel' result', execute ⟨exe, config', b⟩ fuel' c s = some result' →
          s'.Onward b (resultState result') := by
  induction fuel generalizing c s with
  | zero => cases h
  | succ fuel ih =>
    have hcut : Cut LimitedFault (advance ⟨exe, config, b⟩ c) (advance ⟨exe, config', b⟩ c) s :=
      cut_advance hle c s
    rcases hcut with hsame | ⟨fault, s', hfault, hlimited, hquiet⟩
    · rw [execute, hsame] at h
      rw [execute]
      cases ha : advance ⟨exe, config', b⟩ c s with
      | error fault s' =>
        rw [ha] at h
        exact .inl h
      | ok c'? s' =>
        rw [ha] at h
        cases c'? with
        | none => exact .inl h
        | some c' =>
          rcases ih h with hsame | ⟨fault, s'', hresult, hlimited, hrest⟩
          · exact .inl hsame
          refine .inr ⟨fault, s'', hresult, hlimited, fun fuel' result' hexec => ?_⟩
          cases fuel' with
          | zero => cases hexec
          | succ fuel' =>
            rw [execute, ha] at hexec
            exact hrest fuel' result' hexec
    · rw [execute, hfault] at h
      cases h
      exact .inr ⟨fault, s', rfl, hlimited, fun fuel' result' hexec =>
        onward_of_quiet hquiet (onward_of_execute hexec)⟩

end RunM

open RunM

/-- The whole runs: the same, or the first is a beginning of the second. -/
theorem run_limits (hle : config.LimitsLe config') {vars : List HostVar} {sink : Sink} {host : σ}
    {fuel : Nat} {out : Outcome σ}
    (h : Env.run ⟨exe, config, b⟩ vars sink host fuel = some out) :
    Env.run ⟨exe, config', b⟩ vars sink host fuel = some out ∨
      out.CutShort ∧ ∀ fuel' out', Env.run ⟨exe, config', b⟩ vars sink host fuel' = some out' →
        out.state.Onward b out'.state := by
  rcases cut_unlocated (cut_start hle vars (initial exe sink host)) with
    hsame | ⟨fault, s', hfault, hlimited, hquiet⟩
  · cases hstart : unlocated (start ⟨exe, config', b⟩ vars) (initial exe sink host) with
    | error fault s =>
      rw [Env.run, hsame, hstart] at h
      exact .inl (by rw [Env.run, hstart]; exact h)
    | ok c s =>
      rw [Env.run, hsame, hstart] at h
      dsimp only at h
      cases hexec : execute ⟨exe, config, b⟩ fuel c s with
      | none =>
        rw [hexec] at h
        cases h
      | some result =>
        rw [hexec] at h
        rcases execute_limits hle hexec with hexec' | ⟨fault, s', rfl, hlimited, hrest⟩
        · left
          rw [Env.run, hstart]
          dsimp only
          rw [hexec']
          exact h
        · cases h
          refine .inr ⟨⟨fault, rfl, hlimited⟩, fun fuel' out' h' => ?_⟩
          obtain ⟨result', hexec', hstate⟩ := executed_of_run hstart h'
          rw [hstate]
          exact hrest fuel' result' hexec'
  · unfold Env.run at h
    rw [hfault] at h
    cases h
    exact .inr ⟨⟨fault, rfl, hlimited⟩, fun fuel' out' h' =>
      onward_of_quiet hquiet (onward_of_run h')⟩

/-- **Limits only cut runs short.** Of two configurations, let the second differ in its limits only
and allow at least as much. A run that no limit of the first ends has the same outcome under the
second: the result, the variables of the host, the output, the number of instructions, the stack and
the state of the host. Of one that a limit ends, the output and the calls of the host are the
beginning of those under the second. -/
theorem limits_only_cut_short (exe : Executable) (config config' : Config) (b : Bridge σ)
    (hle : config.LimitsLe config') (vars : List HostVar) (sink : Sink) (host : σ) (fuel : Nat)
    (out : Outcome σ) (h : Env.run ⟨exe, config, b⟩ vars sink host fuel = some out) :
    (¬ out.CutShort → Env.run ⟨exe, config', b⟩ vars sink host fuel = some out) ∧
    (out.CutShort → ∀ fuel' out',
      Env.run ⟨exe, config', b⟩ vars sink host fuel' = some out' →
        (∃ more, out'.state.sink.written = out.state.sink.written ++ more) ∧
        b.Reaches out.state.host out'.state.host ∧
        ∀ log, b.Logs log → log out.state.host <+: log out'.state.host) := by
  rcases run_limits hle h with hsame | ⟨hcut, hrest⟩
  · refine ⟨fun _ => hsame, fun _ fuel' out' h' => ?_⟩
    obtain rfl := run_unique hsame h'
    exact ⟨⟨.empty, ByteArray.append_empty.symm⟩, .refl, fun _ _ => List.prefix_refl _⟩
  · refine ⟨fun hnot => absurd hcut hnot, fun _ fuel' out' h' => ?_⟩
    have honward := hrest fuel' out' h'
    exact ⟨honward.written, honward.host, fun _ hlog => hlog.prefix_of_reaches honward.host⟩

/-- Prints 1 and calls the host, over and over. -/
def endlessLoop : Executable :=
  let top : Routine :=
    { id := 0, name := "<top>", declaringScope := 0, scope := 0, params := [], result := .void,
      locals := 0, layout := [⟨0, 0, 0⟩], code := ⟨#[8, 25, 48, 0, 0, 40, 250, 255]⟩ }
  { ((({} : Executable).addRoutine top).2.addNative ⟨"tick", [], .void⟩).2 with scopeCount := 1 }

/-- A host that knows one function, which does nothing. -/
def tickHost : Bridge Unit :=
  ⟨fun symbol _ host => (if symbol = "tick" then some (.ok none) else none, host)⟩

/-- Six instructions of the loop, and the ten with which it goes on. -/
theorem endlessLoop_cut_short :
    ∃ out out',
      Env.run ⟨endlessLoop, { maxSteps := some 6 }, tickHost.recording⟩ [] {} ((), []) 9 = some out ∧
      Env.run ⟨endlessLoop, { maxSteps := some 10 }, tickHost.recording⟩ [] {} ((), []) 12 =
        some out' ∧
      out.CutShort ∧
      (∃ more, out'.state.sink.written = out.state.sink.written ++ more) ∧
      out.state.host.2 = [("tick", [])] ∧ out.state.host.2 <+: out'.state.host.2 := by
  have hrun : (Env.run ⟨endlessLoop, { maxSteps := some 6 }, tickHost.recording⟩ [] {} ((), []) 9).map
      (fun out => (out.result, out.state.host.2)) =
        some (.error ⟨.stepLimit 6, some ⟨"<top>", 2⟩, #["<top>"]⟩, [("tick", [])]) := by cbv
  have hrun' : (Env.run ⟨endlessLoop, { maxSteps := some 10 }, tickHost.recording⟩ [] {} ((), [])
      12).isSome = true := by cbv
  obtain ⟨out, hout, h⟩ := Option.map_eq_some_iff.mp hrun
  obtain ⟨out', hout'⟩ := Option.isSome_iff_exists.mp hrun'
  have hcut : out.CutShort := ⟨_, congrArg Prod.fst h, rfl⟩
  have hle : Config.LimitsLe { maxSteps := some 6 } { maxSteps := some 10 } :=
    ⟨rfl, Nat.le_refl _, fun limit' h => ⟨6, rfl, by cases h; decide⟩, Nat.le_refl _⟩
  obtain ⟨hwritten, -, hlog⟩ := (limits_only_cut_short endlessLoop { maxSteps := some 6 }
    { maxSteps := some 10 } tickHost.recording hle [] {} ((), []) 9 out hout).2 hcut 12 out' hout'
  exact ⟨out, out', hout, hout', hcut, hwritten, congrArg Prod.snd h,
    hlog Prod.snd tickHost.recording_logs⟩

end StackLang
