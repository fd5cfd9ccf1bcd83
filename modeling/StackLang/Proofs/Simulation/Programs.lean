import StackLang.Proofs.Machine.HostVars
import StackLang.Proofs.Simulation.HostVars

/-!
# Compilation preserves meaning

A run of a compiled program, and the reference evaluation of the program.

Where an evaluation ends the run does, and where it has no rounds left the run goes on
(`Sound.run_of_ending`, `Sound.ending_of_run`). `compile_preserves_meaning`: where the one ends the
other does, in the same way, unless the run meets a limit of the machine.
-/

namespace StackLang

open RunM
open MachineM (wp)
open Reference (World Ending)

variable {σ : Type} {z : Setting σ} {acts : List Activation} {w : World σ} {c : Cursor} {s : State σ}
  {f : FunctionDecl} {r : Routine} {t₀ t₁ : Compilation} {host : σ} {vars : List HostVar}
  {rounds fuel : Nat} {ending : Ending σ} {out : Outcome σ}

/-! ## How runs end -/

/-- A run has ended: its functions are still active, and the state is that of the program. -/
def Setting.Ended (z : Setting σ) (w : World σ) (s : State σ) : Prop :=
  ∃ acts, z.Stacked acts ∧ z.Agree acts w s ∧
    (z.callable Program.topName = false → acts.length = 1)

/-- The next instruction ends the run. -/
def Setting.Ends (z : Setting σ) (w : World σ) (c : Cursor) (s : State σ) : Prop :=
  wpRun (advance z.env c) (fun c' s' => c' = none ∧ z.Ended w s') (fun fault _ => z.Cut fault.trap) s

/-- The next instruction is the last one, and leaves what an evaluation leaves. -/
inductive Setting.Closes (z : Setting σ) (vars : List HostVar) :
    Ending σ → Cursor → State σ → Prop
  | done {w : World σ} {c : Cursor} {s : State σ} (h : z.Ends w c s) :
      Closes z vars ⟨.ok (), vars.map (Reference.readVar z.program w), w.output, w.host⟩ c s
  | failed {trap : Trap} {w : World σ} {c : Cursor} {s : State σ} (h : z.Fails trap w c s) :
      Closes z vars ⟨.error trap, vars, w.output, w.host⟩ c s

namespace Setting

theorem Halts.ends (h : z.Halts w c s) : z.Ends w c s := by
  obtain ⟨x, ip, vs, hx, hb, hname, hi⟩ := h
  obtain rfl := hb.cursor
  refine wpRun_advance (c := ⟨x.act.routine, ip⟩) (E := fun trap _ => z.Cut trap) z.cutsLimits
    (fun h => h) hi ?_
  refine ⟨rfl, x.acts, hx.stacked, hb.agree.of_same, fun hcallable => ?_⟩
  have hst := hx.stacked
  unfold Call.acts at hst ⊢
  generalize x.callers = callers at hst
  cases hst with
  | top _ _ _ => rfl
  | call _ hname' _ _ =>
    rw [hname, hcallable] at hname'
    cases hname'

/-- A return from the outermost call ends the run. -/
theorem Begins.ends (hb : z.Begins f r t₀ t₁) {v : Option HostValue}
    (h : (Call.outermost f r).Returns z v w c s) : z.Ends w c s := by
  obtain ⟨ip, vs, h, hi, -⟩ := h
  obtain ⟨returnIp, hframes⟩ := h.frames
  obtain rfl := h.cursor
  refine wpRun_advance (c := ⟨r, ip⟩) (E := fun trap _ => z.Cut trap) z.cutsLimits
    (fun h => h) hi ?_
  simp only [MachineM.stepInstr, MachineM.wp_pure]
  refine ⟨fun _ => ⟨trivial, _, hb.sound.stacked, h.agree.of_same, fun _ => rfl⟩, fun hlt => ?_⟩
  rw [hframes] at hlt
  exact absurd hlt (Nat.lt_irrefl _)

/-! ## Runs beside evaluations -/

/-- The evaluation of `<top>`, simulated. -/
theorem Begins.sim (hb : z.Begins f r t₀ t₁) (hz : z.Sound) (rounds : Nat)
    (h : (Call.outermost f r).Beside z 0 [] w c s) :
    (Call.outermost f r).Sim z rounds
      (Reference.runBody (Reference.topScene z.program z.env.bridge rounds f)
        (.ofCall f 0 fun _ => 0)) ((Call.outermost f r).Returns z) w c s := by
  obtain ⟨infos, m₁, m₂, hcount, -, hparams, hbody, hlast⟩ := hb.made.code.emitted
  have hnone : f.params.length = 0 := by
    have := hb.arity
    rwa [Routine.arity, hb.made.finished.params, List.length_map] at this
  obtain rfl := List.eq_nil_of_length_eq_zero (hcount.trans hnone)
  obtain rfl : 0 = m₁ := hparams
  have hp : (Call.outermost f r).Plays z (Site.of ⟨z.program, f, z.strict⟩ t₀ t₁)
      (Reference.topScene z.program z.env.bridge rounds f) (.ofCall f 0 fun _ => 0) :=
    { hb.sound with
      below := .refl
      own := hb.made.exists_place?_of_mem f.body_mem_frameScopes
      nearest := by
        have htop : z.Resolves [⟨f, r, 0⟩] (Reference.Place.ofCall f 0 fun _ => 0).level
            f.body.scope :=
          hz.toCompiles.resolves hb.made fun j hj hne =>
            absurd ⟨(Program.declared_of_top? hb.top).2, hz.linked.encloses_root hj⟩ hne
        exact htop
      site := ⟨_, t₀, t₁, hb.made, rfl⟩
      source := rfl
      bridge := rfl
      function := rfl
      level := rfl
      invokes := invokes hz rounds 1 }
  exact hp.sim_runBody hz (fun _ hk => by simp [Call.outermost] at hk) rfl hbody hlast h

/-- Where an evaluation ends, the run comes to its end in the same way. -/
theorem Begins.runs_of_run (hb : z.Begins f r t₀ t₁) (hz : z.Sound)
    (h : (Call.outermost f r).Beside z 0 [] (Reference.bindVars z.program vars { host }) c s)
    (hrun : Reference.run z.program z.env.bridge vars host rounds = some ending) :
    Runs z.env z.Cut (z.Closes vars ending) c s := by
  have hsim := hb.sim hz rounds h
  unfold Reference.run at hrun
  unfold Call.Sim at hsim
  rw [hb.top] at hrun
  dsimp only at hrun
  generalize Reference.runBody _ _ _ = result at hrun hsim
  cases result with
  | ok v w =>
    cases hrun
    exact hsim.mono fun c s h => .done (hb.ends h)
  | error stop w =>
    cases stop with
    | returned v =>
      cases hrun
      exact hsim.mono fun c s h => .done (hb.ends h)
    | halted =>
      cases hrun
      exact hsim.mono fun c s h => .done h.ends
    | failed trap =>
      cases hrun
      exact hsim.mono fun c s h => .failed h
    | timeout | stuck => cases hrun

/-- Where an evaluation has no rounds left, the run goes on. -/
theorem Begins.lasts_of_run (hb : z.Begins f r t₀ t₁) (hz : z.Sound)
    (h : (Call.outermost f r).Beside z 0 [] (Reference.bindVars z.program vars { host }) c s)
    (hrun : Reference.run z.program z.env.bridge vars host rounds = none) :
    Lasts z.env z.Cut rounds c s := by
  have hsim := hb.sim hz rounds h
  unfold Reference.run at hrun
  unfold Call.Sim at hsim
  rw [hb.top] at hrun
  dsimp only at hrun
  generalize Reference.runBody _ _ _ = result at hrun hsim
  cases result with
  | ok v w => cases hrun
  | error stop w =>
    cases stop with
    | timeout => exact hsim
    | stuck => exact hsim.lasts fun _ _ h => h.elim
    | returned _ | halted | failed _ => cases hrun

end Setting

/-! ## Outcomes -/

section Outcomes

variable {env : Env σ} {sink : Sink} {cut : Trap → Prop} {Q : Cursor → State σ → Prop} {more : Nat}
  {out' : Outcome σ}

/-- What a run leaves whose next instruction is the last one. -/
inductive Final (env : Env σ) (vars : List HostVar) (c : Cursor) (s : State σ) : Outcome σ → Prop
  | ended {s' : State σ} (h : advance env c s = .ok none s') : Final env vars c s (conclude env vars s')
  | failed {fault : Fault} {s' : State σ} (h : advance env c s = .error fault s') :
      Final env vars c s { result := .error fault, vars, state := s' }

/-- An outcome that a trap has cut short. -/
def Outcome.CutBy (cut : Trap → Prop) (out : Outcome σ) : Prop :=
  ∃ fault, out.result = .error fault ∧ cut fault.trap

/-- A run that comes to where it ends has an outcome. -/
theorem exists_run_of_runs (hstart : start env vars (initial env.exe sink host) = .ok c s)
    (h : Runs env cut Q c s)
    (hends : ∀ {c s}, Q c s → ∀ c' s', advance env c s ≠ .ok (some c') s') :
    ∃ fuel out, env.run vars sink host fuel = some out ∧
      (out.CutBy cut ∨ ∃ c' s', Q c' s' ∧ Final env vars c' s' out) := by
  rcases execute_of_runs h with ⟨fuel, fault, s', hexec, hcut⟩ | ⟨fuel, c', s', hq, hexec⟩
  · refine ⟨fuel, { result := .error fault, vars, state := s' }, ?_, .inl ⟨fault, rfl, hcut⟩⟩
    simp only [Env.run, unlocated, hstart, hexec]
  · cases ha : advance env c' s' with
    | ok c''? s'' =>
      cases c''? with
      | some c'' => exact absurd ha (hends hq _ _)
      | none =>
        have hone : execute env (fuel + 1) c s = some (.ok () s'') :=
          (hexec 1).trans (by rw [execute, ha])
        refine ⟨fuel + 1, conclude env vars s'', ?_, .inr ⟨c', s', hq, .ended ha⟩⟩
        simp only [Env.run, unlocated, hstart, hone]
    | error fault s'' =>
      have hone : execute env (fuel + 1) c s = some (.error fault s'') :=
        (hexec 1).trans (by rw [execute, ha])
      refine ⟨fuel + 1, { result := .error fault, vars, state := s'' }, ?_,
        .inr ⟨c', s', hq, .failed ha⟩⟩
      simp only [Env.run, unlocated, hstart, hone]

/-- A run that lasts has been cut short if it has an outcome. -/
theorem cutBy_of_lasts (hstart : start env vars (initial env.exe sink host) = .ok c s)
    (h : Lasts env cut fuel c s) (hrun : env.run vars sink host fuel = some out) :
    out.CutBy cut := by
  simp only [Env.run, unlocated, hstart] at hrun
  cases hexec : execute env fuel c s with
  | none =>
    rw [hexec] at hrun
    cases hrun
  | some result =>
    obtain ⟨fault, s', rfl, hcut⟩ := execute_of_lasts h (Nat.le_refl _) hexec
    rw [hexec] at hrun
    cases hrun
    exact ⟨fault, rfl, hcut⟩

end Outcomes

/-! ## Runs and evaluations -/

namespace Setting

theorem Closes.ne_ok (h : z.Closes vars ending c s) (c' : Cursor) (s' : State σ) :
    advance z.env c s ≠ .ok (some c') s' := by
  intro ha
  cases h with
  | done h => exact absurd (wpRun_of_ok h ha).1 (by simp)
  | failed h => exact wpRun_of_ok h.2 ha

/-- A run begins beside the evaluation, unless it is cut short before. -/
theorem Begins.wp_start_cut (hb : z.Begins f r t₀ t₁) (hz : z.Sound) (vars : List HostVar)
    (host : σ) :
    MachineM.wp (start z.env vars) ((Call.outermost f r).Beside z 0 []
        (Reference.bindVars z.program vars { host }))
      (fun trap _ => z.Cut trap ∨ Misfit z.program vars trap) (initial z.env.exe z.sink host) :=
  hb.wp_start hz .inl .inr host

/-- **A run ends where the evaluation does**, unless a limit cuts it short or the host gives a
variable a value of another type. -/
theorem Sound.run_of_ending (hz : z.Sound)
    (href : Reference.run z.program z.env.bridge vars host rounds = some ending) :
    ∃ fuel out, z.env.run vars z.sink host fuel = some out ∧
      (out.CutBy (fun trap => z.Cut trap ∨ Misfit z.program vars trap) ∨
        ∃ c s, z.Closes vars ending c s ∧ Final z.env vars c s out) := by
  obtain ⟨f, r, t₀, t₁, hb⟩ := hz.toCompiles.begins
  have hw := hb.wp_start_cut hz vars host
  cases hstart : start z.env vars (initial z.env.exe z.sink host) with
  | error trap s =>
    refine ⟨0, { result := .error { trap }, vars, state := s }, ?_,
      .inl ⟨_, rfl, MachineM.wp_of_error hw hstart⟩⟩
    simp only [Env.run, unlocated, hstart]
  | ok c s =>
    have hruns := hb.runs_of_run hz (MachineM.wp_of_ok hw hstart) href
    obtain ⟨fuel, out, hrun, ⟨fault, hfault, hcut⟩ | h⟩ :=
      exists_run_of_runs hstart hruns fun h => h.ne_ok
    · exact ⟨fuel, out, hrun, .inl ⟨fault, hfault, .inl hcut⟩⟩
    · exact ⟨fuel, out, hrun, .inr h⟩

/-- **Where a run ends, the evaluation has ended**, with as many rounds as the run has had
instructions. -/
theorem Sound.ending_of_run (hz : z.Sound) (hrun : z.env.run vars z.sink host fuel = some out) :
    out.CutBy (fun trap => z.Cut trap ∨ Misfit z.program vars trap) ∨
      ∃ ending c s, Reference.run z.program z.env.bridge vars host fuel = some ending ∧
        z.Closes vars ending c s ∧ Final z.env vars c s out := by
  obtain ⟨f, r, t₀, t₁, hb⟩ := hz.toCompiles.begins
  have hw := hb.wp_start_cut hz vars host
  cases href : Reference.run z.program z.env.bridge vars host fuel with
  | some ending =>
    obtain ⟨fuel', out', hrun', h⟩ := hz.run_of_ending href
    obtain rfl := run_unique hrun hrun'
    rcases h with h | ⟨c, s, h⟩
    · exact .inl h
    · exact .inr ⟨ending, c, s, rfl, h⟩
  | none =>
    left
    cases hstart : start z.env vars (initial z.env.exe z.sink host) with
    | error trap s =>
      simp only [Env.run, unlocated, hstart] at hrun
      cases hrun
      exact ⟨_, rfl, MachineM.wp_of_error hw hstart⟩
    | ok c s =>
      have hlasts := hb.lasts_of_run hz (MachineM.wp_of_ok hw hstart) href
      obtain ⟨fault, hfault, hcut⟩ := cutBy_of_lasts hstart hlasts hrun
      exact ⟨fault, hfault, .inl hcut⟩

end Setting

/-! ## Meaning -/

/-- The traps of the machine's own limits. -/
def Trap.isLimit : Trap → Bool
  | stepLimit _ | stackLimit _ | callDepth _ _ | poolExhausted => true
  | _ => false

/-- The run has met a limit of the machine. -/
def Outcome.MeetsLimit (out : Outcome σ) : Prop := out.CutBy (·.isLimit = true)

/-- A run has left what an evaluation has. -/
structure Outcome.Matches (out : Outcome σ) (sink : Sink) (ending : Ending σ) : Prop where
  result : out.result.mapError (·.trap) = ending.result
  vars : out.vars = ending.vars
  written : out.state.sink.written = sink.written ++ ending.output.toUTF8
  host : out.state.host = ending.host

namespace Setting

theorem Closes.matches (h : z.Closes vars ending c s) (hf : Final z.env vars c s out)
    (hz : z.Sound) (hcallable : z.callable Program.topName = false)
    (hcapacity : z.sink.capacity = none) (hflush : z.sink.flushFails = false) :
    out.CutBy z.Cut ∨ out.Matches z.sink ending := by
  cases h with
  | @done w _ _ h =>
    cases hf with
    | failed ha => exact .inl ⟨_, rfl, wpRun_of_error h ha⟩
    | @ended s' ha =>
      obtain ⟨-, acts, hst, hagree, hone⟩ := wpRun_of_ok h ha
      obtain ⟨vars', hback, hvars⟩ := hagree.readBack_ok hz hst vars
      have hclosed : s'.sink.flush = .ok () := by
        rw [Sink.flush, hagree.flushFails, hflush]
        rfl
      right
      unfold conclude
      rw [hclosed]
      dsimp only
      rw [hback]
      exact ⟨rfl, hvars (hone hcallable), hagree.written hcapacity, hagree.host⟩
  | failed h =>
    cases hf with
    | ended ha => exact (wpRun_of_ok h.2 ha).elim
    | @failed fault s' ha =>
      rcases wpRun_of_error h.2 ha with hcut | ⟨htrap, hout⟩
      · exact .inl ⟨_, rfl, hcut⟩
      · exact .inr ⟨congrArg Except.error htrap, rfl, hout.written hcapacity, hout.host⟩

theorem Cut.isLimit {trap : Trap} (h : z.Cut trap) (hcapacity : z.sink.capacity = none) :
    trap.isLimit = true := by
  cases h with
  | output _ hne => exact absurd hcapacity hne
  | _ => rfl

end Setting

/-- **Compilation preserves meaning.** For a program whose functions do not call `<top>`, compiled with
strict returns, and a sink that takes everything: if the reference evaluator ends, with whatever bound
on its rounds, then so does a run, and if a run ends then so does the evaluator; and unless the run
has met a limit of the machine, both end with the same result or the same trap, and leave the same
values of the host's variables, the same output and the same state of the host. The host is any: one
that keeps a list of its calls shows that they are the same, in the same order. -/
theorem compile_preserves_meaning {p : Program} (hb : p.Built)
    (hw : p.WellFormed (· ≠ Program.topName)) {e : Executable} (h : p.compile true = .ok e)
    (config : Config) (bridge : Bridge σ) (vars : List HostVar)
    (hvars : ∀ var ∈ vars, ∀ decl, p.hostVar? var.name = some decl → var.value.ty = decl.ty)
    (sink : Sink) (hcapacity : sink.capacity = none) (hflush : sink.flushFails = false) (host : σ) :
    (∀ rounds ending, Reference.run p bridge vars host rounds = some ending →
      ∃ fuel out, Env.run ⟨e, config, bridge⟩ vars sink host fuel = some out ∧
        (out.MeetsLimit ∨ out.Matches sink ending)) ∧
    ∀ fuel out, Env.run ⟨e, config, bridge⟩ vars sink host fuel = some out →
      out.MeetsLimit ∨ ∃ rounds ending,
        Reference.run p bridge vars host rounds = some ending ∧ out.Matches sink ending := by
  obtain ⟨t, ho⟩ := Program.compile_ok hb h
  let z : Setting σ :=
    { program := p, callable := (· ≠ Program.topName), strict := true, compilation := t,
      env := ⟨e, config, bridge⟩, sink }
  have hz : z.Sound := ⟨⟨ho, hb.linked.1, hw.bodies⟩, rfl, hw.toTyped, hw.params⟩
  have hlimit : ∀ {out : Outcome σ},
      out.CutBy (fun trap => z.Cut trap ∨ Setting.Misfit z.program vars trap) → out.MeetsLimit := by
    rintro out ⟨fault, hfault, hcut | hmisfit⟩
    · exact ⟨fault, hfault, hcut.isLimit hcapacity⟩
    · generalize fault.trap = trap at hmisfit
      obtain ⟨hvar, hdecl, hne⟩ := hmisfit
      exact absurd (hvars _ hvar _ hdecl) hne
  have hmatch : ∀ {ending : Ending σ} {out : Outcome σ} {c : Cursor} {s : State σ},
      z.Closes vars ending c s → Final z.env vars c s out →
        out.MeetsLimit ∨ out.Matches sink ending := by
    intro ending out c s hcloses hfinal
    rcases hcloses.matches hfinal hz (by simp [z]) hcapacity hflush with ⟨fault, hfault, hcut⟩ | hm
    · exact .inl ⟨fault, hfault, hcut.isLimit hcapacity⟩
    · exact .inr hm
  refine ⟨fun rounds ending href => ?_, fun fuel out hrun => ?_⟩
  · obtain ⟨fuel, out, hrun, hcut | ⟨c, s, hcloses, hfinal⟩⟩ := hz.run_of_ending href
    · exact ⟨fuel, out, hrun, .inl (hlimit hcut)⟩
    · exact ⟨fuel, out, hrun, hmatch hcloses hfinal⟩
  · rcases hz.ending_of_run hrun with hcut | ⟨ending, c, s, href, hcloses, hfinal⟩
    · exact .inl (hlimit hcut)
    · exact (hmatch hcloses hfinal).imp_right fun hm => ⟨fuel, ending, href, hm⟩

theorem doublingProgram_wellFormed : doublingProgram.WellFormed (· ≠ Program.topName) :=
  Program.wellFormed_of_all doublingProgram_typed (by decide +kernel)

theorem doublingProgram_meaning : doublingProgram.Built ∧
    doublingProgram.WellFormed (· ≠ Program.topName) ∧
    ∃ e, doublingProgram.compile true = .ok e ∧
      ∃ fuel out, Env.run ⟨e, {}, noHost⟩ [⟨"n", .int 5⟩] {} () fuel = some out ∧
        (out.MeetsLimit ∨ out.state.sink.written = "128".toUTF8) := by
  obtain ⟨e, hc⟩ := doublingProgram_compiles
  have href : (Reference.run doublingProgram noHost [⟨"n", .int 5⟩] () 9).map (·.output) =
      some "128" := by cbv
  have hvars : ∀ var ∈ [(⟨"n", .int 5⟩ : HostVar)], ∀ decl,
      doublingProgram.hostVar? var.name = some decl → var.value.ty = decl.ty := by
    have hn : doublingProgram.hostVar? "n" = some ⟨"n", .int⟩ := by cbv
    intro var hvar decl hdecl
    obtain rfl := List.mem_singleton.mp hvar
    obtain rfl := Option.some.inj (hn.symm.trans hdecl)
    rfl
  obtain ⟨ending, hending, houtput⟩ := Option.map_eq_some_iff.mp href
  obtain ⟨fuel, out, hrun, hout⟩ := (compile_preserves_meaning doublingProgram_built
    doublingProgram_wellFormed hc {} noHost _ hvars {} rfl rfl ()).1 9 ending hending
  refine ⟨doublingProgram_built, doublingProgram_wellFormed, e, hc, fuel, out, hrun,
    hout.imp_right fun hm => ?_⟩
  rw [hm.written, houtput]
  rfl

end StackLang
