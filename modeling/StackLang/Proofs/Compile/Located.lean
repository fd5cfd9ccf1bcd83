import StackLang.Proofs.Machine.Faults

/-!
# Faults of compiled programs

`Fault.PointsAt` is what a fault says of the instruction that failed and of the functions that were
active then. The code of a compiled program is sealed (`Program.compile_sealed`), whatever the
program, so in all its runs an instruction fails where one begins.

Main results:
* **`compile_faults_located`**: an error of a run is one from before the first instruction, one from
  behind the last, or a fault that points at the instruction that failed.
-/

namespace StackLang

open Executable RunM

variable {σ : Type} {env : Env σ} {vars : List HostVar} {sink : Sink} {host : σ} {c : Cursor}
  {s s' : State σ} {fault : Fault}

/-- What a fault says of the instruction at the cursor. -/
structure Fault.PointsAt (fault : Fault) (env : Env σ) (c : Cursor) (s : State σ) : Prop where
  location : fault.location = some ⟨c.routine.name, c.ip⟩
  /-- The cursor is in the innermost active function. -/
  running : ∃ frame, s.frames.head? = some frame ∧
    env.exe.routine? frame.function = some c.routine
  boundary : ∃ instrs i, c.routine.code.instructions = .ok instrs ∧ i ∈ instrs ∧ i.offset = c.ip
  /-- All active functions, the outermost first. -/
  active : fault.callStack.toList.map some =
    s.frames.reverse.map fun frame => (env.exe.routine? frame.function).map (·.name)
  outermost : fault.callStack[0]? = some Executable.topName
  innermost : fault.callStack.back? = some c.routine.name
  depth : fault.callStack.size ≤ env.config.maxCallDepth
  limit : ∀ n name, fault.trap = .callDepth n name →
    n = env.config.maxCallDepth ∧ fault.callStack.size = env.config.maxCallDepth

/-! ## Compiled code -/

theorem FunctionCode.exists_sealed {c : FunctionContext} {t₀ t₁ : Compilation} {code : Code}
    (h : FunctionCode c t₀ t₁ code) : ∃ m, code.Sealed m := by
  have hany : ∀ name : String, (fun _ : String => true) name = true := fun _ => rfl
  obtain ⟨m, ⟨line, hline, hrefers⟩, hlast⟩ := h.swept (.inr hany)
  rw [h.code_eq] at hline hrefers
  refine ⟨m, ⟨_, hlast, ?_⟩, line, hline, fun i hi t ht => ?_⟩
  · rw [FunctionDecl.lastOp]
    split
    · exact .inr rfl
    · exact .inl rfl
  · have hjoint := hrefers i hi
    rwa [ht] at hjoint

section Compiled

variable {p : Program} {strict : Bool} {e : Executable}

theorem Program.compile_sealed (h : p.compile strict = .ok e) :
    ∀ r ∈ e.routines, ∃ m, r.code.Sealed m := by
  intro r hr
  obtain ⟨t, ht, rfl⟩ := compile_traversed h
  obtain ⟨_, _, _, _, m⟩ := ht.exists_made hr
  exact m.code.exists_sealed

/-- A run begins with a function of the right name. -/
theorem Program.name_of_top? (h : p.compile strict = .ok e) {r : Routine}
    (htop : e.top? = some r) : r.name = Executable.topName := by
  obtain ⟨t, ht, rfl⟩ := compile_traversed h
  obtain ⟨id, hid, hr⟩ := Option.bind_eq_some_iff.mp htop
  obtain ⟨r', hr', hname⟩ := ht.indexed.byName hid
  obtain rfl := Option.some.inj (hr.symm.trans hr')
  exact hname

end Compiled

/-! ## The names of the active functions -/

theorem map_some_activeNames {e : Executable} (hs : s.Kept e) :
    (activeNames e s).toList.map some =
      s.frames.reverse.map fun frame => (e.routine? frame.function).map (·.name) := by
  rw [activeNames, List.map_map]
  refine List.map_congr_left fun frame hmem => ?_
  obtain ⟨r, hr⟩ := Option.isSome_iff_exists.mp
    (Holds.routine?_isSome hs frame (List.mem_reverse.mp hmem))
  simp only [Function.comp, hr, Option.map_some, Option.getD_some]

theorem size_activeNames (e : Executable) (s : State σ) :
    (activeNames e s).size = s.frames.length := by
  simp [activeNames]

/-- The function that the run began with is named first, the innermost one last. -/
theorem ends_activeNames {e : Executable} {top r : Routine} (htop : e.Activated top s.frames)
    {frame : Frame} (hhead : s.frames.head? = some frame)
    (hr : e.routine? frame.function = some r) :
    (activeNames e s)[0]? = some top.name ∧ (activeNames e s).back? = some r.name := by
  obtain ⟨inner, outer, hframes, houter, -⟩ := htop.exists_outer
  constructor
  · simp [activeNames, hframes, houter]
  · obtain ⟨frames, hframes⟩ := List.head?_eq_some_iff.mp hhead
    simp [activeNames, hframes, hr]

/-! ## Runs -/

/-- When the last instruction has succeeded, the output cannot be flushed, or a variable of the host
cannot be read back. -/
def State.FailsToConclude (s : State σ) (e : Executable) (vars : List HostVar) (trap : Trap) :
    Prop :=
  (∃ reason, s.sink.flush = .error reason ∧ trap = .output reason) ∨
    (readBack e s vars).2 = .error trap

theorem conclude_error (h : (conclude env vars s).result = .error fault) :
    ∃ trap, fault = { trap } ∧ s.FailsToConclude env.exe vars trap := by
  unfold conclude at h
  cases hflush : s.sink.flush with
  | error reason =>
    rw [hflush] at h
    cases h
    exact ⟨_, rfl, .inl ⟨reason, hflush, rfl⟩⟩
  | ok _ =>
    rw [hflush] at h
    cases hback : (readBack env.exe s vars).2 with
    | error trap =>
      simp only [hback] at h
      cases h
      exact ⟨trap, rfl, .inr hback⟩
    | ok _ =>
      simp only [hback] at h
      cases h

theorem FailsAt.pointsAt {declared : VarAddr → Prop} (h : FailsAt env c s fault s')
    (he : env.exe.LaidOut declared) (hsealed : ∀ r ∈ env.exe.routines, ∃ m, r.code.Sealed m)
    {top : Routine} (htop : env.exe.top? = some top) (hname : top.name = Executable.topName)
    (hv : Visits env vars sink host c s) : fault.PointsAt env c s := by
  obtain ⟨frame, hhead, hr⟩ := routine_of_visits he.ids hv
  obtain ⟨houter, hinner⟩ := ends_activeNames (activated_of_visits he htop hv) hhead hr
  have hdepth := depth_of_visits he.ids hv
  have hstack : fault.callStack = activeNames env.exe s := by rw [h.located]; rfl
  refine ⟨by rw [h.located]; rfl, ⟨frame, hhead, hr⟩,
    (begins_of_visits he.ids hsealed hv).cursor.exists_instr, ?_, ?_, ?_, ?_,
    fun n name hcall => ?_⟩
  · rw [hstack]
    exact map_some_activeNames (kept_of_visits he.ids hv)
  · rw [hstack, houter, hname]
  · rw [hstack, hinner]
  · rw [hstack, size_activeNames]
    exact hdepth
  · obtain ⟨hn, hle⟩ := h.depth n name hcall
    rw [hstack, size_activeNames]
    exact ⟨hn, Nat.le_antisymm hdepth hle⟩

/-- **Errors of a run point at the instruction that failed**, in every run of every program that
compiles. An error that does not is from before the first instruction, or it is one of the output or
of reading the host's variables back when the last instruction has succeeded. -/
theorem compile_faults_located {p : Program} {strict : Bool} {e : Executable}
    (h : p.compile strict = .ok e) (config : Config) (bridge : Bridge σ) (vars : List HostVar)
    (sink : Sink) (host : σ) (fuel : Nat) (out : Outcome σ) (fault : Fault)
    (hrun : Env.run ⟨e, config, bridge⟩ vars sink host fuel = some out)
    (herror : out.result = .error fault) :
    (∃ trap s, start ⟨e, config, bridge⟩ vars (initial e sink host) = .error trap s ∧
      fault = { trap }) ∨
    (∃ c s s' trap, Visits ⟨e, config, bridge⟩ vars sink host c s ∧
      advance ⟨e, config, bridge⟩ c s = .ok none s' ∧ fault = { trap } ∧
      s'.FailsToConclude e vars trap) ∨
    ∃ c s, Visits ⟨e, config, bridge⟩ vars sink host c s ∧
      advance ⟨e, config, bridge⟩ c s = .error fault out.state ∧
      out.state.frames.map (·.function) = s.frames.map (·.function) ∧
      fault.PointsAt ⟨e, config, bridge⟩ c s := by
  rcases run_cases hrun with ⟨trap, s, hstart, rfl⟩ | ⟨c, s, fault', s', hv, hfault, rfl⟩ |
    ⟨c, s, s', hv, hend, rfl⟩
  · cases herror
    exact .inl ⟨trap, s, hstart, rfl⟩
  · cases herror
    obtain ⟨t, he, -⟩ := Program.compile_laidOut h
    obtain ⟨c₀, s₀, hstart⟩ := exists_start_of_visits hv
    have htop := (started hstart).top
    have hfails : FailsAt ⟨e, config, bridge⟩ c s fault s' :=
      wpRun_of_error (wpRun_advance_failsAt (kept_of_visits he.ids hv)) hfault
    exact .inr (.inr ⟨c, s, hv, hfault, hfails.frames,
      hfails.pointsAt he (Program.compile_sealed h) htop (Program.name_of_top? h htop) hv⟩)
  · obtain ⟨trap, hfault, hends⟩ := conclude_error herror
    exact .inr (.inl ⟨c, s, s', trap, hv, hend, hfault, hends⟩)

/-- `<top>` calls `f`, which does nothing but call itself. -/
def endlessCalls : Program :=
  let p := (Program.empty.declareFunction 1 "f" .void []).2
  let p := p.define 2 [.call "f" []]
  p.defineTop [.call "f" []]

/-- The third call of `f` would make a fourth active function. -/
theorem endlessCalls_located : ∃ e out fault c s, endlessCalls.compile true = .ok e ∧
    Env.run ⟨e, { maxCallDepth := 3 }, noHost⟩ [] {} () 9 = some out ∧
    out.result = .error fault ∧ fault.trap = .callDepth 3 "f" ∧
    Visits ⟨e, { maxCallDepth := 3 }, noHost⟩ [] {} () c s ∧
    fault.PointsAt ⟨e, { maxCallDepth := 3 }, noHost⟩ c s ∧
    fault.callStack = #["<top>", "f", "f"] := by
  have hruns : ((endlessCalls.compile true).toOption.bind fun e =>
      (Env.run ⟨e, { maxCallDepth := 3 }, noHost⟩ [] {} () 9).map (·.result)) =
      some (.error ⟨.callDepth 3 "f", some ⟨"f", 0⟩, #["<top>", "f", "f"]⟩) := by cbv
  cases hc : endlessCalls.compile true with
  | error e =>
    rw [hc] at hruns
    cases hruns
  | ok e =>
    rw [hc] at hruns
    obtain ⟨out, hout, hresult⟩ := Option.map_eq_some_iff.mp hruns
    rcases compile_faults_located hc _ _ _ _ _ _ out _ hout hresult with
      ⟨trap, -, -, hfault⟩ | ⟨-, -, -, trap, -, -, hfault, -⟩ | ⟨c, s, hv, -, -, hpoints⟩
    · cases hfault
    · cases hfault
    · exact ⟨e, out, _, c, s, rfl, hout, hresult, rfl, hv, hpoints, rfl⟩

end StackLang
