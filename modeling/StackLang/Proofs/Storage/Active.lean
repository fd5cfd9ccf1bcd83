import StackLang.Proofs.Compile.References
import StackLang.Proofs.Machine.Advance
import StackLang.Proofs.Machine.HostVars
import StackLang.Proofs.Simulation.Activations

/-!
# The active functions of a run

`Active z a acts c s`: in the state `s` the function of `a` is at the cursor, with those of `acts`
around it. Each has a frame and its part of the storage, and goes on between two of its instructions.
An instruction that leads to another one stays in its function, calls one that is seen from one of its
scopes, or returns (`Active.advances`), so every state of a run of a compiled program has its active
functions (`active_of_visits`).
-/

namespace StackLang

open RunM

variable {σ : Type} {z : Setting σ} {acts : List Activation} {a : Activation} {c c' : Cursor}
  {s s' : State σ} {vars : List HostVar} {sink : Sink} {host : σ}

/-! ## What the code of a function refers to -/

section References

variable {i sc : ScopeIndex} {f : FunctionDecl} {r : Routine} {t₀ t₁ : Compilation}

theorem Made.mem_frameScopes {p : Program} {strict : Bool} {t : Compilation}
    (m : Made p strict t i f r t₀ t₁) (h : (Site.of ⟨p, f, strict⟩ t₀ t₁).block sc) :
    sc ∈ f.frameScopes := by
  obtain ⟨id, hid, hmem⟩ := h
  obtain ⟨x, hx, hid'⟩ := owned_of_functionCode m.code hmem
  exact m.code.grows.after.symbols.injective hid hid' ▸ hx

namespace Setting

theorem Compiles.made_of_mem (hz : z.Compiles) {r : Routine} (hr : r ∈ z.env.exe.routines) :
    ∃ x t₀ t₁, (z.program.functionsFrom (z.program.scopeCount + 1)
      Program.root)[r.id.toNat]? = some x ∧ z.Made x.1 x.2 r t₀ t₁ := by
  have hid : z.compilation.exe.routine? r.id = some r := by
    have hmem : r ∈ z.compilation.exe.routines := by rwa [hz.output.exe] at hr
    exact hz.output.indexed.ids.routine?_of_mem hmem
  obtain ⟨x, hx, hcompiled⟩ := hz.output.source hid
  obtain ⟨r', t₀, t₁, hr', m⟩ := hcompiled.exists_made
  obtain rfl := Option.some.inj (hid.symm.trans hr')
  exact ⟨x, t₀, t₁, hx, m⟩

theorem Compiles.below_of_mem_frameScopes (hz : z.Compiles) (hd : z.program.DeclaredIn i f)
    (h : sc ∈ f.frameScopes) : z.program.Below f.body.scope sc ∨ sc = Program.root :=
  (FunctionDecl.mem_frameScopes.mp h).imp (FunctionDecl.below_of_mem_scopes (hz.bodies hd)) And.right

/-- A variable in the code is one of a scope around one of the function's scopes; a hidden one is of
that scope itself. -/
theorem Compiles.scope_of_refers (hz : z.Compiles) (m : z.Made i f r t₀ t₁) {B : Nat → Prop}
    {addr : VarAddr}
    (h : (Site.of ⟨z.program, f, z.strict⟩ t₀ t₁).Refers z.callable B (.var addr)) :
    ∃ sc ∈ f.frameScopes, ∃ x scope, z.program.Encloses x sc ∧
      z.program.scope? x = some scope ∧ z.compilation.symbols.scopeId? x = some addr.scope ∧
      (addr.slot.toNat < scope.vars.size ∨ x = sc ∧
        ∃ l, r.layout.find? (·.scope = addr.scope) = some l ∧ addr.slot.toNat < l.size) := by
  obtain ⟨sc, hblock, hidden | ⟨name, info, hvar, rfl⟩⟩ := h
  · obtain ⟨scope, hscope, hid, -, hlt⟩ := hidden
    have hsc := m.mem_frameScopes hblock
    obtain ⟨id, hid', howned⟩ := hblock
    obtain rfl := Option.some.inj (hid.symm.trans hid')
    obtain ⟨l, hl⟩ := m.exists_place? howned
    exact ⟨sc, hsc, sc, scope, .refl, hscope, m.continues.symbols.scopeIds hid,
      .inr ⟨rfl, l, hl, (m.mem_of_place? hl).2.2.2.1 ▸ hlt⟩⟩
  · have hsc := m.mem_frameScopes hblock
    obtain ⟨x, scope, -, hx, hscope, hid, hslot⟩ :=
      m.var hz.linked (hz.below_of_mem_frameScopes m.declared hsc) hvar
    exact ⟨sc, hsc, x, scope, hx, hscope, hid, .inl hslot.lt⟩

/-- A function called in the code is declared in a scope around one of the function's scopes. -/
theorem Compiles.callee_of_refers (hz : z.Compiles) (m : z.Made i f r t₀ t₁) {B : Nat → Prop}
    {id : UInt16} {r' : Routine}
    (h : (Site.of ⟨z.program, f, z.strict⟩ t₀ t₁).Refers z.callable B (.function id))
    (hr : z.env.exe.routine? id = some r') :
    ∃ sc ∈ f.frameScopes, ∃ x g t₀' t₁', z.program.Encloses x sc ∧ z.callable g.name = true ∧
      z.Made x g r' t₀' t₁' := by
  obtain ⟨sc, name, callee, hname, hblock, hfun⟩ := h
  have hsc := m.mem_frameScopes hblock
  obtain ⟨x, g, -, hx, rfl, hcompiled, -⟩ :=
    m.function hz.output hz.linked (hz.below_of_mem_frameScopes m.declared hsc) hfun
  obtain ⟨r'', t₀', t₁', hr', m'⟩ := hcompiled.exists_made
  obtain rfl := Option.some.inj (hr.symm.trans ((hz.output.exe_routine? id).trans hr'))
  exact ⟨sc, hsc, x, g, t₀', t₁', hx, hname, m'⟩

end Setting

end References

namespace Setting

/-! ## Frames -/

/-- The frame of an active function, which goes on between two of its instructions. -/
structure FrameOf (z : Setting σ) (frame : Frame) (a : Activation) : Prop where
  routine : z.env.exe.routine? frame.function = some a.routine
  base : frame.varsBase = a.base
  resumes : a.routine.code.Joint 0 a.routine.code.size frame.returnIp

/-- The function of `a` is at the cursor, with those of `acts` around it. -/
structure Active (z : Setting σ) (a : Activation) (acts : List Activation) (c : Cursor)
    (s : State σ) : Prop extends z.Placed (a :: acts) s where
  stacked : z.Stacked (a :: acts)
  frames : List.Forall₂ z.FrameOf s.frames (a :: acts)
  routine : c.routine = a.routine
  ip : a.routine.code.Joint 0 a.routine.code.size c.ip

/-- How an instruction that leads to another one changes which functions are active. -/
inductive Turns (z : Setting σ) : (op : Opcode) → (a : Activation) → (acts : List Activation) →
    (b : Activation) → (acts' : List Activation) → Prop
  | next {op : Opcode} {a : Activation} {acts : List Activation} (hcall : op ≠ .call)
      (hret : op ≠ .ret) : Turns z op a acts a acts
  | call {a b : Activation} {acts : List Activation} {sc x : ScopeIndex} {t₀ t₁ : Compilation}
      (hsc : sc ∈ a.function.frameScopes) (hx : z.program.Encloses x sc)
      (hname : z.callable b.function.name = true) (m : z.Made x b.function b.routine t₀ t₁)
      (hbase : b.base = a.stop) : Turns z .call a acts b (a :: acts)
  | ret {a b : Activation} {acts : List Activation} : Turns z .ret a (b :: acts) b acts

theorem Placed.congr (h : z.Placed acts s) (hvars : s'.vars.size = s.vars.size)
    (hinstances : s'.instances = s.instances) : z.Placed acts s' :=
  ⟨hvars.trans h.size, hinstances ▸ h.instances⟩

namespace Active

/-- What the instruction at the cursor refers to. -/
theorem refers (h : z.Active a acts c s) (hz : z.Compiles) {i : ScopeIndex} {t₀ t₁ : Compilation}
    (m : z.Made i a.function a.routine t₀ t₁) {instr : Instr}
    (hi : c.routine.code.decodeAt c.ip = .ok instr) :
    (Site.of ⟨z.program, a.function, z.strict⟩ t₀ t₁).Refers z.callable
      (a.routine.code.Joint 0 a.routine.code.size) instr.operand :=
  m.code.refers (.inl (hz.bodies m.declared)) h.ip (h.routine ▸ hi)

/-- **An instruction that leads to another one**: the functions that are active then. -/
theorem advances (h : z.Active a acts c s) (hz : z.Compiles) (ha : Advances z.env c s c' s') :
    ∃ i b acts', c.routine.code.decodeAt c.ip = .ok i ∧ z.Turns i.op a acts b acts' ∧
      z.Active b acts' c' s' := by
  obtain ⟨i, t₀, t₁, m⟩ := h.stacked.made
  cases ha with
  | @next instr ip _ hi hstep =>
    have hframed := framed_of_stepInstr hstep
    obtain ⟨hcall, hret⟩ := MachineM.op_of_next hi hstep
    refine ⟨instr, a, acts, hi, .next hcall hret,
      h.toPlaced.congr hframed.vars hframed.instances, h.stacked, hframed.frames ▸ h.frames,
      h.routine, ?_⟩
    rcases MachineM.next_of_stepInstr hstep with rfl | htarget
    · rw [h.routine] at hi
      exact h.ip.next (Code.ne_size_of_decodeAt hi) hi
    · have hrefers := h.refers hz m hi
      rwa [htarget] at hrefers
  | @call instr id r hi hid hr hfits =>
    obtain ⟨sc, hsc, x, g, t₀', t₁', hx, hname, m'⟩ := hz.callee_of_refers m (hid ▸ h.refers hz m hi) hr
    obtain ⟨frame, frames, hframe, hframes, hstate⟩ := List.forall₂_cons_right_iff.mp h.frames
    have hid' := hz.id_of_routine? hr
    have hplaced : z.Placed (a :: acts) (paused { s with steps := s.steps + 1 } instr.next) := by
      rw [paused_of_frames (s := { s with steps := s.steps + 1 }) hstate]
      exact h.toPlaced.congr rfl rfl
    have hsize : s.vars.size = a.stop := h.size
    obtain ⟨line, hline, -⟩ := m'.code.sweeps (.inl (hz.bodies m'.declared))
    refine ⟨instr, ⟨g, r, a.stop⟩, a :: acts, hi,
      Code.op_of_function hi hid ▸ .call hsc hx hname m' rfl,
      hplaced.entered (a := ⟨g, r, a.stop⟩) hz.linked m' rfl, .call h.stacked hname m' rfl, ?_, rfl,
      hline.leads.joint_start⟩
    rw [frames_entered_paused (s := { s with steps := s.steps + 1 }) hstate]
    refine .cons ⟨hid'.symm ▸ hr, hsize, hline.leads.joint_start⟩ (.cons ?_ hframes)
    rw [h.routine] at hi
    exact ⟨hframe.routine, hframe.base, h.ip.next (Code.ne_size_of_decodeAt hi) hi⟩
  | @ret instr frame caller frames r hi hop hstate hr _ =>
    have hforall := h.frames
    rw [hstate] at hforall
    cases hforall with
    | cons hframe hforall =>
      cases hforall with
      | @cons _ b _ acts hcaller hframes =>
        obtain rfl := Option.some.inj (hr.symm.trans hcaller.routine)
        have hplaced : z.Placed (a :: b :: acts) { s with steps := s.steps + 1 } :=
          h.toPlaced.congr rfl rfl
        refine ⟨instr, b, acts, hi, hop ▸ .ret, ?_, ?_, .cons hcaller hframes, rfl, hcaller.resumes⟩
        · rw [h.routine]
          exact hplaced.left hz.linked h.stacked hframe.base (caller :: frames)
        · cases h.stacked with
          | call hst _ _ _ => exact hst

end Active

/-! ## Runs -/

theorem placed_initial (z : Setting σ) (sink : Sink) (host : σ) :
    z.Placed [] (initial z.env.exe sink host) where
  size := rfl
  instances id hid := by simp [initial, hid, placesOf]

/-- At the beginning `<top>` is active, and its variables come first. -/
theorem active_of_startsAt (hz : z.Compiles) (h : StartsAt z.env sink host c s) :
    ∃ a, z.Active a [] c s ∧ a.base = 0 := by
  obtain ⟨f, r, htop, hcompiled, hr, hrid, -⟩ := hz.output.top
  obtain rfl := Option.some.inj (hr.symm.trans h.top)
  obtain ⟨r', t₀, t₁, hr', m⟩ := hcompiled.exists_made
  obtain rfl := Option.some.inj (hrid.symm.trans ((hz.output.exe_routine? 0).trans hr'))
  have hid := hz.id_of_routine? hrid
  have hplaced : z.Placed [⟨f, c.routine, 0⟩] ((initial z.env.exe sink host).entered c.routine) :=
    (z.placed_initial sink host).entered (a := ⟨f, c.routine, 0⟩) hz.linked m rfl
  obtain ⟨line, hline, -⟩ := m.code.sweeps (.inl (hz.bodies m.declared))
  refine ⟨⟨f, c.routine, 0⟩, ⟨hplaced.congr h.framed.vars h.framed.instances, .top htop m rfl, ?_,
    rfl, ?_⟩, rfl⟩
  · rw [h.framed.frames]
    exact .cons ⟨hid.symm ▸ hrid, rfl, hline.leads.joint_start⟩ .nil
  · rw [h.ip]
    exact hline.leads.joint_start

/-- **Every state of a run has its active functions.** -/
theorem active_of_visits (hz : z.Compiles) (hv : Visits z.env vars sink host c s) :
    ∃ a acts, z.Active a acts c s := by
  induction hv with
  | start h =>
    obtain ⟨a, ha, -⟩ := active_of_startsAt hz (started h)
    exact ⟨a, [], ha⟩
  | advance _ h ih =>
    obtain ⟨a, acts, hactive⟩ := ih
    obtain ⟨_, b, acts', -, -, hb⟩ := hactive.advances hz (advances_of_advance h)
    exact ⟨b, acts', hb⟩

end Setting

/-- `count` calls `rest`, which is declared inside of it and calls it back until `n` is 0. -/
def countingProgram : Program :=
  let p := (Program.empty.declareFunction Program.root "count" .void [⟨"n", .int⟩]).2
  let p := (p.declareFunction 2 "rest" .void []).2
  let p := (p.addScope 3).2
  let p := p.define 3 [.ifElse (.load "n")
    (.mk 4 [.call "count" [.binary .sub (.load "n") (.int 1)]]) none]
  let p := p.define 2 [.call "rest" []]
  p.defineTop [.call "count" [.int 1]]

theorem countingProgram_built : countingProgram.Built :=
  .defineTop (.define (.define (.addScope (.declareFunction (.declareFunction .empty (by decide)
    _ _ _) (by decide) _ _ _) (by decide)) _ _) _ _) _

/-- The inner one of two calls of `rest` reads the `n` of `count`, which is not in its own frame. -/
theorem countingProgram_visits : ∃ e, countingProgram.compile true = .ok e ∧
    ∃ c s i, Visits ⟨e, {}, noHost⟩ [] {} () c s ∧ s.frames.length = 5 ∧
      c.routine.code.decodeAt c.ip = .ok i ∧ i.operand = .var ⟨2, 0⟩ ∧
      c.routine.layout.find? (·.scope = 2) = none := by
  have hruns : ((countingProgram.compile true).toOption.bind fun e =>
      (visited? ⟨e, {}, noHost⟩ [] {} () 13).map fun x =>
        (x.2.frames.length, (x.1.routine.code.decodeAt x.1.ip).toOption.map (·.operand),
          x.1.routine.layout.find? (·.scope = 2))) = some (5, some (.var ⟨2, 0⟩), none) := by cbv
  cases hc : countingProgram.compile true with
  | error e =>
    rw [hc] at hruns
    cases hruns
  | ok e =>
    rw [hc] at hruns
    obtain ⟨⟨c, s⟩, hvisited, hx⟩ := Option.map_eq_some_iff.mp hruns
    obtain ⟨hlen, hx⟩ := Prod.mk.inj hx
    obtain ⟨hoperand, hnone⟩ := Prod.mk.inj hx
    obtain ⟨i, hi, hoperand⟩ := Option.map_eq_some_iff.mp hoperand
    refine ⟨e, rfl, c, s, i, visits_of_visited? hvisited, hlen, ?_, hoperand, hnone⟩
    dsimp only at hi
    cases hd : c.routine.code.decodeAt c.ip with
    | ok j =>
      rw [hd] at hi
      cases hi
      rfl
    | error _ =>
      rw [hd] at hi
      cases hi

end StackLang
