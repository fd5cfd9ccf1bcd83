import StackLang.Proofs.Compile.Stops
import StackLang.Proofs.Loops.Code
import StackLang.Proofs.Machine.HostVars

/-!
# Where the host's variables are read back

Before the first instruction the host's variables are written to the frame of `<top>`. When the run
has ended they are read from the innermost frame that has them. `compile_reads_back`: that is the same
slot unless the run was stopped by a function named `<top>` that had been called, and one of the
frames inside the outermost one has the variable too; the value is then that of this frame
(`selfCall_loses_value`).
-/

namespace StackLang

open RunM
open Executable (Holds LaidOut mem_of_routine?)

variable {σ : Type} {env : Env σ} {vars : List HostVar} {sink : Sink} {host : σ} {c c' : Cursor}
  {s s' : State σ} {declared : VarAddr → Prop}

/-! ## Active functions -/

/-- A function of the executable calls `r`. -/
def Executable.Calls (e : Executable) (r : Routine) : Prop :=
  ∃ caller ∈ e.routines, ∃ ip i id, caller.code.Joint 0 caller.code.size ip ∧
    caller.code.decodeAt ip = .ok i ∧ i.operand = .function id ∧ e.routine? id = some r

/-- The frames of a run that began with `top`: its frame is the outermost one, and the functions of
the frames inside of it have been called. -/
inductive Executable.Activated (e : Executable) (top : Routine) : List Frame → Prop
  | top {outer : Frame} (hr : e.routine? outer.function = some top) (hbase : outer.varsBase = 0) :
      Activated e top [outer]
  | call {frame : Frame} {frames : List Frame} {r : Routine}
      (hr : e.routine? frame.function = some r) (hcalls : e.Calls r)
      (h : Activated e top frames) : Activated e top (frame :: frames)

namespace Executable.Activated

variable {e : Executable} {top : Routine} {frame caller : Frame} {frames : List Frame}

/-- Where a frame is to go on does not matter. -/
theorem congr (h : e.Activated top (frame :: frames)) (ip : Nat) :
    e.Activated top ({ frame with returnIp := ip } :: frames) := by
  cases h with
  | top hr hbase => exact @Activated.top e top { frame with returnIp := ip } hr hbase
  | call hr hcalls h => exact @Activated.call e top { frame with returnIp := ip } _ _ hr hcalls h

theorem tail (h : e.Activated top (frame :: caller :: frames)) :
    e.Activated top (caller :: frames) := by
  cases h with
  | call _ _ h => exact h

/-- The outermost frame, apart from those inside of it. -/
theorem exists_outer (h : e.Activated top frames) : ∃ inner outer, frames = inner ++ [outer] ∧
    e.routine? outer.function = some top ∧ outer.varsBase = 0 ∧
    ∀ frame ∈ inner, ∃ r, e.routine? frame.function = some r ∧ e.Calls r := by
  induction h with
  | @top outer hr hbase => exact ⟨[], outer, rfl, hr, hbase, List.forall_mem_nil _⟩
  | @call frame _ r hr hcalls _ ih =>
    obtain ⟨inner, outer, rfl, houter, hbase, hinner⟩ := ih
    exact ⟨frame :: inner, outer, rfl, houter, hbase,
      List.forall_mem_cons.mpr ⟨⟨r, hr, hcalls⟩, hinner⟩⟩

end Executable.Activated

theorem Advances.activated (he : env.exe.LaidOut declared) (ha : Advances env c s c' s')
    (hv : Visits env vars sink host c s) {top : Routine} (h : env.exe.Activated top s.frames) :
    env.exe.Activated top s'.frames := by
  obtain ⟨frame, hhead, hroutine⟩ := routine_of_visits he.ids hv
  obtain ⟨frames, hframes⟩ := List.head?_eq_some_iff.mp hhead
  cases ha with
  | next _ hstep => rwa [(framed_of_stepInstr hstep).frames]
  | @call i id r hi hid hr _ =>
    have hcalls : env.exe.Calls r := ⟨c.routine, mem_of_routine? hroutine, c.ip, i, id,
      (onJoints_of_visits he hv).cursor, hi, hid, hr⟩
    rw [frames_entered_paused (s := { s with steps := s.steps + 1 }) hframes]
    rw [hframes] at h
    exact .call (he.ids.routine? hr) hcalls (h.congr i.next)
  | ret _ _ hframes' _ _ =>
    rw [hframes'] at h
    exact h.tail

/-- **The function that a run begins with stays the outermost one.** -/
theorem activated_of_visits (he : env.exe.LaidOut declared) {top : Routine}
    (htop : env.exe.top? = some top) (hv : Visits env vars sink host c s) :
    env.exe.Activated top s.frames := by
  induction hv with
  | start h =>
    have hstart := started h
    obtain rfl := Option.some.inj (htop.symm.trans hstart.top)
    rw [hstart.framed.frames]
    exact .top (he.ids.routine?_of_top? htop) rfl
  | advance hv h ih => exact (advances_of_advance h).activated he hv ih

/-! ## The frame that is meant -/

/-- `n` is where the innermost of the frames that have a variable has it. -/
inductive Executable.Innermost (e : Executable) (addr : VarAddr) (n : Nat) : List Frame → Prop
  | here {frame : Frame} {frames : List Frame} (h : frame.Has e addr n) :
      Innermost e addr n (frame :: frames)
  | outward {frame : Frame} {frames : List Frame} (hnone : ∀ m, ¬ frame.Has e addr m)
      (h : Innermost e addr n frames) : Innermost e addr n (frame :: frames)

/-- A frame has a variable at one place. -/
theorem Frame.Has.unique {e : Executable} {frame : Frame} {addr : VarAddr} {n m : Nat}
    (h : frame.Has e addr n) (h' : frame.Has e addr m) : n = m := by
  obtain ⟨r, l, hr, hl, -, rfl⟩ := h
  obtain ⟨r', l', hr', hl', -, rfl⟩ := h'
  obtain rfl := Option.some.inj (hr.symm.trans hr')
  obtain rfl := Option.some.inj (hl.symm.trans hl')
  rfl

/-- Whether a frame has a variable depends on its function alone, and where on its base. -/
theorem Frame.Has.congr {e : Executable} {frame frame' : Frame} {addr : VarAddr} {n : Nat}
    (h : frame.Has e addr n) (hr : e.routine? frame'.function = e.routine? frame.function)
    (hbase : frame'.varsBase = frame.varsBase) : frame'.Has e addr n := by
  obtain ⟨r, l, hr', hrest⟩ := h
  exact ⟨r, l, hr.trans hr', by rwa [hbase]⟩

/-- Without the variable in a frame inside of it, the outermost frame is meant. -/
theorem Executable.Innermost.has_of_forall {e : Executable} {addr : VarAddr} {n : Nat}
    {inner : List Frame} {outer : Frame} (h : e.Innermost addr n (inner ++ [outer]))
    (hnone : ∀ frame ∈ inner, ∀ m, ¬ frame.Has e addr m) : outer.Has e addr n := by
  induction inner with
  | nil =>
    cases h with
    | here h => exact h
    | outward _ h => cases h
  | cons frame inner ih =>
    obtain ⟨hframe, hinner⟩ := List.forall_mem_cons.mp hnone
    cases h with
    | here h => exact absurd h (hframe n)
    | outward _ h => exact ih h hinner

/-- **The machine means the innermost frame that has a declared variable.** -/
theorem Executable.LaidOut.innermost_of_slotIndex {e : Executable} (he : e.LaidOut declared)
    (hs : s.Kept e) {addr : VarAddr} (haddr : declared addr) {n : Nat}
    (hn : s.slotIndex addr = .ok n) : e.Innermost addr n s.frames := by
  obtain ⟨b, hb, rfl, -⟩ := State.exists_base hn
  unfold State.Kept at hs
  generalize s.frames = frames at hs ⊢
  generalize s.vars.size = size at hs
  generalize s.instances = instances at hs hb
  induction hs with
  | nil => simp [Array.getElem?_replicate, Option.bind_eq_some_iff] at hb
  | @cons frame frames r instances hr h ih =>
    rw [head?_enterInstances] at hb
    obtain ⟨places, hplaces, hb⟩ := Option.bind_eq_some_iff.mp hb
    cases hl : r.lastPlace? addr.scope with
    | some l =>
      rw [hl] at hb
      cases hb
      obtain ⟨hmem, hscope⟩ := Routine.mem_of_lastPlace? hl
      exact .here ⟨r, l, hr, hl, he.room r (mem_of_routine? hr) l hmem addr haddr hscope.symm, rfl⟩
    | none =>
      rw [hl] at hb
      refine .outward (fun m hm => ?_) (ih (by rw [hplaces]; exact hb))
      obtain ⟨r', l, hr', hl', -⟩ := hm
      obtain rfl := Option.some.inj (hr.symm.trans hr')
      cases hl.symm.trans hl'

/-! ## Binding -/

theorem State.Framed.slotIndex (h : s.Framed s') (addr : VarAddr) :
    s'.slotIndex addr = s.slotIndex addr := by
  unfold State.slotIndex
  rw [h.instances, h.vars]

namespace RunM

variable {exe : Executable} {var : HostVar}

/-- The variables are written one after the other. -/
theorem bindVars_cons : (bindVars exe (var :: vars) : MachineM σ Unit) =
    bindVars exe [var] >>= fun _ => bindVars exe vars := by
  rw [bindVars, bindVars.eq_def exe [var]]
  dsimp only
  rw [bindVars]
  cases topVar? exe var.name with
  | none => simp
  | some top => by_cases hty : var.value.ty = top.ty <;> simp [hty]

theorem bindVars_cons_ok (h : bindVars exe (var :: vars) s = .ok () s') :
    ∃ t, bindVars exe [var] s = .ok () t ∧ bindVars exe vars t = .ok () s' := by
  have hwp : MachineM.wp (bindVars exe (var :: vars))
      (fun _ s' => ∃ t, bindVars exe [var] s = .ok () t ∧ bindVars exe vars t = .ok () s')
      (fun _ _ => True) s := by
    rw [bindVars_cons, MachineM.wp_bind]
    exact MachineM.wp_of_cases (fun _ t ht =>
      MachineM.wp_of_cases (fun _ _ hs' => ⟨t, ht, hs'⟩) fun _ _ _ => trivial) fun _ _ _ => trivial
  exact MachineM.wp_of_ok hwp h

/-- A variable that the program has is written where the machine finds it. -/
theorem bindVar_ok {top : TopVar} (htop : topVar? exe var.name = some top)
    (h : bindVars exe [var] s = .ok () s') : ∃ x t n,
      MachineM.ofHost exe var.value top.ty s = .ok x t ∧ s.slotIndex top.addr = .ok n ∧
      s'.vars = s.vars.setIfInBounds n (some x) ∧ s'.overlay = t.overlay := by
  have hwp : MachineM.wp (bindVars exe [var]) (fun _ s' => ∃ x t n,
      MachineM.ofHost exe var.value top.ty s = .ok x t ∧ s.slotIndex top.addr = .ok n ∧
      s'.vars = s.vars.setIfInBounds n (some x) ∧ s'.overlay = t.overlay) (fun _ _ => True) s := by
    rw [bindVars, bindVars, htop]
    simp only [MachineM.wp_bind, MachineM.wp_ite, MachineM.wp_throw]
    refine ⟨fun _ => trivial, fun _ => MachineM.wp_of_cases (fun x t hx => ?_) fun _ _ _ => trivial⟩
    have hframed : s.Framed t := MachineM.wp_of_ok (Q := fun _ t => s.Framed t)
      (MachineM.Keeps.ofHost (R := framed ⟨fun _ _ s => (none, s)⟩) exe var.value top.ty s) hx
    have hvars : t.vars = s.vars := MachineM.wp_of_ok (Q := fun _ t => t.vars = s.vars)
      (MachineM.Keeps.ofHost (R := readonly ⟨fun _ _ s => (none, s)⟩) exe var.value top.ty s) hx
    rw [MachineM.wp_slotIndex, hframed.slotIndex]
    cases hn : s.slotIndex top.addr with
    | error trap => trivial
    | ok n => exact ⟨x, t, n, hx, rfl, by rw [← hvars], rfl⟩
  exact MachineM.wp_of_ok hwp h

/-- Variables that have been written could be found. -/
theorem exists_slotIndex_of_bindVars (h : bindVars exe vars s = .ok () s') (hvar : var ∈ vars)
    {top : TopVar} (htop : topVar? exe var.name = some top) :
    ∃ n, s.slotIndex top.addr = .ok n := by
  induction vars generalizing s with
  | nil => cases hvar
  | cons first vars ih =>
    obtain ⟨t, hfirst, hrest⟩ := bindVars_cons_ok h
    rcases List.mem_cons.mp hvar with rfl | hvar
    · obtain ⟨-, -, n, -, hn, -⟩ := bindVar_ok htop hfirst
      exact ⟨n, hn⟩
    · have hframed : s.Framed t := MachineM.wp_of_ok (Q := fun _ t => s.Framed t)
        (MachineM.Keeps.bindVars (R := framed ⟨fun _ _ s => (none, s)⟩) trivial exe [first] s) hfirst
      rw [← hframed.slotIndex]
      exact ih hrest hvar

/-- A run begins by entering `<top>` and writing the variables of the host. -/
theorem begun_of_start (h : start env vars (initial env.exe sink host) = .ok c s) :
    env.exe.top? = some c.routine ∧ c.ip = 0 ∧ ∃ t,
      MachineM.enter env.config c.routine (initial env.exe sink host) = .ok () t ∧
        bindVars env.exe vars t = .ok () s := by
  have henter : MachineM.wp (enterTop env vars) (fun c s =>
      env.exe.top? = some c.routine ∧ c.ip = 0 ∧ ∃ t,
        MachineM.enter env.config c.routine (initial env.exe sink host) = .ok () t ∧
          bindVars env.exe vars t = .ok () s)
      (fun _ _ => True) (initial env.exe sink host) := by
    unfold enterTop
    cases htop : env.exe.top? with
    | none => trivial
    | some r =>
      rw [MachineM.wp_bind]
      refine MachineM.wp_of_cases (fun _ t ht => ?_) fun _ _ _ => trivial
      rw [MachineM.wp_bind]
      exact MachineM.wp_of_cases (fun _ _ hbind => ⟨rfl, rfl, t, ht, hbind⟩) fun _ _ _ => trivial
  have hwp : MachineM.wp (start env vars) (fun c s =>
      env.exe.top? = some c.routine ∧ c.ip = 0 ∧ ∃ t,
        MachineM.enter env.config c.routine (initial env.exe sink host) = .ok () t ∧
          bindVars env.exe vars t = .ok () s)
      (fun _ _ => True) (initial env.exe sink host) := by
    rw [start_eq]
    cases env.config.verify with
    | false => exact henter
    | true =>
      cases env.exe.verify with
      | error _ => trivial
      | ok _ => exact henter
  exact MachineM.wp_of_ok hwp h

/-- A run begins with all variables of the host written to the frame of `<top>`. -/
theorem bound_of_start (h : start env vars (initial env.exe sink host) = .ok c s) :
    bindVars env.exe vars ((initial env.exe sink host).entered c.routine) = .ok () s := by
  obtain ⟨-, -, t, henter, hbind⟩ := begun_of_start h
  obtain ⟨rfl, -⟩ := MachineM.wp_of_ok MachineM.wp_enter_entered henter
  exact hbind

end RunM

theorem exists_start_of_visits (hv : Visits env vars sink host c s) :
    ∃ c₀ s₀, start env vars (initial env.exe sink host) = .ok c₀ s₀ := by
  induction hv with
  | start h => exact ⟨_, _, h⟩
  | advance _ _ ih => exact ih

/-! ## Reading back -/

namespace RunM

variable {exe : Executable}

theorem forall₂_of_readBack {vars' : List HostVar} (h : readBack exe s vars = (vars', .ok ())) :
    List.Forall₂ (fun var var' => readVar exe s var = .ok var') vars vars' := by
  induction vars generalizing vars' with
  | nil =>
    cases h
    exact .nil
  | cons var vars ih =>
    unfold readBack at h
    cases hr : readVar exe s var with
    | error trap =>
      rw [hr] at h
      cases h
    | ok var' =>
      rw [hr] at h
      cases hback : readBack exe s vars with
      | mk rest result =>
        rw [hback] at h
        cases h
        exact .cons hr (ih hback)

/-- A run that succeeds has read all variables back. -/
theorem conclude_ok (h : (conclude env vars s).result = .ok ()) :
    (conclude env vars s).state = s ∧
      readBack env.exe s vars = ((conclude env vars s).vars, .ok ()) := by
  unfold conclude at h ⊢
  split at h
  · cases h
  · dsimp only at h ⊢
    cases hback : readBack env.exe s vars with
    | mk vars' result =>
      rw [hback] at h
      cases result with
      | error trap => cases h
      | ok _ => exact ⟨rfl, rfl⟩

/-- What has been read of a variable. -/
theorem readVar_ok {var var' : HostVar} (h : readVar exe s var = .ok var') :
    var'.name = var.name ∧ (topVar? exe var.name = none → var' = var) ∧
      ∀ top, topVar? exe var.name = some top → ∃ n, s.slotIndex top.addr = .ok n ∧
        s.toHost exe (s.readVar n (.zero top.ty)) = .ok var'.value := by
  unfold readVar at h
  cases htop : topVar? exe var.name with
  | none =>
    rw [htop] at h
    cases h
    exact ⟨rfl, fun _ => rfl, nofun⟩
  | some top =>
    rw [htop] at h
    cases hn : s.slotIndex top.addr with
    | error trap => simp [hn, bind, Except.bind] at h
    | ok n =>
      cases hvalue : s.toHost exe (s.readVar n (.zero top.ty)) with
      | error trap => simp [hn, hvalue, bind, Except.bind] at h
      | ok value =>
        simp only [hn, hvalue, bind, Except.bind, pure, Except.pure] at h
        cases h
        refine ⟨rfl, nofun, ?_⟩
        rintro _ ⟨⟩
        exact ⟨n, hn, hvalue⟩

end RunM

/-- The variables of `<top>` that the host can set are declared. -/
theorem Program.declared_of_topVar {p : Program} {symbols : Symbols} (hs : symbols.Sound p)
    {top : TopVar} (h : top ∈ p.topVars symbols) : p.Declared symbols top.addr := by
  unfold topVars at h
  cases hscope : p.scope? p.topScope with
  | none =>
    rw [hscope] at h
    cases h
  | some scope =>
    rw [hscope] at h
    obtain ⟨var, -, h⟩ := List.mem_filterMap.mp h
    obtain ⟨info, hlook, rfl⟩ := Option.map_eq_some_iff.mp h
    obtain ⟨x, -, hdecl⟩ := List.exists_of_findSome?_eq_some hlook
    obtain ⟨scope', hscope', hid, hslot, -, -⟩ := hs.declared? hdecl
    exact ⟨x, scope', hid, hscope', hslot.lt⟩

/-- What a run makes of a variable of the host. `begun` is the state in which `<top>` has been
entered, and `s` the one that the run has ended in, with the frame `outer` of `<top>` around those in
`inner`. -/
structure ReadsBack (e : Executable) (begun s : State σ) (inner : List Frame) (outer : Frame)
    (var var' : HostVar) : Prop where
  name : var'.name = var.name
  unknown : topVar? e var.name = none → var' = var
  /-- One that the program has was written to a slot of `outer`, and is read from the innermost frame
  that has the variable. -/
  known : ∀ top, topVar? e var.name = some top → ∃ n m,
    (∀ t t', begun.Framed t → bindVars e [var] t = .ok () t' → ∃ x u,
      MachineM.ofHost e var.value top.ty t = .ok x u ∧
        t'.vars = t.vars.setIfInBounds n (some x)) ∧
    outer.Has e top.addr n ∧ e.Innermost top.addr m s.frames ∧
    s.toHost e (s.readVar m (.zero top.ty)) = .ok var'.value ∧
    ((∀ frame ∈ inner, ∀ k, ¬ frame.Has e top.addr k) → m = n)

/-- A variable that is found when `<top>` has been entered is one of `<top>`. -/
theorem Executable.LaidOut.has_of_entered {e : Executable} (he : e.LaidOut declared) {r : Routine}
    (htop : e.top? = some r) {addr : VarAddr} (haddr : declared addr) {n : Nat}
    (hn : ((initial e sink host).entered r).slotIndex addr = .ok n) {outer : Frame}
    (houter : e.routine? outer.function = some r) (hbase : outer.varsBase = 0) :
    outer.Has e addr n := by
  have hr := he.ids.routine?_of_top? htop
  have hinitial : (initial e sink host).Kept e := .nil
  have hinnermost : e.Innermost addr n ([] ++ [_]) :=
    he.innermost_of_slotIndex (hinitial.entered he.ids hr) haddr hn
  have hhas := hinnermost.has_of_forall (List.forall_mem_nil _)
  exact hhas.congr (houter.trans hr.symm) hbase

theorem readsBack_of_readVar {e : Executable} (he : e.LaidOut declared) {r : Routine}
    (htop : e.top? = some r) (hdeclared : ∀ top ∈ e.topVars, declared top.addr) (hs : s.Kept e)
    {inner : List Frame} {outer : Frame} (hframes : s.frames = inner ++ [outer])
    (houter : e.routine? outer.function = some r) (hbase : outer.varsBase = 0) {begin : State σ}
    (hbind : bindVars e vars ((initial e sink host).entered r) = .ok () begin)
    {var var' : HostVar} (hvar : var ∈ vars) (hread : readVar e s var = .ok var') :
    ReadsBack e ((initial e sink host).entered r) s inner outer var var' := by
  obtain ⟨hname, hunknown, hknown⟩ := readVar_ok hread
  refine ⟨hname, hunknown, fun top hfound => ?_⟩
  obtain ⟨m, hm, hvalue⟩ := hknown top hfound
  obtain ⟨n, hn⟩ := exists_slotIndex_of_bindVars hbind hvar hfound
  have haddr := hdeclared top (List.mem_of_find?_eq_some hfound)
  have hhas := he.has_of_entered htop haddr hn houter hbase
  have hinnermost := he.innermost_of_slotIndex hs haddr hm
  refine ⟨n, m, fun t t' ht hbound => ?_, hhas, hinnermost, hvalue, fun hnone => ?_⟩
  · obtain ⟨x, u, n', hx, hn', hvars, -⟩ := bindVar_ok hfound hbound
    rw [ht.slotIndex, hn] at hn'
    obtain rfl := Except.ok.inj hn'
    exact ⟨x, u, hx, hvars⟩
  · rw [hframes] at hinnermost
    exact (hinnermost.has_of_forall hnone).unique hhas

/-! ## Programs -/

/-- **Where the host's variables are read back.** A run of a compiled program that succeeds ends with
the frame of `<top>` as the outermost one, with frames of called functions inside of it; if there are
any, the innermost one is of a function named `<top>`. Each variable of the host that the program has
was written to a slot of the outermost frame, and it is read back from the innermost frame that has
the variable: unless one of the inner frames does, from that very slot. -/
theorem compile_reads_back {p : Program} {strict : Bool} {e : Executable}
    (h : p.compile strict = .ok e) (config : Config) (bridge : Bridge σ) (vars : List HostVar)
    (sink : Sink) (host : σ) (fuel : Nat) (out : Outcome σ)
    (hrun : Env.run ⟨e, config, bridge⟩ vars sink host fuel = some out)
    (hok : out.result = .ok ()) :
    ∃ top inner outer, e.top? = some top ∧ out.state.frames = inner ++ [outer] ∧
      e.routine? outer.function = some top ∧ outer.varsBase = 0 ∧
      (∀ frame ∈ inner, ∃ r, e.routine? frame.function = some r ∧ e.Calls r) ∧
      (∀ frame, inner.head? = some frame →
        ∃ r, e.routine? frame.function = some r ∧ r.name = Executable.topName) ∧
      List.Forall₂ (ReadsBack e ((initial e sink host).entered top) out.state inner outer)
        vars out.vars := by
  rcases run_cases hrun with ⟨trap, s, -, rfl⟩ | ⟨c, s, fault, s', -, -, rfl⟩ |
    ⟨c, s, s', hv, hend, rfl⟩
  · cases hok
  · cases hok
  obtain ⟨t, ht, he⟩ := Program.compile_traversed h
  have hlaid : e.LaidOut (p.Declared t.symbols) := he ▸ ht.laidOut
  have hdeclared : ∀ top ∈ e.topVars, p.Declared t.symbols top.addr := fun top hmem =>
    Program.declared_of_topVar ht.indexed.symbols (by rwa [he] at hmem)
  obtain ⟨c₀, s₀, hstart⟩ := exists_start_of_visits hv
  have htop : e.top? = some c₀.routine := (started hstart).top
  obtain ⟨i, hi, hop, rfl⟩ := exists_end_of_advance hend
  obtain ⟨inner, outer, hframes, houter, hbase, hinner⟩ :=
    (activated_of_visits hlaid htop hv).exists_outer
  obtain ⟨hstate, hback⟩ := conclude_ok hok
  rw [hstate]
  refine ⟨c₀.routine, inner, outer, htop, hframes, houter, hbase, hinner, fun frame hhead => ?_, ?_⟩
  · obtain ⟨frame', hhead', hroutine⟩ := routine_of_visits hlaid.ids hv
    obtain ⟨frames, rfl⟩ := List.head?_eq_some_iff.mp hhead
    obtain rfl : frame = frame' := by simpa [hframes] using hhead'
    refine ⟨c.routine, hroutine, ?_⟩
    rcases hop with hop | ⟨-, hlen⟩
    · exact compile_stops h (mem_of_routine? hroutine) (onJoints_of_visits hlaid hv).cursor hi hop
    · simp [hframes] at hlen
  · have hkept : State.Kept e { s with steps := s.steps + 1 } := kept_of_visits hlaid.ids hv
    refine ((List.forall₂_and_left _ _).mpr ⟨fun _ h => h, forall₂_of_readBack hback⟩).imp ?_
    rintro var var' ⟨hvar, hread⟩
    exact readsBack_of_readVar hlaid htop hdeclared hkept hframes houter hbase
      (bound_of_start hstart) hvar hread

/-- Its `<top>` calls itself unless the host's variable `a` is 0. -/
def selfCallProgram : Program :=
  let p := Program.empty.declareVar 1 ⟨"a", .int⟩
  let p := (p.addScope 1).2
  p.defineTop [.ifElse (.load "a") (.mk 2 [.call "<top>" []]) none]

/-- The inner one of two frames of `<top>` ends the run. In the outer one `a` is 5, as the host has
set it; the 0 that is read back is the inner one's. -/
theorem run_selfCallProgram : ∃ e out, selfCallProgram.compile true = .ok e ∧
    Env.run ⟨e, {}, noHost⟩ [⟨"a", .int 5⟩] {} () 9 = some out ∧ out.result = .ok () ∧
    out.vars = [⟨"a", .int 0⟩] ∧ topVar? e "a" = some ⟨"a", .int, ⟨1, 0⟩⟩ ∧
    ∃ inner outer, out.state.frames = [inner, outer] ∧ outer.Has e ⟨1, 0⟩ 0 ∧
      out.state.readVar 0 (.zero .int) = .int 5 := by
  have hruns : ((selfCallProgram.compile true).toOption.bind fun e =>
      (Env.run ⟨e, {}, noHost⟩ [⟨"a", .int 5⟩] {} () 9).map fun out =>
        (out.result, out.vars, topVar? e "a", out.state.frames,
          (e.routine? 0).map (·.lastPlace? 1), out.state.readVar 0 (.zero .int))) =
      some (.ok (), [⟨"a", .int 0⟩], some ⟨"a", .int, ⟨1, 0⟩⟩, [⟨0, 0, 0, 1⟩, ⟨0, 12, 0, 0⟩],
        some (some ⟨1, 0, 1⟩), .int 5) := by cbv
  cases hc : selfCallProgram.compile true with
  | error e =>
    rw [hc] at hruns
    cases hruns
  | ok e =>
    rw [hc] at hruns
    obtain ⟨out, hout, hfacts⟩ := Option.map_eq_some_iff.mp hruns
    simp only [Prod.mk.injEq] at hfacts
    obtain ⟨hresult, hvars, htop, hframes, hplace, hread⟩ := hfacts
    obtain ⟨r, hr, hl⟩ := Option.map_eq_some_iff.mp hplace
    exact ⟨e, out, rfl, hout, hresult, hvars, htop, _, _, hframes,
      ⟨r, ⟨1, 0, 1⟩, hr, hl, by decide, rfl⟩, hread⟩

/-- `a` is read back from the inner frame, which has it too. -/
theorem selfCallProgram_reads_back : ∃ e out, selfCallProgram.compile true = .ok e ∧
    Env.run ⟨e, {}, noHost⟩ [⟨"a", .int 5⟩] {} () 9 = some out ∧ out.result = .ok () ∧
    ∃ inner outer n, out.state.frames = inner ++ [outer] ∧
      (∀ frame ∈ inner, ∃ r, e.routine? frame.function = some r ∧ e.Calls r) ∧
      (∀ frame, inner.head? = some frame →
        ∃ r, e.routine? frame.function = some r ∧ r.name = Executable.topName) ∧
      e.Innermost ⟨1, 0⟩ n out.state.frames ∧
      out.state.toHost e (out.state.readVar n (.zero .int)) = .ok (.int 0) := by
  obtain ⟨e, out, hc, hrun, hok, hvars, htop, -⟩ := run_selfCallProgram
  obtain ⟨_, inner, outer, -, hframes, -, -, hcalled, hhead, hback⟩ :=
    compile_reads_back hc {} noHost [⟨"a", .int 5⟩] {} () 9 out hrun hok
  rw [hvars] at hback
  obtain ⟨-, n, -, -, hinnermost, hvalue, -⟩ := (List.forall₂_cons.mp hback).1.known _ htop
  exact ⟨e, out, hc, hrun, hok, inner, outer, n, hframes, hcalled, hhead, hinnermost, hvalue⟩

/-- **What is read back need not be what the slot holds** that was written in the frame of `<top>`. -/
theorem selfCall_loses_value : ¬ ∀ (p : Program) (strict : Bool) (e : Executable)
    (config : Config) (vars : List HostVar) (sink : Sink) (fuel : Nat) (out : Outcome Unit),
      p.compile strict = .ok e → Env.run ⟨e, config, noHost⟩ vars sink () fuel = some out →
        out.result = .ok () → ∀ inner outer, out.state.frames = inner ++ [outer] →
          List.Forall₂ (fun var var' => ∀ top n, topVar? e var.name = some top →
            outer.Has e top.addr n →
              out.state.toHost e (out.state.readVar n (.zero top.ty)) = .ok var'.value)
            vars out.vars := by
  intro h
  obtain ⟨e, out, hc, hrun, hok, hvars, htop, inner, outer, hframes, hhas, hread⟩ :=
    run_selfCallProgram
  have hback := h _ true e {} [⟨"a", .int 5⟩] {} 9 out hc hrun hok [inner] outer hframes
  rw [hvars] at hback
  have hvalue := (List.forall₂_cons.mp hback).1 _ 0 htop hhas
  rw [hread] at hvalue
  exact absurd (HostValue.int.inj (Except.ok.inj hvalue)) (by decide)

end StackLang
