import StackLang.Proofs.Compile.TopVars
import StackLang.Proofs.Simulation.Calls

/-!
# The beginning of a run and its end

A run begins beside the evaluation of `<top>` with the host's variables bound (`wp_start`). Wherever a
run ends they can be read back (`readBack_ok`), and where no function but `<top>` is active they have
the values that the program has left.
-/

namespace StackLang

open MachineM (wp)
open RunM
open Reference (World)
open Symbols (IsSlot)

variable {σ : Type} {z : Setting σ} {acts : List Activation} {w : World σ} {s : State σ}
  {f : FunctionDecl} {r : Routine} {t₀ t₁ : Compilation} {level b : Nat} {id : UInt16} {host : σ}
  {vars : List HostVar} {var : HostVar}

/-- The call of `<top>` that a run is. -/
def Call.outermost (f : FunctionDecl) (r : Routine) : Call where
  act := ⟨f, r, 0⟩
  callers := []
  id := 0
  frames := []
  below := []
  kept := []

namespace Setting

/-- The function that a run begins with. -/
structure Begins (z : Setting σ) (f : FunctionDecl) (r : Routine) (t₀ t₁ : Compilation) : Prop where
  top : z.program.top? = some f
  made : z.Made Program.root f r t₀ t₁
  routine : z.env.exe.routine? 0 = some r
  entry : z.env.exe.top? = some r
  arity : r.arity = 0

theorem Compiles.begins (hz : z.Compiles) : ∃ f r t₀ t₁, z.Begins f r t₀ t₁ := by
  obtain ⟨f, r, htop, hcompiled, hentry, hr, -, hparams, -, hdecl⟩ := hz.output.top
  obtain ⟨r', t₀, t₁, hr', m⟩ := hcompiled.exists_made
  obtain rfl := Option.some.inj (hr.symm.trans ((hz.output.exe_routine? 0).trans hr'))
  exact ⟨f, r, t₀, t₁, htop, m, hr, hentry, by rw [Routine.arity, hdecl.params, hparams]; rfl⟩

theorem Begins.topScope (hb : z.Begins f r t₀ t₁) : z.program.topScope = f.body.scope := by
  rw [Program.topScope, hb.top]

theorem Begins.sound (hb : z.Begins f r t₀ t₁) : (Call.outermost f r).Sound z :=
  ⟨.top hb.top hb.made rfl, hb.routine, rfl⟩

/-! ## Where the host's variables are -/

/-- Some activation has the variables of the host, as `<top>` is the outermost one. -/
theorem Stacked.holds_topScope (h : z.Stacked acts)
    (hid : z.compilation.symbols.scopeId? z.program.topScope = some id) :
    ∃ level b, holder? id acts = some (level, b) := by
  induction h with
  | @top a _ _ hf m hbase =>
    have hbody : z.program.topScope = a.function.body.scope := by rw [Program.topScope, hf]
    obtain ⟨id', l, hid', hl⟩ := m.exists_place?_of_mem a.function.body_mem_frameScopes
    obtain rfl := Option.some.inj (hid.symm.trans (hbody ▸ hid'))
    refine ⟨0, a.base + l.base, ?_⟩
    rw [holder?, Activation.place?, hl]
    rfl
  | @call a _ _ _ _ _ _ _ _ _ ih =>
    rw [holder?]
    cases a.place? id with
    | some l => exact ⟨_, _, rfl⟩
    | none => exact ih

/-- A variable of the host is where the innermost activation that has it says. -/
theorem Agree.exists_topVar (ha : z.Agree acts w s) (hz : z.Compiles) (hst : z.Stacked acts)
    (name : String) :
    (z.program.hostVar? name = none ∧ topVar? z.env.exe name = none) ∨
    ∃ decl addr level index scope, z.program.hostVar? name = some decl ∧
      topVar? z.env.exe name = some ⟨name, decl.ty, addr⟩ ∧ s.slotIndex addr = .ok index ∧
      z.SlotAt acts level z.program.topScope addr.slot.toNat index ∧ (acts.length = 1 → level = 0) ∧
      z.program.scope? z.program.topScope = some scope ∧
      IsSlot scope.vars.toList name addr.slot.toNat decl.ty := by
  rcases hz.output.topVar?_eq hz.linked name with h | ⟨decl, addr, scope, hhost, htop, hscope, hid, hslot⟩
  · exact .inl h
  · obtain ⟨level, b, hholder⟩ := hst.holds_topScope hid
    have hs := hst.slotAt_of_holder? hz hholder hid hscope hslot.lt
    refine .inr ⟨decl, addr, level, _, scope, hhost, htop, ha.slotIndex hz hst hid hholder hs, hs,
      fun hone => ?_, hscope, hslot⟩
    have := hs.level_lt
    omega

/-! ## Binding -/

/-- The host gives a variable a value of another type than it has. -/
inductive Misfit (p : Program) (vars : List HostVar) : Trap → Prop
  | intro {var : HostVar} {decl : VarDecl} (hvar : var ∈ vars)
      (hdecl : p.hostVar? var.name = some decl) (hne : var.value.ty ≠ decl.ty) :
      Misfit p vars (.hostVarType var.name var.value.ty decl.ty)

theorem Begins.wp_bindVars (hb : z.Begins f r t₀ t₁) (hz : z.Sound) {E : Trap → State σ → Prop}
    (hcut : ∀ {trap s}, z.Cut trap → E trap s) (hmisfit : ∀ {trap s}, Misfit z.program vars trap → E trap s)
    (h : (Call.outermost f r).Beside z 0 [] w ⟨r, 0⟩ s) :
    wp (bindVars z.env.exe vars) (fun _ s =>
      (Call.outermost f r).Beside z 0 [] (Reference.bindVars z.program vars w) ⟨r, 0⟩ s) E s := by
  induction vars generalizing w s with
  | nil => exact h
  | cons var vars ih =>
    have hrest : ∀ {trap s}, Misfit z.program vars trap → E trap s := fun hm => by
      obtain ⟨hvar, hdecl, hne⟩ := hm
      exact hmisfit ⟨List.mem_cons_of_mem _ hvar, hdecl, hne⟩
    rw [bindVars, Reference.bindVars, List.foldl_cons]
    rcases h.agree.exists_topVar hz.toCompiles hb.sound.stacked var.name with
      ⟨hhost, htop⟩ | ⟨decl, addr, level, index, scope, hhost, htop, hindex, hs, hlevel, hscope, hslot⟩
    · rw [htop, hhost]
      exact ih hrest h
    · rw [htop, hhost]
      obtain rfl := hlevel rfl
      simp only [MachineM.wp_bind, MachineM.wp_ite, MachineM.wp_throw]
      refine ⟨fun hne => hmisfit ⟨List.mem_cons_self, hhost, hne⟩, fun heq => ?_⟩
      have hty : var.value.ty = decl.ty := not_not.mp heq
      have hcoerce : var.value.coerce decl.ty = var.value := hty ▸ coerce_self var.value
      refine MachineM.wp_ofHost hz.strings _ _ (fun _ => hcut .poolExhausted)
        (fun hne => absurd (by rw [hcoerce, hty]) hne) fun _ v overlay ho hd => ?_
      rw [hcoerce] at hd
      have hindex' : ({ s with overlay } : State σ).slotIndex addr = .ok index := hindex
      have hagree : z.Agree (Call.outermost f r).acts w { s with overlay } :=
        h.agree.congr ⟨h.agree.capacity, h.agree.flushFails, h.agree.written, h.agree.host⟩
          rfl rfl rfl ho
      rw [MachineM.wp_slotIndex, hindex']
      exact ih hrest ⟨rfl, h.frames, h.values.imp fun _ _ hd => hd.mono ho,
        hagree.store hz.toCompiles hb.sound.stacked hs hscope hslot hd hty, by simp [Call.outermost]⟩

/-! ## Beginning -/

theorem agree_initial (z : Setting σ) (host : σ) :
    z.Agree [] { host } (initial z.env.exe z.sink host) where
  capacity := rfl
  flushFails := rfl
  written _ := (ByteArray.append_empty).symm
  host := rfl
  size := rfl
  instances id hid := by
    change (Array.replicate z.env.exe.scopeCount [])[id.toNat]? = _
    rw [Array.getElem?_replicate, if_pos hid]
    rfl
  cells hs := by cases hs

/-- **A run begins beside the evaluation of `<top>`.** -/
theorem Begins.wp_start (hb : z.Begins f r t₀ t₁) (hz : z.Sound) {E : Trap → State σ → Prop}
    (hcut : ∀ {trap s}, z.Cut trap → E trap s)
    (hmisfit : ∀ {trap s}, Misfit z.program vars trap → E trap s) (host : σ) :
    wp (start z.env vars) ((Call.outermost f r).Beside z 0 []
      (Reference.bindVars z.program vars { host })) E (initial z.env.exe z.sink host) := by
  have hverify := hz.exe.verified
  have hmain : wp (do
      MachineM.enter z.env.config r
      bindVars z.env.exe vars
      return { routine := r, ip := 0 }) ((Call.outermost f r).Beside z 0 []
        (Reference.bindVars z.program vars { host })) E (initial z.env.exe z.sink host) := by
    simp only [MachineM.wp_bind, MachineM.wp_pure]
    refine MachineM.wp_enter (fun _ => hcut (.callDepth _ _)) (fun hlt => ?_) (fun l hl hle => ?_) ?_
    · rw [hb.arity] at hlt
      exact absurd hlt (Nat.not_lt_zero _)
    · have hinstances := (agree_initial z host).instances _ (hz.toCompiles.layout_lt hb.made hl)
      exact absurd hle (Nat.not_le.mpr (Array.getElem?_eq_some_iff.mp hinstances).1)
    · refine hb.wp_bindVars hz hcut hmisfit ⟨rfl, ⟨0, ?_⟩, .nil, ?_, by simp [Call.outermost]⟩
      · change [Frame.mk r.id 0 (0 - r.arity) 0] = _
        rw [hz.toCompiles.id_of_routine? hb.routine, Nat.zero_sub]
        rfl
      · have hclear : World.clear ({ host } : World σ) 0 = { host } := by simp [World.clear]
        have hentered := (agree_initial z host).entered (a := ⟨f, r, 0⟩) hz.linked hb.made rfl
        rwa [List.length_nil, hclear] at hentered
  unfold start
  simp only [hverify, hb.entry, ite_self]
  exact hmain

/-! ## Reading back -/

/-- Wherever a run ends, the host's variables can be read. -/
theorem Agree.readVar_ok (ha : z.Agree acts w s) (hz : z.Sound) (hst : z.Stacked acts)
    (var : HostVar) : ∃ var', RunM.readVar z.env.exe s var = .ok var' ∧
      (acts.length = 1 → var' = Reference.readVar z.program w var) := by
  unfold RunM.readVar Reference.readVar
  rcases ha.exists_topVar hz.toCompiles hst var.name with
    ⟨hhost, htop⟩ | ⟨decl, addr, level, index, scope, hhost, htop, hindex, hs, hlevel, hscope, hslot⟩
  · rw [htop, hhost]
    exact ⟨var, rfl, fun _ => rfl⟩
  · rw [htop, hhost]
    have hread : s.toHost z.env.exe (s.readVar index (.zero decl.ty)) = .ok _ :=
      (ha.read hz hs hscope hslot).1.toHost
    simp only [hindex, hread, bind, Except.bind]
    exact ⟨_, rfl, fun hone => by rw [hlevel hone]⟩

theorem Agree.readBack_ok (ha : z.Agree acts w s) (hz : z.Sound) (hst : z.Stacked acts)
    (vars : List HostVar) : ∃ vars', readBack z.env.exe s vars = (vars', .ok ()) ∧
      (acts.length = 1 → vars' = vars.map (Reference.readVar z.program w)) := by
  induction vars with
  | nil => exact ⟨[], rfl, fun _ => rfl⟩
  | cons var vars ih =>
    obtain ⟨var', hvar, heq⟩ := ha.readVar_ok hz hst var
    obtain ⟨vars', hvars, heqs⟩ := ih
    refine ⟨var' :: vars', ?_, fun hone => ?_⟩
    · rw [readBack, hvar, hvars]
    · rw [heq hone, heqs hone, List.map_cons]

end Setting

end StackLang
