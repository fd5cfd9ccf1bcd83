import StackLang.Proofs.Compile.Stores
import StackLang.Proofs.Compile.TopVars
import StackLang.Proofs.Simulation.Instructions
import StackLang.Proofs.Storage.ReadBack

/-!
# What variables hold

`Executable.Typed declared types` says that variables have types: an instruction that stores to one
stores values of its type, and so does the host. `typed_of_visits`: in every state of a run the variables
of all active functions hold values of their types, if they hold any. `Traversed.typed` says it of
compiled programs, whose variables have the types that the program declares.
-/

namespace StackLang

open MachineM (wp)
open RunM
open Executable (mem_of_routine?)

variable {σ : Type} {env : Env σ} {vars : List HostVar} {sink : Sink} {host : σ} {c c' : Cursor}
  {s s' : State σ} {declared : VarAddr → Prop} {types : VarAddr → Ty → Prop}

/-- Variables have these types: neither the code nor the host stores a value of another type. -/
structure Executable.Typed (e : Executable) (declared : VarAddr → Prop)
    (types : VarAddr → Ty → Prop) : Prop where
  declared : ∀ {addr ty}, types addr ty → declared addr
  unique : ∀ {addr ty ty'}, types addr ty → types addr ty' → ty = ty'
  stores : ∀ r ∈ e.routines, ∃ line, r.code.Line 0 line r.code.size ∧ ∀ x ∈ line, ∀ addr ty,
    x.2 = .var addr → x.1.isStore = true → types addr ty → x.1 = storeOp ty
  topVars : ∀ {name top}, topVar? e name = some top → types top.addr top.ty

/-- The variables of the active functions hold values of their types. -/
def State.Typed (e : Executable) (types : VarAddr → Ty → Prop) (s : State σ) : Prop :=
  ∀ frame ∈ s.frames, ∀ addr ty n v, types addr ty → frame.Has e addr n →
    s.vars[n]? = some (some v) → v.ty = ty

/-- Where a variable has no value yet, it has the zero of its type. -/
theorem State.Typed.ty_readVar {e : Executable} (h : s.Typed e types) {frame : Frame}
    (hmem : frame ∈ s.frames) {addr : VarAddr} {ty : Ty} {n : Nat} (hty : types addr ty)
    (hvalue : ty.isValue = true) (hn : frame.Has e addr n) : (s.readVar n (.zero ty)).ty = ty := by
  have hzero : (Value.zero ty).ty = ty := by cases ty <;> first | rfl | cases hvalue
  unfold State.readVar
  cases hv : s.vars[n]? with
  | none => exact hzero
  | some v? =>
    cases v? with
    | none => exact hzero
    | some v => exact h frame hmem addr ty n v hty hn hv

/-! ## Stores -/

namespace MachineM

theorem wp_storeVar_ty (op : Opcode) (addr : VarAddr) (ty : Ty) (s : State σ) :
    wp (storeVar op addr ty) (fun _ s' => ∃ n v, s.slotIndex addr = .ok n ∧ v.ty = ty ∧
      s'.vars = s.vars.setIfInBounds n (some v)) (fun _ _ => True) s := by
  simp only [storeVar, wp_bind, wp_pop]
  refine ⟨fun _ => trivial, fun _ v _ => ?_⟩
  simp only [wp_ite, wp_bind, wp_slotIndex]
  refine ⟨fun _ => trivial, fun hty => ?_⟩
  have hsame : State.slotIndex { s with stack := s.stack.pop } addr = s.slotIndex addr := rfl
  rw [hsame]
  cases hn : s.slotIndex addr with
  | error trap => trivial
  | ok n => exact ⟨n, v, rfl, not_not.mp hty, rfl⟩

/-- What the host gives becomes a value of the type that is asked for. -/
theorem ty_of_ofHost {exe : Executable} {hv : HostValue} {ty : Ty} {v : Value}
    (h : ofHost exe hv ty s = .ok v s') : v.ty = ty := by
  have hwp : wp (ofHost exe hv ty) (fun v _ => v.ty = ty) (fun _ _ => True) s := by
    cases hv with
    | int _ | double _ => cases ty <;> trivial
    | string text =>
      cases ty with
      | string =>
        simp only [ofHost, wp_bind]
        exact wp_of_cases (fun _ _ _ => rfl) fun _ _ _ => trivial
      | _ => trivial
  exact wp_of_ok (Q := fun v _ => v.ty = ty) hwp h

end MachineM

/-- A store puts a value of its type in its variable. -/
theorem stored_of_stepInstr {i : Instr} {flow : Flow} {addr : VarAddr} {ty : Ty}
    (hop : i.op = storeOp ty) (hstore : i.op.isStore = true) (haddr : i.operand = .var addr)
    (h : MachineM.stepInstr env i { s with steps := s.steps + 1 } = .ok flow s') :
    ∃ n v, s.slotIndex addr = .ok n ∧ v.ty = ty ∧ s'.vars = s.vars.setIfInBounds n (some v) := by
  obtain ⟨offset, op, operand⟩ := i
  obtain rfl : op = _ := hop
  obtain rfl : operand = _ := haddr
  have hvalue : ty.isValue = true := by cases ty <;> first | rfl | cases hstore
  have hwp : wp (MachineM.stepInstr env ⟨offset, storeOp ty, .var addr⟩)
      (fun _ s' => ∃ n v, s.slotIndex addr = .ok n ∧ v.ty = ty ∧
        s'.vars = s.vars.setIfInBounds n (some v)) (fun _ _ => True)
      { s with steps := s.steps + 1 } := by
    simp only [MachineM.stepInstr, Call.stepVar_storeOp hvalue, MachineM.wp_bind]
    exact MachineM.wp_storeVar_ty _ addr ty { s with steps := s.steps + 1 }
  exact MachineM.wp_of_ok (Q := fun _ s' => ∃ n v, s.slotIndex addr = .ok n ∧ v.ty = ty ∧
    s'.vars = s.vars.setIfInBounds n (some v)) hwp h

/-- What is written to one place and read from it. -/
theorem eq_of_setIfInBounds {vars vars' : Array (Option Value)} {n : Nat} {v w : Value}
    (h : vars' = vars.setIfInBounds n (some v)) (hw : vars'[n]? = some (some w)) : w = v := by
  rw [h, Array.getElem?_setIfInBounds, if_pos rfl] at hw
  split at hw
  · exact (Option.some.inj (Option.some.inj hw)).symm
  · cases hw

/-! ## One instruction -/

namespace Advances

variable (he : env.exe.LaidOut declared) (ht : env.exe.Typed declared types)

include he ht

/-- **An instruction leaves values of their types in the variables.** -/
theorem typed (ha : Advances env c s c' s') (hv : Visits env vars sink host c s)
    (h : s.Typed env.exe types) : s'.Typed env.exe types := by
  obtain ⟨top, hhead, hroutine⟩ := routine_of_visits he.ids hv
  have hc := mem_of_routine? hroutine
  intro frame hmem addr ty n v hty hhas hvalue
  cases ha with
  | @next i ip _ hi hstep =>
    rw [(framed_of_stepInstr hstep).frames] at hmem
    by_cases hstore : i.op.isStore = true
    · obtain ⟨addr', haddr⟩ := Code.exists_addr_of_isStore hi hstore
      obtain ⟨n', hn', hothers⟩ := (Advances.next hi hstep).changesOnly hi haddr
      have hjoint := (onJoints_of_visits he hv).cursor
      by_cases hne : n = n'
      · subst hne
        obtain ⟨k, frame', hk', hhas', -⟩ :=
          he.has_of_slotIndex hv ((he.operand hc hjoint hi).1 addr' haddr) hn'
        obtain ⟨k', hk⟩ := List.getElem?_of_mem hmem
        obtain rfl := he.eq_of_has_has (kept_of_visits he.ids hv) hk' hk hhas' hhas
        obtain rfl := Option.some.inj (hk.symm.trans hk')
        obtain rfl := he.eq_of_has hhas' hhas
        obtain ⟨line, hline, hstores⟩ := ht.stores c.routine hc
        have hop := hstores _ (hjoint.mem_line (Code.ne_size_of_decodeAt hi) hi hline) addr' ty haddr
          hstore hty
        obtain ⟨m, w, hm, hw, hset⟩ := stored_of_stepInstr hop hstore haddr hstep
        obtain rfl := Except.ok.inj (hn'.symm.trans hm)
        exact eq_of_setIfInBounds hset hvalue ▸ hw
      · exact h frame hmem addr ty n v hty hhas ((hothers n hne).symm.trans hvalue)
    · rw [vars_of_stepInstr hstore hstep] at hvalue
      exact h frame hmem addr ty n v hty hhas hvalue
  | @call i id r hi hid hr hfits =>
    obtain ⟨frames, hframes⟩ := List.head?_eq_some_iff.mp hhead
    rw [frames_entered_paused (s := { s with steps := s.steps + 1 }) hframes] at hmem
    simp only [State.entered, paused_of_frames (s := { s with steps := s.steps + 1 }) hframes,
      Array.getElem?_append] at hvalue
    -- the variables of the function that is entered hold nothing yet
    split at hvalue
    · rename_i hlt
      rcases List.mem_cons.mp hmem with rfl | hmem
      · obtain ⟨_, -, hle, -⟩ := he.within_of_has hhas
        exact absurd hlt (Nat.not_lt.mpr hle)
      · rcases List.mem_cons.mp hmem with rfl | hmem
        · exact h top (hframes ▸ List.mem_cons_self) addr ty n v hty (hhas.congr rfl rfl) hvalue
        · exact h frame (hframes ▸ List.mem_cons_of_mem _ hmem) addr ty n v hty hhas hvalue
    · simp [Array.getElem?_replicate] at hvalue
  | @ret i frame' caller frames r hi hop hframes hr _ =>
    refine h frame (hframes ▸ List.mem_cons_of_mem _ hmem) addr ty n v hty hhas ?_
    simp only [State.left, ← Array.getElem?_toList, Array.toList_shrink, List.getElem?_take] at hvalue
    split at hvalue
    · simpa using hvalue
    · cases hvalue

end Advances

/-! ## Whole runs -/

section Runs

variable (he : env.exe.LaidOut declared) (ht : env.exe.Typed declared types)

include he ht

/-- The host writes values of their types to the variables of `<top>`. -/
theorem State.Typed.bindVars (h : s.Typed env.exe types) (hs : s.Kept env.exe) {frame : Frame}
    (hframes : s.frames = [frame]) (hbind : RunM.bindVars env.exe vars s = .ok () s') :
    s'.Typed env.exe types := by
  induction vars generalizing s with
  | nil =>
    cases hbind
    exact h
  | cons var vars ih =>
    obtain ⟨t, hfirst, hrest⟩ := bindVars_cons_ok hbind
    have hframed : s.Framed t := MachineM.wp_of_ok (Q := fun _ t => s.Framed t)
      (MachineM.Keeps.bindVars (R := framed env.bridge) trivial env.exe [var] s) hfirst
    refine ih ?_ (hframed.kept hs) (hframed.frames.trans hframes) hrest
    cases htop : topVar? env.exe var.name with
    | none =>
      rw [RunM.bindVars, htop] at hfirst
      cases hfirst
      exact h
    | some top =>
      obtain ⟨x, _, n', hx, hn', hset, -⟩ := bindVar_ok htop hfirst
      have htype := ht.topVars htop
      intro frame' hmem addr ty n v hty hhas hvalue
      rw [hframed.frames] at hmem
      by_cases hne : n = n'
      · subst hne
        rw [hframes] at hmem
        obtain rfl := List.mem_singleton.mp hmem
        have hinner : env.exe.Innermost top.addr n ([] ++ [frame']) :=
          hframes ▸ he.innermost_of_slotIndex hs (ht.declared htype) hn'
        have hhas' := hinner.has_of_forall (List.forall_mem_nil _)
        obtain rfl := he.eq_of_has hhas' hhas
        obtain rfl := ht.unique htype hty
        exact eq_of_setIfInBounds hset hvalue ▸ MachineM.ty_of_ofHost hx
      · rw [hset, Array.getElem?_setIfInBounds_ne (Ne.symm hne)] at hvalue
        exact h frame' hmem addr ty n v hty hhas hvalue

/-- **In every state of a run the variables hold values of their types.** -/
theorem typed_of_visits (hv : Visits env vars sink host c s) : s.Typed env.exe types := by
  induction hv with
  | @start c s h =>
    have hstart := started h
    have hempty : ((initial env.exe sink host).entered c.routine).Typed env.exe types := by
      intro frame _ addr ty n v _ _ hvalue
      simp [State.entered, initial, Array.getElem?_replicate] at hvalue
    have hinitial : (initial env.exe sink host).Kept env.exe := .nil
    exact hempty.bindVars he ht (hinitial.entered he.ids (he.ids.routine?_of_top? hstart.top)) rfl
      (bound_of_start h)
  | advance hv h ih => exact (advances_of_advance h).typed he ht hv ih

end Runs

/-! ## Compiled programs -/

/-- The program declares a variable of this type at this address. -/
def Program.DeclaredAs (p : Program) (s : Symbols) (addr : VarAddr) (ty : Ty) : Prop :=
  ∃ x scope var, s.scopeId? x = some addr.scope ∧ p.scope? x = some scope ∧
    scope.vars[addr.slot.toNat]? = some var ∧ var.ty = ty

theorem Program.declared_of_declaredAs {p : Program} {s : Symbols} {addr : VarAddr} {ty : Ty}
    (h : p.DeclaredAs s addr ty) : p.Declared s addr := by
  obtain ⟨x, scope, var, hx, hscope, hvar, -⟩ := h
  exact ⟨x, scope, hx, hscope, (Array.getElem?_eq_some_iff.mp hvar).1⟩

theorem Program.DeclaredAs.unique {p : Program} {s : Symbols} (hs : s.Sound p) {addr : VarAddr}
    {ty ty' : Ty} (h : p.DeclaredAs s addr ty) (h' : p.DeclaredAs s addr ty') : ty = ty' := by
  obtain ⟨x, scope, var, hx, hscope, hvar, rfl⟩ := h
  obtain ⟨x', scope', var', hx', hscope', hvar', rfl⟩ := h'
  obtain rfl := hs.injective hx hx'
  obtain rfl := Option.some.inj (hscope.symm.trans hscope')
  rw [Option.some.inj (hvar.symm.trans hvar')]

/-- A variable is declared where its name is looked up. -/
theorem Program.declaredAs_of_isSlot {p : Program} {s : Symbols} {addr : VarAddr} {x : ScopeIndex}
    {scope : Scope} {name : String} {ty : Ty} (hx : s.scopeId? x = some addr.scope)
    (hscope : p.scope? x = some scope)
    (hslot : Symbols.IsSlot scope.vars.toList name addr.slot.toNat ty) : p.DeclaredAs s addr ty :=
  ⟨x, scope, ⟨name, ty⟩, hx, hscope, by simpa using hslot.1, rfl⟩

/-- The variables in the code of a function have the types that the program declares. -/
theorem Made.declaredAs_of_var {p : Program} {strict : Bool} {t t₀ t₁ : Compilation}
    {i sc : ScopeIndex} {f : FunctionDecl} {r : Routine} (m : Made p strict t i f r t₀ t₁)
    {name : String} {info : VarInfo} (h : (Site.of ⟨p, f, strict⟩ t₀ t₁).var sc name info) :
    p.DeclaredAs t.symbols info.addr info.ty := by
  obtain ⟨t', h₀, h₁, hlook⟩ := h
  obtain ⟨x, -, hdecl⟩ := List.exists_of_findSome?_eq_some hlook
  obtain ⟨scope, hscope, hid, hslot, -, -⟩ := h₀.after.symbols.declared? hdecl
  exact Program.declaredAs_of_isSlot (m.continues.symbols.scopeIds (h₁.symbols.scopeIds hid)) hscope
    hslot

/-- **The variables of a compiled program have the types that the program declares.** -/
theorem ProgramM.Traversed.typed {p : Program} {strict : Bool} {t : Compilation} (hb : p.Built)
    (ht : Traversed p strict (p.scopeCount + 1) [Program.root] {} t) : Executable.Typed
      { t.exe with scopeCount := t.symbols.scopeCount, topVars := p.topVars t.symbols }
      (p.Declared t.symbols) (p.DeclaredAs t.symbols) where
  declared := Program.declared_of_declaredAs
  unique h h' := h.unique ht.indexed.symbols h'
  stores r hr := by
    obtain ⟨i, f, t₀, t₁, m⟩ := ht.exists_made hr
    obtain ⟨line, hline, hstores⟩ := m.code.stores
    refine ⟨line, hline, fun x hx addr ty haddr hstore hty => ?_⟩
    rcases hstores x hx addr haddr hstore with ⟨_, hhidden⟩ | ⟨_, _, info, hvar, rfl⟩
    · exact absurd (Program.declared_of_declaredAs hty) (m.not_declared_of_hidden hhidden)
    · -- a variable without values has no store
      unfold storeInstr at haddr hstore ⊢
      split at haddr
      · rename_i hvalue
        rw [if_pos hvalue]
        obtain rfl := Operand.var.inj haddr
        rw [(m.declaredAs_of_var hvar).unique ht.indexed.symbols hty]
      · cases haddr
  topVars {name top} htop := by
    rcases (Program.output_of_traversed hb ht).topVar?_eq hb.linked.1 name with
      ⟨-, hnone⟩ | ⟨decl, addr, scope, -, hsome, hscope, hid, hslot⟩
    · cases htop.symm.trans hnone
    · obtain rfl := Option.some.inj (htop.symm.trans hsome)
      exact Program.declaredAs_of_isSlot hid hscope hslot

end StackLang
