import StackLang.Proofs.Simulation.Activations

/-!
# A state of the machine beside the program's world

`Setting.Agree acts w s`: with these functions active, every variable holds in the state `s` what it
holds in the world `w`, and output and host are the same. A store changes one variable
(`Agree.store`), a hidden slot is none (`Agree.storeHidden`), and entering and leaving a function adds and
removes the innermost activation (`Agree.entered`, `Agree.left`).
-/

namespace StackLang

open Reference (World)
open Symbols (IsSlot)

/-- The content of a variable of type `ty` stands for what has been stored there. -/
inductive Holds (e : Executable) (overlay : Array String) (ty : Ty) :
    Option (Option Value) → Option HostValue → Prop
  | empty : Holds e overlay ty (some none) none
  | value {v : Value} {hv : HostValue} (hd : Denotes e overlay v hv) (hty : hv.ty = ty) :
      Holds e overlay ty (some (some v)) (some hv)

theorem Holds.mono {e : Executable} {overlay overlay' : Array String} {ty : Ty}
    {content : Option (Option Value)} {cell : Option HostValue} (h : Holds e overlay ty content cell)
    (ho : Overlaid overlay overlay') : Holds e overlay' ty content cell := by
  cases h with
  | empty => exact .empty
  | value hd hty => exact .value (hd.mono ho) hty

namespace Setting

variable {σ : Type}

/-- What is outside of the machine is as the program has left it. A sink that is full has not taken
everything. -/
structure Outside (z : Setting σ) (w : World σ) (s : State σ) : Prop where
  capacity : s.sink.capacity = z.sink.capacity
  flushFails : s.sink.flushFails = z.sink.flushFails
  written : z.sink.capacity = none → s.sink.written = z.sink.written ++ w.output.toUTF8
  host : s.host = w.host

/-- The state of the machine is that of the program. -/
structure Agree (z : Setting σ) (acts : List Activation) (w : World σ) (s : State σ) : Prop
    extends z.Outside w s, z.Placed acts s where
  cells : ∀ {level : Nat} {i : ScopeIndex} {slot index : Nat} {name : String} {ty : Ty}
    {scope : Scope}, z.SlotAt acts level i slot index → z.program.scope? i = some scope →
      IsSlot scope.vars.toList name slot ty →
        Holds z.env.exe s.overlay ty s.vars[index]? (w.cells level i name)

variable {z : Setting σ} {acts : List Activation} {a : Activation} {w w' : World σ}
  {s s' : State σ} {level slot index : Nat} {i : ScopeIndex} {name : String} {ty : Ty}
  {scope : Scope}

theorem Sound.isValue_of_isSlot (hz : z.Sound) (hscope : z.program.scope? i = some scope)
    (h : IsSlot scope.vars.toList name slot ty) : ty.isValue = true :=
  hz.typed.vars i scope hscope _ (List.mem_of_getElem? h.1)

namespace Agree

/-- Neither the variables nor the active functions have changed. -/
theorem congr (h : z.Agree acts w s) (hout : z.Outside w' s') (hcells : w'.cells = w.cells)
    (hvars : s'.vars = s.vars) (hinstances : s'.instances = s.instances)
    (hoverlay : Overlaid s.overlay s'.overlay) : z.Agree acts w' s' where
  toOutside := hout
  size := hvars ▸ h.size
  instances := hinstances ▸ h.instances
  cells hs hscope hslot := by
    rw [hvars, hcells]
    exact (h.cells hs hscope hslot).mono hoverlay

/-- Only operands, frames and the count of steps have changed. -/
theorem of_same (h : z.Agree acts w s) {stack : Array Value} {frames : List Frame} {steps : Nat} :
    z.Agree acts w { s with stack, frames, steps } :=
  h.congr ⟨h.capacity, h.flushFails, h.written, h.host⟩ rfl rfl rfl (.refl _)

/-! ## Reading -/

theorem read (h : z.Agree acts w s) (hz : z.Sound) (hs : z.SlotAt acts level i slot index)
    (hscope : z.program.scope? i = some scope) (hslot : IsSlot scope.vars.toList name slot ty) :
    Denotes z.env.exe s.overlay (s.readVar index (.zero ty))
        ((w.cells level i name).getD (.zero ty)) ∧
      ((w.cells level i name).getD (.zero ty)).ty = ty := by
  have hcell := h.cells hs hscope hslot
  unfold State.readVar
  generalize s.vars[index]? = content at hcell
  generalize w.cells level i name = cell at hcell
  cases hcell with
  | empty =>
    refine ⟨denotes_zero hz.strings ty, ?_⟩
    have hvalue := hz.isValue_of_isSlot hscope hslot
    cases ty <;> first | rfl | cases hvalue
  | value hd hty => exact ⟨hd, hty⟩

/-! ## Writing -/

/-- One place changes. -/
theorem set (h : z.Agree acts w s) {v : Value} (hhost : w'.host = w.host)
    (houtput : w'.output = w.output)
    (hcell : ∀ {level i slot name ty scope}, z.SlotAt acts level i slot index →
      z.program.scope? i = some scope → IsSlot scope.vars.toList name slot ty →
        Holds z.env.exe s.overlay ty (some (some v)) (w'.cells level i name))
    (hother : ∀ {level i slot index' name ty scope}, z.SlotAt acts level i slot index' →
      z.program.scope? i = some scope → IsSlot scope.vars.toList name slot ty → index' ≠ index →
        w'.cells level i name = w.cells level i name)
    (hlt : index < storageEnd acts) :
    z.Agree acts w' { s with vars := s.vars.setIfInBounds index (some v) } where
  capacity := h.capacity
  flushFails := h.flushFails
  written := houtput ▸ h.written
  host := hhost ▸ h.host
  size := by rw [Array.size_setIfInBounds, h.size]
  instances := h.instances
  cells {level i slot index' name ty scope} hs hscope hslot := by
    by_cases heq : index' = index
    · subst heq
      rw [Array.getElem?_setIfInBounds_self_of_lt (h.size ▸ hlt)]
      exact hcell hs hscope hslot
    · rw [Array.getElem?_setIfInBounds_ne (Ne.symm heq), hother hs hscope hslot heq]
      exact h.cells hs hscope hslot

/-- **A store changes one variable**, in the machine and for the program. -/
theorem store (h : z.Agree acts w s) (hz : z.Compiles) (hst : z.Stacked acts)
    (hs : z.SlotAt acts level i slot index) (hscope : z.program.scope? i = some scope)
    (hslot : IsSlot scope.vars.toList name slot ty) {v : Value} {hv : HostValue}
    (hd : Denotes z.env.exe s.overlay v hv) (hty : hv.ty = ty) :
    z.Agree acts (w.store level i name hv)
      { s with vars := s.vars.setIfInBounds index (some v) } := by
  refine h.set rfl rfl (fun hs' hscope' hslot' => ?_) (fun hs' hscope' hslot' hne => ?_)
    (hst.index_lt hs)
  · obtain ⟨rfl, rfl, rfl⟩ := hst.slotAt_inj hz hs hs'
    obtain rfl := Option.some.inj (hscope.symm.trans hscope')
    have hvar := hslot.1.symm.trans hslot'.1
    cases hvar
    simp only [World.store, and_self, if_true]
    exact .value hd hty
  · refine if_neg ?_
    rintro ⟨rfl, rfl, rfl⟩
    obtain rfl := Option.some.inj (hscope.symm.trans hscope')
    obtain ⟨rfl, -⟩ := hslot.unique hslot'
    exact hne (hs'.index_unique hs)

/-- Behind the variables of a scope nothing is seen by the program. -/
theorem storeHidden (h : z.Agree acts w s) (hz : z.Compiles) (hst : z.Stacked acts)
    (hs : z.SlotAt acts level i slot index) (hscope : z.program.scope? i = some scope)
    (hhidden : scope.vars.size ≤ slot) (v : Value) :
    z.Agree acts w { s with vars := s.vars.setIfInBounds index (some v) } := by
  refine h.set rfl rfl (fun hs' hscope' hslot' => ?_) (fun _ _ _ _ => rfl) (hst.index_lt hs)
  obtain ⟨rfl, rfl, rfl⟩ := hst.slotAt_inj hz hs hs'
  obtain rfl := Option.some.inj (hscope.symm.trans hscope')
  exact absurd hslot'.lt (Nat.not_lt.mpr hhidden)

end Agree

/-! ## Entering and leaving functions -/

variable {f : FunctionDecl} {r : Routine} {t₀ t₁ : Compilation}

namespace Agree

/-- A function has become active. Nothing is left of what has been there before. -/
theorem entered (h : z.Agree acts w s) (hl : z.program.Linked)
    (m : z.Made i a.function a.routine t₀ t₁)
    (hbase : a.base = storageEnd acts) :
    z.Agree (a :: acts) (w.clear acts.length) (s.entered a.routine) where
  capacity := h.capacity
  flushFails := h.flushFails
  written := h.written
  host := h.host
  toPlaced := h.toPlaced.entered hl m hbase
  cells {level i slot index name ty scope} hs hscope hslot := by
    change Holds _ _ _ (s.vars ++ Array.replicate a.routine.locals none)[index]? _
    rcases hs.cases_head with ⟨rfl, id, l, hid, hl, hlt, rfl⟩ | hs
    · have hin := (m.mem_of_place? hl).2.2.2.2
      have hcell : (w.clear acts.length).cells acts.length i name = none := if_pos rfl
      rw [hcell, Array.getElem?_append_right (by rw [h.size, ← hbase]; omega),
        Array.getElem?_replicate, if_pos (by rw [h.size, ← hbase]; omega)]
      exact .empty
    · have hcell : (w.clear acts.length).cells level i name = w.cells level i name :=
        if_neg (Nat.ne_of_lt hs.level_lt)
      have hcontent := h.cells hs hscope hslot
      have hlt : index < s.vars.size := by
        cases hcell' : s.vars[index]? with
        | none => rw [hcell'] at hcontent; cases hcontent
        | some _ => exact (Array.getElem?_eq_some_iff.mp hcell').1
      rw [hcell, Array.getElem?_append_left hlt]
      exact hcontent

/-- The innermost function has ended. -/
theorem left (h : z.Agree (a :: acts) w s) (hl : z.program.Linked)
    (hst : z.Stacked (a :: acts)) {frame : Frame}
    (hbase : frame.varsBase = a.base) (frames : List Frame) :
    z.Agree acts w (s.left a.routine frame frames) where
  capacity := h.capacity
  flushFails := h.flushFails
  written := h.written
  host := h.host
  toPlaced := h.toPlaced.left hl hst hbase frames
  cells {level i slot index name ty scope} hs hscope hslot := by
    have hlt : index < frame.varsBase := by
      rw [hbase]
      cases hst with
      | top _ _ _ => cases hs
      | call hst _ _ hbase' => exact hbase' ▸ hst.index_lt hs
    change Holds _ _ _ (s.vars.shrink frame.varsBase)[index]? _
    rw [getElem?_shrink hlt]
    exact h.cells (.outer hs) hscope hslot

end Agree

end Setting

end StackLang
