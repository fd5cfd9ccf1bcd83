import StackLang.Proofs.Machine.Wp

/-!
# Entering and leaving functions

`State.entered` and `State.left` are the states that `enter` and `leave` make when they succeed;
`wp_enter` and `wp_leave` say when they do. Leaving what was entered gives the instances back
(`leaveInstances_enterInstances`).
-/

namespace StackLang

theorem getElem?_shrink {α : Type} {xs : Array α} {k n : Nat} (h : k < n) :
    (xs.shrink n)[k]? = xs[k]? := by
  rw [← Array.getElem?_toList, Array.toList_shrink, List.getElem?_take_of_lt h,
    Array.getElem?_toList]

/-- The places of variables after a function with this layout has become active. -/
def enterInstances (varsBase : Nat) (layout : List ScopeLayout)
    (instances : Array (List Nat)) : Array (List Nat) :=
  layout.foldl (fun instances l =>
    instances.modify l.scope.toNat ((varsBase + l.base) :: ·)) instances

/-- The places of variables after a function with this layout has ended. -/
def leaveInstances (layout : List ScopeLayout) (instances : Array (List Nat)) :
    Array (List Nat) :=
  layout.foldl (fun instances l => instances.modify l.scope.toNat List.tail) instances

@[simp] theorem size_enterInstances (varsBase : Nat) (layout : List ScopeLayout)
    (instances : Array (List Nat)) :
    (enterInstances varsBase layout instances).size = instances.size := by
  unfold enterInstances
  induction layout generalizing instances with
  | nil => rfl
  | cons l layout ih => rw [List.foldl_cons, ih, Array.size_modify]

/-- Each instance of a scope that the layout names is one place more or less: what is added on
entry is what is dropped at the end, whatever the order of the layout. -/
theorem getElem?_enterInstances (varsBase : Nat) (layout : List ScopeLayout)
    (instances : Array (List Nat)) (i : Nat) :
    (enterInstances varsBase layout instances)[i]? = instances[i]?.map fun places =>
      ((layout.filter (·.scope.toNat = i)).map (varsBase + ·.base)).reverse ++ places := by
  unfold enterInstances
  induction layout generalizing instances with
  | nil => simp
  | cons l layout ih =>
    rw [List.foldl_cons, ih, Array.getElem?_modify, List.filter_cons]
    split
    · rename_i h
      simp only [h, decide_true, if_true, List.map_cons, List.reverse_cons, Option.map_map]
      congr 1
      funext places
      simp
    · rename_i h
      simp [h]

theorem getElem?_leaveInstances (layout : List ScopeLayout) (instances : Array (List Nat))
    (i : Nat) :
    (leaveInstances layout instances)[i]? =
      instances[i]?.map (List.drop (layout.countP (·.scope.toNat = i))) := by
  unfold leaveInstances
  induction layout generalizing instances with
  | nil => cases h : instances[i]? <;> simp [h]
  | cons l layout ih =>
    rw [List.foldl_cons, ih, Array.getElem?_modify, List.countP_cons]
    split
    · rename_i h
      simp only [h, decide_true, if_true, Option.map_map]
      congr 1
      funext places
      simp [Function.comp, List.drop_tail, Nat.add_comm]
    · rename_i h
      simp [h]

theorem leaveInstances_enterInstances (varsBase : Nat) (layout : List ScopeLayout)
    (instances : Array (List Nat)) :
    leaveInstances layout (enterInstances varsBase layout instances) = instances := by
  apply Array.ext_getElem?
  intro i
  rw [getElem?_leaveInstances, getElem?_enterInstances, Option.map_map]
  have : ∀ places : List Nat,
      (((layout.filter (·.scope.toNat = i)).map (varsBase + ·.base)).reverse ++ places).drop
        (layout.countP (·.scope.toNat = i)) = places := by
    intro places
    rw [List.drop_append_of_le_length] <;>
      simp [List.countP_eq_length_filter]
  cases instances[i]? with
  | none => rfl
  | some places => exact congrArg some (this places)

namespace State

variable {σ : Type}

/-- The state in which a function has just become active. -/
def entered (s : State σ) (r : Routine) : State σ :=
  { s with
    vars := s.vars ++ Array.replicate r.locals none
    instances := enterInstances s.vars.size r.layout s.instances
    frames :=
      { function := r.id, returnIp := 0, stackBase := s.stack.size - r.arity,
        varsBase := s.vars.size } :: s.frames }

/-- The state in which a function has just ended; `frame` was its own. -/
def left (s : State σ) (r : Routine) (frame : Frame) (frames : List Frame) : State σ :=
  { s with
    frames
    stack :=
      match if r.returnsValue then s.stack.back? else none with
      | some v => (s.stack.shrink frame.stackBase).push v
      | none => s.stack.shrink frame.stackBase
    instances := leaveInstances r.layout s.instances
    vars := s.vars.shrink frame.varsBase }

theorem stack_left_none {s : State σ} {r : Routine} (h : r.returnsValue = false) (frame : Frame)
    (frames : List Frame) : (s.left r frame frames).stack = s.stack.shrink frame.stackBase := by
  simp [left, h]

theorem stack_left_some {s : State σ} {r : Routine} {v : Value} (h : r.returnsValue = true)
    (hv : s.stack.back? = some v) (frame : Frame) (frames : List Frame) :
    (s.left r frame frames).stack = (s.stack.shrink frame.stackBase).push v := by
  simp [left, h, hv]

end State

namespace MachineM

variable {σ : Type} {s : State σ} {Q : Unit → State σ → Prop} {E : Trap → State σ → Prop}

theorem wp_enterScopes {varsBase : Nat} {layout : List ScopeLayout}
    (hscopes : ∀ l ∈ layout, s.instances.size ≤ l.scope.toNat → ∀ s', E (.unknownScope l.scope) s')
    (hQ : Q () { s with instances := enterInstances varsBase layout s.instances }) :
    wp (enterScopes varsBase layout) Q E s := by
  induction layout generalizing s with
  | nil => exact hQ
  | cons l layout ih =>
    simp only [enterScopes, wp_bind, wp_get]
    rw [wp_ite]
    refine ⟨fun h => hscopes l List.mem_cons_self h _, fun _ => ?_⟩
    refine ih (fun l' hl' h => hscopes l' (List.mem_cons_of_mem l hl') ?_) hQ
    simpa only [Array.size_modify] using h

theorem wp_enter {config : Config} {r : Routine}
    (hdepth : config.maxCallDepth ≤ s.frames.length →
      E (.callDepth config.maxCallDepth r.name) s)
    (hargs : s.stack.size < r.arity → E (.stackUnderflow "CALL") s)
    (hscopes : ∀ l ∈ r.layout, s.instances.size ≤ l.scope.toNat → ∀ s', E (.unknownScope l.scope) s')
    (hQ : Q () (s.entered r)) : wp (enter config r) Q E s := by
  simp only [enter, wp_bind, wp_get]
  rw [wp_ite]
  refine ⟨hdepth, fun _ => ?_⟩
  rw [wp_ite]
  refine ⟨hargs, fun _ => ?_⟩
  simp only [wp_bind, wp_modify]
  exact wp_enterScopes hscopes hQ

theorem wp_takeResult {Q : Option Value → State σ → Prop} {r : Routine}
    (hvalue : r.returnsValue = true → s.stack.size ≤ s.frameBase → E (.missingValue r.name) s)
    (hsome : r.returnsValue = true → s.frameBase < s.stack.size →
      Q s.stack.back? { s with stack := s.stack.pop })
    (hnone : r.returnsValue = false → Q none s) : wp (takeResult r) Q E s := by
  unfold wp takeResult
  by_cases hr : r.returnsValue = true
  · rw [if_pos hr]
    by_cases hlt : s.stack.size ≤ s.frameBase
    · rw [if_pos hlt]
      exact hvalue hr hlt
    · rw [if_neg hlt]
      exact hsome hr (by omega)
  · rw [if_neg hr]
    exact hnone (by simpa using hr)

theorem shrink_pop {α : Type} {xs : Array α} {n : Nat} (h : n < xs.size) :
    xs.pop.shrink n = xs.shrink n := by
  apply Array.toList_inj.mp
  rw [Array.toList_shrink, Array.toList_shrink, Array.toList_pop, List.dropLast_eq_take,
    List.take_take]
  congr 1
  simp only [Array.length_toList]
  omega

theorem wp_leave {r : Routine} {frame : Frame} {frames : List Frame}
    (hframes : s.frames = frame :: frames)
    (hvalue : r.returnsValue = true → s.stack.size ≤ frame.stackBase →
      E (.missingValue r.name) s)
    (hQ : (r.returnsValue = true → frame.stackBase < s.stack.size) →
      Q () (s.left r frame frames)) :
    wp (leave r) Q E s := by
  have hbase := State.frameBase_of_frames hframes
  rw [leave, wp_bind]
  refine wp_takeResult (fun hr h => hvalue hr (hbase ▸ h)) (fun hr h => ?_) fun hr => ?_
  · have hQ := hQ fun _ => hbase ▸ h
    obtain ⟨v, hv⟩ : ∃ v, s.stack.back? = some v := by
      rw [Array.back?_eq_getElem?]
      exact ⟨_, Array.getElem?_eq_getElem (by omega)⟩
    simp only [State.left, if_pos hr, hv] at hQ
    simp only [wp_bind, wp_get, hframes, hv, wp_modify, wp_push, shrink_pop (hbase ▸ h)]
    exact hQ
  · have hQ := hQ fun h => by simp [h] at hr
    simp only [State.left, hr, Bool.false_eq_true, if_false] at hQ
    simp only [wp_bind, wp_get, hframes, wp_modify, wp_pure]
    exact hQ

end MachineM

end StackLang
