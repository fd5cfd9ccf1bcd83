import Mathlib
import StackLang.Machine.Run

/-!
# Reasoning about machine steps

`MachineM.wp m Q E s` says what follows a step from `s`: `Q` of the result if it succeeds, `E` of
the trap if it fails. There is one law for each operation of the machine, so a proof about an
instruction opens it operation by operation and never looks inside the state monad.
-/

namespace StackLang

namespace State

variable {σ : Type}

@[simp] theorem frameBase_stack (s : State σ) (stack : Array Value) :
    { s with stack }.frameBase = s.frameBase := rfl

@[simp] theorem frameBase_vars (s : State σ) (vars : Array (Option Value)) :
    { s with vars }.frameBase = s.frameBase := rfl

@[simp] theorem frameBase_steps (s : State σ) (steps : Nat) :
    { s with steps }.frameBase = s.frameBase := rfl

@[simp] theorem frameBase_host (s : State σ) (host : σ) :
    { s with host }.frameBase = s.frameBase := rfl

@[simp] theorem frameBase_overlay (s : State σ) (overlay : Array String) :
    { s with overlay }.frameBase = s.frameBase := rfl

theorem frameBase_of_frames {s : State σ} {fr : Frame} {frames : List Frame}
    (h : s.frames = fr :: frames) : s.frameBase = fr.stackBase := by
  rw [frameBase, h]

end State

namespace MachineM

variable {σ α β : Type}

/-- `Q` holds of the result of a step from `s` if it succeeds, `E` of its trap if it fails. -/
def wp (m : MachineM σ α) (Q : α → State σ → Prop) (E : Trap → State σ → Prop)
    (s : State σ) : Prop :=
  match m s with
  | .ok a s' => Q a s'
  | .error trap s' => E trap s'

section Laws

variable {Q : α → State σ → Prop} {E : Trap → State σ → Prop} {s : State σ}

theorem wp_of_ok {m : MachineM σ α} {a : α} {s' : State σ} (h : wp m Q E s)
    (hm : m s = .ok a s') : Q a s' := by
  rwa [wp, hm] at h

theorem wp_of_error {m : MachineM σ α} {trap : Trap} {s' : State σ} (h : wp m Q E s)
    (hm : m s = .error trap s') : E trap s' := by
  rwa [wp, hm] at h

/-- Weaker conclusions follow. -/
theorem wp_mono {m : MachineM σ α} {Q' : α → State σ → Prop} {E' : Trap → State σ → Prop}
    (h : wp m Q E s) (hQ : ∀ a s', Q a s' → Q' a s') (hE : ∀ t s', E t s' → E' t s') :
    wp m Q' E' s := by
  unfold wp at *
  split <;> simp_all

@[simp] theorem wp_pure (a : α) : wp (pure a : MachineM σ α) Q E s ↔ Q a s := Iff.rfl

@[simp] theorem wp_throw (trap : Trap) : wp (throw trap : MachineM σ α) Q E s ↔ E trap s :=
  Iff.rfl

@[simp] theorem wp_get {Q : State σ → State σ → Prop} :
    wp (get : MachineM σ (State σ)) Q E s ↔ Q s s := Iff.rfl

@[simp] theorem wp_modify {Q : Unit → State σ → Prop} (f : State σ → State σ) :
    wp (modify f : MachineM σ Unit) Q E s ↔ Q () (f s) := Iff.rfl

@[simp] theorem wp_bind (m : MachineM σ β) (f : β → MachineM σ α) :
    wp (m >>= f) Q E s ↔ wp m (fun b s' => wp (f b) Q E s') E s := by
  unfold wp
  simp only [bind, EStateM.bind]
  cases m s <;> rfl

theorem wp_ite {p : Prop} [Decidable p] (m m' : MachineM σ α) :
    wp (if p then m else m') Q E s ↔ (p → wp m Q E s) ∧ (¬ p → wp m' Q E s) := by
  split <;> simp_all

end Laws

/-! ## Operands -/

section Operands

variable {E : Trap → State σ → Prop} {s : State σ}

@[simp] theorem wp_push {Q : Unit → State σ → Prop} (v : Value) :
    wp (push v) Q E s ↔ Q () { s with stack := s.stack.push v } := Iff.rfl

theorem wp_pop {Q : Value → State σ → Prop} (op : Opcode) :
    wp (pop op) Q E s ↔
      (s.stack.size ≤ s.frameBase → E (.stackUnderflow op.mnemonic) s) ∧
      (s.frameBase < s.stack.size → ∀ v, s.stack.back? = some v →
        Q v { s with stack := s.stack.pop }) := by
  unfold wp pop
  by_cases h : s.stack.size ≤ s.frameBase
  · simp only [h, if_true, true_imp_iff, iff_self_and]
    intro _ h'
    omega
  · have hne : s.stack.size ≠ 0 := by omega
    rw [if_neg h, Array.back?_eq_getElem?, Array.getElem?_eq_getElem (by omega)]
    simp [h, Nat.lt_of_not_le h]

theorem wp_popInt {Q : Int64 → State σ → Prop} (op : Opcode) :
    wp (popInt op) Q E s ↔ wp (pop op) (fun v s' =>
      match v with
      | .int n => Q n s'
      | v => E (.typeMismatch .int v.ty.name) s') E s := by
  rw [popInt, wp_bind]
  refine iff_of_eq (congrArg (fun P => wp (pop op) P E s) ?_)
  funext v s'
  cases v <;> rfl

theorem wp_popDouble {Q : Double → State σ → Prop} (op : Opcode) :
    wp (popDouble op) Q E s ↔ wp (pop op) (fun v s' =>
      match v with
      | .double d => Q d s'
      | v => E (.typeMismatch .double v.ty.name) s') E s := by
  rw [popDouble, wp_bind]
  refine iff_of_eq (congrArg (fun P => wp (pop op) P E s) ?_)
  funext v s'
  cases v <;> rfl

theorem wp_popString {Q : UInt16 → State σ → Prop} (op : Opcode) :
    wp (popString op) Q E s ↔ wp (pop op) (fun v s' =>
      match v with
      | .string id => Q id s'
      | v => E (.typeMismatch .string v.ty.name) s') E s := by
  rw [popString, wp_bind]
  refine iff_of_eq (congrArg (fun P => wp (pop op) P E s) ?_)
  funext v s'
  cases v <;> rfl

/-- With an operand in the frame's part of the stack, `pop` takes it. -/
theorem wp_pop_of {Q : Value → State σ → Prop} {op : Opcode}
    (h : s.frameBase < s.stack.size)
    (hQ : ∀ v, s.stack.back? = some v → Q v { s with stack := s.stack.pop }) :
    wp (pop op) Q E s :=
  (wp_pop op).mpr ⟨fun h' => absurd h (by omega), fun _ => hQ⟩

end Operands

/-! ## Variables and strings -/

section Variables

variable {E : Trap → State σ → Prop} {s : State σ}

theorem wp_slotIndex {Q : Nat → State σ → Prop} (addr : VarAddr) :
    wp (slotIndex addr) Q E s ↔
      match s.slotIndex addr with
      | .ok index => Q index s
      | .error trap => E trap s := by
  rw [slotIndex, wp_bind, wp_get]
  cases s.slotIndex addr <;> rfl

@[simp] theorem wp_setVar {Q : Unit → State σ → Prop} (index : Nat) (v : Value) :
    wp (setVar index v) Q E s ↔ Q () { s with vars := s.vars.setIfInBounds index (some v) } :=
  Iff.rfl

theorem wp_stringText {Q : String → State σ → Prop} (exe : Executable) (id : UInt16) :
    wp (stringText exe id) Q E s ↔
      match s.stringText exe id with
      | .ok text => Q text s
      | .error trap => E trap s := by
  rw [stringText, wp_bind, wp_get]
  cases s.stringText exe id <;> rfl

theorem wp_toHost {Q : HostValue → State σ → Prop} (exe : Executable) (v : Value) :
    wp (toHost exe v) Q E s ↔
      match s.toHost exe v with
      | .ok hv => Q hv s
      | .error trap => E trap s := by
  rw [toHost, wp_bind, wp_get]
  cases s.toHost exe v <;> rfl

end Variables

/-! ## The sink and the host -/

section Outside

variable {E : Trap → State σ → Prop} {s : State σ}

theorem wp_print {Q : Unit → State σ → Prop} (text : String) :
    wp (print text) Q E s ↔
      match s.sink.write text with
      | (.ok (), sink) => Q () { s with sink }
      | (.error reason, sink) => E (.output reason) { s with sink } := by
  unfold wp print
  dsimp only
  rcases s.sink.write text with ⟨_ | _, sink⟩ <;> rfl

theorem wp_callHost {Q : Option HostValue → State σ → Prop} (bridge : Bridge σ)
    (symbol : String) (args : List HostValue) :
    wp (callHost bridge symbol args) Q E s ↔
      match bridge.call symbol args s.host with
      | (none, host) => E (.unresolvedNative symbol) { s with host }
      | (some (.error reason), host) => E (.nativeFailed symbol reason) { s with host }
      | (some (.ok v), host) => Q v { s with host } := by
  unfold wp callHost
  rcases bridge.call symbol args s.host with ⟨_ | _ | _, host⟩ <;> rfl

end Outside

/-! ## Limits -/

/-- One more instruction is counted, also where a limit is met. -/
theorem wp_ticked {config : Config} {Q : Unit → State σ → Prop} {E : Trap → State σ → Prop}
    {s : State σ} (hsteps : ∀ limit, E (.stepLimit limit) { s with steps := s.steps + 1 })
    (hstack : ∀ limit, E (.stackLimit limit) { s with steps := s.steps + 1 })
    (hQ : Q () { s with steps := s.steps + 1 }) : wp (tick config) Q E s := by
  simp only [tick, wp_bind, wp_modify, wp_get]
  cases config.maxSteps with
  | none =>
    rw [wp_ite]
    exact ⟨fun _ => hstack _, fun _ => hQ⟩
  | some limit =>
    simp only [wp_ite, wp_throw, wp_bind]
    exact ⟨fun _ => hsteps _, fun _ => ⟨fun _ => hstack _, fun _ => hQ⟩⟩

/-- Either a limit is met or one more instruction is counted. -/
theorem wp_tick {config : Config} {Q : Unit → State σ → Prop} {E : Trap → State σ → Prop}
    {s : State σ} (hsteps : ∀ limit s', E (.stepLimit limit) s')
    (hstack : ∀ limit s', E (.stackLimit limit) s') (hQ : Q () { s with steps := s.steps + 1 }) :
    wp (tick config) Q E s :=
  wp_ticked (fun limit => hsteps limit _) (fun limit => hstack limit _) hQ

end MachineM

end StackLang
