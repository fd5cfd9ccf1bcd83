import StackLang.Proofs.Loops.Code
import StackLang.Proofs.Machine.Parts
import StackLang.Proofs.Machine.Passages
import StackLang.Proofs.Machine.Progress
import StackLang.Proofs.Simulation.Instructions

/-!
# What a loop's own instructions do

A loop has four pieces of code of its own: one that keeps the upper bound, one that stores the lower
bound in the loop's variable, the test, and the step to the next int. `Comes` says that control comes to
the end of such a piece, unless a limit ends the run before. `comes_bound`, `comes_test` and `comes_step`
say in what state.
-/

namespace StackLang

open MachineM (wp)
open RunM

variable {σ : Type} {env : Env σ} {Q : Cursor → State σ → Prop} {c c' : Cursor} {s s' : State σ}
  {r : Routine} {ip height a b : Nat}

/-! ## Limits -/

/-- Nothing is asked of the states on the way. -/
abbrev Anyhow (_ : Cursor) (_ : State σ) : Prop := True

/-- A limit ends the run, while the function of the innermost of the outermost `height` frames executes
its code from `a` up to `b`. -/
def HitsLimit (env : Env σ) (height a b : Nat) (c : Cursor) (s : State σ) : Prop :=
  ∃ c' s' fault s'', Crosses env Anyhow height a b c s c' s' ∧
    advance env c' s' = .error fault s'' ∧ fault.trap.OnLimits

/-- Control comes to where `Q` holds by the code from `a` up to `b`, or a limit ends the run. -/
def Comes (env : Env σ) (height a b : Nat) (Q : Cursor → State σ → Prop) (c : Cursor)
    (s : State σ) : Prop :=
  (∃ c' s', Crosses env Anyhow height a b c s c' s' ∧ Q c' s') ∨ HitsLimit env height a b c s

namespace Comes

theorem here (h : Q c s) : Comes env height a b Q c s := .inl ⟨c, s, .here, h⟩

theorem after (hc : Crosses env Anyhow height a b c s c' s') (h : Comes env height a b Q c' s') :
    Comes env height a b Q c s := by
  rcases h with ⟨c'', s'', hc', hq⟩ | ⟨c'', s'', fault, s₁, hc', hfails⟩
  · exact .inl ⟨c'', s'', hc.trans hc', hq⟩
  · exact .inr ⟨c'', s'', fault, s₁, hc.trans hc', hfails⟩

/-- What is left to do after a smaller piece of code. -/
theorem bind {a' b' : Nat} {R : Cursor → State σ → Prop} (h : Comes env height a' b' Q c s)
    (ha : a ≤ a') (hb : b' ≤ b) (hQ : ∀ c' s', Crosses env Anyhow height a' b' c s c' s' →
      Q c' s' → Comes env height a b R c' s') : Comes env height a b R c s := by
  rcases h with ⟨c', s', hc, hq⟩ | ⟨c', s', fault, s'', hc, hfails⟩
  · exact .after (hc.widen ha hb) (hQ c' s' hc hq)
  · exact .inr ⟨c', s', fault, s'', hc.widen ha hb, hfails⟩

theorem step (hin : a ≤ c.ip ∧ c.ip < b)
    (h : Steps env Trap.OnLimits
      (fun c' s' => height ≤ s'.frames.length ∧ Comes env height a b Q c' s') c s) :
    Comes env height a b Q c s := by
  cases ha : advance env c s with
  | ok c'? s' =>
    obtain ⟨c', rfl, hle, h'⟩ := wpRun_of_ok h ha
    exact .after (.step (fun _ => hin) trivial ha hle .here) h'
  | error fault s' => exact .inr ⟨c, s, fault, s', .here, ha, wpRun_of_error h ha⟩

end Comes

/-! ## One instruction -/

theorem MachineM.wp_popInt_push {Q : Int64 → State σ → Prop} {E : Trap → State σ → Prop}
    {op : Opcode} {stack : Array Value} {n : Int64} (hs : s.stack = stack.push (.int n))
    (hbase : s.frameBase ≤ stack.size) (h : Q n { s with stack }) : wp (popInt op) Q E s := by
  have hsize : s.frameBase < s.stack.size := by
    rw [hs, Array.size_push]
    omega
  refine (wp_popInt op).mpr (wp_pop_of hsize fun v hv => ?_)
  rw [hs, Array.back?_push] at hv
  cases hv
  rw [hs, Array.pop_push]
  exact h

theorem MachineM.wp_popDouble_push {Q : Double → State σ → Prop} {E : Trap → State σ → Prop}
    {op : Opcode} {stack : Array Value} {d : Double} (hs : s.stack = stack.push (.double d))
    (hbase : s.frameBase ≤ stack.size) (h : Q d { s with stack }) : wp (popDouble op) Q E s := by
  have hsize : s.frameBase < s.stack.size := by
    rw [hs, Array.size_push]
    omega
  refine (wp_popDouble op).mpr (wp_pop_of hsize fun v hv => ?_)
  rw [hs, Array.back?_push] at hv
  cases hv
  rw [hs, Array.pop_push]
  exact h

/-- The instruction at a place, the check of the limits apart. -/
theorem steps_at {op : Opcode} {operand : Operand} (hat : r.code.At ip op operand)
    (h : wp (MachineM.stepInstr env ⟨ip, op, operand⟩)
      (fun flow s' => ∃ ip', flow = .next ip' ∧ Q ⟨r, ip'⟩ s') (fun _ _ => False)
      { s with steps := s.steps + 1 }) : Steps env Trap.OnLimits Q ⟨r, ip⟩ s := by
  refine wp_advance ?_
  rw [MachineM.step, MachineM.wp_bind]
  refine MachineM.wp_tick (fun _ _ => trivial) (fun _ _ => trivial) ?_
  have hat' : r.code.decodeAt ip = .ok ⟨ip, op, operand⟩ := hat
  rw [hat']
  refine MachineM.wp_mono h (fun flow s' h => ?_) fun _ _ h => h.elim
  obtain ⟨ip', rfl, h⟩ := h
  exact ⟨_, rfl, h⟩

section Instructions

variable {addr : VarAddr} {n t : Nat} {i lower upper : Int64} {d : Double} {stack : Array Value}

theorem steps_int1 (hat : r.code.At ip .int1 .none)
    (h : Q ⟨r, ip + Opcode.int1.width⟩
      { s with steps := s.steps + 1, stack := s.stack.push (.int 1) }) :
    Steps env Trap.OnLimits Q ⟨r, ip⟩ s :=
  steps_at hat ⟨_, rfl, h⟩

theorem steps_jump (hat : r.code.At ip .jump (.target t))
    (h : Q ⟨r, t⟩ { s with steps := s.steps + 1 }) : Steps env Trap.OnLimits Q ⟨r, ip⟩ s :=
  steps_at hat ⟨_, rfl, h⟩

/-- A variable is loaded that holds a value of its type. -/
theorem steps_load {ty : Ty} (hvalue : ty.isValue = true) (hat : r.code.At ip (loadOp ty) (.var addr))
    (hn : s.slotIndex addr = .ok n) (hty : (s.readVar n (.zero ty)).ty = ty)
    (h : Q ⟨r, ip + (loadOp ty).width⟩
      { s with steps := s.steps + 1, stack := s.stack.push (s.readVar n (.zero ty)) }) :
    Steps env Trap.OnLimits Q ⟨r, ip⟩ s := by
  refine steps_at hat ?_
  have hindex : ({ s with steps := s.steps + 1 } : State σ).slotIndex addr = .ok n := hn
  have hread : ({ s with steps := s.steps + 1 } : State σ).readVar n (.zero ty) =
      s.readVar n (.zero ty) := rfl
  simp only [MachineM.stepInstr, Call.stepVar_loadOp hvalue, MachineM.loadVar, MachineM.wp_bind,
    MachineM.wp_slotIndex, hindex, MachineM.wp_get, hread, MachineM.wp_ite, MachineM.wp_throw]
  exact ⟨fun hne => hne hty, fun _ => ⟨_, rfl, h⟩⟩

theorem steps_loadInt (hat : r.code.At ip .loadIntVar (.var addr)) (hn : s.slotIndex addr = .ok n)
    (hv : s.vars[n]? = some (some (.int i)))
    (h : Q ⟨r, ip + Opcode.loadIntVar.width⟩
      { s with steps := s.steps + 1, stack := s.stack.push (.int i) }) :
    Steps env Trap.OnLimits Q ⟨r, ip⟩ s := by
  have hread : s.readVar n (.zero .int) = .int i := by
    rw [State.readVar, hv]
    rfl
  exact steps_load (rfl : Ty.int.isValue = true) hat hn (by rw [hread]; rfl) (hread.symm ▸ h)

theorem steps_storeInt (hat : r.code.At ip .storeIntVar (.var addr))
    (hs : s.stack = stack.push (.int i)) (hbase : s.frameBase ≤ stack.size)
    (hn : s.slotIndex addr = .ok n)
    (h : Q ⟨r, ip + Opcode.storeIntVar.width⟩ { s with
      steps := s.steps + 1, stack, vars := s.vars.setIfInBounds n (some (.int i)) }) :
    Steps env Trap.OnLimits Q ⟨r, ip⟩ s := by
  refine steps_at hat ?_
  have hsize : s.frameBase < s.stack.size := by
    rw [hs, Array.size_push]
    omega
  simp only [MachineM.stepInstr, MachineM.stepVar, MachineM.storeVar, MachineM.wp_bind]
  refine MachineM.wp_pop_of (s := { s with steps := s.steps + 1 }) hsize fun v hv => ?_
  rw [hs, Array.back?_push] at hv
  cases hv
  have hindex : ({ s with steps := s.steps + 1, stack } : State σ).slotIndex addr = .ok n := hn
  rw [hs, Array.pop_push]
  simp only [MachineM.wp_ite, MachineM.wp_throw, MachineM.wp_bind, MachineM.wp_slotIndex, hindex]
  exact ⟨fun hne => hne rfl, fun _ => ⟨_, rfl, h⟩⟩

theorem steps_doubleToInt (hat : r.code.At ip .doubleToInt .none)
    (hs : s.stack = stack.push (.double d)) (hbase : s.frameBase ≤ stack.size)
    (h : Q ⟨r, ip + Opcode.doubleToInt.width⟩
      { s with steps := s.steps + 1, stack := stack.push (.int d.truncate) }) :
    Steps env Trap.OnLimits Q ⟨r, ip⟩ s := by
  refine steps_at hat ?_
  simp only [MachineM.stepInstr, MachineM.stepPlain, MachineM.wp_bind]
  exact MachineM.wp_popDouble_push (s := { s with steps := s.steps + 1 }) hs hbase ⟨_, rfl, h⟩

theorem steps_addInt (hat : r.code.At ip .addInt .none)
    (hs : s.stack = (stack.push (.int lower)).push (.int upper)) (hbase : s.frameBase ≤ stack.size)
    (h : Q ⟨r, ip + Opcode.addInt.width⟩
      { s with steps := s.steps + 1, stack := stack.push (.int (upper + lower)) }) :
    Steps env Trap.OnLimits Q ⟨r, ip⟩ s := by
  refine steps_at hat ?_
  have hbase' : s.frameBase ≤ (stack.push (.int lower)).size := by
    rw [Array.size_push]
    omega
  simp only [MachineM.stepInstr, MachineM.stepPlain, MachineM.onInts, MachineM.wp_bind]
  refine MachineM.wp_popInt_push (s := { s with steps := s.steps + 1 }) hs hbase' ?_
  exact MachineM.wp_popInt_push (s := { s with steps := s.steps + 1, stack := stack.push (.int lower) })
    rfl hbase ⟨_, rfl, h⟩

theorem steps_jumpGt (hat : r.code.At ip .jumpGt (.target t))
    (hs : s.stack = (stack.push (.int lower)).push (.int upper)) (hbase : s.frameBase ≤ stack.size)
    (h : Q ⟨r, if lower < upper then t else ip + Opcode.jumpGt.width⟩
      { s with steps := s.steps + 1, stack }) : Steps env Trap.OnLimits Q ⟨r, ip⟩ s := by
  refine steps_at hat ?_
  have hbase' : s.frameBase ≤ (stack.push (.int lower)).size := by
    rw [Array.size_push]
    omega
  have hop : Opcode.jumpGt ≠ .jump := by decide
  simp only [MachineM.stepInstr, MachineM.stepBranch, hop, if_false, MachineM.jumpRelation,
    MachineM.wp_bind]
  refine MachineM.wp_popInt_push (s := { s with steps := s.steps + 1 }) hs hbase' ?_
  refine MachineM.wp_popInt_push (s := { s with steps := s.steps + 1, stack := stack.push (.int lower) })
    rfl hbase ⟨_, rfl, ?_⟩
  simp only [decide_eq_true_eq]
  exact h

end Instructions

/-! ## Pieces of code -/

/-- The frames are as they were, with these operands and these variables. -/
structure State.Becomes (s : State σ) (stack : Array Value) (vars : Array (Option Value))
    (s' : State σ) : Prop where
  frames : s'.frames = s.frames
  stack : s'.stack = stack
  vars : s'.vars = vars

/-- A piece of a function's own code leads from its beginning to `t`. -/
theorem State.Becomes.passes {t : Nat} {stack : Array Value} {vars : Array (Option Value)}
    (h : s.Becomes stack vars s') (hbase : s.frameBase ≤ stack.size)
    (hrun : Crosses env Anyhow s.frames.length a b ⟨r, a⟩ s ⟨r, t⟩ s') :
    Passes env Anyhow r a b t s s' := by
  refine ⟨hrun, by rw [h.frames], ?_⟩
  rw [frameBase, h.frames, h.stack]
  exact hbase

/-- The int for which the value of a bound stands: a double is truncated. -/
def Value.bound? : (ty : Ty) → Value → Option Int64
  | .int, .int n => some n
  | .double, .double d => some d.truncate
  | _, _ => none

/-- The int of a bound is stored in a variable. -/
theorem comes_bound {ty : Ty} {addr : VarAddr} {n : Nat} {v : Value} {k : Int64}
    (hline : r.code.Line a (boundCode ty ++ [(.storeIntVar, .var addr)]) b)
    (hv : s.stack.back? = some v) (hk : v.bound? ty = some k) (hheld : s.frameBase < s.stack.size)
    (hn : s.slotIndex addr = .ok n) :
    Comes env s.frames.length a b (fun c s' => c = ⟨r, b⟩ ∧
      s.Becomes s.stack.pop (s.vars.setIfInBounds n (some (.int k))) s') ⟨r, a⟩ s := by
  obtain ⟨stack, hs⟩ := Array.back?_eq_some_iff.mp hv
  have hbase : s.frameBase ≤ stack.size := by
    rw [hs, Array.size_push] at hheld
    omega
  have hpop : s.stack.pop = stack := by rw [hs, Array.pop_push]
  rw [hpop]
  unfold Value.bound? at hk
  split at hk
  · cases hk
    have hline : r.code.Line a [(.storeIntVar, .var addr)] b := hline
    obtain ⟨hstore, hstop⟩ := id hline
    exact .step ⟨Nat.le_refl _, hline.lt⟩
      (steps_storeInt hstore hs hbase hn ⟨Nat.le_refl _, .here ⟨congrArg _ hstop, ⟨rfl, rfl, rfl⟩⟩⟩)
  · cases hk
    have hline : r.code.Line a [(.doubleToInt, .none), (.storeIntVar, .var addr)] b := hline
    obtain ⟨hconvert, hstore, hstop⟩ := id hline
    exact .step ⟨Nat.le_refl _, hline.lt⟩ (steps_doubleToInt hconvert hs hbase
      ⟨Nat.le_refl _, .step ⟨Nat.le_add_right _ _, hline.2.lt⟩
        (steps_storeInt hstore rfl hbase hn ⟨Nat.le_refl _, .here ⟨congrArg _ hstop, ⟨rfl, rfl, rfl⟩⟩⟩)⟩)
  · cases hk

namespace LoopCode

variable {l : LoopCode} {m n : Nat} {i hi : Int64}

/-- The test leaves the loop if the variable is above the upper bound. -/
theorem comes_test (htest : r.code.Line l.head [(.loadIntVar, .var l.limit),
      (.loadIntVar, .var l.var), (.jumpGt, .target l.exit)] l.body)
    (hm : s.slotIndex l.limit = .ok m) (hn : s.slotIndex l.var = .ok n)
    (hlimit : s.vars[m]? = some (some (.int hi))) (hvar : s.vars[n]? = some (some (.int i)))
    (hbase : s.frameBase ≤ s.stack.size) :
    Comes env s.frames.length l.head l.body (fun c s' =>
      c = ⟨r, if hi < i then l.exit else l.body⟩ ∧ s.Becomes s.stack s.vars s') ⟨r, l.head⟩ s := by
  obtain ⟨hfirst, hsecond, hjump, hstop⟩ := id htest
  refine .step ⟨Nat.le_refl _, htest.lt⟩ (steps_loadInt hfirst hm hlimit ⟨Nat.le_refl _, ?_⟩)
  refine .step ⟨Nat.le_add_right _ _, htest.2.lt⟩ (steps_loadInt hsecond hn hvar
    ⟨Nat.le_refl _, ?_⟩)
  refine .step ⟨by dsimp only; omega, htest.2.2.lt⟩ (steps_jumpGt hjump rfl hbase
    ⟨Nat.le_refl _, .here ⟨?_, ⟨rfl, rfl, rfl⟩⟩⟩)
  rw [← hstop]

/-- The variable becomes the next int, and control goes back to the test. -/
theorem comes_step (hback : r.code.Line l.step [(.int1, .none), (.loadIntVar, .var l.var),
      (.addInt, .none), (.storeIntVar, .var l.var), (.jump, .target l.head)] l.exit)
    (hn : s.slotIndex l.var = .ok n) (hvar : s.vars[n]? = some (some (.int i)))
    (hbase : s.frameBase ≤ s.stack.size) :
    Comes env s.frames.length l.step l.exit (fun c s' => c = ⟨r, l.head⟩ ∧
      s.Becomes s.stack (s.vars.setIfInBounds n (some (.int (i + 1)))) s') ⟨r, l.step⟩ s := by
  obtain ⟨hone, hload, hadd, hstore, hjump, -⟩ := id hback
  refine .step ⟨Nat.le_refl _, hback.lt⟩ (steps_int1 hone ⟨Nat.le_refl _, ?_⟩)
  refine .step ⟨Nat.le_add_right _ _, hback.2.lt⟩ (steps_loadInt hload hn hvar
    ⟨Nat.le_refl _, ?_⟩)
  refine .step ⟨by dsimp only; omega, hback.2.2.lt⟩ (steps_addInt hadd rfl hbase
    ⟨Nat.le_refl _, ?_⟩)
  refine .step ⟨by dsimp only; omega, hback.2.2.2.lt⟩ (steps_storeInt hstore rfl hbase hn
    ⟨Nat.le_refl _, ?_⟩)
  exact .step ⟨by dsimp only; omega, hback.2.2.2.2.lt⟩ (steps_jump hjump
    ⟨Nat.le_refl _, .here ⟨rfl, ⟨rfl, rfl, rfl⟩⟩⟩)

end LoopCode

end StackLang
