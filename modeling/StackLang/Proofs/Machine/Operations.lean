import StackLang.Proofs.Machine.Wp

/-!
# What instructions can change

An operation of an instruction changes one part of the state: the operand stack, a variable, the
strings of the run, the count of instructions, the output, or the state of the host. An `Allowance`
is a relation between states that lets each of these changes happen, that of a variable only if it
says so; `Keeps R m` says that a step keeps to it, whether it succeeds or fails. There is one law for
each operation, so every instruction keeps to every allowance (`Keeps.stepInstr`). `framed` is the one
in which the frames and the places of variables stay, `below` the one in which the operands below the
innermost frame's part stay, `readonly` the one in which the variables stay.
-/

namespace StackLang

open MachineM (wp)

variable {σ α β : Type} {b : Bridge σ}

/-- The instructions that store to a variable. -/
def Opcode.isStore : Opcode → Bool
  | storeDoubleVar | storeIntVar | storeStringVar => true
  | _ => false

/-- A relation between the states before and after that every operation keeps to. -/
structure Allowance (b : Bridge σ) where
  rel : State σ → State σ → Prop
  /-- Variables may change. -/
  writes : Prop := True
  refl : ∀ s, rel s s
  trans : ∀ {s s' s''}, rel s s' → rel s' s'' → rel s s''
  push : ∀ (s : State σ) v, rel s { s with stack := s.stack.push v }
  /-- The top, if it belongs to the innermost frame. -/
  pop : ∀ (s : State σ), s.frameBase < s.stack.size → rel s { s with stack := s.stack.pop }
  var : writes → ∀ (s : State σ) index v, rel s { s with vars := s.vars.setIfInBounds index (some v) }
  overlay : ∀ (s : State σ) overlay, rel s { s with overlay }
  steps : ∀ (s : State σ), rel s { s with steps := s.steps + 1 }
  sink : ∀ (s : State σ) text, rel s { s with sink := (s.sink.write text).2 }
  host : ∀ (s : State σ) symbol args, rel s { s with host := (b.call symbol args s.host).2 }

/-- Frames, places of variables and how many variables there are stay as they are. -/
structure State.Framed (s s' : State σ) : Prop where
  frames : s'.frames = s.frames
  instances : s'.instances = s.instances
  vars : s'.vars.size = s.vars.size

/-- No operation of an instruction makes or ends a frame. -/
def framed (b : Bridge σ) : Allowance b where
  rel := State.Framed
  refl _ := ⟨rfl, rfl, rfl⟩
  trans h h' :=
    ⟨h'.frames.trans h.frames, h'.instances.trans h.instances, h'.vars.trans h.vars⟩
  push _ _ := ⟨rfl, rfl, rfl⟩
  pop _ _ := ⟨rfl, rfl, rfl⟩
  var _ _ _ _ := ⟨rfl, rfl, Array.size_setIfInBounds⟩
  overlay _ _ := ⟨rfl, rfl, rfl⟩
  steps _ := ⟨rfl, rfl, rfl⟩
  sink _ _ := ⟨rfl, rfl, rfl⟩
  host _ _ _ := ⟨rfl, rfl, rfl⟩

/-- The operands below the innermost frame's part are still there. -/
def State.KeepsBelow (s s' : State σ) : Prop :=
  ∀ k < s.frameBase, ∀ v, s.stack[k]? = some v → s'.stack[k]? = some v

/-- No operation of an instruction reaches below its own frame's part of the stack. -/
def below (b : Bridge σ) : Allowance b where
  rel s s' := s'.frameBase = s.frameBase ∧ s.KeepsBelow s'
  refl _ := ⟨rfl, fun _ _ _ hv => hv⟩
  trans h h' :=
    ⟨h'.1.trans h.1, fun k hk v hv => h'.2 k (by rw [h.1]; exact hk) v (h.2 k hk v hv)⟩
  push s v := by
    refine ⟨rfl, fun k _ w hw => ?_⟩
    obtain ⟨hlt, -⟩ := Array.getElem?_eq_some_iff.mp hw
    rw [Array.getElem?_push, if_neg (Nat.ne_of_lt hlt), hw]
  pop s h := by
    refine ⟨rfl, fun k hk w hw => ?_⟩
    rw [Array.getElem?_pop, if_pos (by omega), hw]
  var _ _ _ _ := ⟨rfl, fun _ _ _ hv => hv⟩
  overlay _ _ := ⟨rfl, fun _ _ _ hv => hv⟩
  steps _ := ⟨rfl, fun _ _ _ hv => hv⟩
  sink _ _ := ⟨rfl, fun _ _ _ hv => hv⟩
  host _ _ _ := ⟨rfl, fun _ _ _ hv => hv⟩

/-- Instructions that store nothing change no variable. -/
def readonly (b : Bridge σ) : Allowance b where
  rel s s' := s'.vars = s.vars
  writes := False
  refl _ := rfl
  trans h h' := h'.trans h
  push _ _ := rfl
  pop _ _ := rfl
  var := False.elim
  overlay _ _ := rfl
  steps _ := rfl
  sink _ _ := rfl
  host _ _ _ := rfl

namespace MachineM

variable {R : Allowance b}

/-- Whatever comes of a step, the relation holds between the states before and after. -/
def Keeps (R : Allowance b) (m : MachineM σ α) : Prop :=
  ∀ s, wp m (fun _ s' => R.rel s s') (fun _ s' => R.rel s s') s

namespace Keeps

/-! ## Operations -/

theorem bind {m : MachineM σ β} {f : β → MachineM σ α} (hm : Keeps R m)
    (hf : ∀ x, Keeps R (f x)) : Keeps R (m >>= f) := by
  intro s
  rw [wp_bind]
  refine wp_mono (hm s) (fun x s' h => ?_) fun _ _ h => h
  exact wp_mono (hf x s') (fun _ _ h' => R.trans h h') fun _ _ h' => R.trans h h'

theorem pure (a : α) : Keeps R (Pure.pure a : MachineM σ α) := R.refl

theorem throw (trap : Trap) : Keeps R (MonadExcept.throw trap : MachineM σ α) := R.refl

theorem get : Keeps R (MonadState.get : MachineM σ (State σ)) := R.refl

theorem ite {p : Prop} [Decidable p] {m m' : MachineM σ α} (h : Keeps R m) (h' : Keeps R m') :
    Keeps R (if p then m else m') := by
  split
  · exact h
  · exact h'

theorem of_modify {f : State σ → State σ} (h : ∀ s, R.rel s (f s)) :
    Keeps R (modify f : MachineM σ Unit) := h

theorem push (v : Value) : Keeps R (push v : MachineM σ Unit) :=
  of_modify fun s => R.push s v

theorem pop (op : Opcode) : Keeps R (pop op : MachineM σ Value) :=
  fun s => (wp_pop op).mpr ⟨fun _ => R.refl s, fun h _ _ => R.pop s h⟩

theorem popInt (op : Opcode) : Keeps R (popInt op : MachineM σ Int64) :=
  (pop op).bind fun v => by
    cases v with
    | int n => exact pure n
    | double d => exact throw _
    | string id => exact throw _

theorem popDouble (op : Opcode) : Keeps R (popDouble op : MachineM σ Double) :=
  (pop op).bind fun v => by
    cases v with
    | int n => exact throw _
    | double d => exact pure d
    | string id => exact throw _

theorem popString (op : Opcode) : Keeps R (popString op : MachineM σ UInt16) :=
  (pop op).bind fun v => by
    cases v with
    | int n => exact throw _
    | double d => exact throw _
    | string id => exact pure id

theorem slotIndex (addr : VarAddr) : Keeps R (slotIndex addr : MachineM σ Nat) :=
  get.bind fun s => by
    cases s.slotIndex addr with
    | ok index => exact pure index
    | error trap => exact throw trap

theorem stringText (exe : Executable) (id : UInt16) :
    Keeps R (stringText exe id : MachineM σ String) :=
  get.bind fun s => by
    cases s.stringText exe id with
    | ok text => exact pure text
    | error trap => exact throw trap

theorem toHost (exe : Executable) (v : Value) : Keeps R (toHost exe v : MachineM σ HostValue) :=
  get.bind fun s => by
    cases s.toHost exe v with
    | ok v => exact pure v
    | error trap => exact throw trap

theorem setVar (hw : R.writes) (index : Nat) (v : Value) :
    Keeps R (setVar index v : MachineM σ Unit) :=
  of_modify fun s => R.var hw s index v

theorem loadVar (addr : VarAddr) (ty : Ty) : Keeps R (loadVar addr ty : MachineM σ Unit) :=
  (slotIndex addr).bind fun _ => get.bind fun _ => (throw _).ite (push _)

theorem storeVar (hw : R.writes) (op : Opcode) (addr : VarAddr) (ty : Ty) :
    Keeps R (storeVar op addr ty : MachineM σ Unit) :=
  (pop op).bind fun _ => (throw _).ite ((slotIndex addr).bind fun _ => setVar hw _ _)

theorem intern (exe : Executable) (text : String) :
    Keeps R (intern exe text : MachineM σ UInt16) := by
  unfold MachineM.intern
  split
  · exact pure _
  · have hid : ∀ i, Keeps R (if exe.strings.size + i < UInt16.size then
        Pure.pure (exe.strings.size + i).toUInt16
        else MonadExcept.throw Trap.poolExhausted : MachineM σ UInt16) := fun i =>
      (pure _).ite (throw _)
    refine get.bind fun s => ?_
    dsimp only
    split
    · exact (pure _).bind hid
    · exact Keeps.bind (fun s => R.overlay s _) hid

theorem ofHost (exe : Executable) (v : HostValue) (ty : Ty) :
    Keeps R (ofHost exe v ty : MachineM σ Value) := by
  unfold MachineM.ofHost
  split
  · exact pure _
  · exact pure _
  · exact pure _
  · exact pure _
  · exact (intern exe _).bind fun _ => pure _
  · exact throw _

theorem print (text : String) : Keeps R (print text : MachineM σ Unit) := by
  intro s
  rw [wp_print]
  have hsink := R.sink s text
  split
  · rename_i sink hwrite
    rwa [hwrite] at hsink
  · rename_i reason sink hwrite
    rwa [hwrite] at hsink

theorem callHost (symbol : String) (args : List HostValue) :
    Keeps R (callHost b symbol args : MachineM σ (Option HostValue)) := by
  intro s
  rw [wp_callHost]
  have hhost := R.host s symbol args
  split
  · rename_i host hcall
    rwa [hcall] at hhost
  · rename_i reason host hcall
    rwa [hcall] at hhost
  · rename_i v host hcall
    rwa [hcall] at hhost

/-! ## Instructions -/

theorem tick (config : Config) : Keeps R (tick config : MachineM σ Unit) := by
  refine (of_modify fun s => R.steps s).bind fun _ => get.bind fun s => ?_
  cases config.maxSteps with
  | none => exact (throw _).ite (pure _)
  | some limit => exact (throw _).ite ((throw _).ite (pure _))

theorem onInts (op : Opcode) (f : Int64 → Int64 → Int64) :
    Keeps R (onInts op f : MachineM σ Unit) :=
  (popInt op).bind fun _ => (popInt op).bind fun _ => push _

theorem divideInts (op : Opcode) (f : Int64 → Int64 → Int64) :
    Keeps R (divideInts op f : MachineM σ Unit) :=
  (popInt op).bind fun _ => (popInt op).bind fun _ => (throw _).ite (push _)

theorem onDoubles (op : Opcode) (f : Double → Double → Value) :
    Keeps R (onDoubles op f : MachineM σ Unit) :=
  (popDouble op).bind fun _ => (popDouble op).bind fun _ => push _

theorem stepPlain (exe : Executable) (op : Opcode) :
    Keeps R (stepPlain exe op : MachineM σ Unit) := by
  cases op with
  | invalid => exact pure ()
  | double0 | int0 | string0 | double1 | int1 | doubleM1 | intM1 => exact push _
  | addDouble | subDouble | mulDouble | divDouble | compareDouble => exact onDoubles _ _
  | addInt | subInt | mulInt | orInt | andInt | xorInt | compareInt => exact onInts _ _
  | divInt | modInt => exact divideInts _ _
  | negDouble | doubleToInt => exact (popDouble _).bind fun _ => push _
  | negInt | intToDouble => exact (popInt _).bind fun _ => push _
  | printInt => exact (popInt _).bind fun _ => print _
  | printDouble => exact (popDouble _).bind fun _ => print _
  | printString => exact (popString _).bind fun _ => (stringText _ _).bind fun _ => print _
  | swap => exact (pop _).bind fun _ => (pop _).bind fun _ => (push _).bind fun _ => push _
  | pop => exact (pop _).bind fun _ => pure ()
  | _ => exact throw _

theorem stepVar (op : Opcode) (hw : op.isStore = true → R.writes) (addr : VarAddr) :
    Keeps R (stepVar op addr : MachineM σ Unit) := by
  cases op with
  | loadDoubleVar | loadIntVar | loadStringVar => exact loadVar _ _
  | storeDoubleVar | storeIntVar | storeStringVar => exact storeVar (hw rfl) _ _ _
  | _ => exact throw _

theorem popArgs (exe : Executable) (params : List Ty) :
    Keeps R (popArgs exe params : MachineM σ (List HostValue)) := by
  induction params with
  | nil => exact pure []
  | cons ty params ih =>
    exact (pop _).bind fun _ => (toHost _ _).bind fun _ => ih.bind fun _ => pure _

theorem stepNative {env : Env σ} {R : Allowance env.bridge} (id : UInt16) :
    Keeps R (stepNative env id : MachineM σ Unit) := by
  unfold MachineM.stepNative
  cases env.exe.native? id with
  | none => exact throw _
  | some native =>
    refine (popArgs _ _).bind fun args => (callHost _ _).bind fun result? => ?_
    cases native.result.isValue with
    | false => exact pure ()
    | true =>
      cases result? with
      | none => exact throw _
      | some v => exact (ofHost _ _ _).bind fun _ => push _

theorem stepBranch (op : Opcode) (target next : Nat) :
    Keeps R (stepBranch op target next : MachineM σ Flow) := by
  refine ite (pure _) ?_
  cases jumpRelation op with
  | none => exact throw _
  | some relation => exact (popInt _).bind fun _ => (popInt _).bind fun _ => pure _

theorem stepInstr {env : Env σ} {R : Allowance env.bridge} (i : Instr)
    (hw : i.op.isStore = true → R.writes) : Keeps R (stepInstr env i : MachineM σ Flow) := by
  obtain ⟨offset, op, operand⟩ := i
  cases operand with
  | none =>
    cases op with
    | ret | stop => exact pure _
    | _ => exact (stepPlain _ _).bind fun _ => pure _
  | int n | double d | string id => exact (push _).bind fun _ => pure _
  | var addr => exact (stepVar _ hw _).bind fun _ => pure _
  | target target => exact stepBranch _ _ _
  | function id => exact pure _
  | native id => exact (stepNative id).bind fun _ => pure _

theorem step {env : Env σ} {R : Allowance env.bridge} (hw : R.writes) (r : Routine) (ip : Nat) :
    Keeps R (step env r ip : MachineM σ Flow) :=
  (tick _).bind fun _ => by
    cases r.code.decodeAt ip with
    | error e => exact throw _
    | ok i => exact stepInstr i fun _ => hw

/-! ## Around the instructions -/

theorem takeResult (r : Routine) : Keeps R (takeResult r : MachineM σ (Option Value)) := by
  intro s
  unfold wp MachineM.takeResult
  cases r.returnsValue with
  | false => exact R.refl s
  | true =>
    rw [if_pos rfl]
    by_cases h : s.stack.size ≤ s.frameBase
    · rw [if_pos h]
      exact R.refl s
    · rw [if_neg h]
      exact R.pop s (Nat.lt_of_not_le h)

theorem bindVars (hw : R.writes) (exe : Executable) (vars : List HostVar) :
    Keeps R (RunM.bindVars exe vars : MachineM σ Unit) := by
  induction vars with
  | nil => exact pure ()
  | cons var vars ih =>
    unfold RunM.bindVars
    cases RunM.topVar? exe var.name with
    | none => exact ih
    | some top =>
      exact (throw _).ite ((ofHost _ _ _).bind fun _ => (slotIndex _).bind fun _ =>
        (setVar hw _ _).bind fun _ => ih)

end Keeps

end MachineM

end StackLang
