import StackLang.Proofs.Machine.Wp
import StackLang.Proofs.Verify.Exact

/-!
# What instructions take from the operand stack

`Draws op pops pushes m` says what a step does to the height of the operand stack, in whatever state
it is made. If it succeeds, the innermost frame held the operands it takes. If the frame holds too
few, it fails, and the trap says that an operand was missing or wrong. `Draws.stepInstr` says it of
every instruction but a call, with the numbers of `Instr.Takes`. Nothing is assumed of the executable
or of the state.
-/

namespace StackLang

open MachineM (wp)

variable {σ α β : Type}

/-- How many operands the innermost frame holds. -/
def State.held (s : State σ) : Nat := s.stack.size - s.frameBase

/-- A trap that is met on the way to an operand: there is none, or it is not what it should be. -/
def Trap.OnOperands (op : Opcode) : Trap → Prop
  | .stackUnderflow name => name = op.mnemonic
  | .typeMismatch _ _ | .unknownString _ => True
  | _ => False

namespace MachineM

/-- Takes so many operands of the innermost frame, and fails only over one of them. -/
def Pops (op : Opcode) (n : Nat) (m : MachineM σ α) : Prop :=
  ∀ s, wp m
    (fun _ s' => s'.frameBase = s.frameBase ∧ n ≤ s.held ∧ s'.stack.size + n = s.stack.size)
    (fun trap _ => trap.OnOperands op) s

/-- Takes so many operands of the innermost frame and leaves so many. Too few, and it fails over one
of them. -/
def Draws (op : Opcode) (pops pushes : Nat) (m : MachineM σ α) : Prop :=
  ∀ s, wp m
    (fun _ s' => s'.frameBase = s.frameBase ∧ pops ≤ s.held ∧
      s'.stack.size + pops = s.stack.size + pushes)
    (fun trap _ => s.held < pops → trap.OnOperands op) s

variable {op : Opcode} {a b : Nat}

namespace Pops

theorem pure (x : α) : Pops op 0 (Pure.pure x : MachineM σ α) :=
  fun _ => ⟨rfl, Nat.zero_le _, rfl⟩

theorem add {m : MachineM σ β} {f : β → MachineM σ α} (hm : Pops op a m)
    (hf : ∀ x, Pops op b (f x)) : Pops op (a + b) (m >>= f) := by
  intro s
  rw [wp_bind]
  refine wp_mono (hm s) (fun x s₁ h₁ => ?_) fun _ _ h => h
  refine wp_mono (hf x s₁) (fun _ s₂ h₂ => ?_) fun _ _ h => h
  obtain ⟨hbase₁, hheld₁, hsize₁⟩ := h₁
  obtain ⟨hbase₂, hheld₂, hsize₂⟩ := h₂
  unfold State.held at *
  exact ⟨hbase₂.trans hbase₁, by omega, by omega⟩

/-- What is left takes no operand. -/
theorem bind {m : MachineM σ β} {f : β → MachineM σ α} (hm : Pops op a m)
    (hf : ∀ x, Pops op 0 (f x)) : Pops op a (m >>= f) :=
  hm.add hf

theorem pop : Pops op 1 (pop op : MachineM σ Value) := by
  intro s
  rw [wp_pop]
  refine ⟨fun _ => rfl, fun h v _ => ⟨rfl, ?_, ?_⟩⟩
  · unfold State.held
    omega
  · rw [Array.size_pop]
    omega

theorem popInt : Pops op 1 (popInt op : MachineM σ Int64) :=
  pop.bind fun v => by
    cases v with
    | int n => exact pure n
    | double d => exact fun _ => trivial
    | string id => exact fun _ => trivial

theorem popDouble : Pops op 1 (popDouble op : MachineM σ Double) :=
  pop.bind fun v => by
    cases v with
    | int n => exact fun _ => trivial
    | double d => exact pure d
    | string id => exact fun _ => trivial

theorem popString : Pops op 1 (popString op : MachineM σ UInt16) :=
  pop.bind fun v => by
    cases v with
    | int n => exact fun _ => trivial
    | double d => exact fun _ => trivial
    | string id => exact pure id

theorem toHost (exe : Executable) (v : Value) :
    Pops op 0 (toHost exe v : MachineM σ HostValue) := by
  intro s
  rw [wp_toHost]
  cases h : s.toHost exe v with
  | ok hv => exact ⟨rfl, Nat.zero_le _, rfl⟩
  | error trap =>
    cases v with
    | int n => cases h
    | double d => cases h
    | string id =>
      simp only [State.toHost, State.stringText] at h
      split at h
      · cases h
      · cases h
        trivial

theorem popArgs (exe : Executable) (params : List Ty) :
    Pops .callNative params.length (popArgs exe params : MachineM σ (List HostValue)) := by
  induction params with
  | nil => exact pure []
  | cons ty params ih =>
    rw [List.length_cons, Nat.add_comm]
    exact pop.add fun v => by
      rw [← Nat.zero_add params.length]
      exact (toHost exe v).add fun arg => ih.bind fun args => pure (arg :: args)

end Pops

namespace Draws

theorem after {m : MachineM σ β} {f : β → MachineM σ α} {pushes : Nat} (hm : Pops op a m)
    (hf : ∀ x, Draws op b pushes (f x)) : Draws op (a + b) pushes (m >>= f) := by
  intro s
  rw [wp_bind]
  refine wp_mono (hm s) (fun x s₁ h₁ => ?_) fun _ _ h _ => h
  obtain ⟨hbase₁, hheld₁, hsize₁⟩ := h₁
  refine wp_mono (hf x s₁) (fun _ s₂ h₂ => ?_) fun _ _ h hfew => h ?_
  · obtain ⟨hbase₂, hheld₂, hsize₂⟩ := h₂
    unfold State.held at *
    exact ⟨hbase₂.trans hbase₁, by omega, by omega⟩
  · unfold State.held at *
    omega

theorem pure (x : α) : Draws op 0 0 (Pure.pure x : MachineM σ α) :=
  fun _ => ⟨rfl, Nat.zero_le _, rfl⟩

theorem throw (pushes : Nat) (trap : Trap) :
    Draws op 0 pushes (MonadExcept.throw trap : MachineM σ α) :=
  fun _ h => absurd h (Nat.not_lt_zero _)

theorem push (v : Value) : Draws op 0 1 (push v : MachineM σ Unit) :=
  fun _ => ⟨rfl, Nat.zero_le _, by rw [Array.size_push]⟩

/-- Two steps that only leave operands. -/
theorem add {m : MachineM σ β} {f : β → MachineM σ α} (hm : Draws op 0 a m)
    (hf : ∀ x, Draws op 0 b (f x)) : Draws op 0 (a + b) (m >>= f) := by
  intro s
  rw [wp_bind]
  refine wp_mono (hm s) (fun x s₁ h₁ => ?_) fun _ _ h => h
  obtain ⟨hbase₁, -, hsize₁⟩ := h₁
  refine wp_mono (hf x s₁) (fun _ s₂ h₂ => ?_) fun _ _ _ h => absurd h (Nat.not_lt_zero _)
  obtain ⟨hbase₂, -, hsize₂⟩ := h₂
  exact ⟨hbase₂.trans hbase₁, Nat.zero_le _, by omega⟩

/-- A step that leaves the stack alone, and one behind it. -/
theorem bind {m : MachineM σ β} {f : β → MachineM σ α} (hm : Draws op 0 0 m)
    (hf : ∀ x, Draws op 0 b (f x)) : Draws op 0 b (m >>= f) := by
  have h := hm.add hf
  rwa [Nat.zero_add] at h

theorem ite {p : Prop} [Decidable p] {m m' : MachineM σ α} {pops pushes : Nat}
    (h : Draws op pops pushes m) (h' : Draws op pops pushes m') :
    Draws op pops pushes (if p then m else m') := by
  split
  · exact h
  · exact h'

/-- What is left to do when the operands have been taken. -/
theorem andThen {m : MachineM σ β} {f : β → MachineM σ α} {pops pushes : Nat}
    (hm : Draws op pops pushes m) (hf : ∀ x, Draws op 0 0 (f x)) :
    Draws op pops pushes (m >>= f) := by
  intro s
  rw [wp_bind]
  refine wp_mono (hm s) (fun x s₁ h₁ => ?_) fun _ _ h => h
  obtain ⟨hbase₁, hheld₁, hsize₁⟩ := h₁
  refine wp_mono (hf x s₁) (fun _ s₂ h₂ => ?_) fun _ _ _ h => absurd h (Nat.not_lt.mpr hheld₁)
  obtain ⟨hbase₂, -, hsize₂⟩ := h₂
  exact ⟨hbase₂.trans hbase₁, hheld₁, by omega⟩

/-! ## Operations that leave the stack alone -/

theorem get : Draws op 0 0 (MonadState.get : MachineM σ (State σ)) :=
  fun _ => ⟨rfl, Nat.zero_le _, rfl⟩

theorem slotIndex (addr : VarAddr) : Draws op 0 0 (slotIndex addr : MachineM σ Nat) :=
  get.bind fun s => by
    cases s.slotIndex addr with
    | ok index => exact pure index
    | error trap => exact throw 0 trap

theorem stringText (exe : Executable) (id : UInt16) :
    Draws op 0 0 (stringText exe id : MachineM σ String) :=
  get.bind fun s => by
    cases s.stringText exe id with
    | ok text => exact pure text
    | error trap => exact throw 0 trap

theorem setVar (index : Nat) (v : Value) : Draws op 0 0 (setVar index v : MachineM σ Unit) :=
  fun _ => ⟨rfl, Nat.zero_le _, rfl⟩

theorem print (text : String) : Draws op 0 0 (print text : MachineM σ Unit) := by
  intro s
  rw [wp_print]
  split
  · exact ⟨rfl, Nat.zero_le _, rfl⟩
  · exact fun h => absurd h (Nat.not_lt_zero _)

theorem callHost (bridge : Bridge σ) (symbol : String) (args : List HostValue) :
    Draws op 0 0 (callHost bridge symbol args : MachineM σ (Option HostValue)) := by
  intro s
  rw [wp_callHost]
  split
  · exact fun h => absurd h (Nat.not_lt_zero _)
  · exact fun h => absurd h (Nat.not_lt_zero _)
  · exact ⟨rfl, Nat.zero_le _, rfl⟩

theorem intern (exe : Executable) (text : String) :
    Draws op 0 0 (intern exe text : MachineM σ UInt16) := by
  unfold MachineM.intern
  cases exe.strings.lookup? text with
  | some id => exact pure id
  | none =>
    have hid : ∀ i, Draws op 0 0 (if exe.strings.size + i < UInt16.size then
        Pure.pure (exe.strings.size + i).toUInt16
        else MonadExcept.throw Trap.poolExhausted : MachineM σ UInt16) := fun i =>
      (pure _).ite (throw 0 _)
    refine get.bind fun s => ?_
    dsimp only
    split
    · exact (pure _).bind hid
    · exact bind (fun _ => ⟨rfl, Nat.zero_le _, rfl⟩) hid

theorem ofHost (exe : Executable) (v : HostValue) (ty : Ty) :
    Draws op 0 0 (ofHost exe v ty : MachineM σ Value) := by
  cases v with
  | int n =>
    cases ty with
    | int | double => exact pure _
    | _ => exact throw 0 _
  | double d =>
    cases ty with
    | int | double => exact pure _
    | _ => exact throw 0 _
  | string text =>
    cases ty with
    | string => exact (intern exe text).bind fun _ => pure _
    | _ => exact throw 0 _

/-! ## Instructions -/

theorem onInts (f : Int64 → Int64 → Int64) : Draws op 2 1 (onInts op f : MachineM σ Unit) :=
  after Pops.popInt fun _ => after Pops.popInt fun _ => push _

theorem divideInts (f : Int64 → Int64 → Int64) :
    Draws op 2 1 (divideInts op f : MachineM σ Unit) :=
  after Pops.popInt fun _ => after Pops.popInt fun _ => (throw 1 _).ite (push _)

theorem onDoubles (f : Double → Double → Value) :
    Draws op 2 1 (onDoubles op f : MachineM σ Unit) :=
  after Pops.popDouble fun _ => after Pops.popDouble fun _ => push _

theorem stepPlain (exe : Executable) {effect : Effect} (hkind : op.operandKind = .none)
    (hret : op ≠ .ret) (hstop : op ≠ .stop) (heffect : op.effect = some effect) :
    Draws op effect.pops effect.pushes (stepPlain exe op : MachineM σ Unit) := by
  cases op with
  | ret => exact absurd rfl hret
  | stop => exact absurd rfl hstop
  | invalid =>
    cases heffect
    exact pure ()
  | double0 | int0 | string0 | double1 | int1 | doubleM1 | intM1 =>
    cases heffect
    exact push _
  | addDouble | subDouble | mulDouble | divDouble | compareDouble =>
    cases heffect
    exact onDoubles _
  | addInt | subInt | mulInt | orInt | andInt | xorInt | compareInt =>
    cases heffect
    exact onInts _
  | divInt | modInt =>
    cases heffect
    exact divideInts _
  | negDouble | doubleToInt =>
    cases heffect
    exact after Pops.popDouble fun _ => push _
  | negInt | intToDouble =>
    cases heffect
    exact after Pops.popInt fun _ => push _
  | printInt =>
    cases heffect
    exact after Pops.popInt fun _ => print _
  | printDouble =>
    cases heffect
    exact after Pops.popDouble fun _ => print _
  | printString =>
    cases heffect
    exact after Pops.popString fun _ => (stringText _ _).bind fun _ => print _
  | swap =>
    cases heffect
    exact after Pops.pop fun _ => after Pops.pop fun _ => (push _).add fun _ => push _
  | pop =>
    cases heffect
    exact after Pops.pop fun _ => pure ()
  | _ => cases hkind

theorem loadVar (addr : VarAddr) (ty : Ty) : Draws op 0 1 (loadVar addr ty : MachineM σ Unit) :=
  (slotIndex addr).bind fun _ => get.bind fun _ => (throw 1 _).ite (push _)

theorem storeVar (addr : VarAddr) (ty : Ty) :
    Draws op 1 0 (storeVar op addr ty : MachineM σ Unit) :=
  after Pops.pop fun _ => (throw 0 _).ite ((slotIndex addr).bind fun _ => setVar _ _)

theorem stepVar (addr : VarAddr) {effect : Effect} (hkind : op.operandKind = .var)
    (heffect : op.effect = some effect) :
    Draws op effect.pops effect.pushes (stepVar op addr : MachineM σ Unit) := by
  cases op with
  | loadDoubleVar | loadIntVar | loadStringVar =>
    cases heffect
    exact loadVar addr _
  | storeDoubleVar | storeIntVar | storeStringVar =>
    cases heffect
    exact storeVar addr _
  | _ => cases hkind

theorem stepNative {env : Env σ} {id : UInt16} {native : NativeDecl}
    (hn : env.exe.native? id = some native) :
    Draws .callNative native.params.length (if native.result.isValue then 1 else 0)
      (stepNative env id : MachineM σ Unit) := by
  unfold MachineM.stepNative
  rw [hn]
  refine after (b := 0) (Pops.popArgs _ _) fun args => ?_
  refine bind (b := if native.result.isValue then 1 else 0) (callHost _ _ _) fun result? => ?_
  cases native.result.isValue with
  | false => exact pure ()
  | true =>
    cases result? with
    | none => exact throw 1 _
    | some v => exact (ofHost _ _ _).bind fun _ => push _

theorem stepBranch (target next : Nat) {effect : Effect} (hkind : op.operandKind = .branch)
    (heffect : op.effect = some effect) :
    Draws op effect.pops effect.pushes (stepBranch op target next : MachineM σ Flow) := by
  cases op with
  | jump =>
    cases heffect
    exact pure _
  | jumpNe | jumpEq | jumpGt | jumpGe | jumpLt | jumpLe =>
    cases heffect
    exact after Pops.popInt fun _ => after Pops.popInt fun _ => pure _
  | _ => cases hkind

/-- **Every instruction but a call takes its operands from the innermost frame**, as many as it is
to take, and leaves as many as it is to leave. If the frame holds too few, it fails over one of
them. -/
theorem stepInstr {env : Env σ} {i : Instr} {effect : Effect}
    (hkind : i.operand.kind = i.op.operandKind) (htakes : i.Takes env.exe effect)
    (hcall : i.op ≠ .call) :
    Draws i.op effect.pops effect.pushes (stepInstr env i : MachineM σ Flow) := by
  obtain ⟨offset, op, operand⟩ := i
  cases htakes with
  | call hi =>
    obtain rfl : operand = _ := hi
    cases op <;> first | exact absurd rfl hcall | cases hkind
  | callNative hi hn =>
    obtain rfl : operand = _ := hi
    cases op <;> cases hkind
    exact (stepNative hn).andThen fun _ => pure _
  | plain heffect =>
    cases operand with
    | none =>
      have hplain : op ≠ .ret → op ≠ .stop →
          Draws op effect.pops effect.pushes (do
            MachineM.stepPlain env.exe op
            return Flow.next (offset + op.width) : MachineM σ Flow) := fun hret hstop =>
        (stepPlain env.exe hkind.symm hret hstop heffect).andThen fun _ => pure _
      cases op with
      | ret | stop =>
        cases heffect
        exact pure _
      | _ => exact hplain nofun nofun
    | int n | double d | string id =>
      cases op <;> cases hkind
      cases heffect
      exact (push _).andThen fun _ => pure _
    | var addr => exact (stepVar addr hkind.symm heffect).andThen fun _ => pure _
    | target target => exact stepBranch _ _ hkind.symm heffect
    | function id => cases op <;> first | exact absurd rfl hcall | cases hkind
    | native id =>
      cases op <;> cases hkind
      cases heffect

/-- Writing the host's variables leaves the stack alone. -/
theorem bindVars (exe : Executable) (vars : List HostVar) :
    Draws op 0 0 (RunM.bindVars exe vars : MachineM σ Unit) := by
  induction vars with
  | nil => exact pure ()
  | cons var vars ih =>
    unfold RunM.bindVars
    cases RunM.topVar? exe var.name with
    | none => exact ih
    | some top =>
      exact (throw 0 _).ite ((ofHost _ _ _).bind fun _ => (slotIndex _).bind fun _ =>
        (setVar _ _).bind fun _ => ih)

end Draws

end MachineM

end StackLang
