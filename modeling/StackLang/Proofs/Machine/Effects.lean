import StackLang.Proofs.Code.Decode
import StackLang.Proofs.Executable.StringPool
import StackLang.Proofs.Machine.Wp

/-!
# What an instruction does to the machine

`Moved exe effect s s'` is what every instruction but a call, a return and a stop does when it
succeeds: it takes and leaves as many operands as the verifier's table says, keeps the frames and
the places of variables, and makes no string id without a text. `wp_stepInstr` proves it of each
opcode, and with it that an instruction which finds its operands and its table entry raises no
structural trap.
-/

namespace StackLang

/-- The traps that verification is to rule out. -/
def Trap.isStructural : Trap → Bool
  | stackUnderflow _ | undecodable _ | malformed _ | unknownFunction _ | unknownNative _
  | unknownString _ | noFrame | noCaller | rejected _ => true
  | _ => false

/-! ## Strings that have a text -/

namespace State

variable {σ : Type} {exe : Executable} {s : State σ} {v : Value}

/-- A string value has a text, in the executable or in the overlay. -/
def Known (exe : Executable) (s : State σ) (v : Value) : Prop :=
  ∀ id, v = .string id → id.toNat < exe.strings.size + s.overlay.size

/-- Every value on the stack and in the variables is known. -/
structure KnownValues (exe : Executable) (s : State σ) : Prop where
  stack : ∀ v ∈ s.stack, s.Known exe v
  vars : ∀ (i : Nat) v, s.vars[i]? = some (some v) → s.Known exe v

theorem known_int (n : Int64) : s.Known exe (.int n) := fun _ h => nomatch h

theorem known_double (d : Double) : s.Known exe (.double d) := fun _ h => nomatch h

theorem known_string {id : UInt16} (h : id.toNat < exe.strings.size + s.overlay.size) :
    s.Known exe (.string id) := fun _ h' => by cases h'; exact h

theorem known_zero (hpool : exe.strings.Sound) (ty : Ty) : s.Known exe (.zero ty) := by
  have := hpool.nonempty
  cases ty <;> intro id h <;> cases h
  simp only [UInt16.toNat_ofNat]
  omega

theorem Known.mono {s' : State σ} (h : s.Known exe v)
    (ho : s.overlay.size ≤ s'.overlay.size) : s'.Known exe v := fun id hv => by
  have := h id hv
  omega

theorem stringText_of_known {id : UInt16} (h : s.Known exe (.string id)) :
    ∃ text, s.stringText exe id = .ok text := by
  have hlt := h id rfl
  unfold stringText
  by_cases hp : id.toNat < exe.strings.size
  · obtain ⟨text, ht⟩ := StringPool.Sound.get?_isSome hp
    exact ⟨text, by simp [hp, ht]⟩
  · have ho : id.toNat - exe.strings.size < s.overlay.size := by omega
    exact ⟨s.overlay[id.toNat - exe.strings.size], by simp [hp, ho]⟩

theorem toHost_of_known (h : s.Known exe v) : ∃ hv, s.toHost exe v = .ok hv := by
  cases v with
  | int n => exact ⟨_, rfl⟩
  | double d => exact ⟨_, rfl⟩
  | string id =>
    obtain ⟨text, ht⟩ := stringText_of_known h
    exact ⟨.string text, by simp [toHost, ht, Except.map]⟩

theorem known_of_back? (h : s.KnownValues exe) (hv : s.stack.back? = some v) :
    s.Known exe v :=
  h.stack v (Array.mem_of_back? hv)

theorem KnownValues.pop (h : s.KnownValues exe) :
    KnownValues exe { s with stack := s.stack.pop } :=
  ⟨fun v hv => h.stack v (by
    rw [← Array.mem_toList_iff, Array.toList_pop] at hv
    exact Array.mem_toList_iff.mp (List.dropLast_subset _ hv)), h.vars⟩

theorem KnownValues.push (h : s.KnownValues exe) (hv : s.Known exe v) :
    KnownValues exe { s with stack := s.stack.push v } := by
  refine ⟨fun w hw => ?_, h.vars⟩
  rcases Array.mem_push.mp hw with hw | rfl
  · exact h.stack w hw
  · exact hv

theorem KnownValues.setVar (h : s.KnownValues exe) (hv : s.Known exe v) (index : Nat) :
    KnownValues exe { s with vars := s.vars.setIfInBounds index (some v) } := by
  refine ⟨h.stack, fun i w hw => ?_⟩
  rw [Array.getElem?_setIfInBounds] at hw
  split at hw
  · split at hw
    · cases hw
      exact hv
    · cases hw
  · exact h.vars i w hw

theorem known_readVar (hpool : exe.strings.Sound) (h : s.KnownValues exe) (index : Nat)
    (ty : Ty) : s.Known exe (s.readVar index (.zero ty)) := by
  unfold readVar
  cases hi : s.vars[index]? with
  | none => exact known_zero hpool ty
  | some o =>
    cases o with
    | none => exact known_zero hpool ty
    | some v => exact h.vars index v hi

theorem slotIndex_not_structural {addr : VarAddr} {trap : Trap}
    (h : s.slotIndex addr = .error trap) : trap.isStructural = false := by
  unfold slotIndex at h
  split at h
  · cases h
    rfl
  · dsimp only at h
    split at h <;> cases h
    rfl

end State

/-! ## The effect of an instruction -/

/-- What an instruction with this effect leaves of the state it found. -/
structure Moved {σ : Type} (exe : Executable) (effect : Effect) (s s' : State σ) : Prop where
  height : s'.stack.size + effect.pops = s.stack.size + effect.pushes
  frames : s'.frames = s.frames
  instances : s'.instances = s.instances
  vars : s'.vars.size = s.vars.size
  overlay : s.overlay.size ≤ s'.overlay.size
  known : s'.KnownValues exe

namespace Moved

variable {σ : Type} {exe : Executable} {s : State σ}

/-- `s'` is `s` after operands have been taken and results of a known kind pushed. -/
theorem of_stack {effect : Effect} {stack : Array Value}
    (hheight : stack.size + effect.pops = s.stack.size + effect.pushes)
    (hknown : State.KnownValues exe { s with stack }) :
    Moved exe effect s { s with stack } :=
  ⟨hheight, rfl, rfl, rfl, Nat.le_refl _, hknown⟩

theorem refl (hs : s.KnownValues exe) : Moved exe ⟨0, 0⟩ s s :=
  ⟨rfl, rfl, rfl, rfl, Nat.le_refl _, hs⟩

theorem trans {s₁ s₂ : State σ} {a b c : Effect} (h : Moved exe a s s₁) (h' : Moved exe b s₁ s₂)
    (hc : c.pops + a.pushes + b.pushes = c.pushes + a.pops + b.pops) : Moved exe c s s₂ := by
  refine ⟨?_, h'.frames.trans h.frames, h'.instances.trans h.instances, h'.vars.trans h.vars,
    Nat.le_trans h.overlay h'.overlay, h'.known⟩
  have := h.height
  have := h'.height
  omega

theorem push (hs : s.KnownValues exe) {v : Value} (hv : s.Known exe v) :
    Moved exe ⟨0, 1⟩ s { s with stack := s.stack.push v } :=
  .of_stack (by simp) (hs.push hv)

theorem pop (hs : s.KnownValues exe) (h : s.frameBase + 1 ≤ s.stack.size) :
    Moved exe ⟨1, 0⟩ s { s with stack := s.stack.pop } :=
  .of_stack (by simp only [Array.size_pop]; omega) hs.pop

theorem one (hs : s.KnownValues exe) (h : s.frameBase + 1 ≤ s.stack.size) {v : Value}
    (hv : s.Known exe v) :
    Moved exe ⟨1, 1⟩ s { s with stack := s.stack.pop.push v } :=
  .of_stack (by simp only [Array.size_push, Array.size_pop]; omega) (hs.pop.push hv)

theorem two (hs : s.KnownValues exe) (h : s.frameBase + 2 ≤ s.stack.size) {v : Value}
    (hv : s.Known exe v) :
    Moved exe ⟨2, 1⟩ s { s with stack := s.stack.pop.pop.push v } :=
  .of_stack (by simp only [Array.size_push, Array.size_pop]; omega) (hs.pop.pop.push hv)

end Moved

namespace MachineM

variable {σ : Type} {exe : Executable} {s : State σ}

section Operations

variable {Q : Unit → State σ → Prop} {E : Trap → State σ → Prop}

theorem wp_popInt_of {Q : Int64 → State σ → Prop} {op : Opcode}
    (h : s.frameBase < s.stack.size) (hE : ∀ ty found s', E (.typeMismatch ty found) s')
    (hQ : ∀ n, Q n { s with stack := s.stack.pop }) : wp (popInt op) Q E s := by
  rw [wp_popInt]
  refine wp_pop_of h fun v _ => ?_
  cases v with
  | int n => exact hQ n
  | double d => exact hE _ _ _
  | string id => exact hE _ _ _

theorem wp_popDouble_of {Q : Double → State σ → Prop} {op : Opcode}
    (h : s.frameBase < s.stack.size) (hE : ∀ ty found s', E (.typeMismatch ty found) s')
    (hQ : ∀ d, Q d { s with stack := s.stack.pop }) : wp (popDouble op) Q E s := by
  rw [wp_popDouble]
  refine wp_pop_of h fun v _ => ?_
  cases v with
  | int n => exact hE _ _ _
  | double d => exact hQ d
  | string id => exact hE _ _ _

theorem wp_onInts_of {op : Opcode} {f : Int64 → Int64 → Int64}
    (h : s.frameBase + 2 ≤ s.stack.size) (hE : ∀ ty found s', E (.typeMismatch ty found) s')
    (hQ : ∀ n, Q () { s with stack := s.stack.pop.pop.push (.int n) }) :
    wp (onInts op f) Q E s := by
  rw [onInts, wp_bind]
  refine wp_popInt_of (by omega) hE fun upper => ?_
  rw [wp_bind]
  refine wp_popInt_of ?_ hE fun lower => hQ _
  simp only [Array.size_pop, State.frameBase_stack]
  omega

theorem wp_onDoubles_of {op : Opcode} {f : Double → Double → Value}
    (h : s.frameBase + 2 ≤ s.stack.size) (hE : ∀ ty found s', E (.typeMismatch ty found) s')
    (hQ : ∀ a b, Q () { s with stack := s.stack.pop.pop.push (f a b) }) :
    wp (onDoubles op f) Q E s := by
  rw [onDoubles, wp_bind]
  refine wp_popDouble_of (by omega) hE fun upper => ?_
  rw [wp_bind]
  refine wp_popDouble_of ?_ hE fun lower => hQ _ _
  simp only [Array.size_pop, State.frameBase_stack]
  omega

theorem wp_divideInts_of {op : Opcode} {f : Int64 → Int64 → Int64}
    (h : s.frameBase + 2 ≤ s.stack.size) (hE : ∀ ty found s', E (.typeMismatch ty found) s')
    (hzero : ∀ s', E .divisionByZero s')
    (hQ : ∀ n, Q () { s with stack := s.stack.pop.pop.push (.int n) }) :
    wp (divideInts op f) Q E s := by
  rw [divideInts, wp_bind]
  refine wp_popInt_of (by omega) hE fun upper => ?_
  rw [wp_bind]
  refine wp_popInt_of ?_ hE fun lower => ?_
  · simp only [Array.size_pop, State.frameBase_stack]
    omega
  · split
    · exact hzero _
    · exact hQ _

theorem wp_print_of {text : String} (hE : ∀ reason s', E (.output reason) s')
    (hQ : ∀ sink, Q () { s with sink }) : wp (print text) Q E s := by
  rw [wp_print]
  split
  · exact hQ _
  · exact hE _ _

end Operations

/-! ## Instructions without an operand -/

theorem known_orderingValue (o : Ordering) : s.Known exe (orderingValue o) := by
  cases o <;> exact State.known_int _

theorem wp_stepPlain {op : Opcode} {effect : Effect} (hpool : exe.strings.Sound)
    (hkind : op.operandKind = .none) (hret : op ≠ .ret) (hstop : op ≠ .stop)
    (heffect : op.effect = some effect) (hholds : s.frameBase + effect.pops ≤ s.stack.size)
    (hs : s.KnownValues exe) :
    wp (stepPlain exe op) (fun _ s' => Moved exe effect s s')
      (fun trap _ => trap.isStructural = false) s := by
  have hE : ∀ (ty : Ty) (found : String) (_ : State σ),
      (Trap.typeMismatch ty found).isStructural = false := fun _ _ _ => rfl
  cases op with
  | ret => exact absurd rfl hret
  | stop => exact absurd rfl hstop
  | invalid =>
    cases heffect
    exact Moved.of_stack rfl hs
  | int0 | int1 | intM1 =>
    cases heffect
    exact Moved.push hs (State.known_int _)
  | double0 | double1 | doubleM1 =>
    cases heffect
    exact Moved.push hs (State.known_double _)
  | string0 =>
    cases heffect
    exact Moved.push hs (State.known_zero hpool .string)
  | addInt | subInt | mulInt | orInt | andInt | xorInt | compareInt =>
    cases heffect
    exact wp_onInts_of hholds hE fun _ => .two hs hholds (State.known_int _)
  | divInt | modInt =>
    cases heffect
    exact wp_divideInts_of hholds hE (fun _ => rfl) fun _ => .two hs hholds (State.known_int _)
  | addDouble | subDouble | mulDouble | divDouble =>
    cases heffect
    exact wp_onDoubles_of hholds hE fun _ _ => .two hs hholds (State.known_double _)
  | compareDouble =>
    cases heffect
    exact wp_onDoubles_of hholds hE fun _ _ => .two hs hholds (known_orderingValue _)
  | negInt | intToDouble =>
    cases heffect
    simp only [stepPlain, wp_bind]
    refine wp_popInt_of hholds hE fun n => ?_
    exact .one hs hholds (by rintro _ ⟨⟩)
  | negDouble | doubleToInt =>
    cases heffect
    simp only [stepPlain, wp_bind]
    refine wp_popDouble_of hholds hE fun d => ?_
    exact .one hs hholds (by rintro _ ⟨⟩)
  | swap =>
    cases heffect
    simp only [stepPlain, wp_bind]
    refine wp_pop_of (by simp only at hholds; omega) fun upper hupper => ?_
    refine wp_pop_of (by simp only [Array.size_pop, State.frameBase_stack] at *; omega)
      fun lower hlower => ?_
    have hu : s.Known exe upper := State.known_of_back? hs hupper
    have hl : s.Known exe lower := State.known_of_back? (s := { s with stack := s.stack.pop }) hs.pop hlower
    refine Moved.of_stack (by simp only [Array.size_push, Array.size_pop] at *; omega) ?_
    exact (hs.pop.pop.push hu).push hl
  | pop =>
    cases heffect
    simp only [stepPlain, wp_bind]
    exact wp_pop_of hholds fun _ _ => .pop hs hholds
  | printInt =>
    cases heffect
    simp only [stepPlain, wp_bind]
    refine wp_popInt_of hholds hE fun n => wp_print_of (fun _ _ => rfl) fun sink => ?_
    have := Moved.pop hs hholds
    exact ⟨this.height, rfl, rfl, rfl, Nat.le_refl _, this.known.stack, this.known.vars⟩
  | printDouble =>
    cases heffect
    simp only [stepPlain, wp_bind]
    refine wp_popDouble_of hholds hE fun d => wp_print_of (fun _ _ => rfl) fun sink => ?_
    have := Moved.pop hs hholds
    exact ⟨this.height, rfl, rfl, rfl, Nat.le_refl _, this.known.stack, this.known.vars⟩
  | printString =>
    cases heffect
    simp only [stepPlain, wp_bind, wp_popString]
    refine wp_pop_of hholds fun v hv => ?_
    cases v with
    | int n => rfl
    | double d => rfl
    | string id =>
      have hknown := State.known_of_back? hs hv
      obtain ⟨text, ht⟩ := State.stringText_of_known
        (s := { s with stack := s.stack.pop }) hknown
      simp only [wp_stringText, ht]
      refine wp_print_of (fun _ _ => rfl) fun sink => ?_
      have := Moved.pop hs hholds
      exact ⟨this.height, rfl, rfl, rfl, Nat.le_refl _, this.known.stack, this.known.vars⟩
  | _ => simp [Opcode.operandKind] at hkind

/-! ## Variables -/

theorem wp_loadVar_of {addr : VarAddr} {ty : Ty} (hpool : exe.strings.Sound)
    (hs : s.KnownValues exe) :
    wp (loadVar addr ty) (fun _ s' => Moved exe ⟨0, 1⟩ s s')
      (fun trap _ => trap.isStructural = false) s := by
  rw [loadVar, wp_bind, wp_slotIndex]
  cases hi : s.slotIndex addr with
  | error trap => exact State.slotIndex_not_structural hi
  | ok index =>
    simp only [wp_bind, wp_get, wp_ite, wp_throw]
    exact ⟨fun _ => rfl, fun _ => Moved.push hs (State.known_readVar hpool hs index ty)⟩

theorem wp_storeVar_of {op : Opcode} {addr : VarAddr} {ty : Ty}
    (hholds : s.frameBase + 1 ≤ s.stack.size) (hs : s.KnownValues exe) :
    wp (storeVar op addr ty) (fun _ s' => Moved exe ⟨1, 0⟩ s s')
      (fun trap _ => trap.isStructural = false) s := by
  rw [storeVar, wp_bind]
  refine wp_pop_of hholds fun v hv => ?_
  have hknown := State.known_of_back? hs hv
  have hmoved := Moved.pop hs hholds
  simp only [wp_bind, wp_ite, wp_throw]
  refine ⟨fun _ => rfl, fun _ => ?_⟩
  rw [wp_slotIndex]
  cases hi : State.slotIndex { s with stack := s.stack.pop } addr with
  | error trap => exact State.slotIndex_not_structural hi
  | ok index =>
    exact ⟨hmoved.height, rfl, rfl, by simp, Nat.le_refl _, hmoved.known.setVar hknown index⟩

theorem wp_stepVar {op : Opcode} {addr : VarAddr} {effect : Effect}
    (hpool : exe.strings.Sound) (hkind : op.operandKind = .var)
    (heffect : op.effect = some effect) (hholds : s.frameBase + effect.pops ≤ s.stack.size)
    (hs : s.KnownValues exe) :
    wp (stepVar op addr) (fun _ s' => Moved exe effect s s')
      (fun trap _ => trap.isStructural = false) s := by
  cases op with
  | loadDoubleVar | loadIntVar | loadStringVar =>
    cases heffect
    exact wp_loadVar_of hpool hs
  | storeDoubleVar | storeIntVar | storeStringVar =>
    cases heffect
    exact wp_storeVar_of hholds hs
  | _ => simp [Opcode.operandKind] at hkind

/-! ## Calls to the host -/

theorem wp_popArgs_of (params : List Ty) (hholds : s.frameBase + params.length ≤ s.stack.size)
    (hs : s.KnownValues exe) :
    wp (popArgs exe params) (fun _ s' => Moved exe ⟨params.length, 0⟩ s s')
      (fun trap _ => trap.isStructural = false) s := by
  induction params generalizing s with
  | nil => exact Moved.refl hs
  | cons ty params ih =>
    simp only [List.length_cons] at hholds
    rw [popArgs, wp_bind]
    refine wp_pop_of (by omega) fun v hv => ?_
    have hmoved := Moved.pop hs (show s.frameBase + 1 ≤ s.stack.size by omega)
    have hknown : s.Known exe v := State.known_of_back? hs hv
    obtain ⟨hv', hhost⟩ := State.toHost_of_known (s := { s with stack := s.stack.pop }) hknown
    rw [wp_bind, wp_toHost, hhost]
    simp only [wp_bind, wp_pure]
    refine wp_mono (ih ?_ hs.pop) (fun _ s' h => ?_) fun _ _ h => h
    · simp only [State.frameBase_stack, Array.size_pop]
      omega
    · exact hmoved.trans h (by simp only [List.length_cons]; omega)

theorem wp_intern_of (hpool : exe.strings.Sound) (hs : s.KnownValues exe) (text : String) :
    wp (intern exe text)
      (fun id s' => Moved exe ⟨0, 0⟩ s s' ∧ s'.Known exe (.string id))
      (fun trap _ => trap.isStructural = false) s := by
  unfold intern
  cases hp : exe.strings.lookup? text with
  | some id =>
    have := hpool.lookup_lt hp
    exact ⟨Moved.refl hs, State.known_string (by omega)⟩
  | none =>
    simp only [wp_bind, wp_get]
    cases hi : s.overlay.findIdx? (· = text) with
    | some i =>
      have hlt : i < s.overlay.size := (Array.findIdx?_eq_some_iff_getElem.mp hi).1
      refine (wp_ite _ _).mpr ⟨fun h => ⟨Moved.refl hs, State.known_string ?_⟩, fun _ => rfl⟩
      simp only [UInt16.toNat_ofNat']
      exact Nat.lt_of_le_of_lt (Nat.mod_le _ _) (by omega)
    | none =>
      have hmono : ∀ v, s.Known exe v →
          State.Known exe { s with overlay := s.overlay.push text } v :=
        fun v h => h.mono (by simp)
      have hmoved : Moved exe ⟨0, 0⟩ s { s with overlay := s.overlay.push text } :=
        ⟨rfl, rfl, rfl, rfl, by simp, fun v hv => hmono v (hs.stack v hv),
          fun i v hv => hmono v (hs.vars i v hv)⟩
      refine (wp_ite _ _).mpr ⟨fun h => ⟨hmoved, State.known_string ?_⟩, fun _ => rfl⟩
      simp only [UInt16.toNat_ofNat', Array.size_push]
      exact Nat.lt_of_le_of_lt (Nat.mod_le _ _) (by omega)

theorem wp_ofHost_of (hpool : exe.strings.Sound) (hs : s.KnownValues exe) (v : HostValue)
    (ty : Ty) :
    wp (ofHost exe v ty) (fun v s' => Moved exe ⟨0, 0⟩ s s' ∧ s'.Known exe v)
      (fun trap _ => trap.isStructural = false) s := by
  cases v with
  | int n =>
    cases ty with
    | int => exact ⟨Moved.refl hs, State.known_int _⟩
    | double => exact ⟨Moved.refl hs, State.known_double _⟩
    | _ => rfl
  | double d =>
    cases ty with
    | int => exact ⟨Moved.refl hs, State.known_int _⟩
    | double => exact ⟨Moved.refl hs, State.known_double _⟩
    | _ => rfl
  | string text =>
    cases ty with
    | string =>
      simp only [ofHost, wp_bind, wp_pure]
      exact wp_intern_of hpool hs text
    | _ => rfl

theorem wp_stepNative {env : Env σ} {id : UInt16} {n : NativeDecl}
    (hpool : env.exe.strings.Sound) (hid : env.exe.native? id = some n)
    (hholds : s.frameBase + n.params.length ≤ s.stack.size)
    (hs : s.KnownValues env.exe) :
    wp (stepNative env id) (fun _ s' =>
        Moved env.exe ⟨n.params.length, if n.result.isValue then 1 else 0⟩ s s')
      (fun trap _ => trap.isStructural = false) s := by
  simp only [stepNative, hid, wp_bind]
  refine wp_mono (wp_popArgs_of n.params hholds hs) (fun args s₁ h₁ => ?_) fun _ _ h => h
  rw [wp_callHost]
  split
  · rfl
  · rfl
  · rename_i result host hcall
    have h₂ : Moved env.exe ⟨n.params.length, 0⟩ s { s₁ with host } :=
      ⟨h₁.height, h₁.frames, h₁.instances, h₁.vars, h₁.overlay, h₁.known.stack, h₁.known.vars⟩
    rw [wp_ite]
    refine ⟨fun hvalue => ?_, fun hvalue => ?_⟩
    · rw [if_pos hvalue]
      cases result with
      | none => rfl
      | some v =>
        simp only [wp_bind, wp_push]
        refine wp_mono (wp_ofHost_of hpool h₂.known v n.result) (fun w s₃ h₃ => ?_)
          fun _ _ h => h
        have h₄ : Moved env.exe ⟨n.params.length, 0⟩ s s₃ :=
          h₂.trans h₃.1 (by dsimp only; omega)
        exact h₄.trans (Moved.push h₃.1.known h₃.2) (by dsimp only; omega)
    · rw [if_neg hvalue]
      exact h₂

/-! ## Branches -/

theorem wp_stepBranch {op : Opcode} {target next : Nat} {effect : Effect}
    (hkind : op.operandKind = .branch) (heffect : op.effect = some effect)
    (hholds : s.frameBase + effect.pops ≤ s.stack.size) (hs : s.KnownValues exe) :
    wp (stepBranch op target next) (fun flow s' => Moved exe effect s s' ∧
        (flow = .next target ∨ flow = .next next ∧ op.isTerminator = false))
      (fun trap _ => trap.isStructural = false) s := by
  have hjump : ∀ relation : Int64 → Int64 → Bool, jumpRelation op = some relation →
      effect = ⟨2, 0⟩ → op.isTerminator = false →
      wp (stepBranch op target next) (fun flow s' => Moved exe effect s s' ∧
          (flow = .next target ∨ flow = .next next ∧ op.isTerminator = false))
        (fun trap _ => trap.isStructural = false) s := by
    rintro relation hrel rfl hterm
    have hne : op ≠ .jump := by rintro rfl; cases hrel
    simp only [stepBranch, if_neg hne, hrel, wp_bind]
    refine wp_popInt_of (by simp only at hholds; omega) (fun _ _ _ => rfl) fun upper => ?_
    refine wp_popInt_of (by simp only [Array.size_pop, State.frameBase_stack] at *; omega)
      (fun _ _ _ => rfl) fun lower => ⟨.of_stack ?_ hs.pop.pop, ?_⟩
    · simp only [Array.size_pop] at *
      omega
    · split
      · exact .inl rfl
      · exact .inr ⟨rfl, hterm⟩
  cases op with
  | jump =>
    cases heffect
    exact ⟨Moved.refl hs, .inl rfl⟩
  | jumpNe | jumpEq | jumpGt | jumpGe | jumpLt | jumpLe =>
    cases heffect
    exact hjump _ rfl rfl rfl
  | _ => simp [Opcode.operandKind] at hkind

/-! ## Any instruction -/

/-- What an instruction does to the machine and where it leads, if it succeeds. -/
def Follows (exe : Executable) (i : Instr) (effect : Effect) (s : State σ) (flow : Flow)
    (s' : State σ) : Prop :=
  match flow with
  | .next ip =>
    Moved exe effect s s' ∧ (i.operand = .target ip ∨ ip = i.next ∧ i.op.isTerminator = false)
  | .call id ip =>
    i.operand = .function id ∧ ip = i.next ∧ i.op.isTerminator = false ∧ s' = s
  | .ret => i.op = .ret ∧ s' = s
  | .halt => i.op = .stop ∧ s' = s

/-- An instruction that finds its operands and its table entry does what the verifier's table
says, and raises no structural trap. -/
theorem wp_stepInstr {env : Env σ} {i : Instr} {effect : Effect}
    (hpool : env.exe.strings.Sound) (hkind : i.operand.kind = i.op.operandKind)
    (heffect : env.exe.effectOf i.op i.operand = .ok effect)
    (hholds : s.frameBase + effect.pops ≤ s.stack.size) (hs : s.KnownValues env.exe) :
    wp (stepInstr env i) (Follows env.exe i effect s)
      (fun trap _ => trap.isStructural = false) s := by
  have hplain : ∀ op : Opcode, Executable.plainEffect op = .ok effect →
      op.effect = some effect := by
    intro op h
    unfold Executable.plainEffect at h
    split at h <;> cases h
    assumption
  obtain ⟨offset, op, operand⟩ := i
  simp only at hkind heffect
  cases operand with
  | none =>
    have heff := hplain _ heffect
    have hnext : op ≠ .ret → op ≠ .stop →
        wp (stepPlain env.exe op) (fun _ s' => wp (pure (Flow.next (offset + op.width)))
          (Follows env.exe ⟨offset, op, .none⟩ effect s)
          (fun trap _ => trap.isStructural = false) s')
          (fun trap _ => trap.isStructural = false) s := by
      intro hret hstop
      refine wp_mono (wp_stepPlain hpool hkind.symm hret hstop heff hholds hs)
        (fun _ s' h => ⟨h, .inr ⟨rfl, ?_⟩⟩) fun _ _ h => h
      cases op <;> first | rfl | exact absurd rfl hret | exact absurd rfl hstop | cases hkind
    cases op with
    | ret => exact ⟨rfl, rfl⟩
    | stop => exact ⟨rfl, rfl⟩
    | _ =>
      simp only [stepInstr, wp_bind]
      exact hnext (by rintro ⟨⟩) (by rintro ⟨⟩)
  | int n =>
    cases op <;> cases hkind
    cases hplain .loadInt heffect
    exact ⟨Moved.push hs (State.known_int n), .inr ⟨rfl, rfl⟩⟩
  | double d =>
    cases op <;> cases hkind
    cases hplain .loadDouble heffect
    exact ⟨Moved.push hs (State.known_double d), .inr ⟨rfl, rfl⟩⟩
  | string id =>
    cases op <;> cases hkind
    simp only [Executable.effectOf] at heffect
    split at heffect
    · cases heffect
    · rename_i hid
      cases hplain _ heffect
      have hlt : id.toNat < env.exe.strings.size := by
        simp only [StringPool.get?, Option.isNone_iff_eq_none, Array.getElem?_eq_none_iff,
          Nat.not_le] at hid
        exact hid
      exact ⟨Moved.push hs (State.known_string (by omega)), .inr ⟨rfl, rfl⟩⟩
  | var addr =>
    have heff : op.effect = some effect := by
      simp only [Executable.effectOf] at heffect
      split at heffect
      · cases heffect
      · exact hplain _ heffect
    simp only [stepInstr, wp_bind]
    refine wp_mono (wp_stepVar hpool hkind.symm heff hholds hs)
      (fun _ s' h => ⟨h, .inr ⟨rfl, ?_⟩⟩) fun _ _ h => h
    cases op <;> first | rfl | cases hkind
  | target target =>
    simp only [stepInstr]
    refine wp_mono (wp_stepBranch hkind.symm (hplain _ heffect) hholds hs)
      (fun flow s' h => ?_) fun _ _ h => h
    rcases h with ⟨hm, rfl | ⟨rfl, hterm⟩⟩
    · exact ⟨hm, .inl rfl⟩
    · exact ⟨hm, .inr ⟨rfl, hterm⟩⟩
  | function id =>
    cases op <;> cases hkind
    exact ⟨rfl, rfl, rfl, rfl⟩
  | native id =>
    cases op <;> cases hkind
    simp only [Executable.effectOf] at heffect
    split at heffect
    · rename_i native hid
      cases heffect
      simp only [stepInstr, wp_bind]
      exact wp_mono (wp_stepNative hpool hid hholds hs)
        (fun _ s' h => ⟨h, .inr ⟨rfl, rfl⟩⟩) fun _ _ h => h
    · cases heffect

end MachineM

end StackLang
