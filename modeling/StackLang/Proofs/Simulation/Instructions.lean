import StackLang.Proofs.Simulation.Beside

/-!
# Instructions beside steps of an evaluation

One law for each kind of instruction of compiled code: operators (`Beside.runs_line`), jumps, variables
(`Beside.steps_load`, `Beside.steps_store`), hidden slots, prints and calls to the host
(`Beside.sim_callHost`). A store is only allowed where it spares the hidden slots that loops around
have in use (`Call.Spared`).
-/

namespace StackLang

open MachineM (wp)
open RunM
open Reference (World EvalM Place)
open Symbols (IsSlot)

variable {σ : Type} {x : Call} {z : Setting σ} {ip stop n index level slot : Nat}
  {args vs vs' : List HostValue} {v : HostValue} {w : World σ} {c : Cursor} {s : State σ}
  {i : ScopeIndex} {scope : Scope} {name : String}

/-- `level` says, for the scopes around `i`, which activation the machine finds. -/
def Setting.Resolves (z : Setting σ) (acts : List Activation) (level : ScopeIndex → Nat)
    (i : ScopeIndex) : Prop :=
  ∀ j, z.program.Encloses j i → ∃ id b,
    z.compilation.symbols.scopeId? j = some id ∧ holder? id acts = some (level j, b)

namespace Call

theorem Beside.ticked (h : x.Beside z ip vs w c s) :
    OnStack z.env.exe x.below vs { s with steps := s.steps + 1 } :=
  h.onStack.congr rfl rfl (.refl _)

/-! ## Operators and jumps -/

theorem Beside.steps_operate (h : x.Beside z ip vs w c s) {op : Opcode} {operand : Operand}
    (hi : x.act.routine.code.At ip op operand) (ho : Operates z.env.exe op operand vs vs') :
    Steps z.env z.Cut (x.Beside z (ip + op.width) vs' w) c s := by
  refine h.steps hi ?_
  refine MachineM.wp_stepInstr_of_operates (s := { s with steps := s.steps + 1 }) ho
    h.ticked fun stack hs => ?_
  exact ⟨_, rfl, h.next hs⟩

theorem Beside.runs_line (h : x.Beside z ip vs w c s) {line : List (Opcode × Operand)}
    (hline : x.act.routine.code.Line ip line stop) (ho : OperateAll z.env.exe line vs vs') :
    Runs z.env z.Cut (x.Beside z stop vs' w) c s := by
  induction ho generalizing ip c s with
  | nil =>
    obtain rfl := hline
    exact .here h
  | cons ho _ ih =>
    exact ((h.steps_operate hline.1 ho).mono fun c s h => ih h hline.2).runs

theorem Beside.steps_jump (h : x.Beside z ip vs w c s) {target : Nat}
    (hi : x.act.routine.code.At ip .jump (.target target)) :
    Steps z.env z.Cut (x.Beside z target vs w) c s := by
  refine h.steps hi ⟨target, rfl, ?_⟩
  exact h.next h.ticked

theorem Beside.steps_branch {a b : Int64} (h : x.Beside z ip (.int a :: .int b :: vs) w c s)
    {op : Opcode} {target : Nat} (hi : x.act.routine.code.At ip op (.target target))
    {holds : Int64 → Int64 → Bool} (hop : MachineM.jumpRelation op = some holds) :
    Steps z.env z.Cut (x.Beside z (if holds a b then target else ip + op.width) vs w) c s := by
  refine h.steps hi ?_
  refine MachineM.wp_stepInstr_jump (s := { s with steps := s.steps + 1 }) hop
    h.ticked fun stack hs => ?_
  exact ⟨_, rfl, h.next hs⟩

/-- An int divided by 0 is the program's failure. -/
theorem Beside.fails_divide {a : Int64} (h : x.Beside z ip (.int a :: .int 0 :: vs) w c s)
    {op : Opcode} (hop : op = .divInt ∨ op = .modInt)
    (hi : x.act.routine.code.At ip op .none) : z.Fails .divisionByZero w c s := by
  refine h.fails hi .divisionByZero ?_
  have hs := h.ticked
  rcases hop with rfl | rfl <;> simp only [MachineM.stepInstr, MachineM.stepPlain, MachineM.wp_bind]
  all_goals
    refine MachineM.wp_divideInts_onStack hs (fun hne => absurd rfl hne) fun _ stack => ?_
    exact .inr ⟨rfl, h.agree.capacity, h.agree.flushFails, h.agree.written, h.agree.host⟩

/-! ## Variables -/

/-- What the call's code means by names inside a scope, and what the place of an evaluation does. -/
structure Sees (x : Call) (z : Setting σ) (place : Place) : Prop where
  below : z.program.Below x.act.function.body.scope place.scope
  own : ∃ id l, z.compilation.symbols.scopeId? place.scope = some id ∧ x.act.place? id = some l
  nearest : z.Resolves x.acts place.level place.scope

/-- The machine finds a variable at `index`: that of the scope `i` in the activation that the place
means. -/
structure Finds (x : Call) (z : Setting σ) (place : Place) (name : String) (info : VarInfo)
    (i : ScopeIndex) (scope : Scope) (index : Nat) : Prop where
  var : z.program.var? place.scope name = some (i, info.ty)
  declared : z.program.scope? i = some scope
  isSlot : IsSlot scope.vars.toList name info.addr.slot.toNat info.ty
  slotAt : z.SlotAt x.acts (place.level i) i info.addr.slot.toNat index
  index : ∀ {w s}, z.Agree x.acts w s → s.slotIndex info.addr = .ok index

theorem Sees.finds {place : Place} (hz : z.Sound) (hx : x.Sound z) (h : x.Sees z place)
    {j : ScopeIndex} {t₀ t₁ : Compilation} (m : z.Made j x.act.function x.act.routine t₀ t₁)
    {info : VarInfo}
    (hvar : (Site.of ⟨z.program, x.act.function, z.strict⟩ t₀ t₁).var place.scope name info) :
    ∃ i scope index, x.Finds z place name info i scope index := by
  obtain ⟨i, scope, hmeans, hencloses, hscope, hid, hslot⟩ := m.var hz.linked (.inl h.below) hvar
  obtain ⟨id, b, hid', hholder⟩ := h.nearest i hencloses
  obtain rfl := Option.some.inj (hid.symm.trans hid')
  have hs := hx.stacked.slotAt_of_holder? hz.toCompiles hholder hid hscope hslot.lt
  exact ⟨i, scope, _, hmeans, hscope, hslot, hs, fun ha => ha.slotIndex hz.toCompiles hx.stacked hid hholder hs⟩

/-- What a variable means to the program. -/
def valueAt (place : Place) (w : World σ) (i : ScopeIndex) (name : String) (ty : Ty) : HostValue :=
  (w.cells (place.level i) i name).getD (.zero ty)

section Variables

variable {place : Place} {info : VarInfo}

theorem Finds.read_eq (hf : x.Finds z place name info i scope index) :
    place.read z.program name w = .ok (valueAt place w i name info.ty) w := by
  unfold Place.read
  rw [hf.var]
  rfl

theorem Finds.write_eq (hf : x.Finds z place name info i scope index) :
    place.write z.program name v w =
      .ok () (w.store (place.level i) i name (v.coerce info.ty)) := by
  unfold Place.write
  rw [hf.var]
  rfl

theorem Finds.isValue (hf : x.Finds z place name info i scope index) (hz : z.Sound) :
    info.ty.isValue = true := hz.isValue_of_isSlot hf.declared hf.isSlot

theorem Beside.ty_valueAt (h : x.Beside z ip vs w c s) (hz : z.Sound)
    (hf : x.Finds z place name info i scope index) :
    (valueAt place w i name info.ty).ty = info.ty :=
  (h.agree.read hz hf.slotAt hf.declared hf.isSlot).2

theorem stepVar_loadOp {ty : Ty} (h : ty.isValue = true) (addr : VarAddr) :
    (MachineM.stepVar (loadOp ty) addr : MachineM σ Unit) = MachineM.loadVar addr ty := by
  cases ty <;> first | rfl | cases h

theorem stepVar_storeOp {ty : Ty} (h : ty.isValue = true) (addr : VarAddr) :
    (MachineM.stepVar (storeOp ty) addr : MachineM σ Unit) =
      MachineM.storeVar (storeOp ty) addr ty := by
  cases ty <;> first | rfl | cases h

theorem Beside.steps_load (h : x.Beside z ip vs w c s) (hz : z.Sound)
    (hf : x.Finds z place name info i scope index)
    (hi : x.act.routine.code.At ip (loadOp info.ty) (.var info.addr)) :
    Steps z.env z.Cut (x.Beside z (ip + (loadOp info.ty).width)
      (valueAt place w i name info.ty :: vs) w) c s := by
  refine h.steps hi ?_
  obtain ⟨hd, hty⟩ := h.agree.read hz hf.slotAt hf.declared hf.isSlot
  have hload : wp (MachineM.loadVar info.addr info.ty)
      (fun _ s' => x.Beside z (ip + (loadOp info.ty).width)
        (valueAt place w i name info.ty :: vs) w
        ⟨x.act.routine, ip + (loadOp info.ty).width⟩ s') (fun trap _ => z.Cut trap)
      { s with steps := s.steps + 1 } := by
    rw [MachineM.loadVar, MachineM.wp_bind, MachineM.wp_slotIndex, hf.index h.agree.of_same]
    simp only [MachineM.wp_bind, MachineM.wp_get, MachineM.wp_ite, MachineM.wp_throw]
    refine ⟨fun hne => absurd (hd.ty.trans hty) hne, fun _ => ?_⟩
    exact h.next (OnStack.push h.ticked hd)
  simp only [MachineM.stepInstr, stepVar_loadOp (hf.isValue hz), MachineM.wp_bind]
  exact MachineM.wp_mono hload (fun _ _ h => ⟨_, rfl, h⟩) fun _ _ h => h

/-- Nothing in use is overwritten: the slots kept are hidden, and none is in a scope of this call
where `writes` allows stores to hidden slots. -/
def Spared (x : Call) (z : Setting σ) (writes : ScopeIndex → Prop) : Prop :=
  ∀ k ∈ x.kept, k.1 < x.act.stop ∧ ∀ {level i slot scope}, z.SlotAt x.acts level i slot k.1 →
    z.program.scope? i = some scope →
      scope.vars.size ≤ slot ∧ (level = x.callers.length → ¬ writes i)

theorem Spared.weaken {writes writes' : ScopeIndex → Prop} (h : x.Spared z writes)
    (hle : ∀ i, writes' i → writes i) : x.Spared z writes' := fun k hk => by
  refine ⟨(h k hk).1, fun hs hscope => ?_⟩
  obtain ⟨hhidden, hnot⟩ := (h k hk).2 hs hscope
  exact ⟨hhidden, fun hlevel hw => hnot hlevel (hle _ hw)⟩

/-- Variables are not hidden. -/
theorem Spared.ne_var {writes : ScopeIndex → Prop} (h : x.Spared z writes)
    (hf : x.Finds z place name info i scope index) : ∀ k ∈ x.kept, k.1 ≠ index := by
  rintro k hk rfl
  exact absurd hf.isSlot.lt (Nat.not_lt.mpr ((h k hk).2 hf.slotAt hf.declared).1)

/-- A store changes one place, which is not in use. -/
theorem Beside.store (h : x.Beside z ip (v :: vs) w c s) {w' : World σ} {y : Call} {value : Value}
    (hy : y.act = x.act ∧ y.callers = x.callers ∧ y.id = x.id ∧ y.frames = x.frames ∧
      y.below = x.below)
    {stack : Array Value} {steps : Nat} (hs : OnStack z.env.exe x.below vs { s with stack, steps })
    (hagree : z.Agree x.acts w' { s with vars := s.vars.setIfInBounds index (some value) })
    (hkept : ∀ k ∈ y.kept,
      (s.vars.setIfInBounds index (some value))[k.1]? = some (some (.int k.2))) {ip' : Nat} :
    y.Beside z ip' vs w' ⟨x.act.routine, ip'⟩
      { s with stack, steps, vars := s.vars.setIfInBounds index (some value) } := by
  obtain ⟨act, callers, id, frames, below, kept⟩ := y
  obtain ⟨rfl, rfl, rfl, rfl, rfl⟩ := hy
  exact ⟨rfl, h.frames, hs.values, hagree.of_same, hkept⟩

theorem getElem?_set_kept (h : x.Beside z ip vs w c s) (hne : ∀ k ∈ x.kept, k.1 ≠ index)
    (value : Value) : ∀ k ∈ x.kept,
      (s.vars.setIfInBounds index (some value))[k.1]? = some (some (.int k.2)) := by
  intro k hk
  rw [Array.getElem?_setIfInBounds_ne (Ne.symm (hne k hk))]
  exact h.kept k hk

theorem Beside.steps_store {writes : ScopeIndex → Prop} (h : x.Beside z ip (v :: vs) w c s)
    (hz : z.Sound) (hx : x.Sound z) (hf : x.Finds z place name info i scope index)
    (hspared : x.Spared z writes)
    (hi : x.act.routine.code.At ip (storeOp info.ty) (.var info.addr)) (hty : v.ty = info.ty) :
    Steps z.env z.Cut (x.Beside z (ip + (storeOp info.ty).width) vs
      (w.store (place.level i) i name v)) c s := by
  refine h.steps hi ?_
  have hstore : wp (MachineM.storeVar (storeOp info.ty) info.addr info.ty)
      (fun _ s' => x.Beside z (ip + (storeOp info.ty).width) vs
        (w.store (place.level i) i name v) ⟨x.act.routine, ip + (storeOp info.ty).width⟩ s')
      (fun trap _ => z.Cut trap) { s with steps := s.steps + 1 } := by
    rw [MachineM.storeVar, MachineM.wp_bind]
    refine MachineM.wp_pop_onStack h.ticked fun value stack hd hs => ?_
    simp only [MachineM.wp_bind, MachineM.wp_ite, MachineM.wp_throw]
    refine ⟨fun hne => absurd (hd.ty.trans hty) hne, fun _ => ?_⟩
    rw [MachineM.wp_slotIndex, hf.index h.agree.of_same]
    exact h.store ⟨rfl, rfl, rfl, rfl, rfl⟩ hs
      (h.agree.store hz.toCompiles hx.stacked hf.slotAt hf.declared hf.isSlot hd hty)
      (getElem?_set_kept h (hspared.ne_var hf) value)
  simp only [MachineM.stepInstr, stepVar_storeOp (hf.isValue hz), MachineM.wp_bind]
  exact MachineM.wp_mono hstore (fun _ _ h => ⟨_, rfl, h⟩) fun _ _ h => h

end Variables

/-! ## Hidden slots -/

/-- The machine finds a hidden slot of the scope `i` in the call's own frame. -/
structure Hides (x : Call) (z : Setting σ) (i : ScopeIndex) (limit : VarAddr) (index : Nat) :
    Prop where
  slotAt : z.SlotAt x.acts x.callers.length i limit.slot.toNat index
  hidden : ∃ scope, z.program.scope? i = some scope ∧ scope.vars.size ≤ limit.slot.toNat
  index : ∀ {w s}, z.Agree x.acts w s → s.slotIndex limit = .ok index

/-- The call, with one more slot in use. -/
def keep (x : Call) (index : Nat) (n : Int64) : Call := { x with kept := (index, n) :: x.kept }

section Hidden

variable {limit : VarAddr} {k : Int64}

theorem Hides.keep (hl : x.Hides z i limit index) : (x.keep index k).Hides z i limit index :=
  ⟨hl.slotAt, hl.hidden, hl.index⟩

theorem Spared.ne_hidden {writes : ScopeIndex → Prop} (h : x.Spared z writes)
    (hl : x.Hides z i limit index) (hw : writes i) : ∀ k ∈ x.kept, k.1 ≠ index := by
  rintro k hk rfl
  obtain ⟨scope, hscope, -⟩ := hl.hidden
  exact ((h k hk).2 hl.slotAt hscope).2 rfl hw

/-- A slot just taken into use is spared by what only stores to other scopes. -/
theorem Spared.keep {writes : ScopeIndex → Prop} (h : x.Spared z writes) (hz : z.Sound)
    (hx : x.Sound z) (hl : x.Hides z i limit index) (hw : ¬ writes i) :
    (x.keep index k).Spared z writes := by
  intro k' hk'
  rcases List.mem_cons.mp hk' with rfl | hk'
  · refine ⟨hx.stacked.index_lt hl.slotAt, fun hs hscope => ?_⟩
    obtain ⟨rfl, rfl, rfl⟩ := hx.stacked.slotAt_inj hz.toCompiles hl.slotAt hs
    obtain ⟨scope, hscope', hhidden⟩ := hl.hidden
    obtain rfl := Option.some.inj (hscope.symm.trans hscope')
    exact ⟨hhidden, fun _ => hw⟩
  · exact h k' hk'

theorem Beside.steps_keep {writes : ScopeIndex → Prop} (h : x.Beside z ip (.int k :: vs) w c s)
    (hz : z.Sound) (hx : x.Sound z) (hl : x.Hides z i limit index) (hspared : x.Spared z writes)
    (hw : writes i) (hi : x.act.routine.code.At ip .storeIntVar (.var limit)) :
    Steps z.env z.Cut ((x.keep index k).Beside z (ip + Opcode.storeIntVar.width) vs w) c s := by
  refine h.steps hi ?_
  simp only [MachineM.stepInstr, MachineM.stepVar, MachineM.storeVar, MachineM.wp_bind]
  refine MachineM.wp_pop_onStack h.ticked fun value stack hd hs => ?_
  cases hd
  simp only [MachineM.wp_bind, MachineM.wp_ite, MachineM.wp_throw]
  refine ⟨fun hne => absurd rfl hne, fun _ => ?_⟩
  rw [MachineM.wp_slotIndex, hl.index h.agree.of_same]
  obtain ⟨scope, hscope, hhidden⟩ := hl.hidden
  have hlt : index < s.vars.size := h.agree.size ▸ hx.stacked.index_lt hl.slotAt
  refine ⟨_, rfl, h.store (y := x.keep index k) ⟨rfl, rfl, rfl, rfl, rfl⟩ hs
    (h.agree.storeHidden hz.toCompiles hx.stacked hl.slotAt hscope hhidden (.int k)) fun k' hk' => ?_⟩
  rcases List.mem_cons.mp hk' with rfl | hk'
  · exact Array.getElem?_setIfInBounds_self_of_lt hlt
  · exact getElem?_set_kept h (hspared.ne_hidden hl hw) _ k' hk'

theorem Beside.steps_loadKept (h : x.Beside z ip vs w c s) (hl : x.Hides z i limit index)
    (hk : (index, k) ∈ x.kept) (hi : x.act.routine.code.At ip .loadIntVar (.var limit)) :
    Steps z.env z.Cut (x.Beside z (ip + Opcode.loadIntVar.width) (.int k :: vs) w) c s := by
  refine h.steps hi ?_
  have hv : ({ s with steps := s.steps + 1 } : State σ).readVar index (.zero .int) = .int k := by
    unfold State.readVar
    rw [h.kept _ hk]
    rfl
  simp only [MachineM.stepInstr, MachineM.stepVar, MachineM.loadVar, MachineM.wp_bind,
    MachineM.wp_slotIndex, hl.index h.agree.of_same, MachineM.wp_get, hv, MachineM.wp_ite,
    MachineM.wp_throw]
  refine ⟨fun hne => absurd rfl hne, fun _ => ⟨_, rfl, ?_⟩⟩
  exact h.next (OnStack.push h.ticked (.int k))

/-- What is left when a slot is no longer in use. -/
theorem Beside.of_keep (h : (x.keep index k).Beside z ip vs w c s) : x.Beside z ip vs w c s :=
  ⟨h.cursor, h.frames, h.values, h.agree, fun k' hk' => h.kept k' (List.mem_cons_of_mem _ hk')⟩

theorem Stopped.of_keep {stop : Reference.Stop} (h : (x.keep index k).Stopped z stop w c s) :
    x.Stopped z stop w c s := by
  cases stop with
  | returned v =>
    obtain ⟨ip, vs, h, hi, hty⟩ := h
    exact ⟨ip, vs, h.of_keep, hi, hty⟩
  | _ => exact h

end Hidden

/-! ## Output and the host -/

/-- The machine stands at `ip` with the value of an expression of this type. -/
def Leaves (x : Call) (z : Setting σ) (ip : Nat) (ty : Ty) (vs : List HostValue)
    (v : Option HostValue) (w : World σ) (c : Cursor) (s : State σ) : Prop :=
  x.Beside z ip (v.toList ++ vs) w c s ∧ Yields ty v

theorem Beside.steps_print (h : x.Beside z ip (v :: vs) w c s)
    (hi : x.act.routine.code.At ip (printOp v.ty) .none) :
    Steps z.env z.Cut (x.Beside z (ip + (printOp v.ty).width) vs
      { w with output := w.output ++ v.text }) c s := by
  refine h.steps hi ?_
  have hprint : ∀ stack, OnStack z.env.exe x.below vs { s with stack, steps := s.steps + 1 } →
      wp (MachineM.print v.text) (fun _ s' => x.Beside z (ip + (printOp v.ty).width) vs
          { w with output := w.output ++ v.text } ⟨x.act.routine, ip + (printOp v.ty).width⟩ s')
        (fun trap _ => z.Cut trap) { s with stack, steps := s.steps + 1 } := by
    intro stack hs
    rw [MachineM.wp_print, Sink.write]
    -- What the sink has taken counts only where it takes everything.
    have hbeside : ∀ sink : Sink, sink.capacity = s.sink.capacity →
        sink.flushFails = s.sink.flushFails →
        (s.sink.capacity = none → sink.written = s.sink.written ++ v.text.toUTF8) →
        x.Beside z (ip + (printOp v.ty).width) vs { w with output := w.output ++ v.text }
          ⟨x.act.routine, ip + (printOp v.ty).width⟩
          { s with stack, steps := s.steps + 1, sink } := by
      intro sink hcapacity hflush hwritten
      refine ⟨rfl, h.frames, hs.values, h.agree.congr ⟨hcapacity.trans h.agree.capacity,
        hflush.trans h.agree.flushFails, fun hnone => ?_, h.agree.host⟩ rfl rfl rfl (.refl _), h.kept⟩
      change sink.written = _
      rw [hwritten (h.agree.capacity.trans hnone), h.agree.written hnone, ByteArray.append_assoc]
      rfl
    cases hcapacity : s.sink.capacity with
    | none => exact hbeside _ hcapacity.symm rfl fun _ => rfl
    | some capacity =>
      dsimp only
      split
      · rename_i heq
        split at heq
        · cases heq
          exact hbeside _ hcapacity.symm rfl fun _ => rfl
        · cases heq
      · rename_i heq
        refine .output _ fun hnone => ?_
        rw [← h.agree.capacity, hcapacity] at hnone
        cases hnone
  have hs := h.ticked
  cases v with
  | int n =>
    simp only [MachineM.stepInstr, printOp, HostValue.ty, MachineM.stepPlain, MachineM.wp_bind]
    refine MachineM.wp_popInt_onStack hs fun stack hs => ?_
    exact MachineM.wp_mono (hprint stack hs) (fun _ _ h => ⟨_, rfl, h⟩) fun _ _ h => h
  | double d =>
    simp only [MachineM.stepInstr, printOp, HostValue.ty, MachineM.stepPlain, MachineM.wp_bind]
    refine MachineM.wp_popDouble_onStack hs fun stack hs => ?_
    exact MachineM.wp_mono (hprint stack hs) (fun _ _ h => ⟨_, rfl, h⟩) fun _ _ h => h
  | string text =>
    simp only [MachineM.stepInstr, printOp, HostValue.ty, MachineM.stepPlain, MachineM.wp_bind]
    refine MachineM.wp_popString_onStack hs fun id stack ht hs => ?_
    have htext : ({ s with stack, steps := s.steps + 1 } : State σ).stringText z.env.exe id =
        .ok text := Denotes.stringText ht
    rw [MachineM.wp_stringText, htext]
    exact MachineM.wp_mono (hprint stack hs) (fun _ _ h => ⟨_, rfl, h⟩) fun _ _ h => h

theorem wp_popArgs_onStack {exe : Executable} {below args : List HostValue} {tys : List Ty}
    (h : OnStack exe below (args ++ vs) s) (hlen : args.length = tys.length)
    {Q : List HostValue → State σ → Prop} {E : Trap → State σ → Prop}
    (hQ : ∀ stack, OnStack exe below vs { s with stack } → Q args { s with stack }) :
    wp (MachineM.popArgs exe tys) Q E s := by
  induction tys generalizing args s Q with
  | nil =>
    obtain rfl := List.eq_nil_of_length_eq_zero hlen
    exact hQ s.stack h
  | cons ty tys ih =>
    cases args with
    | nil => cases hlen
    | cons arg args =>
      simp only [MachineM.popArgs, MachineM.wp_bind]
      refine MachineM.wp_pop_onStack h fun value stack hd h => ?_
      have hhost : ({ s with stack } : State σ).toHost exe value = .ok arg := Denotes.toHost hd
      rw [MachineM.wp_toHost, hhost]
      exact ih h (Nat.succ.inj hlen) fun stack h => hQ stack h

/-- What the call instruction still has to reach from `s` with an answer of the host: `Q` at `next`, or
`E` where it fails. -/
def Answered (env : Env σ) (symbol : String) (result : Ty) (next : Nat)
    (Q : Flow → State σ → Prop) (E : Trap → State σ → Prop) (s : State σ) :
    Option NativeResult → Prop
  | none => E (.unresolvedNative symbol) s
  | some (.error reason) => E (.nativeFailed symbol reason) s
  | some (.ok v?) =>
    if result.isValue then
      v?.elim (E (.nativeWithoutValue symbol) s) fun v =>
        wp (MachineM.ofHost env.exe v result)
          (fun value s' => Q (.next next) { s' with stack := s'.stack.push value }) E s
    else Q (.next next) s

/-- The call instruction with its arguments on top, once it is known what the host answers. -/
theorem wp_callNative_onStack {env : Env σ} {below args : List HostValue} {id : UInt16}
    {symbol : String} {params : List Ty} {result : Ty} {answer : Option NativeResult} {host : σ}
    (hn : env.exe.native? id = some ⟨symbol, params, result⟩)
    (h : OnStack env.exe below (args ++ vs) s) (hlen : args.length = params.length)
    (hcall : env.bridge.call symbol args s.host = (answer, host))
    {Q : Flow → State σ → Prop} {E : Trap → State σ → Prop}
    (hQ : ∀ stack, OnStack env.exe below vs { s with stack, host } →
      Answered env symbol result (ip + Opcode.callNative.width) Q E { s with stack, host } answer) :
    wp (MachineM.stepInstr env ⟨ip, .callNative, .native id⟩) Q E s := by
  simp only [MachineM.stepInstr, MachineM.stepNative, hn, MachineM.wp_bind]
  refine wp_popArgs_onStack h hlen fun stack hs => ?_
  have hQ := hQ stack (hs.congr rfl rfl (.refl _))
  rw [MachineM.wp_callHost, hcall]
  rcases answer with _ | reason | v?
  · exact hQ
  · exact hQ
  · refine (MachineM.wp_ite _ _).mpr ⟨fun hvalue => ?_, fun hvalue => ?_⟩
    · rw [Answered, if_pos hvalue] at hQ
      cases v? with
      | none => exact hQ
      | some v => exact (MachineM.wp_bind _ _).mpr hQ
    · rw [Answered, if_neg hvalue] at hQ
      exact hQ

/-- **A call to the host** in the machine and in an evaluation. -/
theorem Beside.sim_callHost (h : x.Beside z ip (args ++ vs) w c s) (hz : z.Sound) (hx : x.Sound z)
    {id : UInt16}
    {symbol : String} {params : List Ty} {result : Ty}
    (hi : x.act.routine.code.At ip .callNative (.native id))
    (hn : z.env.exe.native? id = some ⟨symbol, params, result⟩)
    (hlen : args.length = params.length) (hvoid : result ≠ .invalid) :
    x.Sim z n (Reference.callHost z.env.bridge symbol result args)
      (x.Leaves z (ip + Opcode.callNative.width) result vs) w c s := by
  have hs := h.ticked
  have hat : c.routine ∈ z.env.exe.routines ∧
      c.routine.code.At c.ip .callNative (.native id) := by
    obtain rfl := h.cursor
    exact ⟨Executable.mem_of_routine? hx.routine, hi⟩
  have hout : ∀ {host : σ} {s' : State σ}, s'.sink = s.sink → s'.host = host →
      z.Outside { w with host } s' := by
    intro host s' hsink hhost
    exact ⟨hsink ▸ h.agree.capacity, hsink ▸ h.agree.flushFails, hsink ▸ h.agree.written, hhost⟩
  have hnext : ∀ {host : σ} {stack : Array Value} {overlay : Array String} {vs' : List HostValue},
      Overlaid s.overlay overlay →
      OnStack z.env.exe x.below vs' { s with stack, steps := s.steps + 1, host, overlay } →
      x.Beside z (ip + Opcode.callNative.width) vs' { w with host }
        ⟨x.act.routine, ip + Opcode.callNative.width⟩
        { s with stack, steps := s.steps + 1, host, overlay } := by
    intro host stack overlay vs' ho hs
    exact ⟨rfl, h.frames, hs.values, h.agree.congr (hout rfl rfl) rfl rfl rfl ho, h.kept⟩
  unfold Sim Reference.callHost
  cases hb : z.env.bridge.call symbol args w.host with
  | mk answer host =>
    have hcall : z.env.bridge.call symbol args s.host = (answer, host) := h.agree.host ▸ hb
    cases answer with
    | none =>
      refine .here (h.fails hi (.unresolvedNative symbol) ?_)
      exact wp_callNative_onStack hn hs hlen hcall fun _ _ => .inr ⟨rfl, hout rfl rfl⟩
    | some answer =>
      cases answer with
      | error reason =>
        refine .here (h.fails hi (.nativeFailed symbol reason) ?_)
        exact wp_callNative_onStack hn hs hlen hcall fun _ _ => .inr ⟨rfl, hout rfl rfl⟩
      | ok v? =>
        by_cases hresult : result.isValue = true
        · cases v? with
          | none =>
            simp only [hresult, if_true]
            refine .here (h.fails hi (.nativeWithoutValue symbol) ?_)
            refine wp_callNative_onStack hn hs hlen hcall fun _ _ => ?_
            rw [Answered, if_pos hresult]
            exact .inr ⟨rfl, hout rfl rfl⟩
          | some v =>
            by_cases hty : (v.coerce result).ty = result
            · simp only [hresult, if_true, hty]
              refine (Steps.runs (h.steps hi ?_) :)
              refine wp_callNative_onStack hn hs hlen hcall fun stack hs => ?_
              rw [Answered, if_pos hresult]
              refine MachineM.wp_ofHost hz.strings v result (fun _ => .poolExhausted)
                (fun hne => absurd hty hne) fun _ value overlay ho hd => ?_
              refine ⟨_, rfl, .here ⟨hnext ho ?_, .value hty⟩⟩
              have hs' : OnStack z.env.exe x.below vs { s with
                  stack, steps := s.steps + 1, host, overlay } := hs.congr rfl rfl ho
              exact hs'.push hd
            · simp only [hresult, if_true, hty, if_false]
              refine .here (h.fails hi (.typeMismatch hat.1 hat.2 hn v.ty.name) ?_)
              refine wp_callNative_onStack hn hs hlen hcall fun stack hs => ?_
              rw [Answered, if_pos hresult]
              exact MachineM.wp_ofHost hz.strings v result (fun _ => .inl .poolExhausted)
                (fun _ => .inr ⟨rfl, hout rfl rfl⟩) fun hok => absurd hok hty
        · simp only [hresult, if_false, Bool.false_eq_true]
          refine (Steps.runs (h.steps hi ?_) :)
          refine wp_callNative_onStack hn hs hlen hcall fun stack hs => ?_
          rw [Answered, if_neg hresult]
          refine ⟨_, rfl, .here ⟨hnext (.refl _) hs, .void ?_⟩⟩
          cases result <;> first | rfl | exact absurd rfl hresult | exact absurd rfl hvoid

end Call

end StackLang
