import StackLang.Proofs.Simulation.Instructions

/-!
# Expressions beside their code

`Call.Plays`: the evaluation of a call stands at a place, and its code is what a `Site` describes.
`Call.Simulates` says of each kind of phrase that its code does what its evaluation does; there is
one law for each form of an expression here, and `Invokes` is what calls inside of it need.
-/

namespace StackLang

open RunM
open Reference

variable {σ α : Type} {x : Call} {z : Setting σ} {g : Site} {scene : Scene σ} {place : Place}
  {a b m m₁ m₂ n ip : Nat} {args vs : List HostValue} {u v : HostValue} {ty tl tr : Ty}
  {w : World σ} {c : Cursor} {s : State σ} {name : String}

/-! ## The evaluation of a call -/

/-- A call with `level - 1` others around it may call any function that it sees through `invoke`,
and the machine does the same. -/
def Setting.Invokes (z : Setting σ) (n level : Nat)
    (invoke : FunctionDecl → (ScopeIndex → Nat) → List HostValue → EvalM σ (Option HostValue)) :
    Prop :=
  ∀ {x : Call} {i : ScopeIndex} {f : FunctionDecl} {id : UInt16} {ip : Nat}
    {args vs : List HostValue} {outer : ScopeIndex → Nat} {w : World σ} {c : Cursor} {s : State σ},
    x.Sound z → x.callers.length + 1 = level → x.Spared z (fun _ => False) →
      z.callable f.name = true → Compilation.Compiled z.program z.strict z.compilation i f id →
      z.Resolves x.acts outer i → args.map (·.ty) = f.params.map (·.ty) →
      x.act.routine.code.At ip .call (.function id) → x.Beside z ip (args ++ vs) w c s →
        x.Sim z n (invoke f outer args) (x.Leaves z (ip + Opcode.call.width) f.result vs) w c s

namespace Call

/-- The evaluation of a call stands at a place in its function, whose code `g` describes. -/
structure Plays (x : Call) (z : Setting σ) (g : Site) (scene : Scene σ) (place : Place) : Prop
    extends x.Sound z, x.Sees z place where
  site : ∃ j t₀ t₁, z.Made j x.act.function x.act.routine t₀ t₁ ∧
    g = Site.of ⟨z.program, x.act.function, z.strict⟩ t₀ t₁
  source : scene.source = z.program
  bridge : scene.bridge = z.env.bridge
  function : scene.function = x.act.function
  level : scene.level = x.callers.length
  invokes : z.Invokes scene.rounds (x.callers.length + 1) scene.invoke

namespace Plays

variable (hp : x.Plays z g scene place)

include hp

theorem code : g.code = x.act.routine.code := by
  obtain ⟨_, _, _, m, rfl⟩ := hp.site
  exact m.code.code_eq

theorem line {line : List (Opcode × Operand)} (h : g.code.Line a line b) :
    x.act.routine.code.Line a line b := hp.code ▸ h

theorem finds (hz : z.Sound) {info : VarInfo} (h : g.var place.scope name info) :
    ∃ i scope index, x.Finds z place name info i scope index := by
  obtain ⟨_, _, _, m, rfl⟩ := hp.site
  exact hp.toSees.finds hz hp.toSound m h

theorem text (hz : z.Sound) {text : String} {id : UInt16} (h : g.text text id) :
    z.env.exe.strings.get? id = some text := by
  obtain ⟨_, _, _, m, rfl⟩ := hp.site
  rw [hz.output.exe]
  exact m.continues.strings.get? h

theorem host (hz : z.Sound) {native : NativeDecl} {id : UInt16} (h : g.host native id) :
    z.env.exe.native? id = some native := by
  obtain ⟨_, _, _, m, rfl⟩ := hp.site
  rw [hz.output.exe]
  exact m.continues.natives h

theorem result (hz : z.Sound) : g.result = x.act.function.result ∧ g.strict = true ∧
    g.params = x.act.function.params ∧ g.result ≠ .invalid := by
  obtain ⟨_, _, _, m, rfl⟩ := hp.site
  exact ⟨rfl, hz.strict, rfl, hz.typed.results m.declared⟩

theorem declared (hz : z.Sound) {id : UInt16} {callee : Routine}
    (h : g.function place.scope name id callee) :
    ∃ i f, z.program.function? place.scope name = some f ∧ z.program.Encloses i place.scope ∧
      f.name = name ∧ Compilation.Compiled z.program z.strict z.compilation i f id ∧
      callee.Declares f := by
  obtain ⟨_, _, _, m, rfl⟩ := hp.site
  exact m.function hz.output hz.linked (.inl hp.below) h

/-- The hidden slots of the place's scope are in the call's own frame. -/
theorem hides (hz : z.Sound) {limit : VarAddr} (h : g.hidden place.scope limit) :
    ∃ index, x.Hides z place.scope limit index := by
  obtain ⟨_, _, _, m, rfl⟩ := hp.site
  obtain ⟨scope, hscope, hid₁, hhidden, hlt⟩ := h
  obtain ⟨id, l, hid, hl⟩ := hp.own
  obtain rfl := Option.some.inj (hid.symm.trans (m.continues.symbols.scopeIds hid₁))
  have hsize := (m.mem_of_place? hl).2.2.2.1
  have hs : z.SlotAt x.acts x.callers.length place.scope limit.slot.toNat
      (x.act.base + l.base + limit.slot.toNat) := .here hid hl (hsize ▸ hlt)
  have hholder : holder? limit.scope x.acts = some (x.callers.length, x.act.base + l.base) := by
    rw [acts, holder?, hl]
  exact ⟨_, hs, ⟨scope, hscope, hhidden⟩,
    fun ha => ha.slotIndex hz.toCompiles hp.stacked hid hholder hs⟩

/-- Inside a block. -/
theorem into (hz : z.Sound) {inner : ScopeIndex} (hblock : g.block inner)
    (hinner : ∃ scope, z.program.scope? place.scope = some scope ∧ inner ∈ scope.children) :
    x.Plays z g scene (place.into inner scene.level) := by
  obtain ⟨scope, hscope, hmem⟩ := hinner
  obtain ⟨id, l, hid, hl⟩ : ∃ id l, z.compilation.symbols.scopeId? inner = some id ∧
      x.act.place? id = some l := by
    obtain ⟨_, _, _, m, rfl⟩ := hp.site
    exact m.exists_place?_of_block hblock
  refine { hp with
    below := .child hp.below hscope hmem
    own := ⟨id, l, hid, hl⟩
    nearest := fun j hj => ?_ }
  by_cases heq : j = inner
  · subst heq
    refine ⟨id, x.act.base + l.base, hid, ?_⟩
    rw [acts, holder?, hl, Place.into]
    simp [hp.level]
  · have hlevel : (place.into inner scene.level).level j = place.level j := if_neg heq
    rw [hlevel]
    rcases hz.linked.encloses_child hscope hmem hj with rfl | hj
    · exact absurd rfl heq
    · exact hp.nearest j hj

/-- Taking a hidden slot into use changes nothing else. -/
theorem keep {index : Nat} {k : Int64} : (x.keep index k).Plays z g scene place := { hp with }

end Plays

/-! ## Phrases -/

/-- The code of a phrase does what the evaluation of the phrase does. -/
def Simulates (x : Call) (z : Setting σ) (scene : Scene σ) (place : Place) (a : Nat) (tys : List Ty)
    (b : Nat) : Phrase → Prop
  | .expr node => ∀ ⦃ty vs w c s⦄, tys = [ty] → x.Beside z a vs w c s →
      x.Sim z scene.rounds (eval scene place node) (x.Leaves z b ty vs) w c s
  | .args nodes => ∀ ⦃vs w c s⦄, (∀ ty ∈ tys, ty.isValue = true) → x.Beside z a vs w c s →
      x.Sim z scene.rounds (evalArgs scene place nodes tys) (fun args w c s =>
        x.Beside z b (args ++ vs) w c s ∧ args.map (·.ty) = tys) w c s
  | .stmt node => ∀ ⦃vs w c s⦄, x.Beside z a vs w c s →
      x.Sim z scene.rounds (eval scene place node) (fun _ => x.Beside z b vs) w c s
  | .stmts nodes => ∀ ⦃vs w c s⦄, x.Beside z a vs w c s →
      x.Sim z scene.rounds (evalAll scene place nodes) (fun _ => x.Beside z b vs) w c s
  | .block body => ∀ ⦃vs w c s⦄, x.Beside z a vs w c s →
      x.Sim z scene.rounds (evalBlock scene place body) (fun _ => x.Beside z b vs) w c s
  | .operands nodes => ∀ ⦃vs w c s⦄, x.Beside z a vs w c s →
      x.Sim z scene.rounds (printAll scene place nodes) (fun _ => x.Beside z b vs) w c s

/-! ## Operands -/

section Operands

variable {β : Type} {node : Node} {Q : β → World σ → Cursor → State σ → Prop}

/-- The code of an operand puts its value on the stack. -/
theorem Simulates.operand (h : x.Simulates z scene place a [ty] b (.expr node))
    (hty : ty.isValue = true) (hb : x.Beside z a vs w c s) {k : HostValue → EvalM σ β}
    (hk : ∀ v w c s, v.ty = ty → x.Beside z b (v :: vs) w c s → x.Sim z scene.rounds (k v) Q w c s) :
    x.Sim z scene.rounds (eval scene place node >>= fun v => Reference.operand v >>= k) Q w c s := by
  refine (h rfl hb).bind fun v w c s hl => ?_
  obtain ⟨hb, hy⟩ := hl
  cases hy with
  | value hv => exact sim_bind (sim_lift rfl (hk _ _ _ _ hv hb))
  | void hv =>
    subst hv
    cases hty

theorem Simulates.intOperand (h : x.Simulates z scene place a [.int] b (.expr node))
    (hb : x.Beside z a vs w c s) {k : Int64 → EvalM σ β}
    (hk : ∀ n w c s, x.Beside z b (.int n :: vs) w c s → x.Sim z scene.rounds (k n) Q w c s) :
    x.Sim z scene.rounds (eval scene place node >>= fun v => Reference.intOperand v >>= k)
      Q w c s := by
  refine (h rfl hb).bind fun v w c s hl => ?_
  obtain ⟨hb, hy⟩ := hl
  cases hy with
  | @value v hv =>
    cases v with
    | int n => exact sim_bind (sim_pure (hk _ _ _ _ hb))
    | _ => cases hv
  | void hv => cases hv

/-- The bound of a range becomes an int. -/
theorem Simulates.bound (h : x.Simulates z scene place a [ty] m (.expr node))
    (hty : ty.isNumeric = true) (hcode : x.act.routine.code.Line m (boundCode ty) b)
    (hb : x.Beside z a vs w c s) {k : Int64 → EvalM σ β}
    (hk : ∀ n w c s, x.Beside z b (.int n :: vs) w c s → x.Sim z scene.rounds (k n) Q w c s) :
    x.Sim z scene.rounds (eval scene place node >>= fun v => Reference.bound v >>= k) Q w c s := by
  refine (h rfl hb).bind fun v w c s hl => ?_
  obtain ⟨hb, hy⟩ := hl
  cases hy with
  | @value v hv =>
    subst hv
    obtain ⟨n, hn, hline⟩ := operateAll_bound hty
    refine sim_of_runs ((hb.runs_line hcode hline).mono fun c s hb => ?_)
    have hbound : Reference.bound (some v) = (pure n : EvalM σ Int64) := by
      cases v <;> cases hn <;> rfl
    rw [hbound]
    exact sim_bind (sim_pure (hk _ _ _ _ hb))
  | void hv =>
    subst hv
    cases hty

end Operands

/-! ## Operators -/

/-- The code of a comparison puts its truth on the stack. -/
theorem Beside.runs_compare {negated : Opcode} {no : Nat} {holds : Ordering → Bool}
    {jumps : Int64 → Int64 → Bool} {order : Ordering}
    (h : x.Beside z a (.int (orderValue order) :: vs) w c s)
    (hjump : MachineM.jumpRelation negated = some jumps)
    (hjumps : jumps 0 (orderValue order) = !holds order)
    (hyes : x.act.routine.code.Line a [(.int0, .none), (negated, .target no), (.int1, .none),
      (.jump, .target b)] no)
    (hno : x.act.routine.code.Line no [(.int0, .none)] b) :
    Runs z.env z.Cut (x.Beside z b (truth (holds order) :: vs) w) c s := by
  refine ((h.steps_operate hyes.1 .int0).mono fun c s h => ?_).runs
  refine ((h.steps_branch hyes.2.1 hjump).mono fun c s h => ?_).runs
  rw [hjumps] at h
  cases hholds : holds order with
  | true =>
    simp only [hholds, Bool.not_true, Bool.false_eq_true, if_false] at h
    refine ((h.steps_operate hyes.2.2.1 .int1).mono fun c s h => ?_).runs
    exact ((h.steps_jump hyes.2.2.2.1).mono fun c s h => .here h).runs
  | false =>
    simp only [hholds, Bool.not_false, if_true] at h
    exact h.runs_line hno (Operates.single .int0)

/-- **The code of an operator** computes it, or fails as it does. -/
theorem Beside.sim_binary {op : BinaryOp} (h : x.Beside z a (u :: v :: vs) w c s)
    (hcode : BinaryCode x.act.routine.code op u.ty v.ty a ty b) :
    x.Sim z n (lift (binary op u v)) (fun r w c s => r.ty = ty ∧ x.Beside z b (r :: vs) w c s)
      w c s := by
  generalize hu : u.ty = tl at hcode
  generalize hv : v.ty = tr at hcode
  cases hcode with
  | arithmetic hop hl hr hline =>
    subst hu hv
    obtain ⟨r, hr, hty, ho⟩ | ⟨k, rfl, rfl, rfl⟩ := operateAll_arithmetic hop hl hr
    · exact sim_of_runs ((h.runs_line hline ho).mono fun c s h => sim_lift hr ⟨hty, h⟩)
    · exact sim_lift_failed rfl (.here (h.fails_divide (.inl rfl) hline.1))
  | ints hop hline =>
    cases u <;> cases hu
    cases v <;> cases hv
    rename_i k l
    obtain ⟨r, hr, ho⟩ | ⟨rfl, rfl⟩ := operates_intOp hop k l
    · exact sim_of_runs ((h.runs_line hline ho.single).mono fun c s h => sim_lift hr ⟨rfl, h⟩)
    · cases hop
      exact sim_lift_failed rfl (.here (h.fails_divide (.inr rfl) hline.1))
  | @comparison _ _ negated _ no _ hop hl hr hyes hno =>
    subst hu hv
    obtain ⟨holds, jumps, hrel, hjump, hjumps⟩ := negatedJump_relation hop
    obtain ⟨order, hr, ho⟩ := operateAll_compare hrel hl hr
    rw [← List.singleton_append, ← List.append_assoc] at hyes
    obtain ⟨middle, hcompare, hyes⟩ := hyes.split
    refine sim_of_runs ((h.runs_line hcompare ho).bind fun c s h => ?_)
    refine (h.runs_compare hjump (hjumps order) hyes hno).mono fun c s h => ?_
    exact sim_lift hr ⟨rfl, h⟩

/-! ## Expressions -/

theorem isValue_coerced (found target : Ty) : (coerced found target).isValue = found.isValue := by
  cases found <;> cases target <;> rfl

theorem isValue_of_binaryCode {code : Code} {op : BinaryOp} (h : BinaryCode code op tl tr a ty b) :
    tl.isValue = true ∧ tr.isValue = true := by
  cases h with
  | arithmetic _ hl hr _ => exact ⟨Ty.isValue_of_isNumeric hl, Ty.isValue_of_isNumeric hr⟩
  | ints _ _ => exact ⟨rfl, rfl⟩
  | comparison _ hl hr _ _ => exact ⟨Ty.isValue_of_isNumeric hl, Ty.isValue_of_isNumeric hr⟩

theorem simulates_argsNil : x.Simulates z scene place a [] a (.args []) := by
  intro vs w c s _ hb
  exact sim_pure ⟨hb, rfl⟩

namespace Plays

variable (hp : x.Plays z g scene place)

include hp

theorem simulates_literal {node : Node} {op : Opcode} {operand : Operand}
    (heval : eval scene place node = pure (some v))
    (ho : ∀ vs, Operates z.env.exe op operand vs (v :: vs))
    (h : g.code.Line a [(op, operand)] b) :
    x.Simulates z scene place a [v.ty] b (.expr node) := by
  intro ty vs w c s hty hb
  cases hty
  rw [heval]
  refine sim_of_runs ((hb.runs_line (hp.line h) (ho vs).single).mono fun c s h => ?_)
  exact sim_pure ⟨h, .value rfl⟩

theorem simulates_load (hz : z.Sound) {info : VarInfo} (hvar : g.var place.scope name info)
    (h : g.code.Line a [loadInstr info] b) :
    x.Simulates z scene place a [info.ty] b (.expr (.load name)) := by
  intro ty vs w c s hty hb
  cases hty
  obtain ⟨i, scope, index, hf⟩ := hp.finds hz hvar
  rw [loadInstr_of_isValue (hf.isValue hz)] at h
  obtain ⟨hi, rfl⟩ := hp.line h
  have hvalue := hb.ty_valueAt hz hf
  rw [eval, hp.source]
  refine Steps.sim ((hb.steps_load hz hf hi).mono fun c s h => ?_)
  exact sim_of_ok hf.read_eq (sim_pure ⟨h, .value hvalue⟩)

theorem simulates_binary {op : BinaryOp} {left right : Node}
    (hright : x.Simulates z scene place a [tr] m₁ (.expr right))
    (hleft : x.Simulates z scene place m₁ [tl] m₂ (.expr left))
    (h : BinaryCode g.code op tl tr m₂ ty b) :
    x.Simulates z scene place a [ty] b (.expr (.binary op left right)) := by
  intro ty vs w c s hty hb
  cases hty
  obtain ⟨hl, hr⟩ := isValue_of_binaryCode h
  rw [eval]
  refine hright.operand hr hb fun v w c s hv hb => ?_
  refine hleft.operand hl hb fun u w c s hu hb => ?_
  subst hu hv
  refine (hb.sim_binary (hp.code ▸ h)).bind fun r w c s hr => ?_
  exact sim_pure ⟨hr.2, .value hr.1⟩

theorem simulates_unary {op : UnaryOp} {node : Node}
    (hnode : x.Simulates z scene place a [ty] m (.expr node)) (hty : op.takes ty = true)
    (h : g.code.Line m (unaryCode op ty) b) :
    x.Simulates z scene place a [ty] b (.expr (.unary op node)) := by
  intro ty vs w c s heq hb
  cases heq
  have hvalue : ty.isValue = true := by
    cases op <;> cases ty <;> first | rfl | cases hty
  rw [eval]
  refine hnode.operand hvalue hb fun v w c s hv hb => ?_
  subst hv
  obtain ⟨r, hr, htyr, ho⟩ := operateAll_unary (e := z.env.exe) hty
  refine sim_of_runs ((hb.runs_line (hp.line h) ho).mono fun c s hb => ?_)
  exact sim_bind (sim_lift hr (sim_pure ⟨hb, .value htyr⟩))

theorem simulates_call (hz : z.Sound) {args : List Node} {id : UInt16} {callee : Routine}
    (hfun : g.function place.scope name id callee) (hcallable : z.callable name = true)
    (hspared : x.Spared z fun _ => False)
    (hargs : x.Simulates z scene place a callee.params m (.args args))
    (h : g.code.Line m [(.call, .function id)] b) :
    x.Simulates z scene place a [callee.result] b (.expr (.call name args)) := by
  intro ty vs w c s heq hb
  cases heq
  obtain ⟨i, f, hmeans, hencloses, hname, hcompiled, hdecl⟩ := hp.declared hz hfun
  obtain ⟨hi, rfl⟩ := hp.line h
  have hvalues : ∀ ty ∈ callee.params, ty.isValue = true := by
    intro ty hty
    rw [hdecl.params] at hty
    obtain ⟨param, hparam, rfl⟩ := List.mem_map.mp hty
    exact Program.params_isValue hz.linked hz.typed hcompiled.declared param hparam
  rw [eval, hp.source, hmeans, hdecl.result]
  dsimp only
  rw [← hdecl.params]
  refine (hargs hvalues hb).bind fun args w c s hargs => ?_
  exact hp.invokes hp.toSound rfl hspared (hname ▸ hcallable) hcompiled
    (fun j hj => hp.nearest j (hj.trans hencloses)) (hargs.2.trans hdecl.params) hi hargs.1

theorem simulates_argsCons {arg : Node} {args : List Node} {found : Ty} {tys : List Ty}
    (hargs : x.Simulates z scene place a tys m₁ (.args args))
    (harg : x.Simulates z scene place m₁ [found] m₂ (.expr arg)) (hty : coerced found ty = ty)
    (h : g.code.Line m₂ (coercion found ty) b) :
    x.Simulates z scene place a (ty :: tys) b (.args (arg :: args)) := by
  intro vs w c s hvalues hb
  obtain ⟨hvalue, hvalues⟩ := List.forall_mem_cons.mp hvalues
  rw [evalArgs]
  refine (hargs hvalues hb).bind fun values w c s hargs => ?_
  rw [← hty, isValue_coerced] at hvalue
  refine harg.operand hvalue hargs.1 fun v w c s hv hb => ?_
  subst hv
  refine sim_of_runs ((hb.runs_line (hp.line h) (operateAll_coercion v ty)).mono fun c s hb => ?_)
  exact sim_pure ⟨hb, by rw [List.map_cons, ty_coerce, hty, hargs.2]⟩

end Plays

end Call

end StackLang
