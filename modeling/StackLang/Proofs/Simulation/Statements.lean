import StackLang.Proofs.Simulation.Phrases

/-!
# Statements beside their code

The law of each form of a statement, with loops by induction on the rounds that are left
(`sim_loop`), and what they come to: `Call.simulates`, the code of any phrase does what its evaluation
does.
-/

namespace StackLang

open RunM
open Reference

variable {σ α : Type} {x : Call} {z : Setting σ} {g : Site} {scene : Scene σ} {place : Place}
  {a b m m₁ m₂ m₃ no n k ip index : Nat} {vs : List HostValue} {u v : HostValue} {ty found tl tu : Ty}
  {w : World σ} {c : Cursor} {s : State σ} {name : String} {i : ScopeIndex} {scope : Scope}
  {info : VarInfo} {condition : Node} {writes : ScopeIndex → Prop}

namespace Call

/-! ## Conditions -/

theorem exists_int {v : HostValue} (h : v.ty = .int) : ∃ n, v = .int n := by
  cases v with
  | int n => exact ⟨n, rfl⟩
  | _ => cases h

/-- The code of an `if` goes on with the block that the condition says. -/
theorem Beside.runs_ifZero {n : Int64} (h : x.Beside z a (.int n :: vs) w c s)
    (htest : x.act.routine.code.Line a [(.int0, .none), (.jumpEq, .target no)] b) :
    Runs z.env z.Cut (x.Beside z (if n ≠ 0 then b else no) vs w) c s := by
  obtain ⟨hzero, hjump, rfl⟩ := htest
  refine ((h.steps_operate hzero .int0).mono fun c s h => ?_).runs
  refine ((h.steps_branch hjump rfl).mono fun c s h => .here ?_).runs
  by_cases hn : n = 0
  · simpa [hn] using h
  · simpa [hn, Ne.symm hn] using h

/-- A loop: before each round the machine is where `P` holds, inside of one where `R` does. -/
theorem sim_loop {test : EvalM σ Bool} {body : EvalM σ Unit}
    {P R : World σ → Cursor → State σ → Prop} {Q : Unit → World σ → Cursor → State σ → Prop}
    (htest : ∀ {w c s}, P w c s → x.Sim z n test
      (fun holds w c s => if holds then R w c s else Q () w c s) w c s)
    (hbody : ∀ {w c s}, R w c s → x.Sim z n body (fun _ w => Steps z.env z.Cut (P w)) w c s)
    (hle : k ≤ n) (h : P w c s) : x.Sim z k (loop test body k) Q w c s := by
  induction k generalizing w c s with
  | zero => exact .zero
  | succ k ih =>
    rw [loop]
    refine ((htest h).le hle).bind fun holds w c s h => ?_
    cases holds with
    | true =>
      refine ((hbody h).le hle).bind fun _ w c s h => ?_
      exact sim_of_steps (h.mono fun c s h => ih (Nat.le_of_succ_le hle) h)
    | false => exact sim_pure h

/-! ## Expressions and stores -/

theorem Beside.runs_drop {v : Option HostValue} (h : x.Beside z a (v.toList ++ vs) w c s)
    (hty : Yields ty v) (hline : x.act.routine.code.Line a (dropCode ty) b) :
    Runs z.env z.Cut (x.Beside z b vs w) c s := by
  cases hty with
  | @value v hv =>
    subst hv
    exact h.runs_line hline (operateAll_drop v)
  | void hv =>
    subst hv
    obtain rfl := hline
    exact .here h

namespace Plays

variable (hp : x.Plays z g scene place)

include hp

theorem simulates_drop {node : Node} (hnode : x.Simulates z scene place a [ty] m (.expr node))
    (h : g.code.Line m (dropCode ty) b) : x.Simulates z scene place a [] b (.stmt node) := by
  intro vs w c s hb
  exact (hnode rfl hb).runs fun v w c s hl => hl.1.runs_drop hl.2 (hp.line h)

theorem simulates_assign (hz : z.Sound) {value : Node} (hvar : g.var place.scope name info)
    (hspared : x.Spared z writes)
    (hvalue : x.Simulates z scene place a [found] m (.expr value))
    (hty : coerced found info.ty = info.ty)
    (h : g.code.Line m (coercion found info.ty ++ [storeInstr info]) b) :
    x.Simulates z scene place a [] b (.stmt (.store name .assign value)) := by
  intro vs w c s hb
  obtain ⟨i, scope, index, hf⟩ := hp.finds hz hvar
  have hfound : found.isValue = true := by
    rw [← isValue_coerced found info.ty, hty]
    exact hf.isValue hz
  obtain ⟨m', hcoerce, hstore⟩ := (hp.line h).split
  rw [storeInstr_of_isValue (hf.isValue hz)] at hstore
  obtain ⟨hi, rfl⟩ := hstore
  rw [eval]
  refine hvalue.operand hfound hb fun v w c s hv hb => ?_
  subst hv
  refine sim_of_runs ((hb.runs_line hcoerce (operateAll_coercion v info.ty)).mono fun c s hb => ?_)
  have hcoerced : (v.coerce info.ty).ty = info.ty := (ty_coerce v info.ty).trans hty
  refine Steps.sim ((hb.steps_store hz hp.toSound hf hspared hi hcoerced).mono fun c s hb => ?_)
  dsimp only
  rw [hp.source]
  exact sim_of_ok hf.write_eq (sim_pure hb)

theorem simulates_update (hz : z.Sound) {op : AssignOp} {value : Node} (hop : op ≠ .assign)
    (hvar : g.var place.scope name info) (hspared : x.Spared z writes)
    (hvalue : x.Simulates z scene place a [found] m₁ (.expr value))
    (hload : g.code.Line m₁ [loadInstr info] m₂)
    (hcode : BinaryCode g.code (if op = .addAssign then .add else .sub) info.ty found m₂ info.ty m₃)
    (h : g.code.Line m₃ [storeInstr info] b) :
    x.Simulates z scene place a [] b (.stmt (.store name op value)) := by
  intro vs w c s hb
  obtain ⟨i, scope, index, hf⟩ := hp.finds hz hvar
  obtain ⟨-, hfound⟩ := isValue_of_binaryCode hcode
  rw [loadInstr_of_isValue (hf.isValue hz)] at hload
  rw [storeInstr_of_isValue (hf.isValue hz)] at h
  obtain ⟨hi, rfl⟩ := hp.line hload
  obtain ⟨hi', rfl⟩ := hp.line h
  rw [hp.code] at hcode
  rw [eval]
  refine hvalue.operand hfound hb fun v w c s hv hb => ?_
  subst hv
  refine Steps.sim ((hb.steps_load hz hf hi).mono fun c s h => ?_)
  have hupdate : ∀ {op : BinaryOp},
      BinaryCode x.act.routine.code op info.ty v.ty (m₁ + (loadOp info.ty).width) info.ty m₃ →
      x.Sim z scene.rounds (do
        place.write z.program name (← lift (binary op (← place.read z.program name) v))
        return (none : Option HostValue)) (fun _ => x.Beside z (m₃ + (storeOp info.ty).width) vs) w c s := by
    intro op hcode
    have hcode' : BinaryCode x.act.routine.code op (valueAt place w i name info.ty).ty v.ty
        (m₁ + (loadOp info.ty).width) info.ty m₃ := by rwa [hb.ty_valueAt hz hf]
    refine sim_of_ok hf.read_eq ((h.sim_binary hcode').bind fun r w c s hr => ?_)
    have hr' : r.ty = info.ty := hr.1
    refine Steps.sim ((hr.2.steps_store hz hp.toSound hf hspared hi' hr').mono fun c s hb => ?_)
    have hsame : r.coerce info.ty = r := hr' ▸ coerce_self r
    refine sim_of_ok hf.write_eq (sim_pure ?_)
    rwa [hsame]
  rw [hp.source]
  cases op with
  | assign => exact absurd rfl hop
  | addAssign => exact hupdate hcode
  | subAssign => exact hupdate hcode

/-! ## Blocks -/

omit hp in
theorem simulates_stmtsNil : x.Simulates z scene place a [] a (.stmts []) := by
  intro vs w c s hb
  exact sim_pure hb

omit hp in
theorem simulates_stmtsCons {statement : Node} {statements : List Node}
    (hs : x.Simulates z scene place a [] m (.stmt statement))
    (h : x.Simulates z scene place m [] b (.stmts statements)) :
    x.Simulates z scene place a [] b (.stmts (statement :: statements)) := by
  intro vs w c s hb
  rw [evalAll]
  exact (hs hb).bind fun _ w c s hb => h hb

omit hp in
theorem simulates_inner {body : Block} (h : x.Simulates z scene place a [] b (.block body)) :
    x.Simulates z scene place a [] b (.stmt (.block body)) := by
  intro vs w c s hb
  rw [eval]
  exact (h hb).bind fun _ w c s hb => sim_pure hb

omit hp in
theorem simulates_blockMk {inner : ScopeIndex} {statements : List Node}
    (h : x.Simulates z scene (place.into inner scene.level) a [] b (.stmts statements)) :
    x.Simulates z scene place a [] b (.block (.mk inner statements)) := by
  intro vs w c s hb
  rw [evalBlock]
  exact h hb

/-! ## Branches -/

theorem simulates_ifThen {thenBlock : Block}
    (hcond : x.Simulates z scene place a [.int] m₁ (.expr condition))
    (htest : g.code.Line m₁ [(.int0, .none), (.jumpEq, .target b)] m₂)
    (hthen : x.Simulates z scene place m₂ [] b (.block thenBlock)) :
    x.Simulates z scene place a [] b (.stmt (.ifElse condition thenBlock none)) := by
  intro vs w c s hb
  rw [eval]
  refine hcond.intOperand hb fun n w c s hb => ?_
  refine sim_of_runs ((hb.runs_ifZero (hp.line htest)).mono fun c s hb => ?_)
  by_cases hn : n ≠ 0
  · rw [if_pos hn] at hb ⊢
    exact (hthen hb).bind fun _ w c s hb => sim_pure hb
  · rw [if_neg hn] at hb ⊢
    exact sim_pure hb

theorem simulates_ifElse {thenBlock elseBlock : Block}
    (hcond : x.Simulates z scene place a [.int] m₁ (.expr condition))
    (htest : g.code.Line m₁ [(.int0, .none), (.jumpEq, .target no)] m₂)
    (hthen : x.Simulates z scene place m₂ [] m₃ (.block thenBlock))
    (hskip : g.code.Line m₃ [(.jump, .target b)] no)
    (helse : x.Simulates z scene place no [] b (.block elseBlock)) :
    x.Simulates z scene place a [] b (.stmt (.ifElse condition thenBlock (some elseBlock))) := by
  intro vs w c s hb
  rw [eval]
  refine hcond.intOperand hb fun n w c s hb => ?_
  refine sim_of_runs ((hb.runs_ifZero (hp.line htest)).mono fun c s hb => ?_)
  by_cases hn : n ≠ 0
  · rw [if_pos hn] at hb ⊢
    refine (hthen hb).bind fun _ w c s hb => ?_
    exact Steps.sim ((hb.steps_jump (hp.line hskip).1).mono fun c s hb => sim_pure hb)
  · rw [if_neg hn] at hb ⊢
    exact (helse hb).bind fun _ w c s hb => sim_pure hb

/-! ## Loops -/

theorem simulates_whileLoop {body : Block}
    (hcond : x.Simulates z scene place a [.int] m₁ (.expr condition))
    (htest : g.code.Line m₁ [(.int1, .none), (.jumpNe, .target b)] m₂)
    (hbody : x.Simulates z scene place m₂ [] m₃ (.block body))
    (hback : g.code.Line m₃ [(.jump, .target a)] b) :
    x.Simulates z scene place a [] b (.stmt (.whileLoop condition body)) := by
  intro vs w c s hb
  rw [eval]
  refine sim_bind ((sim_loop (P := x.Beside z a vs) (R := x.Beside z m₂ vs)
    (fun hb => ?_) (fun hb => ?_) (Nat.le_refl _) hb).mono fun _ w c s hb => sim_pure hb)
  · refine hcond.intOperand hb fun n w c s hb => ?_
    obtain ⟨hone, hjump, rfl⟩ := hp.line htest
    refine Steps.sim ((hb.steps_operate hone .int1).mono fun c s hb => ?_)
    refine Steps.sim ((hb.steps_branch hjump rfl).mono fun c s hb => sim_pure ?_)
    by_cases hn : n = 1
    · simpa [hn] using hb
    · simpa [hn, Ne.symm hn] using hb
  · exact (hbody hb).mono fun _ w c s hb => hb.steps_jump (hp.line hback).1

/-- The bound of a range is kept in a hidden slot for as long as the loop goes on. -/
theorem simulates_forLoop (hz : z.Sound) {lower upper : Node} {body : Block} {limit : VarAddr}
    {m₄ m₅ m₆ : Nat} (hvar : g.var place.scope name info) (hint : info.ty = .int)
    (hl : x.Hides z place.scope limit index) (hspared : x.Spared z writes)
    (hwrites : writes place.scope)
    (hupper : x.Simulates z scene place a [tu] m₁ (.expr upper)) (htu : tu.isNumeric = true)
    (hu : g.code.Line m₁ (boundCode tu ++ [(.storeIntVar, .var limit)]) m₂)
    (hlower : ∀ k, (x.keep index k).Simulates z scene place m₂ [tl] m₃ (.expr lower))
    (htl : tl.isNumeric = true)
    (hlo : g.code.Line m₃ (boundCode tl ++ [(.storeIntVar, .var info.addr)]) m₄)
    (htest : g.code.Line m₄ [(.loadIntVar, .var limit), (.loadIntVar, .var info.addr),
      (.jumpGt, .target b)] m₅)
    (hbody : ∀ k, (x.keep index k).Simulates z scene place m₅ [] m₆ (.block body))
    (hback : g.code.Line m₆ [(.int1, .none), (.loadIntVar, .var info.addr), (.addInt, .none),
      (.storeIntVar, .var info.addr), (.jump, .target m₄)] b) :
    x.Simulates z scene place a [] b (.stmt (.forLoop name (.binary .range lower upper) body)) := by
  intro vs w c s hb
  obtain ⟨addr, ty⟩ := info
  obtain rfl := hint
  obtain ⟨n₁, hu', hkeep, rfl⟩ := (hp.line hu).split
  obtain ⟨n₂, hlo', hstore, rfl⟩ := (hp.line hlo).split
  rw [eval, hp.source]
  refine hupper.bound htu hu' hb fun last w c s hb => ?_
  refine Steps.sim ((hb.steps_keep hz hp.toSound hl hspared hwrites hkeep).mono fun c s hb => ?_)
  -- From here on the limit is in use.
  refine Sim.of_stopped (x := x.keep index last) ?_ fun _ _ _ _ h => h.of_keep
  have hspared' : (x.keep index last).Spared z fun _ => False :=
    (hspared.weaken fun _ h => h.elim).keep hz hp.toSound hl not_false
  obtain ⟨i, scope, index', hf⟩ := hp.keep.finds hz hvar
  refine Simulates.bound (hlower last) htl hlo' hb fun first w c s hb => ?_
  refine Steps.sim ((hb.steps_store hz hp.keep.toSound hf hspared' hstore rfl).mono fun c s hb => ?_)
  refine sim_of_ok hf.write_eq ?_
  refine sim_bind ((sim_loop (P := (x.keep index last).Beside z (n₂ + Opcode.storeIntVar.width) vs)
    (R := (x.keep index last).Beside z m₅ vs) (Q := fun _ => (x.keep index last).Beside z b vs)
    (fun {w c s} hb => ?_) (fun {w c s} hb => ?_) (Nat.le_refl _) hb).mono
      fun _ w c s hb => sim_pure hb.of_keep)
  · obtain ⟨hlimit, hload, hjump, rfl⟩ := hp.line htest
    obtain ⟨n, hn⟩ := exists_int (hb.ty_valueAt hz hf)
    have hread := hf.read_eq (w := w)
    rw [hn] at hread
    refine Steps.sim ((hb.steps_loadKept hl.keep List.mem_cons_self hlimit).mono fun c s hb => ?_)
    refine Steps.sim ((hb.steps_load hz hf hload).mono fun c s hb => ?_)
    rw [hn] at hb
    refine Steps.sim ((hb.steps_branch hjump rfl).mono fun c s hb => ?_)
    refine sim_of_ok hread (sim_pure ?_)
    by_cases hle : n ≤ last
    · simpa [hle, Int64.not_lt.mpr hle, loadOp] using hb
    · simpa [hle, Int64.not_le.mp hle] using hb
  · obtain ⟨hone, hload, hadd, hstore, hjump, -⟩ := hp.line hback
    refine (hbody last hb).bind fun _ w c s hb => ?_
    obtain ⟨n, hn⟩ := exists_int (hb.ty_valueAt hz hf)
    have hread := hf.read_eq (w := w)
    rw [hn] at hread
    refine Steps.sim ((hb.steps_operate hone .int1).mono fun c s hb => ?_)
    refine Steps.sim ((hb.steps_load hz hf hload).mono fun c s hb => ?_)
    rw [hn] at hb
    refine Steps.sim ((hb.steps_operate hadd (.addInt n 1)).mono fun c s hb => ?_)
    refine Steps.sim ((hb.steps_store hz hp.keep.toSound hf hspared' hstore rfl).mono fun c s hb => ?_)
    exact sim_of_ok hread (sim_ok hf.write_eq (hb.steps_jump hjump))

/-! ## Returns and output -/

theorem simulates_ret (hz : z.Sound) (hstrict : g.strict = true → g.result = .void)
    (h : g.code.Line a [(.ret, .none)] b) : x.Simulates z scene place a [] b (.stmt (.ret none)) := by
  intro vs w c s hb
  obtain ⟨hresult, hon, -⟩ := hp.result hz
  rw [eval]
  exact .here ⟨a, vs, hb, (hp.line h).1, .void (hresult ▸ hstrict hon)⟩

theorem simulates_retValue (hz : z.Sound) {value : Node}
    (hvalue : x.Simulates z scene place a [found] m (.expr value))
    (hstrict : g.strict = true →
      (if g.result = .void then found else coerced found g.result) = g.result)
    (h : g.code.Line m ((if g.result = .void then [] else coercion found g.result) ++
      [(.ret, .none)]) b) : x.Simulates z scene place a [] b (.stmt (.ret (some value))) := by
  intro vs w c s hb
  obtain ⟨hresult, hon, -⟩ := hp.result hz
  have hty := hstrict hon
  rw [hresult] at hty h
  obtain ⟨m', hcoerce, hret, -⟩ := (hp.line h).split
  rw [eval, hp.function]
  refine (hvalue rfl hb).bind fun v w c s hl => ?_
  obtain ⟨hb, hy⟩ := hl
  by_cases hvoid : x.act.function.result = .void
  · rw [if_pos hvoid] at hty hcoerce
    obtain rfl := hcoerce
    cases hy with
    | value hv =>
      subst hv
      rw [hvoid] at hty
      rename_i v
      cases v <;> cases hty
    | void _ => exact .here ⟨m, vs, hb, hret, .void hvoid⟩
  · rw [if_neg hvoid] at hty hcoerce
    cases hy with
    | @value v hv =>
      subst hv
      refine sim_of_runs ((hb.runs_line hcoerce (operateAll_coercion v _)).mono fun c s hb => ?_)
      exact .here ⟨m', vs, hb, hret, .value ((ty_coerce v _).trans hty)⟩
    | void hv =>
      subst hv
      exact absurd hty.symm hvoid

omit hp in
theorem simulates_operandsNil : x.Simulates z scene place a [] a (.operands []) := by
  intro vs w c s hb
  exact sim_pure hb

theorem simulates_operandsCons {operand : Node} {operands : List Node}
    (hoperand : x.Simulates z scene place a [ty] m₁ (.expr operand))
    (h : g.code.Line m₁ [(printOp ty, .none)] m₂)
    (hoperands : x.Simulates z scene place m₂ [] b (.operands operands)) :
    x.Simulates z scene place a [] b (.operands (operand :: operands)) := by
  intro vs w c s hb
  rw [printAll]
  refine (hoperand rfl hb).bind fun v w c s hl => ?_
  obtain ⟨hb, hy⟩ := hl
  cases hy with
  | @value v hv =>
    subst hv
    obtain ⟨hi, rfl⟩ := hp.line h
    refine Steps.sim ((hb.steps_print hi).mono fun c s hb => ?_)
    exact sim_of_ok rfl (hoperands hb)
  | void hv =>
    subst hv
    have hprint : print none w = .ok () w := by
      change EStateM.Result.ok () { w with output := w.output ++ "" } = _
      rw [String.append_empty]
    refine sim_of_runs ((hb.runs_line (hp.line h) (Operates.single .invalid)).mono fun c s hb => ?_)
    exact sim_of_ok hprint (hoperands hb)

omit hp in
theorem simulates_print {operands : List Node}
    (h : x.Simulates z scene place a [] b (.operands operands)) :
    x.Simulates z scene place a [] b (.stmt (.print operands)) := by
  intro vs w c s hb
  rw [eval]
  exact (h hb).bind fun _ w c s hb => sim_pure hb

/-! ## Functions of the host -/

/-- The parameters are loaded, the last one first. -/
theorem runs_loads (hz : z.Sound) {params : List VarDecl} {infos : List VarInfo}
    (hlen : infos.length = params.length)
    (hvars : ∀ y ∈ params.zip infos, g.var place.scope y.1.name y.2)
    (hb : x.Beside z a vs w c s) (h : x.act.routine.code.Line a (infos.reverse.map loadInstr) b) :
    ∃ args, (params.mapM fun param => place.read z.program param.name) w = .ok args w ∧
      args.length = params.length ∧ Runs z.env z.Cut (x.Beside z b (args ++ vs) w) c s := by
  induction params generalizing infos b with
  | nil =>
    obtain rfl := List.eq_nil_of_length_eq_zero hlen
    obtain rfl := h
    exact ⟨[], rfl, rfl, .here hb⟩
  | cons param params ih =>
    obtain ⟨info, infos, rfl⟩ := List.exists_cons_of_length_eq_add_one hlen
    obtain ⟨hvar, hvars⟩ := List.forall_mem_cons.mp hvars
    rw [List.reverse_cons, List.map_append] at h
    obtain ⟨m, hrest, hload⟩ := h.split
    obtain ⟨args, hargs, hlen', hruns⟩ := ih (Nat.succ.inj hlen) hvars hrest
    obtain ⟨i, scope, index, hf⟩ := hp.finds hz hvar
    rw [List.map_singleton, loadInstr_of_isValue (hf.isValue hz)] at hload
    obtain ⟨hi, rfl⟩ := hload
    refine ⟨valueAt place w i param.name info.ty :: args, ?_, congrArg Nat.succ hlen', ?_⟩
    · rw [List.mapM_cons]
      simp only [bind, EStateM.bind, hf.read_eq, hargs]
      rfl
    · exact hruns.bind fun c s hb => ((hb.steps_load hz hf hi).mono fun c s hb => .here hb).runs

theorem simulates_native (hz : z.Sound) {symbol : String} {infos : List VarInfo} {id : UInt16}
    (hcount : infos.length = g.params.length)
    (hvars : ∀ y ∈ g.params.zip infos, g.var place.scope y.1.name y.2)
    (hloads : g.code.Line a (infos.reverse.map loadInstr) m)
    (hhost : g.host { symbol, params := g.params.map (·.ty), result := g.result } id)
    (h : g.code.Line m [(.callNative, .native id), (.ret, .none)] b) :
    x.Simulates z scene place a [] b (.stmt (.native symbol)) := by
  intro vs w c s hb
  obtain ⟨hresult, -, hparams, hvoid⟩ := hp.result hz
  obtain ⟨hi, hret, -⟩ := hp.line h
  obtain ⟨args, hargs, hlen, hruns⟩ := hp.runs_loads hz hcount hvars hb (hp.line hloads)
  have hn := hp.host hz hhost
  rw [eval, hp.function, hp.source, hp.bridge, ← hparams, ← hresult]
  refine sim_of_runs (hruns.mono fun c s hb => sim_of_ok hargs ?_)
  refine (hb.sim_callHost hz hp.toSound hi hn (by rw [hlen, List.length_map]) hvoid).bind fun v w c s hl => ?_
  exact .here ⟨_, vs, hl.1, hret, hresult ▸ hl.2⟩

theorem reached (hz : z.Sound) : z.program.Below Program.root place.scope := by
  obtain ⟨_, _, _, m, -⟩ := hp.site
  exact (m.reached.trans (hz.linked.below_body m.declared)).trans hp.below

end Plays

end Call

/-! ## All phrases -/

namespace Phrase

/-- The scopes whose hidden slots the code may change. -/
def Writes (p : Program) (sc : ScopeIndex) : Phrase → ScopeIndex → Prop
  | stmt _ | stmts _ => fun i => p.Below sc i
  | block _ => fun i => p.Below sc i ∧ i ≠ sc
  | _ => fun _ => False

end Phrase

namespace Call

/-- **The code of a phrase does what its evaluation does.** -/
theorem simulates (hz : z.Sound) {sc : ScopeIndex} {phrase : Phrase} {tys : List Ty}
    (h : Emitted g sc phrase a tys b) {x : Call} {place : Place} (hp : x.Plays z g scene place)
    (hsc : place.scope = sc) (hw : phrase.wellFormed z.program z.callable sc = true)
    (hspared : x.Spared z (phrase.Writes z.program sc)) :
    x.Simulates z scene place a tys b phrase := by
  have hnone : ∀ {x : Call} {writes : ScopeIndex → Prop}, x.Spared z writes →
      x.Spared z fun _ => False := fun h => h.weaken fun _ h => h.elim
  induction h generalizing x place with
  | int h => exact hp.simulates_literal (v := .int _) rfl (fun _ => .loadInt _) h
  | double h => exact hp.simulates_literal (v := .double _) rfl (fun _ => .loadDouble _) h
  | string hid h =>
    exact hp.simulates_literal (v := .string _) rfl (fun _ => .loadString (hp.text hz hid)) h
  | load hvar h =>
    subst hsc
    exact hp.simulates_load hz hvar h
  | binary _ _ h ihr ihl =>
    simp only [Phrase.wellFormed, Node.wellFormed, Bool.and_eq_true] at hw
    exact hp.simulates_binary (ihr hp hsc hw.2 hspared) (ihl hp hsc hw.1 hspared) h
  | unary _ hty h ih =>
    simp only [Phrase.wellFormed, Node.wellFormed] at hw
    exact hp.simulates_unary (ih hp hsc hw hspared) hty h
  | call hfun _ _ h ih =>
    subst hsc
    simp only [Phrase.wellFormed, Node.wellFormed, Bool.and_eq_true] at hw
    exact hp.simulates_call hz hfun hw.1 hspared (ih hp rfl hw.2 hspared) h
  | argsNil => exact Call.simulates_argsNil
  | argsCons _ _ hty h iha ih =>
    simp only [Phrase.wellFormed, Node.allWellFormed, Bool.and_eq_true] at hw
    exact hp.simulates_argsCons (iha hp hsc hw.2 hspared) (ih hp hsc hw.1 hspared) hty h
  | drop _ h ih => exact hp.simulates_drop (ih hp hsc hw (hnone hspared)) h
  | assign hvar _ hty h ih =>
    subst hsc
    simp only [Phrase.wellFormed, Node.wellFormed] at hw
    exact hp.simulates_assign hz hvar hspared (ih hp rfl hw (hnone hspared)) hty h
  | update hop hvar _ hload hcode h ih =>
    subst hsc
    simp only [Phrase.wellFormed, Node.wellFormed] at hw
    exact hp.simulates_update hz hop hvar hspared (ih hp rfl hw (hnone hspared)) hload hcode h
  | inner _ ih =>
    simp only [Phrase.wellFormed, Node.wellFormed] at hw
    exact Plays.simulates_inner (ih hp hsc hw (hspared.weaken fun _ h => h.1))
  | ifThen _ htest _ ihc iht =>
    simp only [Phrase.wellFormed, Node.wellFormed, Bool.and_eq_true] at hw
    exact hp.simulates_ifThen (ihc hp hsc hw.1 (hnone hspared)) htest
      (iht hp hsc hw.2 (hspared.weaken fun _ h => h.1))
  | ifElse _ htest _ hskip _ ihc iht ihe =>
    simp only [Phrase.wellFormed, Node.wellFormed, Bool.and_eq_true] at hw
    exact hp.simulates_ifElse (ihc hp hsc hw.1.1 (hnone hspared)) htest
      (iht hp hsc hw.1.2 (hspared.weaken fun _ h => h.1)) hskip
      (ihe hp hsc hw.2 (hspared.weaken fun _ h => h.1))
  | whileLoop _ htest _ hback ihc ihb =>
    simp only [Phrase.wellFormed, Node.wellFormed, Bool.and_eq_true] at hw
    exact hp.simulates_whileLoop (ihc hp hsc hw.1 (hnone hspared)) htest
      (ihb hp hsc hw.2 (hspared.weaken fun _ h => h.1)) hback
  | forLoop hvar hint hlimit _ htu hu _ htl hl htest _ hback _ _ ihu ihl ihb =>
    subst hsc
    simp only [Phrase.wellFormed, Node.wellFormed, Bool.and_eq_true] at hw
    obtain ⟨⟨hwl, hwu⟩, hwb⟩ := hw
    obtain ⟨index, hlim⟩ := hp.hides hz hlimit
    have hbody : ∀ k, (x.keep index k).Spared z
        fun i => z.program.Below place.scope i ∧ i ≠ place.scope := fun k =>
      (hspared.weaken fun _ h => h.1).keep hz hp.toSound hlim fun h => h.2 rfl
    exact hp.simulates_forLoop hz hvar hint hlim hspared .refl (ihu hp rfl hwu (hnone hspared)) htu
      hu (fun k => ihl hp.keep rfl hwl (hnone (hbody k))) htl hl htest
      (fun k => ihb hp.keep rfl hwb (hbody k)) hback
  | ret hstrict h => exact hp.simulates_ret hz hstrict h
  | retValue _ hstrict h ih =>
    simp only [Phrase.wellFormed, Node.wellFormed] at hw
    exact hp.simulates_retValue hz (ih hp hsc hw (hnone hspared)) hstrict h
  | print _ ih =>
    simp only [Phrase.wellFormed, Node.wellFormed] at hw
    exact Plays.simulates_print (ih hp hsc hw (hnone hspared))
  | native hcount hvars hloads hhost h =>
    subst hsc
    exact hp.simulates_native hz hcount hvars hloads hhost h
  | operandsNil => exact Plays.simulates_operandsNil
  | operandsCons _ h _ ih ihs =>
    simp only [Phrase.wellFormed, Node.allWellFormed, Bool.and_eq_true] at hw
    exact hp.simulates_operandsCons (ih hp hsc hw.1 hspared) h (ihs hp hsc hw.2 hspared)
  | blockMk hin _ ih =>
    subst hsc
    obtain ⟨⟨scope, hscope, hmem⟩, hw⟩ := Block.scope_of_wellFormed hw
    have hlt := hz.linked.lt_child (hp.reached hz) hscope hmem
    refine Plays.simulates_blockMk (ih (hp.into hz hin ⟨scope, hscope, hmem⟩) rfl hw
      (hspared.weaken fun i hi => ⟨.trans (.child .refl hscope hmem) hi, ?_⟩))
    rintro rfl
    exact absurd (hz.linked.below_le hi) (Nat.not_le.mpr hlt)
  | stmtsNil => exact Plays.simulates_stmtsNil
  | stmtsCons _ _ ihs ih =>
    simp only [Phrase.wellFormed, Node.allWellFormed, Bool.and_eq_true] at hw
    exact Plays.simulates_stmtsCons (ihs hp hsc hw.1 hspared) (ih hp hsc hw.2 hspared)

end Call

end StackLang
