import StackLang.Proofs.Loops.Own
import StackLang.Proofs.Natives.Code
import StackLang.Proofs.Storage.Typed

/-!
# Native calls forward the parameters

`native_forwards_params`: whenever a run of a compiled program comes to a native call in the body of a
function, the host is called once, with the values that the parameters of the function have in the
innermost frame, in the order in which they are declared and of the types that they are declared with.
That is so where the names of the parameters mean the same at the native call as in the function's body.
-/

namespace StackLang

open MachineM (wp)
open RunM
open Executable

variable {σ : Type} {env : Env σ} {vars : List HostVar} {sink : Sink} {host : σ} {r : Routine}
  {c : Cursor} {s s' : State σ} {a b n : Nat} {info : VarInfo} {infos : List VarInfo}
  {below vs args : List HostValue} {v : HostValue} {x : Value}

/-! ## What the host sees -/

/-- A value that is known stands for one that the host sees. -/
theorem exists_denotes_of_known {e : Executable} (h : s.Known e x) :
    ∃ v, Denotes e s.overlay x v := by
  cases x with
  | int n => exact ⟨_, .int n⟩
  | double d => exact ⟨_, .double d⟩
  | string id =>
    obtain ⟨text, ht⟩ := State.stringText_of_known h
    cases hid : textOf? e s.overlay id with
    | some text => exact ⟨_, .string hid⟩
    | none =>
      unfold textOf? at hid
      rw [State.stringText, hid] at ht
      cases ht

theorem exists_forall₂ {α β : Type} {R : α → β → Prop} {xs : List α} (h : ∀ x ∈ xs, ∃ y, R x y) :
    ∃ ys, List.Forall₂ R xs ys := by
  induction xs with
  | nil => exact ⟨[], .nil⟩
  | cons x xs ih =>
    obtain ⟨⟨y, hy⟩, hrest⟩ := List.forall_mem_cons.mp h
    obtain ⟨ys, hys⟩ := ih hrest
    exact ⟨y :: ys, .cons hy hys⟩

/-- The stack stands for values of the host. -/
theorem exists_onStack {e : Executable} (h : s.KnownValues e) (hbase : s.frameBase ≤ s.stack.size) :
    ∃ below vs, OnStack e below vs s := by
  obtain ⟨all, hall⟩ : ∃ all, List.Forall₂ (Denotes e s.overlay) s.stack.toList.reverse all :=
    exists_forall₂ fun x hx => exists_denotes_of_known (h.stack x (by simpa using hx))
  have hlen := hall.length_eq
  rw [List.length_reverse, Array.length_toList] at hlen
  refine ⟨all.drop (all.length - s.frameBase), all.take (all.length - s.frameBase), ?_, ?_⟩
  · rw [List.length_drop]
    omega
  · rwa [List.take_append_drop]

/-- In the innermost frame the variable at `addr` has a value of this type, which the host sees as `v`. -/
def State.Shows (e : Executable) (s : State σ) (addr : VarAddr) (ty : Ty) (v : HostValue) : Prop :=
  ∃ frame n, s.frames.head? = some frame ∧ frame.Has e addr n ∧ s.slotIndex addr = .ok n ∧
    Denotes e s.overlay (s.readVar n (.zero ty)) v ∧ v.ty = ty

/-! ## The parts of the code -/

/-- Variables are loaded one after the other. -/
theorem comes_loads {steps : Nat} {stack : Array Value}
    (hargs : List.Forall₂ (fun info v => info.ty.isValue = true ∧
      s.Shows env.exe info.addr info.ty v) infos args)
    (hline : r.code.Line a (infos.map loadInstr) b)
    (hs : OnStack env.exe below vs { s with steps, stack }) :
    Comes env s.frames.length a b (fun c s' => c = ⟨r, b⟩ ∧ ∃ steps stack,
      s' = { s with steps, stack } ∧ OnStack env.exe below (args.reverse ++ vs) s')
      ⟨r, a⟩ { s with steps, stack } := by
  induction hargs generalizing a vs steps stack with
  | nil =>
    obtain rfl := hline
    exact .here ⟨rfl, steps, stack, rfl, hs⟩
  | @cons info v infos args hinfo _ ih =>
    obtain ⟨hvalue, frame, n, -, -, hn, hd, hty⟩ := hinfo
    rw [List.map_cons, loadInstr_of_isValue hvalue] at hline
    have hpush : OnStack env.exe below (v :: vs) { s with
        steps := steps + 1, stack := stack.push (s.readVar n (.zero info.ty)) } :=
      (OnStack.push hs hd).congr rfl rfl (.refl _)
    refine .step ⟨Nat.le_refl _, hline.lt⟩
      (steps_load hvalue hline.1 hn (hd.ty.trans hty) ⟨Nat.le_refl _, ?_⟩)
    refine (ih hline.2 hpush).bind (Nat.le_add_right _ _) (Nat.le_refl _) ?_
    rintro _ _ - ⟨rfl, steps', stack', rfl, hs'⟩
    rw [List.reverse_cons, List.append_assoc]
    exact .here ⟨rfl, steps', stack', rfl, hs'⟩

/-- The instruction at `a` calls the host once, with these arguments, and control goes on at `b`. If the
instruction fails, then with the answer of the host. -/
def CallsHost (env : Env σ) (r : Routine) (a b : Nat) (symbol : String) (args : List HostValue)
    (s : State σ) : Prop :=
  wpRun (advance env ⟨r, a⟩)
    (fun c? s' => c? = some ⟨r, b⟩ ∧ s'.host = (env.bridge.call symbol args s.host).2)
    (fun _ s' => s'.host = (env.bridge.call symbol args s.host).2) s

/-- The host does not answer. -/
def silent : Bridge σ := ⟨fun _ _ host => (none, host)⟩

/-- What is done without a call of the host. -/
def hostKept : Allowance (silent : Bridge σ) where
  rel s s' := s'.host = s.host
  refl _ := rfl
  trans h h' := h'.trans h
  push _ _ := rfl
  pop _ _ := rfl
  var _ _ _ _ := rfl
  overlay _ _ := rfl
  steps _ := rfl
  sink _ _ := rfl
  host _ _ _ := rfl

/-- A call instruction takes its arguments and calls the host, unless a limit is met before. -/
theorem callsHost_of_onStack {native : UInt16} {symbol : String} {params : List Ty} {result : Ty}
    (hline : r.code.Line a [(.callNative, .native native)] b)
    (hn : env.exe.native? native = some ⟨symbol, params, result⟩)
    (hlen : args.length = params.length) (hs : OnStack env.exe below (args ++ vs) s) :
    (∃ fault s', advance env ⟨r, a⟩ s = .error fault s' ∧ fault.trap.OnLimits) ∨
      CallsHost env r a b symbol args s := by
  have hat : r.code.decodeAt a = .ok ⟨a, .callNative, .native native⟩ := hline.1
  have hb : a + Opcode.callNative.width = b := hline.2
  have hs : OnStack env.exe below (args ++ vs) { s with steps := s.steps + 1 } :=
    hs.congr rfl rfl (.refl _)
  have hwp : wpRun (advance env ⟨r, a⟩)
      (fun c? s' => c? = some ⟨r, b⟩ ∧ s'.host = (env.bridge.call symbol args s.host).2)
      (fun fault s' => fault.trap.OnLimits ∨
        s'.host = (env.bridge.call symbol args s.host).2) s := by
    refine wp_advance ?_
    rw [MachineM.step, MachineM.wp_bind]
    refine MachineM.wp_tick (fun _ _ => .inl trivial) (fun _ _ => .inl trivial) ?_
    rw [hat]
    have hnext : some (Cursor.mk r (a + Opcode.callNative.width)) = some ⟨r, b⟩ :=
      congrArg (fun ip => some (Cursor.mk r ip)) hb
    rcases hcall : env.bridge.call symbol args s.host with ⟨answer, host⟩
    refine Call.wp_callNative_onStack hn hs hlen hcall fun stack _ => ?_
    rcases answer with _ | reason | v?
    · exact .inr rfl
    · exact .inr rfl
    · by_cases hvalue : result.isValue = true
      · rw [Call.Answered, if_pos hvalue]
        cases v? with
        | none => exact .inr rfl
        | some v =>
          -- what the host has answered becomes a value without calling it again
          exact MachineM.wp_mono (MachineM.Keeps.ofHost (R := hostKept) env.exe v result _)
            (fun _ _ h => ⟨hnext, h⟩) fun _ _ h => .inr h
      · rw [Call.Answered, if_neg hvalue]
        exact ⟨hnext, rfl⟩
  unfold CallsHost wpRun
  cases ha : advance env ⟨r, a⟩ s with
  | ok c? s' => exact .inr (wpRun_of_ok hwp ha)
  | error fault s' => exact (wpRun_of_error hwp ha).imp_left fun h => ⟨fault, s', rfl, h⟩

/-- **The code of a native call** loads variables, and calls the host with what they hold. -/
theorem forwards_of_shows {native : UInt16} {symbol : String} {params : List Ty} {result : Ty} {m : Nat}
    (hargs : List.Forall₂ (fun info v => info.ty.isValue = true ∧
      s.Shows env.exe info.addr info.ty v) infos args)
    (hloads : r.code.Line a (infos.reverse.map loadInstr) m)
    (hcall : r.code.Line m [(.callNative, .native native)] b)
    (hn : env.exe.native? native = some ⟨symbol, params, result⟩) (hlen : args.length = params.length)
    (hknown : s.KnownValues env.exe) (hbase : s.frameBase ≤ s.stack.size) :
    HitsLimit env s.frames.length a m ⟨r, a⟩ s ∨ ∃ s₁, Passes env Anyhow r a m m s s₁ ∧
      s₁.host = s.host ∧ CallsHost env r m b symbol args s₁ := by
  obtain ⟨below, vs, hs⟩ := exists_onStack hknown hbase
  rcases comes_loads (List.rel_reverse hargs) hloads hs with
    ⟨_, _, hrun, rfl, steps, stack, rfl, hs'⟩ | hlimit
  · rw [List.reverse_reverse] at hs'
    rcases callsHost_of_onStack hcall hn hlen hs' with ⟨fault, s', ha, hfails⟩ | hhost
    · exact .inl ⟨_, _, fault, s', hrun, ha, hfails⟩
    · refine .inr ⟨_, ⟨hrun, rfl, ?_⟩, rfl, hhost⟩
      have := hs'.size
      rw [hs'.base]
      omega
  · exact .inl hlimit

/-! ## Compiled programs -/

/-- The values that the parameters of the function that is running have in the innermost frame, as the
host sees them. -/
def State.Arguments (e : Executable) (s : State σ) (r : Routine) (params : List VarDecl)
    (args : List HostValue) : Prop :=
  List.Forall₂ (fun info v => s.Shows e info.addr info.ty v) (r.paramVars params) args

section Compiled

variable {p : Program} {strict : Bool} {t t₀ t₁ : Compilation} {i : ScopeIndex} {f : FunctionDecl}
  (he : env.exe.LaidOut (p.Declared t.symbols))
  (ht : env.exe.Typed (p.Declared t.symbols) (p.DeclaredAs t.symbols)) (hsound : env.exe.Sound)
  (hv : Visits env vars sink host ⟨r, a⟩ s)

include he ht hsound hv

/-- A variable of the function that is running has a value of its type. -/
theorem exists_shows {addr : VarAddr} {ty : Ty} (howns : r.Owns addr)
    (hty : p.DeclaredAs t.symbols addr ty) (hvalue : ty.isValue = true) :
    ∃ v, s.Shows env.exe addr ty v := by
  obtain ⟨frame, n, hhead, hhas, hn⟩ := he.exists_has_of_owns hv howns
  have hknown := (onPaths_of_visits hsound hv).known
  obtain ⟨v, hd⟩ := exists_denotes_of_known (State.known_readVar hsound.pool hknown n ty)
  have hread := (typed_of_visits he ht hv).ty_readVar (List.mem_of_mem_head? hhead) hty hvalue hhas
  exact ⟨v, frame, n, hhead, hhas, hn, hd, hd.ty.symm.trans hread⟩

theorem Made.exists_arguments (m : Made p strict t i f r t₀ t₁) (hl : p.Linked)
    (hnodup : (f.params.map (·.name)).Nodup)
    (hvalues : ∀ param ∈ f.params, param.ty.isValue = true) :
    ∃ args, List.Forall₂ (fun info v => info.ty.isValue = true ∧
      s.Shows env.exe info.addr info.ty v) (r.paramVars f.params) args := by
  obtain ⟨infos, -, -, hcount, hvars, -⟩ := m.code.emitted
  have hinfos := m.infos_eq_paramVars hl hnodup hcount hvars fun _ _ => rfl
  refine exists_forall₂ fun info hinfo => ?_
  obtain ⟨_, -, hvar⟩ := Site.exists_param_of_zip hcount hvars info (hinfos ▸ hinfo)
  obtain ⟨howns, param, hparam, hty⟩ := m.owns_of_mem_paramVars hl hnodup hinfo
  have hvalue : info.ty.isValue = true := hty ▸ hvalues param hparam
  obtain ⟨v, hshows⟩ := exists_shows he ht hsound hv howns (m.declaredAs_of_var hvar) hvalue
  exact ⟨v, hvalue, hshows⟩

end Compiled

/-- **A native call hands the parameters of its function to the host.** In a compiled program every
native call in the body of a function has its code, and the arguments of a call of the function are
stored to its parameters. Let a run come to the code of a native call at whose place the names of the
parameters mean what they mean in the body. Unless a limit ends the run before, the host is called once,
under the symbol of the native call, with one argument for each parameter, in their order: the value
that the parameter has in the innermost frame, which is one of its type. Then control comes to the
return. The parameters must have names and values of their own, and the executable must verify, as it
does whenever the machine is to verify it. -/
theorem native_forwards_params {p : Program} (hb : p.Built) {strict : Bool} {e : Executable}
    (h : p.compile strict = .ok e) {k : Nat} {x : ScopeIndex × FunctionDecl}
    (hx : (p.functionsFrom (p.scopeCount + 1) Program.root)[k]? = some x)
    (hnodup : (x.2.params.map (·.name)).Nodup)
    (hvalues : ∀ param ∈ x.2.params, param.ty.isValue = true) :
    ∃ r t t₀ t₁, e.routines[k]? = some r ∧ Made p strict t x.1 x.2 r t₀ t₁ ∧
      (∃ b, r.code.Line 0 ((r.paramVars x.2.params).map storeInstr) b) ∧
      (∀ call ∈ x.2.body.natives, ∃ l, call.CodeAt (Site.of ⟨p, x.2, strict⟩ t₀ t₁) l) ∧
      ∀ (call : NativeCall) l, call.CodeAt (Site.of ⟨p, x.2, strict⟩ t₀ t₁) l →
        (∀ param ∈ x.2.params,
          p.var? call.scope param.name = p.var? x.2.body.scope param.name) →
        ∀ {σ : Type} (config : Config) (bridge : Bridge σ) (vars : List HostVar) (sink : Sink)
          (host : σ) (s : State σ), config.verify = true ∨ e.verify = .ok () →
          Visits ⟨e, config, bridge⟩ vars sink host ⟨r, l.entry⟩ s →
            HitsLimit ⟨e, config, bridge⟩ s.frames.length l.entry l.call ⟨r, l.entry⟩ s ∨
            ∃ args s₁, s.Arguments e r x.2.params args ∧
              Passes ⟨e, config, bridge⟩ Anyhow r l.entry l.call l.call s s₁ ∧ s₁.host = s.host ∧
              CallsHost ⟨e, config, bridge⟩ r l.call l.ret call.symbol args s₁ := by
  obtain ⟨t, ht, heq⟩ := Program.compile_traversed h
  obtain ⟨r, t₀, t₁, hr, m⟩ := ht.made hx
  have ho : p.Output strict t e := heq ▸ Program.output_of_traversed hb ht
  have he : e.LaidOut (p.Declared t.symbols) := heq ▸ ht.laidOut
  have htyped : e.Typed (p.Declared t.symbols) (p.DeclaredAs t.symbols) := heq ▸ ht.typed hb
  have hl := hb.linked.1
  refine ⟨r, t, t₀, t₁, by rw [heq]; exact hr, m, m.stores_params hl hnodup, ?_,
    fun call l hcode hmeans σ config bridge vars sink host s hverify hv => ?_⟩
  · obtain ⟨-, m₁, m₂, -, -, -, hbody, -⟩ := m.code.emitted
    have hnatives := hbody.hasNatives
    generalize x.2.body = body at hnatives ⊢
    cases body
    exact hnatives
  · have hsound := ho.sound_of_verify (hverify.elim (verify_of_visits hv) id)
    obtain ⟨args, hargs⟩ := m.exists_arguments he htyped hsound hv hl hnodup hvalues
    have hlen : args.length = (x.2.params.map (·.ty)).length := by
      rw [← hargs.length_eq, Routine.paramVars, List.length_mapIdx, List.length_map]
    have hn : e.native? l.id = some ⟨call.symbol, x.2.params.map (·.ty), x.2.result⟩ := by
      rw [heq]
      exact m.continues.natives hcode.host
    have hloads := hcode.loads
    have hcall := hcode.hostCall
    rw [m.code.code_eq] at hloads hcall
    rw [m.infos_eq_paramVars hl hnodup hcode.count hcode.vars hmeans] at hloads
    have hpaths := onPaths_of_visits hsound hv
    have hbase : s.frameBase ≤ s.stack.size := by
      obtain ⟨frame, frames, hframes, -, hle, -⟩ := hpaths.frames
      rwa [State.frameBase_of_frames hframes]
    rcases forwards_of_shows hargs hloads hcall hn hlen hpaths.known hbase with
      hlimit | ⟨s₁, hpasses, hhost, hcalls⟩
    · exact .inl hlimit
    · exact .inr ⟨args, s₁, hargs.imp fun _ _ h => h.2, hpasses, hhost, hcalls⟩

/-- Hands two ints to the host. -/
def forwarding : Program :=
  let p := (Program.empty.declareNative Program.root "send" .void [⟨"n", .int⟩, ⟨"m", .int⟩] "h").2
  p.defineTop [.call "send" [.int 7, .int 8]]

/-- Its native function. -/
def forwardingSend : FunctionDecl where
  name := "send"
  result := .void
  params := [⟨"n", .int⟩, ⟨"m", .int⟩]
  body := .mk 2 [.native "h"]

theorem forwarding_functions :
    (forwarding.functionsFrom (forwarding.scopeCount + 1) Program.root)[1]? =
      some (0, forwardingSend) := by
  cbv

/-- Answers nothing, and remembers what it has been called with. -/
def recorder : Bridge (List (String × List HostValue)) :=
  ⟨fun symbol args calls => (some (.ok none), calls ++ [(symbol, args)])⟩

/-- Where the native call of the program begins. -/
theorem forwarding_codeAt {t t₀ t₁ : Compilation} (m : Made forwarding true t 0 forwardingSend r t₀ t₁)
    (hl : forwarding.Linked) : ∃ l, l.entry = 10 ∧
      NativeCall.CodeAt (Site.of ⟨forwarding, forwardingSend, true⟩ t₀ t₁) ⟨2, "h"⟩ l := by
  obtain ⟨infos, _, _, hcount, hvars, hstores, hbody, -⟩ := m.code.emitted
  rw [m.infos_eq_paramVars hl (by decide) hcount hvars fun _ _ => rfl] at hstores
  obtain ⟨-, -, rfl⟩ := id hstores
  cases hbody with
  | stmtsCons hs _ => exact hs.exists_codeAt

/-- A run of the program comes to the native call. -/
theorem forwarding_runs : ∃ e c s, forwarding.compile true = .ok e ∧
    Visits ⟨e, {}, recorder⟩ [] {} [] c s ∧ c.ip = 10 ∧ s.frames.map (·.function) = [1, 0] := by
  have hruns : (forwarding.compile true).toOption.bind (fun e =>
      (visited? ⟨e, {}, recorder⟩ [] {} [] 5).map fun x =>
        (x.1.ip, x.2.frames.map (·.function))) = some (10, [1, 0]) := by cbv
  cases hc : forwarding.compile true with
  | error e =>
    rw [hc] at hruns
    cases hruns
  | ok e =>
    rw [hc] at hruns
    obtain ⟨⟨c, s⟩, hs, hx⟩ := Option.map_eq_some_iff.mp hruns
    obtain ⟨hip, hframes⟩ := Prod.mk.inj hx
    exact ⟨e, c, s, rfl, visits_of_visited? hs, hip, hframes⟩

/-- The two ints are handed to the host. -/
theorem forwarding_forwards : ∃ (e : Executable) (r : Routine) (l : NativeCode)
    (s : State (List (String × List HostValue))), forwarding.Built ∧
    forwarding.compile true = .ok e ∧ e.routines[1]? = some r ∧
    Visits ⟨e, {}, recorder⟩ [] {} [] ⟨r, l.entry⟩ s ∧
    (HitsLimit ⟨e, {}, recorder⟩ s.frames.length l.entry l.call ⟨r, l.entry⟩ s ∨
      ∃ args s₁, s.Arguments e r [⟨"n", .int⟩, ⟨"m", .int⟩] args ∧
        Passes ⟨e, {}, recorder⟩ Anyhow r l.entry l.call l.call s s₁ ∧ s₁.host = s.host ∧
        CallsHost ⟨e, {}, recorder⟩ r l.call l.ret "h" args s₁) := by
  have hb : forwarding.Built := .defineTop (.declareNative .empty (by decide) _ _ _ _) _
  obtain ⟨e, ⟨r', ip⟩, s, hc, hv, rfl, hframes⟩ := forwarding_runs
  obtain ⟨r, t, t₀, t₁, hr, m, -, -, hforwards⟩ :=
    native_forwards_params hb hc forwarding_functions (by decide) (by decide)
  obtain ⟨l, hentry, hcode⟩ := forwarding_codeAt m hb.linked.1
  obtain ⟨_, he, -⟩ := Program.compile_laidOut hc
  obtain ⟨frame, hhead, hr'⟩ := routine_of_visits he.ids hv
  have hone : frame.function = 1 := by
    have hfirst := congrArg List.head? hframes
    rw [List.head?_map, hhead] at hfirst
    exact Option.some.inj hfirst
  rw [hone] at hr'
  obtain rfl : r = r' := Option.some.inj (hr.symm.trans hr')
  rw [← hentry] at hv
  exact ⟨e, r, l, s, hb, hc, hr, hv,
    hforwards _ l hcode (fun _ _ => rfl) {} recorder [] {} [] s (.inl rfl) hv⟩

/-- Hands the host another variable of the name of its parameter. -/
def shadowing : Program :=
  let p := (Program.empty.declareFunction Program.root "f" .void [⟨"x", .int⟩]).2
  let p := (p.addScope 2).2.declareVar 3 ⟨"x", .int⟩
  let p := p.define 2 [.block (.mk 3 [.native "h"])]
  p.defineTop [.call "f" [.int 7]]

/-- The host is called with 0 while the parameter is 7. -/
theorem shadowing_forwards_other : ∃ e c s c' s', shadowing.Built ∧
    shadowing.compile true = .ok e ∧ Visits ⟨e, {}, recorder⟩ [] {} [] c s ∧
    c.routine.name = "f" ∧ c.routine.params = [.int] ∧
    (∃ n, s.slotIndex (c.routine.paramAddr 0) = .ok n ∧ s.readVar n (.zero .int) = .int 7) ∧
    s.host = [] ∧ advance ⟨e, {}, recorder⟩ c s = .ok (some c') s' ∧
    s'.host = [("h", [.int 0])] := by
  have hb : shadowing.Built := .defineTop (.define (.declareVar (.addScope (.declareFunction .empty
    (by decide) _ _ _) (by decide)) _ _) _ _) _
  have hruns : (shadowing.compile true).toOption.map (fun e =>
      ((visited? ⟨e, {}, recorder⟩ [] {} [] 4).map fun x =>
        (x.1.routine.name, x.1.routine.params, (x.2.slotIndex (x.1.routine.paramAddr 0)).toOption.map
          fun n => x.2.readVar n (.zero .int), x.2.host),
        (visited? ⟨e, {}, recorder⟩ [] {} [] 5).map (·.2.host))) =
      some (some ("f", [.int], some (.int 7), []), some [("h", [.int 0])]) := by cbv
  cases hc : shadowing.compile true with
  | error e =>
    rw [hc] at hruns
    cases hruns
  | ok e =>
    rw [hc] at hruns
    obtain ⟨hbefore, hafter⟩ := Prod.mk.inj (Option.some.inj hruns)
    obtain ⟨⟨c, s⟩, hs, hx⟩ := Option.map_eq_some_iff.mp hbefore
    obtain ⟨⟨c', s'⟩, hs', hhost'⟩ := Option.map_eq_some_iff.mp hafter
    simp only [Prod.mk.injEq] at hx
    obtain ⟨hname, hparams, hparam, hhost⟩ := hx
    obtain ⟨n, hn, hread⟩ := Option.map_eq_some_iff.mp hparam
    have hslot : s.slotIndex (c.routine.paramAddr 0) = .ok n := by
      cases hslot : s.slotIndex (c.routine.paramAddr 0) with
      | error trap =>
        rw [hslot] at hn
        cases hn
      | ok n' =>
        rw [hslot] at hn
        rw [Option.some.inj hn]
    exact ⟨e, c, s, c', s', hb, rfl, visits_of_visited? hs, hname, hparams, ⟨n, hslot, hread⟩, hhost,
      advance_of_visited? hs hs', hhost'⟩

end StackLang
