import StackLang.Proofs.Simulation.Statements

/-!
# Calls beside calls

A call makes a new activation, whose place sees what `Place.ofCall` says (`Made.sees`); its parameters
are stored (`Plays.runs_params`), its statements are run (`Plays.sim_runBody`), and the return gives the
value to the caller (`Returns.steps`). `invokes` puts them together, by induction on the depth of
calls that is left.
-/

namespace StackLang

open RunM
open Reference
open Symbols (IsSlot)

variable {σ α : Type} {x y : Call} {z : Setting σ} {g : Site} {scene : Scene σ} {place : Place}
  {a b n ip rounds level : Nat} {args vs : List HostValue} {w : World σ} {c : Cursor} {s : State σ}
  {i j : ScopeIndex} {f : FunctionDecl} {r : Routine} {t₀ t₁ : Compilation} {act : Activation}
  {acts : List Activation} {id : UInt16} {l : ScopeLayout} {outer : ScopeIndex → Nat}

/-! ## What a function sees -/

namespace Setting

/-- **What a function called sees**: its own variables, and what its caller sees. Around `<top>`
there is nothing but the root, which is its own. -/
theorem Compiles.resolves (hz : z.Compiles) (m : z.Made i act.function act.routine t₀ t₁)
    (h : ∀ j, z.program.Encloses j i →
      ¬ (act.function.name = Program.topName ∧ j = Program.root) →
        ∃ id b, z.compilation.symbols.scopeId? j = some id ∧ holder? id acts = some (outer j, b)) :
    z.Resolves (act :: acts) (Place.ofCall act.function acts.length outer).level
      act.function.body.scope := by
  intro j hj
  by_cases hfirst : j = act.function.body.scope ∨
      act.function.name = Program.topName ∧ j = Program.root
  · have hmem : j ∈ act.function.frameScopes := by
      rcases hfirst with rfl | htop
      · exact act.function.body_mem_frameScopes
      · exact FunctionDecl.mem_frameScopes.mpr (.inr htop)
    obtain ⟨id, l, hid, hl⟩ := m.exists_place?_of_mem hmem
    refine ⟨id, act.base + l.base, hid, ?_⟩
    rw [holder?, Activation.place?, hl, Place.ofCall]
    simp only [hfirst, if_true]
  · obtain ⟨hbody, htop⟩ := not_or.mp hfirst
    have hi : z.program.Encloses j i := by
      obtain ⟨s, hs, hf⟩ := m.declared
      rcases hz.linked.encloses_child hs (hz.linked.body hs (Array.mem_toList_iff.mp hf)).1 hj
        with rfl | hj
      · exact absurd rfl hbody
      · exact hj
    obtain ⟨id, b, hid, hholder⟩ := h j hi htop
    refine ⟨id, b, hid, ?_⟩
    rw [holder?_cons (hz.place?_eq_none m hi hid htop), hholder, Place.ofCall]
    simp only [hfirst, if_false]

end Setting

/-! ## Parameters -/

/-- In the body's scope the names of the parameters mean their places. -/
theorem Program.Linked.isSlot_param {p : Program} (hl : p.Linked) (hd : p.DeclaredIn i f)
    (hnodup : (f.params.map (·.name)).Nodup) {k : Nat} {param : VarDecl}
    (hk : f.params[k]? = some param) :
    ∃ scope, p.scope? f.body.scope = some scope ∧
      Symbols.IsSlot scope.vars.toList param.name k param.ty := by
  obtain ⟨s, hs, hf⟩ := hd
  obtain ⟨-, scope, hscope, more, hvars⟩ := hl.body hs (Array.mem_toList_iff.mp hf)
  have hlt := (List.getElem?_eq_some_iff.mp hk).1
  have hsame : ∀ j ≤ k, scope.vars.toList[j]? = f.params[j]? := fun j hj => by
    rw [← hvars, List.getElem?_append_left (by omega)]
  refine ⟨scope, hscope, (hsame k (Nat.le_refl k)).trans hk, fun j hj var hvar heq => ?_⟩
  rw [hsame j (Nat.le_of_lt hj)] at hvar
  have hnames : (f.params.map (·.name))[j]? = (f.params.map (·.name))[k]? := by
    rw [List.getElem?_map, List.getElem?_map, hvar, hk, Option.map_some, Option.map_some, heq]
  have hjk : j = k := (List.getElem?_inj (by rw [List.length_map]; omega) hnodup).mp hnames
  exact absurd hj (hjk ▸ Nat.lt_irrefl j)

/-- In the body of a function its parameters' names mean the parameters. -/
theorem Program.Linked.var?_param {p : Program} (hl : p.Linked) (hd : p.DeclaredIn i f)
    (hnodup : (f.params.map (·.name)).Nodup) {param : VarDecl} (hparam : param ∈ f.params) :
    p.var? f.body.scope param.name = some (f.body.scope, param.ty) := by
  obtain ⟨k, hk⟩ := List.getElem?_of_mem hparam
  obtain ⟨scope, hscope, hslot⟩ := hl.isSlot_param hd hnodup hk
  rw [Program.var?, Program.enclosing, Program.outwards]
  simp only [List.findSome?_cons, hscope, Option.bind_some, Symbols.find?_of_isSlot hslot,
    Option.map_some]

namespace Call

/-- The call that a call instruction begins. -/
def callee (x : Call) (f : FunctionDecl) (r : Routine) (id : UInt16) (returnIp : Nat)
    (vs : List HostValue) : Call where
  act := ⟨f, r, x.act.stop⟩
  callers := x.acts
  id
  frames := x.frame returnIp :: x.frames
  below := vs ++ x.below
  kept := x.kept

/-- The values of the arguments are stored to the parameters. -/
theorem Plays.runs_params (hp : x.Plays z g scene place) (hz : z.Sound)
    {writes : ScopeIndex → Prop} (hspared : x.Spared z writes)
    (hplace : place.scope = x.act.function.body.scope) {params : List VarDecl}
    (hsub : params ⊆ x.act.function.params) {infos : List VarInfo}
    (hlen : infos.length = params.length)
    (hvars : ∀ y ∈ params.zip infos, g.var place.scope y.1.name y.2)
    (htys : args.map (·.ty) = params.map (·.ty)) (hb : x.Beside z a (args ++ vs) w c s)
    (h : x.act.routine.code.Line a (infos.map storeInstr) b) :
    Runs z.env z.Cut (x.Beside z b vs ((params.zip args).foldl (fun w y =>
      w.store (place.level place.scope) place.scope y.1.name y.2) w)) c s := by
  induction params generalizing infos args a w c s with
  | nil =>
    obtain rfl := List.eq_nil_of_length_eq_zero hlen
    obtain rfl := List.map_eq_nil_iff.mp htys
    obtain rfl := h
    exact .here hb
  | cons param params ih =>
    obtain ⟨info, infos, rfl⟩ := List.exists_cons_of_length_eq_add_one hlen
    obtain ⟨hvar, hvars⟩ := List.forall_mem_cons.mp hvars
    obtain ⟨hparam, hsub⟩ := List.cons_subset.mp hsub
    cases args with
    | nil => cases htys
    | cons v args =>
      obtain ⟨hty, htys⟩ := List.cons.inj htys
      obtain ⟨i, scope, index, hf⟩ := hp.finds hz hvar
      obtain ⟨j, _, _, m, -⟩ := hp.site
      have hmeans := hz.linked.var?_param m.declared (hz.params m.declared) hparam
      obtain ⟨rfl, htyp⟩ : i = place.scope ∧ info.ty = param.ty := by
        have heq := Option.some.inj (hf.var.symm.trans (hplace ▸ hmeans))
        exact ⟨congrArg Prod.fst heq, congrArg Prod.snd heq⟩
      rw [List.map_cons, storeInstr_of_isValue (hf.isValue hz)] at h
      refine ((hb.steps_store hz hp.toSound hf hspared h.1 (hty.trans htyp.symm)).mono
        fun c s hb => ?_).runs
      exact ih hsub (Nat.succ.inj hlen) hvars htys hb h.2

/-! ## Bodies -/

/-- What has been declared to give a value does not end without one. -/
theorem Beside.fails_missingValue (h : x.Beside z ip [] w c s) (hx : x.Sound z)
    (hi : x.act.routine.code.At ip .ret .none) (hname : x.act.function.name ≠ Program.topName)
    (hvalue : x.act.function.result.isValue = true) :
    z.Fails (.missingValue x.act.function.name) w c s := by
  obtain ⟨returnIp, hframes⟩ := h.frames
  obtain ⟨_, _, _, m⟩ := hx.stacked.made
  have hlen : 1 < s.frames.length := by
    rw [hframes, List.length_cons, hx.depth]
    have hst := hx.stacked
    unfold acts at hst
    cases hcallers : x.callers with
    | nil =>
      rw [hcallers] at hst
      cases hst with
      | top hf _ _ => exact absurd (Program.declared_of_top? hf).2 hname
    | cons b bs => simp
  have hbase : s.stack.size ≤ (x.frame returnIp).stackBase := by
    have := h.onStack.size
    exact Nat.le_of_eq (this.trans (Nat.zero_add _))
  obtain rfl := h.cursor
  refine ⟨.missingValue _, ?_⟩
  refine wpRun_advance (c := ⟨x.act.routine, ip⟩) (E := fun trap s' => z.Cut trap ∨
    trap = .missingValue x.act.function.name ∧ z.Outside w s') z.cutsLimits .inl hi ?_
  simp only [MachineM.stepInstr, MachineM.wp_pure]
  refine ⟨fun hle => absurd hlen (Nat.not_lt.mpr hle), fun _ => ?_⟩
  refine MachineM.wp_leave (s := { s with steps := s.steps + 1 }) hframes (fun _ _ => ?_) fun hlt => ?_
  · exact .inr ⟨congrArg _ m.finished.name,
      h.agree.capacity, h.agree.flushFails, h.agree.written, h.agree.host⟩
  · have hreturns : x.act.routine.returnsValue = true := by
      rw [Routine.returnsValue, m.finished.result]
      exact hvalue
    exact absurd (hlt hreturns) (Nat.not_lt.mpr hbase)

/-- The statements of a function come to the end of the call. -/
theorem Plays.sim_runBody (hp : x.Plays z g scene place) (hz : z.Sound)
    (hspared : x.Spared z (z.program.Below place.scope))
    (hplace : place.scope = x.act.function.body.scope)
    (h : Emitted g place.scope (.stmts x.act.function.body.statements) a [] b)
    {stop : Nat} (hlast : g.code.Line b [(x.act.function.lastOp, .none)] stop)
    (hb : x.Beside z a [] w c s) :
    x.Sim z scene.rounds (runBody scene place) (x.Returns z) w c s := by
  obtain ⟨j, _, _, m, -⟩ := hp.site
  have hw : (Phrase.stmts x.act.function.body.statements).wellFormed z.program z.callable
      place.scope = true := by
    rw [hplace]
    exact hz.bodies m.declared
  obtain ⟨hi, -⟩ := hp.line hlast
  rw [runBody, hp.function]
  refine (simulates hz h hp rfl hw hspared hb).bind fun _ w c s hb => ?_
  unfold FunctionDecl.lastOp at hi
  by_cases hname : x.act.function.name = Program.topName
  · rw [if_pos hname] at hi ⊢
    exact .here ⟨x, b, [], hp.toSound, hb, hname, hi⟩
  · rw [if_neg hname] at hi ⊢
    by_cases hvalue : x.act.function.result.isValue = true
    · rw [if_pos hvalue]
      exact .here (hb.fails_missingValue hp.toSound hi hname hvalue)
    · rw [if_neg hvalue]
      refine sim_pure ⟨b, [], hb, hi, .void ?_⟩
      have hresult := hz.typed.results m.declared
      generalize x.act.function.result = ty at hvalue hresult
      cases ty <;> first | rfl | exact absurd rfl hvalue | exact absurd rfl hresult

/-! ## Calling and returning -/

/-- The machine enters a function, with the arguments on the stack. -/
theorem Beside.steps_enter (h : x.Beside z ip (args ++ vs) w c s) (hz : z.Sound)
    (hi : x.act.routine.code.At ip .call (.function id))
    (hr : z.env.exe.routine? id = some r) (m : z.Made i f r t₀ t₁)
    (hlen : args.length = f.params.length) :
    Steps z.env z.Cut ((x.callee f r id (ip + Opcode.call.width) vs).Beside z 0 (args ++ [])
      (w.clear x.acts.length)) c s := by
  obtain ⟨returnIp, hframes⟩ := h.frames
  have harity : r.arity = args.length := by
    rw [Routine.arity, m.finished.params, List.length_map, hlen]
  have hsize : s.stack.size = args.length + (vs ++ x.below).length := by
    have := h.onStack.size
    simp only [List.length_append] at this ⊢
    omega
  have hid := hz.toCompiles.id_of_routine? hr
  obtain rfl := h.cursor
  refine steps_call z.cutsLimits hi rfl hr (by omega) (fun l hl => ?_) ?_
  · have hinstances := h.agree.instances _ (hz.toCompiles.layout_lt m hl)
    exact (Array.getElem?_eq_some_iff.mp hinstances).1
  · rw [paused_of_frames (s := { s with steps := s.steps + 1 }) hframes]
    have hvars : s.vars.size = x.act.stop := h.agree.size
    refine ⟨rfl, ⟨0, ?_⟩, ?_, ?_, fun k hk => ?_⟩
    · change Frame.mk r.id 0 (s.stack.size - r.arity) s.vars.size :: _ = _
      rw [hid, harity, hsize, Nat.add_sub_cancel_left, hvars]
      rfl
    · change List.Forall₂ _ s.stack.toList.reverse ((args ++ []) ++ (vs ++ x.below))
      rw [List.append_nil, ← List.append_assoc]
      exact h.values
    · exact Setting.Agree.entered (a := ⟨f, r, x.act.stop⟩) h.agree.of_same hz.linked m rfl
    · change (s.vars ++ Array.replicate r.locals none)[k.1]? = _
      have hkept := h.kept k hk
      rw [Array.getElem?_append_left (Array.getElem?_eq_some_iff.mp hkept).1]
      exact hkept

theorem forall₂_take_reverse {α β : Type} {R : α → β → Prop} {l : List α} {xs ys : List β}
    (h : List.Forall₂ R l.reverse (xs ++ ys)) : List.Forall₂ R (l.take ys.length).reverse ys := by
  have hlen := h.length_eq
  rw [List.length_reverse, List.length_append] at hlen
  have hdrop := List.forall₂_drop xs.length h
  rw [List.drop_left, List.drop_reverse, hlen, Nat.add_sub_cancel_left] at hdrop
  exact hdrop

/-- The machine returns to the caller, with the value on the stack. -/
theorem Returns.steps {v : Option HostValue}
    (h : (x.callee f r id ip vs).Returns z v w c s) (hl : z.program.Linked) (hx : x.Sound z)
    (hy : (x.callee f r id ip vs).Sound z) (hkept : ∀ k ∈ x.kept, k.1 < x.act.stop)
    (m : z.Made i f r t₀ t₁) : Steps z.env z.Cut (x.Leaves z ip f.result vs v w) c s := by
  obtain ⟨retIp, vs', h, hi, hty⟩ := h
  obtain ⟨returnIp, hframes⟩ := h.frames
  obtain rfl := h.cursor
  have hvalues : List.Forall₂ (Denotes z.env.exe s.overlay) s.stack.toList.reverse
      (v.toList ++ vs' ++ (vs ++ x.below)) := h.values
  have hbelow := forall₂_take_reverse hvalues
  have hreturns : r.returnsValue = v.isSome := by
    rw [Routine.returnsValue, m.finished.result]
    have hty' : Yields f.result v := hty
    generalize f.result = ty at hty'
    cases hty' with
    | @value v hv =>
      subst hv
      cases v <;> rfl
    | void hv => rw [hv]; rfl
  refine steps_ret z.cutsLimits hi rfl rfl hframes (fun hv => ?_) hx.routine ⟨?_, hty⟩
  · have hlen := hvalues.length_eq
    change (vs ++ x.below).length < s.stack.size
    cases v with
    | none => exact absurd (hreturns.symm.trans hv) (by simp)
    | some v =>
      simp only [List.length_reverse, Array.length_toList, List.length_append, Option.toList_some,
        List.length_singleton] at hlen
      simp only [List.length_append]
      omega
  · refine ⟨rfl, ⟨ip, rfl⟩, ?_, ?_, fun k hk => ?_⟩
    · change List.Forall₂ (Denotes z.env.exe s.overlay) (State.left { s with steps := s.steps + 1 } r
        ((x.callee f r id ip vs).frame returnIp) (x.frame ip :: x.frames)).stack.toList.reverse _
      cases v with
      | none =>
        rw [State.stack_left_none hreturns, Array.toList_shrink]
        exact hbelow
      | some v =>
        obtain ⟨value, hback, hd, -⟩ := OnStack.pop (v := v) h.onStack
        rw [State.stack_left_some (s := { s with steps := s.steps + 1 }) hreturns hback,
          Array.toList_push, Array.toList_shrink, List.reverse_append]
        exact .cons hd hbelow
    · exact h.agree.of_same.left hl hy.stacked rfl _
    · change (s.vars.shrink x.act.stop)[k.1]? = _
      rw [getElem?_shrink (hkept k hk)]
      exact h.kept k hk

/-- A value returned inside of a call is the value of the call. -/
theorem sim_catchReturn {m : EvalM σ (Option HostValue)}
    {Q : Option HostValue → World σ → Cursor → State σ → Prop}
    (h : y.Sim z n m (y.Returns z) w c s)
    (hreturn : ∀ v w c s, y.Returns z v w c s → Steps z.env z.Cut (Q v w) c s) :
    x.Sim z n (catchReturn m) Q w c s := by
  have hruns : ∀ {v w'}, Runs z.env z.Cut (y.Returns z v w') c s →
      Runs z.env z.Cut (Q v w') c s := fun h =>
    h.bind fun c s h => ((hreturn _ _ c s h).mono fun c s h => .here h).runs
  unfold Sim catchReturn at *
  cases hm : m w with
  | ok v w' =>
    rw [hm] at h
    exact hruns h
  | error stop w' =>
    rw [hm] at h
    cases stop with
    | returned v => exact hruns h
    | _ => exact h

/-- The slots that are spared in a call are spared inside of those that it makes. -/
theorem Spared.callee {writes : ScopeIndex → Prop} (h : x.Spared z fun _ => False) {returnIp : Nat}
    (hstop : x.act.stop ≤ (x.callee f r id returnIp vs).act.stop) :
    (x.callee f r id returnIp vs).Spared z writes := by
  intro k hk
  obtain ⟨hlt, hhidden⟩ := h k hk
  refine ⟨Nat.lt_of_lt_of_le hlt hstop, fun hs hscope => ?_⟩
  rcases Setting.SlotAt.cases_head hs with ⟨-, _, _, -, -, -, heq⟩ | hs
  · have hbase : x.act.stop ≤ k.1 := heq ▸ Nat.le_trans (Nat.le_add_right _ _) (Nat.le_add_right _ _)
    exact absurd hlt (Nat.not_lt.mpr hbase)
  · exact ⟨(hhidden hs hscope).1, fun hlevel => absurd hs.level_lt (hlevel ▸ Nat.lt_irrefl _)⟩

end Call

/-- **The machine does in a call what its evaluation does**, for any depth of calls. -/
theorem invokes (hz : z.Sound) (rounds level : Nat) :
    z.Invokes rounds level (invoke z.program z.env.bridge rounds level) := by
  induction rounds generalizing level with
  | zero =>
    intro x i f id ip args vs outer w c s _ _ _ _ _ _ _ _ _
    exact .zero
  | succ rounds ih =>
    intro x i f id ip args vs outer w c s hx hlevel hspared hcallable hcompiled houter htys hi hb
    subst hlevel
    obtain ⟨r, t₀, t₁, hr, m⟩ := hcompiled.exists_made
    have hr' : z.env.exe.routine? id = some r := (hz.output.exe_routine? id).trans hr
    let y := x.callee f r id (ip + Opcode.call.width) vs
    have hy : y.Sound z := ⟨.call hx.stacked hcallable m rfl, hr', congrArg Nat.succ hx.depth⟩
    have hlen : args.length = f.params.length := by
      have := congrArg List.length htys
      rwa [List.length_map, List.length_map] at this
    obtain ⟨infos, m₁, m₂, hcount, hvars, hparams, hbody, hlast⟩ := m.code.emitted
    let scene : Scene σ :=
      { source := z.program, bridge := z.env.bridge, function := f, level := x.callers.length + 1,
        rounds, invoke := invoke z.program z.env.bridge rounds (x.callers.length + 1 + 1) }
    let place := Place.ofCall f (x.callers.length + 1) outer
    have hp : y.Plays z (Site.of ⟨z.program, f, z.strict⟩ t₀ t₁) scene place :=
      { hy with
        below := .refl
        own := m.exists_place?_of_mem f.body_mem_frameScopes
        nearest := by
          have hmade : z.Made i y.act.function y.act.routine t₀ t₁ := m
          exact hz.toCompiles.resolves hmade fun j hj _ => houter j hj
        site := ⟨i, t₀, t₁, m, rfl⟩
        source := rfl
        bridge := rfl
        function := rfl
        level := rfl
        invokes := ih _ }
    have hspared' : ∀ writes, y.Spared z writes := fun writes =>
      hspared.callee (Nat.le_add_right _ _)
    refine Call.sim_of_steps ((hb.steps_enter hz hi hr' m hlen).mono fun c s hb => ?_)
    refine Call.sim_of_runs ((hp.runs_params hz (hspared' fun _ => False) rfl (List.Subset.refl _) hcount hvars
      htys hb (hp.line hparams)).mono fun c s hb => ?_)
    have hlevel : place.level place.scope = x.callers.length + 1 := if_pos (.inl rfl)
    rw [hlevel] at hb
    refine Call.sim_of_ok rfl (Call.sim_catchReturn (y := y)
      (hp.sim_runBody hz (hspared' _) rfl hbody hlast hb) fun v w c s h => ?_)
    exact h.steps hz.linked hx hy (fun k hk => (hspared k hk).1) m

end StackLang
