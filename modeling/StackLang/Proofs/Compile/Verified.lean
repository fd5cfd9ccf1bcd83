import StackLang.Proofs.Compile.Balance
import StackLang.Proofs.Compile.Scopes
import StackLang.Proofs.Verify.Runs

/-!
# Compiled programs verify

`Output.certifies`: the code of every function of a compiled program has a certificate, so the
executable passes verification (`Output.sound`), all paths to an instruction come with one height,
and no run holds more of the stack for a function than the depth that its verification gives.
-/

namespace StackLang

open Executable Compilation

/-! ## What code refers to -/

section Sites

variable {p : Program} {strict : Bool} {f : FunctionDecl} {t t₀ t₁ : Compilation}

/-- A declared function's parameters are variables of its body's scope. -/
theorem Program.params_isValue (hl : p.Linked) (ht : p.Typed) {i : ScopeIndex} {f : FunctionDecl}
    (h : p.DeclaredIn i f) : ∀ param ∈ f.params, param.ty.isValue = true := by
  obtain ⟨s, hs, hf⟩ := h
  obtain ⟨-, s', hs', hparams⟩ := hl.body hs (Array.mem_toList_iff.mp hf)
  exact fun param hparam => ht.vars _ s' hs' param (hparams.subset hparam)

/-- A function called in the code had been declared when the code was begun. -/
theorem Compilation.Indexed.declares_of_function (hi : t₀.Indexed p) {sc : ScopeIndex}
    {name : String} {id : UInt16} {r : Routine}
    (h : (Site.of ⟨p, f, strict⟩ t₀ t₁).function sc name id r) :
    ∃ j g, p.FirstNamed j name g ∧ r.Declares g ∧ t₀.exe.routine? id = some r := by
  obtain ⟨t', h₀, hlook, hr⟩ := h
  obtain ⟨j, -, hj⟩ := List.exists_of_findSome?_eq_some hlook
  rw [h₀.functions] at hj
  obtain ⟨g, r₀, hfirst, hr₀, hdecl⟩ := hi.declared hj
  have hr' : t'.exe.routine? id = some r₀ := by rwa [routine?, h₀.routines]
  obtain rfl := Option.some.inj (hr.symm.trans hr')
  exact ⟨j, g, hfirst, hdecl, hr₀⟩

/-- What the code of a function refers to is in the tables of what the program is compiled to. -/
theorem Compilation.Indexed.tabled (hi : t₀.Indexed p) (hg : t₀.Grows p t₁)
    (hc : t₁.Continues p t) : (Site.of ⟨p, f, strict⟩ t₀ t₁).Tabled
      { t.exe with scopeCount := t.symbols.scopeCount, topVars := p.topVars t.symbols } := by
  have hscope : ∀ {i : ScopeIndex} {id : UInt16}, t₁.symbols.scopeId? i = some id →
      id.toNat < t.symbols.scopeCount := fun h => by
    obtain ⟨-, -, hlt, -⟩ := hc.symbols.after.numbered (hc.symbols.scopeIds h)
    exact hlt
  constructor
  case var =>
    rintro sc name info ⟨t', h₀, h₁, hlook⟩
    obtain ⟨i, -, hi⟩ := List.exists_of_findSome?_eq_some hlook
    obtain ⟨-, -, hid, -⟩ := h₀.after.symbols.declared? hi
    exact hscope (h₁.symbols.scopeIds hid)
  case function =>
    intro sc name id r h
    obtain ⟨-, -, -, -, hr₀⟩ := hi.declares_of_function h
    obtain ⟨r', hr', hsame⟩ := (hg.continues.trans hc).routines hr₀
    exact ⟨r', hr', hsame.params, hsame.result⟩
  case text =>
    intro s id h
    have h' := hc.strings.get? h
    dsimp only
    rw [h']
    rfl
  case host => exact fun h => hc.natives h
  case hidden =>
    rintro sc addr ⟨-, -, hid, -⟩
    exact hscope hid

/-- In a program of which all variables and results have proper types, all types are backed. -/
theorem Compilation.Indexed.backed (hi : t₀.Indexed p) (hl : p.Linked) (ht : p.Typed) :
    (Site.of ⟨p, f, strict⟩ t₀ t₁).Backed := by
  constructor
  case var =>
    rintro sc name info ⟨t', h₀, h₁, hlook⟩
    exact isValue_of_lookupVar? ht.vars h₀.after.symbols hlook
  case params =>
    intro sc name id r h ty hty
    obtain ⟨j, g, hfirst, hdecl, -⟩ := hi.declares_of_function h
    rw [hdecl.params] at hty
    obtain ⟨param, hparam, rfl⟩ := List.mem_map.mp hty
    exact Program.params_isValue hl ht hfirst.declaredIn.1 param hparam
  case result =>
    intro sc name id r h
    obtain ⟨j, g, hfirst, hdecl, -⟩ := hi.declares_of_function h
    rw [hdecl.result]
    exact ht.results hfirst.declaredIn.1

end Sites

/-! ## Certificates -/

namespace Program.Output

variable {p : Program} {strict : Bool} {t : Compilation} {e : Executable}

theorem exe_routine? (ho : p.Output strict t e) (id : UInt16) :
    e.routine? id = t.exe.routine? id := by
  rw [ho.exe]
  rfl

/-- **The code of a compiled function is certified.** -/
theorem certifies (ho : p.Output strict t e) (hl : p.Linked) (ht : p.Typed) {r : Routine}
    (hr : r ∈ e.routines) : ∃ heights, Certifies e r heights := by
  have hroutines : e.routines = t.exe.routines := by rw [ho.exe]
  have hid := ho.indexed.ids.routine?_of_mem (hroutines ▸ hr)
  obtain ⟨⟨j, f⟩, -, hcompiled⟩ := ho.source hid
  obtain ⟨t₀, t₁, code, r', hcode, -, hindexed, hr', hfin, hcont⟩ := hcompiled.made
  obtain rfl := Option.some.inj (hid.symm.trans hr')
  have htabled : (Site.of ⟨p, f, strict⟩ t₀ t₁).Tabled e := by
    rw [ho.exe]
    exact hindexed.tabled hcode.grows hcont
  have hbacked : (Site.of ⟨p, f, strict⟩ t₀ t₁).Backed := hindexed.backed hl ht
  obtain ⟨infos, m₁, m₂, hcount, hvars, hstores, hbody, hlast⟩ := hcode.emitted
  have hinfos : ∀ info ∈ infos, info.ty.isValue = true ∧ info.addr.scope.toNat < e.scopeCount :=
    fun info hinfo => by
      obtain ⟨_, -, hvar⟩ := Site.exists_param_of_zip hcount hvars info hinfo
      exact ⟨hbacked.var hvar, htabled.var hvar⟩
  have harity : r.arity = 0 + infos.length := by
    rw [Routine.arity, hfin.params, List.length_map, hcount, Nat.zero_add]
  have hlastBalanced : Balanced e (Site.of ⟨p, f, strict⟩ t₀ t₁).code m₂ 0
      (m₂ + f.lastOp.width) fun _ _ => False := by
    have hop : f.lastOp.isTerminator = true ∧ f.lastOp.effect = some ⟨0, 0⟩ := by
      unfold FunctionDecl.lastOp
      split <;> exact ⟨rfl, rfl⟩
    have heffect : e.effectOf f.lastOp .none = .ok ⟨0, 0⟩ := by
      simp only [effectOf, plainEffect, hop.2]
    refine balanced_instr hlast.1 heffect (Nat.le_refl 0) (fun hnot => ?_) (by rintro _ ⟨⟩)
    rw [hop.1] at hnot
    cases hnot
  have hstart : Balanced e (Site.of ⟨p, f, strict⟩ t₀ t₁).code 0 (0 + infos.length) m₁
      (exitAt m₁ 0) := by
    have hline : Steady e (fun _ _ => False) (0 + infos.length)
        (infos.map storeInstr ++ []) 0 :=
      steady_stores hinfos .nil
    rw [List.append_nil] at hline
    exact balanced_plain hstores hline
  have hall := (hstart.seq (raises_of_emitted htabled hbody (hbacked.phrase _ _) 0)).seq hlastBalanced
  have hsize : m₂ + f.lastOp.width = (Site.of ⟨p, f, strict⟩ t₀ t₁).code.size := hlast.2
  rw [hsize, hcode.code_eq, ← hfin.code, ← harity] at hall
  exact certifies_of_balanced hall

/-- A compiled program that verifies is all that its runs need. -/
theorem sound_of_verify (ho : p.Output strict t e) (hverify : e.verify = .ok ()) : e.Sound where
  pool := by
    rw [ho.exe]
    exact ho.indexed.strings.sound
  ids := by
    rw [ho.exe]
    exact ho.indexed.ids
  verified := hverify
  top := by
    intro r hr
    obtain ⟨f, r', -, -, hr', -, -, hparams, -, hdecl⟩ := ho.top
    obtain rfl := Option.some.inj (hr.symm.trans hr')
    rw [Routine.arity, hdecl.params, hparams, List.map_nil, List.length_nil]

/-- **A compiled program verifies**, if its variables have values. -/
theorem sound (ho : p.Output strict t e) (hl : p.Linked) (ht : p.Typed) : e.Sound := by
  refine ho.sound_of_verify (verify_ok_iff.mpr fun r hr => ?_)
  obtain ⟨heights, hheights⟩ := ho.certifies hl ht hr
  exact verifyRoutine_of_certifies hheights

end Program.Output

/-- What the stack holds for the innermost frame is not more than the depth that the verification
of its function gives. -/
def State.WithinDepth {σ : Type} (e : Executable) (s : State σ) : Prop :=
  ∃ frame frames r d, s.frames = frame :: frames ∧ e.routine? frame.function = some r ∧
    e.verifyRoutine r = .ok d ∧ frame.stackBase ≤ s.stack.size ∧
    s.stack.size - frame.stackBase ≤ d

theorem withinDepth_of_onPaths {σ : Type} {e : Executable} {c : Cursor} {s : State σ}
    (he : e.Sound) (hcert : ∀ r ∈ e.routines, ∃ heights, Certifies e r heights)
    (h : OnPaths e c s) : s.WithinDepth e := by
  obtain ⟨frame, frames, hframes, hr, hbase, hpath, -⟩ := h.frames
  have hmem := mem_of_routine? hr
  obtain ⟨d, hd⟩ := verify_ok_iff.mp he.verified _ hmem
  obtain ⟨heights, hheights⟩ := hcert _ hmem
  exact ⟨frame, frames, c.routine, d, hframes, hr, hd, hbase,
    hheights.le_depth_of_reaches hd hpath⟩

/-- **Compiled programs verify, with an exact depth.** Every program made by the program's own
operations that compiles passes verification; in each of its functions all paths to an instruction
come with one height of the stack; and whenever a run comes to an instruction, and when it has
ended, its innermost frame has at most the depth of its function on the stack. -/
theorem compile_verifies {p : Program} (hb : p.Built) (ht : p.Typed) (strict : Bool)
    {e : Executable} (h : p.compile strict = .ok e) :
    e.verify = .ok () ∧
    (∀ r ∈ e.routines, ∀ offset height height',
      Reaches e r offset height → Reaches e r offset height' → height = height') ∧
    ∀ {σ : Type} (config : Config) (bridge : Bridge σ) (vars : List HostVar) (sink : Sink)
      (host : σ) (c : Cursor) (s : State σ), Visits ⟨e, config, bridge⟩ vars sink host c s →
        s.WithinDepth e ∧
          ∀ s', RunM.advance ⟨e, config, bridge⟩ c s = .ok none s' → s'.WithinDepth e := by
  obtain ⟨t, ho⟩ := Program.compile_ok hb h
  have hl := hb.linked.1
  have he := ho.sound hl ht
  have hcert : ∀ r ∈ e.routines, ∃ heights, Certifies e r heights :=
    fun r hr => ho.certifies hl ht hr
  refine ⟨he.verified, fun r hr offset height height' h₁ h₂ => ?_,
    fun config bridge vars sink host c s hv => ?_⟩
  · obtain ⟨heights, hheights⟩ := hcert r hr
    exact Option.some.inj
      ((hheights.height_of_reaches h₁).symm.trans (hheights.height_of_reaches h₂))
  · have hpaths := onPaths_of_visits he hv
    have hdepth := withinDepth_of_onPaths he hcert hpaths
    refine ⟨hdepth, fun s' hs' => ?_⟩
    obtain ⟨hstack, hframes⟩ :=
      (RunM.wpRun_of_ok (wpRun_advance_onPaths he hpaths) hs').2.1 rfl
    obtain ⟨frame, frames, r, d, hf, hr, hd, hle, hwithin⟩ := hdepth
    exact ⟨frame, frames, r, d, hframes.trans hf, hr, hd, hstack ▸ hle, hstack ▸ hwithin⟩

/-- Doubles `n` by calls of `twice` while it is below 100, and prints it. -/
def doublingProgram : Program :=
  let p := Program.empty.declareVar 1 ⟨"n", .int⟩
  let p := (p.declareFunction Program.root "twice" .int [⟨"x", .int⟩]).2
  let p := p.define 2 [.ret (some (.binary .add (.load "x") (.load "x")))]
  let p := (p.addScope 1).2
  p.defineTop [
    .store "n" .assign (.int 1),
    .whileLoop (.binary .lt (.load "n") (.int 100))
      (.mk 3 [.store "n" .assign (.call "twice" [.load "n"])]),
    .print [.load "n"]]

theorem doublingProgram_built : doublingProgram.Built :=
  .defineTop (.addScope (.define (.declareFunction (.declareVar .empty _ _) (by decide) _ _ _)
    _ _) (by decide)) _

theorem doublingProgram_typed : doublingProgram.Typed := Program.typed_of_all (by decide +kernel)

theorem doublingProgram_compiles : ∃ e, doublingProgram.compile true = .ok e := by
  have hok : (doublingProgram.compile true).toOption.isSome = true := by cbv
  cases hc : doublingProgram.compile true with
  | error e =>
    rw [hc] at hok
    cases hok
  | ok e => exact ⟨e, rfl⟩

theorem doublingProgram_verifies : doublingProgram.Built ∧ doublingProgram.Typed ∧
    ∃ e, doublingProgram.compile true = .ok e ∧ e.verify = .ok () := by
  obtain ⟨e, hc⟩ := doublingProgram_compiles
  exact ⟨doublingProgram_built, doublingProgram_typed, e, hc,
    (compile_verifies doublingProgram_built doublingProgram_typed true hc).1⟩

end StackLang
