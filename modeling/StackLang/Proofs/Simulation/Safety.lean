import StackLang.Proofs.Simulation.Programs

/-!
# Compiled programs are type-safe

`compile_type_safe`: no run of a compiled program meets a trap that well-typed code has no use for, as a
stack underflow, a value of a wrong type or a variable that is not there. What a function of the host
returns is the one exception: only the run can tell its type.
-/

namespace StackLang

open RunM
open MachineM (wp)
open Reference (Ending)

variable {σ : Type} {z : Setting σ} {env : Env σ} {c : Cursor} {s s' : State σ} {fault : Fault}
  {vars : List HostVar} {ending : Ending σ} {out : Outcome σ}

/-- The traps of code that is not well-typed or not well-formed. -/
def Trap.isCodeError : Trap → Bool
  | stackUnderflow _ | typeMismatch _ _ | undecodable _ | malformed _ | unknownFunction _
  | unknownNative _ | unknownString _ | unknownScope _ | inactiveVar _ | outsideFrame _
  | noFrame | noCaller | rejected _ | noTop => true
  | _ => false

/-- What a function of the host has returned cannot be made a value of the type declared. -/
def Fault.OfNativeResult (e : Executable) (fault : Fault) : Prop :=
  ∃ r ∈ e.routines, ∃ offset id native found, fault.location = some ⟨r.name, offset⟩ ∧
    r.code.At offset .callNative (.native id) ∧ e.native? id = some native ∧
    fault.trap = .typeMismatch native.result found

/-! ## Where faults are -/

theorem MachineM.wp_of_all {α : Type} {m : MachineM σ α} {Q : α → State σ → Prop}
    {E : Trap → State σ → Prop} (hQ : ∀ a s, Q a s) (hE : ∀ trap s, E trap s) : wp m Q E s := by
  unfold wp
  split
  · exact hQ _ _
  · exact hE _ _

/-- An instruction's fault says where the instruction is, unless its caller is missing. -/
theorem location_of_advance (h : advance env c s = .error fault s') :
    fault.location = some ⟨c.routine.name, c.ip⟩ ∨ fault.trap = .noCaller ∨
      ∃ id, fault.trap = .unknownFunction id := by
  refine wpRun_of_error (Q := fun _ _ => True) (E := fun fault _ =>
    fault.location = some ⟨c.routine.name, c.ip⟩ ∨ fault.trap = .noCaller ∨
      ∃ id, fault.trap = .unknownFunction id) (wp_advance ?_) h
  have hat : ∀ (trap : Trap) (s' : State σ), (faultAt env.exe c trap s').location =
      some ⟨c.routine.name, c.ip⟩ := fun _ _ => rfl
  have hresume : ∀ s' : State σ, wp (resume env.exe) (fun _ _ => True) (fun trap _ =>
      ({ trap } : Fault).location = some ⟨c.routine.name, c.ip⟩ ∨ trap = .noCaller ∨
        ∃ id, trap = .unknownFunction id) s' := by
    intro s'
    simp only [resume, MachineM.wp_bind, MachineM.wp_get]
    cases s'.frames with
    | nil => exact .inr (.inl rfl)
    | cons frame frames =>
      dsimp only
      cases env.exe.routine? frame.function with
      | none => exact .inr (.inr ⟨_, rfl⟩)
      | some r => trivial
  refine MachineM.wp_of_all (fun flow s' => ?_) fun trap s' => .inl (hat trap s')
  cases flow with
  | next _ | halt => trivial
  | call _ _ => exact MachineM.wp_of_all (fun _ _ => trivial) fun trap s' => .inl (hat trap s')
  | ret =>
    exact ⟨fun _ => trivial, fun _ => MachineM.wp_of_all (fun _ s' => hresume s')
      fun trap s' => .inl (hat trap s')⟩

/-! ## Safety -/

namespace Setting

theorem Cut.not_isCodeError {trap : Trap} (h : z.Cut trap) : trap.isCodeError = false := by
  cases h <;> rfl

/-- A run that ends where the evaluation does has no fault of its code. -/
theorem Closes.safe (h : z.Closes vars ending c s) (hf : Final z.env vars c s out) (hz : z.Sound)
    (hfault : out.result = .error fault) :
    fault.trap.isCodeError = false ∨ fault.OfNativeResult z.env.exe := by
  cases h with
  | done h =>
    cases hf with
    | failed ha =>
      cases hfault
      exact .inl (wpRun_of_error h ha).not_isCodeError
    | @ended s' ha =>
      obtain ⟨-, acts, hst, hagree, -⟩ := wpRun_of_ok h ha
      obtain ⟨vars', hback, -⟩ := hagree.readBack_ok hz hst vars
      unfold conclude at hfault
      rw [hback] at hfault
      split at hfault
      · cases hfault
        exact .inl rfl
      · cases hfault
  | @failed trap _ _ _ h =>
    cases hf with
    | ended ha => exact (wpRun_of_ok h.2 ha).elim
    | @failed fault' s' ha =>
      cases hfault
      rcases wpRun_of_error h.2 ha with hcut | ⟨rfl, -⟩
      · exact .inl hcut.not_isCodeError
      · have hraised := h.1
        have hlocation := location_of_advance ha
        generalize htrap : fault.trap = trap at hraised hlocation
        cases hraised with
        | @typeMismatch id native hr hi hn found =>
          rcases hlocation with hlocation | htrap | ⟨_, htrap⟩
          · exact .inr ⟨_, hr, _, id, native, found, hlocation, hi, hn, htrap⟩
          · cases htrap
          · cases htrap
        | _ => exact .inl (by rfl)

end Setting

/-- **Compiled programs are type-safe.** Whatever the host's variables, its functions and the limits, no
run of a program compiled with strict returns meets a stack underflow, a value of a wrong type, an
instruction that is none, a function, a host function, a string or a scope that does not exist, or a
variable that no active function has. What remains of them is that a function of the host returns what
cannot be made a value of the type declared. -/
theorem compile_type_safe {p : Program} (hb : p.Built) (hw : p.WellFormed fun _ => true)
    {e : Executable} (h : p.compile true = .ok e) (config : Config) (bridge : Bridge σ)
    (vars : List HostVar) (sink : Sink) (host : σ) (fuel : Nat) (out : Outcome σ)
    (hrun : Env.run ⟨e, config, bridge⟩ vars sink host fuel = some out) (fault : Fault)
    (hfault : out.result = .error fault) :
    fault.trap.isCodeError = false ∨ fault.OfNativeResult e := by
  obtain ⟨t, ho⟩ := Program.compile_ok hb h
  let z : Setting σ :=
    { program := p, callable := fun _ => true, strict := true, compilation := t,
      env := ⟨e, config, bridge⟩, sink }
  have hz : z.Sound := ⟨⟨ho, hb.linked.1, hw.bodies⟩, rfl, hw.toTyped, hw.params⟩
  rcases hz.ending_of_run hrun with ⟨fault', hfault', hcut | hmisfit⟩ |
    ⟨ending, c, s, -, hcloses, hfinal⟩
  · cases hfault.symm.trans hfault'
    exact .inl hcut.not_isCodeError
  · cases hfault.symm.trans hfault'
    generalize fault.trap = trap at hmisfit
    cases hmisfit
    exact .inl rfl
  · exact hcloses.safe hfinal hz hfault

/-- The host gives `n` a text, which the run does not take. -/
theorem doublingProgram_safe : doublingProgram.Built ∧
    doublingProgram.WellFormed (fun _ => true) ∧
    ∃ e, doublingProgram.compile true = .ok e ∧
      ∃ out fault, Env.run ⟨e, {}, noHost⟩ [⟨"n", .string "five"⟩] {} () 9 = some out ∧
        out.result = .error fault ∧
        (fault.trap.isCodeError = false ∨ fault.OfNativeResult e) := by
  have hw : doublingProgram.WellFormed fun _ => true :=
    Program.wellFormed_of_all doublingProgram_typed (by decide +kernel)
  have hfails : ((doublingProgram.compile true).toOption.bind fun e =>
      (Env.run ⟨e, {}, noHost⟩ [⟨"n", .string "five"⟩] {} () 9).map (·.result.isOk)) =
        some false := by cbv
  cases hc : doublingProgram.compile true with
  | error e =>
    rw [hc] at hfails
    cases hfails
  | ok e =>
    rw [hc] at hfails
    obtain ⟨out, hrun, hout⟩ := Option.map_eq_some_iff.mp hfails
    cases hfault : out.result with
    | ok _ =>
      rw [hfault] at hout
      cases hout
    | error fault =>
      exact ⟨doublingProgram_built, hw, e, rfl, out, fault, hrun, hfault,
        compile_type_safe doublingProgram_built hw hc {} noHost _ {} () 9 out hrun fault hfault⟩

end StackLang
