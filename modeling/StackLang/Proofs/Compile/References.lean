import StackLang.Proofs.Compile.Owned
import StackLang.Proofs.Verify.Certificates

/-!
# What compiled code refers to

`FunctionCode.swept`: the code of a function can be read from end to end, branches only to its own
instructions, and refers to nothing but what has been found from the function's scopes.
-/

namespace StackLang

open Code Site

variable {callable : String → Bool}

/-- The code of a function: what it refers to, and the instruction behind it. -/
theorem FunctionCode.swept {c : FunctionContext} {t₀ t₁ : Compilation} {code : Code}
    (h : FunctionCode c t₀ t₁ code)
    (hw : Node.allWellFormed c.source callable c.function.body.scope c.function.body.statements = true ∨
      ∀ name, callable name = true) :
    ∃ m, (Site.of c t₀ t₁).Swept callable 0 m ∧
      code.Line m [(c.function.lastOp, .none)] code.size := by
  have hblock : (Site.of c t₀ t₁).block c.function.body.scope :=
    h.block _ c.function.body_mem_frameScopes
  obtain ⟨infos, m₁, m₂, hcount, hvars, hparams, hbody, hlast⟩ := h.emitted
  refine ⟨m₂, Swept.append (sweeps_line hparams fun i hi => ?_) (hbody.swept hblock hw),
    h.code_eq ▸ hlast⟩
  obtain ⟨info, hinfo, rfl⟩ := List.mem_map.mp hi
  obtain ⟨_, -, hvar⟩ := exists_param_of_zip hcount hvars info hinfo
  exact refers_storeInstr hblock hvar

/-- All of the code of a function refers to what the function may refer to. -/
theorem FunctionCode.sweeps {c : FunctionContext} {t₀ t₁ : Compilation} {code : Code}
    (h : FunctionCode c t₀ t₁ code)
    (hw : Node.allWellFormed c.source callable c.function.body.scope c.function.body.statements = true ∨
      ∀ name, callable name = true) :
    ∃ line, code.Line 0 line code.size ∧
      ∀ i ∈ line, (Site.of c t₀ t₁).Refers callable (code.Joint 0 code.size) i.2 := by
  obtain ⟨m, ⟨line, hline, hrefers⟩, hlast⟩ := h.swept hw
  rw [h.code_eq] at hline hrefers
  refine ⟨_, hline.append hlast, List.forall_mem_append.mpr
    ⟨fun i hi => (hrefers i hi).mono fun _ ht => ht.mono (.refl 0) hlast.leads, ?_⟩⟩
  exact List.forall_mem_singleton.mpr trivial

/-- What an instruction of a function refers to. -/
theorem FunctionCode.refers {c : FunctionContext} {t₀ t₁ : Compilation} {code : Code}
    (h : FunctionCode c t₀ t₁ code)
    (hw : Node.allWellFormed c.source callable c.function.body.scope c.function.body.statements = true ∨
      ∀ name, callable name = true) {ip : Nat} {i : Instr} (hip : code.Joint 0 code.size ip)
    (hi : code.decodeAt ip = .ok i) :
    (Site.of c t₀ t₁).Refers callable (code.Joint 0 code.size) i.operand := by
  obtain ⟨line, hline, hrefers⟩ := h.sweeps hw
  exact hrefers _ (hip.mem_line (ne_size_of_decodeAt hi) hi hline)

end StackLang
