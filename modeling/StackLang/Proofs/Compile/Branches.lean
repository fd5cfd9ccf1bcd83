import StackLang.Proofs.Compile.References
import StackLang.Proofs.Compile.Verified

/-!
# Branches resolve

`compile_branches_resolve`: the code of every function of a compiled program can be read from end to
end, ends with a return or a stop, and branches only to its own instructions. That holds of all of
the code, also of what stands behind a return and no path leads to; and of every program that
compiles, whether or not the operations on programs have made it.
-/

namespace StackLang

/-- The code can be read from end to end, as these instructions. It ends with a return or a stop,
and every branch leads to one of them. -/
structure Code.Closed (c : Code) (instrs : Array Instr) : Prop where
  read : c.instructions = .ok instrs
  last : ∃ i, instrs.back? = some i ∧ (i.op = .ret ∨ i.op = .stop)
  branches : ∀ i ∈ instrs, i.op.isBranch = true → ∃ target, i.operand = .target target ∧
    target < c.size ∧ ∃ j ∈ instrs, j.offset = target

theorem FunctionCode.closed {c : FunctionContext} {t₀ t₁ : Compilation} {code : Code}
    (h : FunctionCode c t₀ t₁ code) : ∃ instrs, code.Closed instrs := by
  have hall : ∀ name, (fun _ : String => true) name = true := fun _ => rfl
  obtain ⟨m, ⟨line, hline, hrefers⟩, hlast⟩ := h.swept (.inr hall)
  rw [h.code_eq] at hline hrefers
  have hcode := hline.append hlast
  obtain ⟨instrs, hread, hoffsets, hinstrs⟩ := Code.instructionsFrom_of_line hcode #[]
  rw [Array.empty_append] at hread
  refine ⟨instrs, hread, ?_, fun i hi hbranch => ?_⟩
  · have hback := congrArg List.getLast? hinstrs
    rw [List.getLast?_map, List.getLast?_concat] at hback
    obtain ⟨i, hi, hop⟩ := Option.map_eq_some_iff.mp hback
    have hlastOp : i.op = c.function.lastOp := (Prod.ext_iff.mp hop).1
    refine ⟨i, by rw [← hi, Array.getLast?_toList], ?_⟩
    rw [hlastOp, FunctionDecl.lastOp]
    split
    · exact .inr rfl
    · exact .inl rfl
  · have hmem : (i.op, i.operand) ∈ line ++ [(c.function.lastOp, .none)] :=
      hinstrs ▸ List.mem_map_of_mem (f := fun i : Instr => (i.op, i.operand))
        (Array.mem_toList_iff.mpr hi)
    have hkind : i.operand.kind = .branch :=
      (hcode.kind _ hmem).trans (of_decide_eq_true hbranch)
    obtain ⟨target, htarget⟩ : ∃ target, i.operand = .target target := by
      cases hx : i.operand with
      | target target => exact ⟨target, rfl⟩
      | _ => rw [hx] at hkind; cases hkind
    rcases List.mem_append.mp hmem with hmem | hmem
    · have hjoint : code.Joint 0 m target := by
        have := hrefers _ hmem
        rwa [htarget] at this
      have hoffset := hjoint.mem_lineOffsets hlast hcode
      refine ⟨target, htarget, (hcode.bounds hoffset).2, ?_⟩
      rw [← hoffsets] at hoffset
      obtain ⟨j, hj, hjt⟩ := List.mem_map.mp hoffset
      exact ⟨j, Array.mem_toList_iff.mp hj, hjt⟩
    · cases (Prod.ext_iff.mp (List.mem_singleton.mp hmem)).2.symm.trans htarget

/-- **Every branch resolves**, in every function of every program that compiles. -/
theorem compile_branches_resolve {p : Program} {strict : Bool} {e : Executable}
    (h : p.compile strict = .ok e) : ∀ r ∈ e.routines, ∃ instrs, r.code.Closed instrs := by
  intro r hr
  obtain ⟨t, ht, rfl⟩ := Program.compile_traversed h
  have hid : t.exe.routine? r.id = some r := ht.indexed.ids.routine?_of_mem hr
  obtain ⟨⟨j, f⟩, -, hcompiled⟩ := ht.exists_compiled (Nat.zero_le _) hid
  obtain ⟨t₀, t₁, code, r', hcode, -, -, hr', hfin, -⟩ := hcompiled.made
  obtain rfl := Option.some.inj (hid.symm.trans hr')
  exact hfin.code ▸ hcode.closed

theorem doublingProgram_branches : ∃ e, doublingProgram.compile true = .ok e ∧
    ∀ r ∈ e.routines, ∃ instrs, r.code.Closed instrs := by
  obtain ⟨e, hc⟩ := doublingProgram_compiles
  exact ⟨e, hc, compile_branches_resolve hc⟩

end StackLang
