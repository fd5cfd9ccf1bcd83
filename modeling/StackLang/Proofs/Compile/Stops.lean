import StackLang.Proofs.Compile.Balance
import StackLang.Proofs.Compile.Made

/-!
# Where a program stops

No phrase has code that stops the run (`Emitted.unstopped`). Only the last instruction of a function
does, and only if the function has the name of the one that a run starts with (`compile_stops`): that
one, or another of its name in a scope further inside.
-/

namespace StackLang

open Code

/-! ## Phrases -/

/-- No instruction from `a` to `b` stops the run. -/
def Code.Unstopped (c : Code) (a b : Nat) : Prop :=
  ∃ line, c.Line a line b ∧ ∀ i ∈ line, i.1 ≠ .stop

variable {c : Code} {a b m : Nat} {instrs : List (Opcode × Operand)}

namespace Code

theorem unstopped_nil (a : Nat) : c.Unstopped a a := ⟨[], rfl, List.forall_mem_nil _⟩

theorem unstopped_line (h : c.Line a instrs b) (hall : ∀ i ∈ instrs, i.1 ≠ .stop) :
    c.Unstopped a b := ⟨instrs, h, hall⟩

theorem Unstopped.append (h : c.Unstopped a m) (h' : c.Unstopped m b) : c.Unstopped a b := by
  obtain ⟨xs, hxs, hx⟩ := h
  obtain ⟨ys, hys, hy⟩ := h'
  exact ⟨xs ++ ys, hxs.append hys, List.forall_mem_append.mpr ⟨hx, hy⟩⟩

/-- Behind a phrase stand these instructions. -/
theorem Unstopped.line (h : c.Unstopped a m) (hline : c.Line m instrs b)
    (hall : ∀ i ∈ instrs, i.1 ≠ .stop) : c.Unstopped a b :=
  h.append (unstopped_line hline hall)

end Code

theorem ne_stop_of_not_terminator {op : Opcode} (h : op.isTerminator = false) : op ≠ .stop := by
  rintro rfl
  cases h

theorem loadInstr_ne_stop (info : VarInfo) : (loadInstr info).1 ≠ .stop := by
  unfold loadInstr loadOp
  split <;> [split; skip] <;> nofun

theorem storeInstr_ne_stop (info : VarInfo) : (storeInstr info).1 ≠ .stop := by
  unfold storeInstr storeOp
  split <;> [split; skip] <;> nofun

theorem coercion_ne_stop (found ty : Ty) : ∀ i ∈ coercion found ty, i.1 ≠ .stop := fun i hi =>
  ne_stop_of_not_terminator (coercion_not_terminator found ty i hi)

theorem BinaryCode.unstopped {op : BinaryOp} {left right ty : Ty}
    (h : BinaryCode c op left right a ty b) : c.Unstopped a b := by
  have hpromotion : ∀ i ∈ promotion left right, i.1 ≠ .stop := fun i hi =>
    ne_stop_of_not_terminator (promotion_not_terminator left right i hi)
  cases h with
  | arithmetic _ _ _ h =>
    refine unstopped_line h (List.forall_mem_append.mpr ⟨hpromotion, List.forall_mem_singleton.mpr ?_⟩)
    unfold arithmeticOp
    split <;> nofun
  | ints hop h =>
    refine unstopped_line h (List.forall_mem_singleton.mpr ?_)
    cases op <;> cases hop <;> nofun
  | @comparison _ _ negated _ _ _ hop _ _ h h' =>
    refine Unstopped.line (unstopped_line h (List.forall_mem_append.mpr ⟨hpromotion, ?_⟩)) h' (by simp)
    have hcompare : compareOp (promoted left right) ≠ .stop := by
      unfold compareOp
      split <;> nofun
    have hjump : negated ≠ .stop := by
      cases op <;> cases hop <;> nofun
    simpa using ⟨hcompare, hjump⟩

/-- **The code of a phrase does not stop the run.** -/
theorem Emitted.unstopped {g : Site} {sc : ScopeIndex} {phrase : Phrase} {types : List Ty}
    (h : Emitted g sc phrase a types b) : g.code.Unstopped a b := by
  induction h with
  | int h | double h | string _ h | ret _ h => exact unstopped_line h (by simp)
  | load _ h => exact unstopped_line h (by simpa using loadInstr_ne_stop _)
  | binary _ _ h ihright ihleft => exact (ihright.append ihleft).append h.unstopped
  | @unary _ op _ ty _ _ _ _ _ h ih =>
    refine ih.line h ?_
    cases op <;> cases ty <;> simp [unaryCode]
  | call _ _ _ h ih => exact ih.line h (by simp)
  | argsNil | operandsNil | stmtsNil => exact unstopped_nil _
  | argsCons _ _ _ h ihargs iharg => exact (ihargs.append iharg).line h (coercion_ne_stop _ _)
  | @drop _ _ ty _ _ _ _ h ih =>
    refine ih.line h ?_
    cases ty <;> simp [dropCode]
  | assign _ _ _ h ih =>
    exact ih.line h (List.forall_mem_append.mpr
      ⟨coercion_ne_stop _ _, List.forall_mem_singleton.mpr (storeInstr_ne_stop _)⟩)
  | update _ _ _ hload hcode h ih =>
    have hloads := ih.line hload (List.forall_mem_singleton.mpr (loadInstr_ne_stop _))
    exact (hloads.append hcode.unstopped).line h
      (List.forall_mem_singleton.mpr (storeInstr_ne_stop _))
  | inner _ ih | print _ ih | blockMk _ _ ih => exact ih
  | ifThen _ htest _ ih ih' => exact (ih.line htest (by simp)).append ih'
  | ifElse _ htest _ hskip _ ih ih' ih'' =>
    exact (((ih.line htest (by simp)).append ih').line hskip (by simp)).append ih''
  | whileLoop _ htest _ hback ih ih' =>
    exact ((ih.line htest (by simp)).append ih').line hback (by simp)
  | forLoop _ _ _ _ _ hu _ _ hl htest _ hback _ _ ihupper ihlower ihbody =>
    have hset : ∀ {ty : Ty} {addr : VarAddr},
        ∀ i ∈ boundCode ty ++ [(.storeIntVar, .var addr)], i.1 ≠ .stop := fun {ty addr} =>
      List.forall_mem_append.mpr ⟨fun i hi =>
        ne_stop_of_not_terminator (boundCode_not_terminator ty i hi), by simp⟩
    have hbounds := ((ihupper.line hu hset).append ihlower).line hl hset
    exact ((hbounds.line htest (by simp)).append ihbody).line hback (by simp)
  | retValue _ _ h ih =>
    refine ih.line h (List.forall_mem_append.mpr ⟨?_, by simp⟩)
    split
    · exact List.forall_mem_nil _
    · exact coercion_ne_stop _ _
  | native _ _ hloads _ h =>
    refine (unstopped_line hloads fun i hi => ?_).line h (by simp)
    obtain ⟨info, -, rfl⟩ := List.mem_map.mp hi
    exact loadInstr_ne_stop info
  | @operandsCons _ _ _ ty _ _ _ _ _ h _ ih ih' =>
    refine (ih.line h ?_).append ih'
    cases ty <;> simp [printOp]
  | stmtsCons _ _ ih ih' => exact ih.append ih'

/-! ## Functions and programs -/

/-- A function whose code stops the run has the name of the one that a run starts with. -/
theorem FunctionCode.name_of_stop {c : FunctionContext} {t₀ t₁ : Compilation} {code : Code}
    (h : FunctionCode c t₀ t₁ code) {ip : Nat} {i : Instr} (hip : code.Joint 0 code.size ip)
    (hi : code.decodeAt ip = .ok i) (hstop : i.op = .stop) : c.function.name = Program.topName := by
  obtain ⟨infos, m₁, m₂, -, -, hparams, hbody, hlast⟩ := h.emitted
  have hstores : (Site.of c t₀ t₁).code.Unstopped 0 m₁ := unstopped_line hparams fun i hi => by
    obtain ⟨info, -, rfl⟩ := List.mem_map.mp hi
    exact storeInstr_ne_stop info
  obtain ⟨line, hline, hall⟩ := hstores.append hbody.unstopped
  have hcode := hline.append hlast
  rw [h.code_eq] at hcode
  rcases List.mem_append.mp (hip.mem_line (ne_size_of_decodeAt hi) hi hcode) with hmem | hmem
  · exact absurd hstop (hall _ hmem)
  · have hop : i.op = c.function.lastOp := congrArg Prod.fst (List.mem_singleton.mp hmem)
    rw [hstop, FunctionDecl.lastOp] at hop
    by_contra hname
    rw [if_neg hname] at hop
    cases hop

/-- **Only functions of one name stop the run**, in every program that compiles. -/
theorem compile_stops {p : Program} {strict : Bool} {e : Executable}
    (h : p.compile strict = .ok e) {r : Routine} (hr : r ∈ e.routines) {ip : Nat} {i : Instr}
    (hip : r.code.Joint 0 r.code.size ip) (hi : r.code.decodeAt ip = .ok i)
    (hstop : i.op = .stop) : r.name = Executable.topName := by
  obtain ⟨t, ht, rfl⟩ := Program.compile_traversed h
  obtain ⟨_, f, _, _, m⟩ := ht.exists_made hr
  rw [m.finished.name]
  exact m.code.name_of_stop hip hi hstop

end StackLang
