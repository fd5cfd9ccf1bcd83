import StackLang.Proofs.Compile.References
import StackLang.Proofs.Machine.Operations

/-!
# What compiled code stores

A store in the code of a phrase is the one that stores a variable of its type, or it is to a hidden slot
(`Emitted.stores`). `FunctionCode.stores` says so of all of the code of a function.
-/

namespace StackLang

open Code

/-! ## Instructions -/

namespace Site

/-- A store is to a hidden slot, or the one that stores the values of a variable. -/
def Stores (g : Site) (x : Opcode × Operand) : Prop :=
  ∀ addr, x.2 = .var addr → x.1.isStore = true →
    (∃ sc, g.hidden sc addr) ∨ ∃ sc name info, g.var sc name info ∧ x = storeInstr info

/-- All instructions from `a` to `b` store so. -/
def StoresIn (g : Site) (a b : Nat) : Prop := ∃ line, g.code.Line a line b ∧ ∀ x ∈ line, g.Stores x

variable {g : Site} {sc : ScopeIndex} {a b m : Nat} {line : List (Opcode × Operand)}
  {x : Opcode × Operand} {name : String} {info : VarInfo}

theorem stores_of_forall_ne (h : ∀ addr, x.2 ≠ .var addr) : g.Stores x :=
  fun addr haddr => absurd haddr (h addr)

theorem stores_of_not_isStore (h : x.1.isStore = false) : g.Stores x := fun _ _ hstore => by
  rw [h] at hstore
  cases hstore

theorem stores_plain (h : ∀ x ∈ line, x.2 = .none) : ∀ x ∈ line, g.Stores x := fun x hx =>
  stores_of_forall_ne fun addr haddr => by
    rw [h x hx] at haddr
    cases haddr

theorem stores_loadInstr (info : VarInfo) : g.Stores (loadInstr info) := by
  refine stores_of_not_isStore ?_
  unfold loadInstr
  cases info.ty <;> rfl

theorem stores_storeInstr (h : g.var sc name info) : g.Stores (storeInstr info) :=
  fun _ _ _ => .inr ⟨sc, name, info, h, rfl⟩

/-- The variable of a loop is an int. -/
theorem stores_intVar (h : g.var sc name info) (hint : info.ty = .int) :
    g.Stores (.storeIntVar, .var info.addr) := by
  have heq : storeInstr info = (.storeIntVar, .var info.addr) := by
    rw [storeInstr, hint]
    rfl
  exact heq ▸ stores_storeInstr h

theorem stores_hidden {addr : VarAddr} (h : g.hidden sc addr) :
    g.Stores (.storeIntVar, .var addr) := fun _ haddr _ => .inl ⟨sc, Operand.var.inj haddr ▸ h⟩

theorem storesIn_line (h : g.code.Line a line b) (hline : ∀ x ∈ line, g.Stores x) :
    g.StoresIn a b := ⟨line, h, hline⟩

theorem storesIn_plain (h : g.code.Line a line b) (hline : ∀ x ∈ line, x.2 = .none) :
    g.StoresIn a b := storesIn_line h (stores_plain hline)

/-- Instructions without operands, and one more. -/
theorem storesIn_last (h : g.code.Line a (line ++ [x]) b) (hline : ∀ y ∈ line, y.2 = .none)
    (hlast : g.Stores x) : g.StoresIn a b :=
  storesIn_line h (List.forall_mem_append.mpr
    ⟨stores_plain hline, List.forall_mem_singleton.mpr hlast⟩)

theorem storesIn_nil (a : Nat) : g.StoresIn a a := ⟨[], rfl, List.forall_mem_nil _⟩

theorem StoresIn.append (h : g.StoresIn a m) (h' : g.StoresIn m b) : g.StoresIn a b := by
  obtain ⟨xs, hxs, hx⟩ := h
  obtain ⟨ys, hys, hy⟩ := h'
  exact ⟨xs ++ ys, hxs.append hys, List.forall_mem_append.mpr ⟨hx, hy⟩⟩

end Site

open Site

variable {g : Site}

/-! ## Phrases -/

theorem BinaryCode.stores {op : BinaryOp} {left right ty : Ty} {a b : Nat}
    (h : BinaryCode g.code op left right a ty b) : g.StoresIn a b := by
  cases h with
  | arithmetic _ _ _ h =>
    exact storesIn_last h (plain_promotion _ _) (stores_of_forall_ne (by simp))
  | ints _ h => exact storesIn_plain h (by simp)
  | comparison _ _ _ h h' =>
    refine (storesIn_line h (List.forall_mem_append.mpr
      ⟨stores_plain (plain_promotion _ _), ?_⟩)).append (storesIn_plain h' (by simp))
    simp [Stores]

/-- **The stores in the code of a phrase.** -/
theorem Emitted.stores {sc : ScopeIndex} {phrase : Phrase} {a b : Nat} {types : List Ty}
    (h : Emitted g sc phrase a types b) : g.StoresIn a b := by
  induction h with
  | int h | double h | string _ h => exact storesIn_line h (by simp [Stores])
  | load _ h => exact storesIn_line h (List.forall_mem_singleton.mpr (stores_loadInstr _))
  | binary _ _ h ihright ihleft => exact (ihright.append ihleft).append h.stores
  | unary _ _ h ih => exact ih.append (storesIn_plain h (plain_unaryCode _ _))
  | call _ _ _ h ih => exact ih.append (storesIn_line h (by simp [Stores]))
  | argsCons _ _ _ h ihargs iharg =>
    exact (ihargs.append iharg).append (storesIn_plain h (plain_coercion _ _))
  | drop _ h ih => exact ih.append (storesIn_plain h (plain_dropCode _))
  | assign hvar _ _ h ih =>
    exact ih.append (storesIn_last h (plain_coercion _ _) (stores_storeInstr hvar))
  | update _ hvar _ hload hcode h ih =>
    have hloads := storesIn_line hload (List.forall_mem_singleton.mpr (stores_loadInstr _))
    have hstores := storesIn_line h (List.forall_mem_singleton.mpr (stores_storeInstr hvar))
    exact ((ih.append hloads).append hcode.stores).append hstores
  | inner _ ih | print _ ih | blockMk _ _ ih => exact ih
  | ifThen _ htest _ ihcond ihthen =>
    exact (ihcond.append (storesIn_line htest (by simp [Stores]))).append ihthen
  | ifElse _ htest _ hskip _ ihcond ihthen ihelse =>
    exact (((ihcond.append (storesIn_line htest (by simp [Stores]))).append ihthen).append
      (storesIn_line hskip (by simp [Stores]))).append ihelse
  | whileLoop _ htest _ hback ihcond ihbody =>
    exact ((ihcond.append (storesIn_line htest (by simp [Stores]))).append ihbody).append
      (storesIn_line hback (by simp [Stores]))
  | forLoop hvar hint hlimit _ _ hu _ _ hl htest _ hback _ _ ihupper ihlower ihbody =>
    have hkeep := storesIn_last hu (plain_boundCode _) (stores_hidden hlimit)
    have hinit := storesIn_last hl (plain_boundCode _) (stores_intVar hvar hint)
    have htests := storesIn_line htest (g := g) (by simp [Stores, Opcode.isStore])
    refine (((((ihupper.append hkeep).append ihlower).append hinit).append htests).append
      ihbody).append (storesIn_line hback ?_)
    simp only [List.forall_mem_cons]
    exact ⟨stores_of_not_isStore rfl, stores_of_not_isStore rfl, stores_of_not_isStore rfl,
      stores_intVar hvar hint, stores_of_not_isStore rfl, List.forall_mem_nil _⟩
  | ret _ h => exact storesIn_plain h (by simp)
  | retValue _ _ h ih =>
    refine ih.append (storesIn_plain h (List.forall_mem_append.mpr ⟨?_, by simp⟩))
    split_ifs
    · exact List.forall_mem_nil _
    · exact plain_coercion _ _
  | native _ _ hloads _ h =>
    refine (storesIn_line hloads fun x hx => ?_).append (storesIn_line h (by simp [Stores]))
    obtain ⟨info, -, rfl⟩ := List.mem_map.mp hx
    exact stores_loadInstr info
  | operandsCons _ h _ ihoperand ihoperands =>
    exact (ihoperand.append (storesIn_plain h (by simp))).append ihoperands
  | argsNil | operandsNil | stmtsNil => exact storesIn_nil _
  | stmtsCons _ _ ihs ih => exact ihs.append ih

/-- **The stores in the code of a function.** -/
theorem FunctionCode.stores {c : FunctionContext} {t₀ t₁ : Compilation} {code : Code}
    (h : FunctionCode c t₀ t₁ code) :
    ∃ line, code.Line 0 line code.size ∧ ∀ x ∈ line, (Site.of c t₀ t₁).Stores x := by
  obtain ⟨infos, m₁, m₂, hcount, hvars, hparams, hbody, hlast⟩ := h.emitted
  have hbegins : (Site.of c t₀ t₁).StoresIn 0 m₁ := storesIn_line hparams fun x hx => by
    obtain ⟨info, hinfo, rfl⟩ := List.mem_map.mp hx
    obtain ⟨_, -, hvar⟩ := exists_param_of_zip hcount hvars info hinfo
    exact stores_storeInstr hvar
  have hall := (hbegins.append hbody.stores).append (storesIn_plain hlast (by simp))
  rwa [StoresIn, h.code_eq] at hall

end StackLang
