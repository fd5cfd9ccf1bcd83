import StackLang.Proofs.Compile.Emitted
import StackLang.Proofs.Tree.WellFormed

/-!
# What the code of a phrase refers to

`Emitted.swept`: from its first byte to its last the code of a phrase is a sequence of instructions,
a branch in it leads to the beginning of one of them or to where they end, a string in it has been
interned, and a variable or a function in it has been found from a scope of the function. Only
functions with `callable` names are called, if the phrase calls no others or every name is callable.
It says so of all of the code, also of what no path leads to.
-/

namespace StackLang

open Code

/-! ## Operands -/

namespace Site

/-- An operand is what the code of a function may refer to, with branches that lead to `B` and calls
of functions with `callable` names. -/
def Refers (g : Site) (callable : String → Bool) (B : Nat → Prop) : Operand → Prop
  | .var addr => ∃ sc, g.block sc ∧ (g.hidden sc addr ∨ ∃ name info, g.var sc name info ∧ info.addr = addr)
  | .function id => ∃ sc name callee, callable name = true ∧ g.block sc ∧ g.function sc name id callee
  | .string id => ∃ text, g.text text id
  | .target t => B t
  | _ => True

variable {g : Site} {callable : String → Bool} {B B' : Nat → Prop} {sc : ScopeIndex} {a a' b b' m t : Nat}
  {line : List (Opcode × Operand)}

theorem Refers.mono {x : Operand} (h : g.Refers callable B x) (hB : ∀ t, B t → B' t) :
    g.Refers callable B' x := by
  cases x with
  | target t => exact hB t h
  | _ => exact h

theorem refers_var {name : String} {info : VarInfo} (hsc : g.block sc) (h : g.var sc name info) :
    g.Refers callable B (.var info.addr) := ⟨sc, hsc, .inr ⟨name, info, h, rfl⟩⟩

theorem refers_hidden {addr : VarAddr} (hsc : g.block sc) (h : g.hidden sc addr) :
    g.Refers callable B (.var addr) := ⟨sc, hsc, .inl h⟩

theorem refers_loadInstr {name : String} {info : VarInfo} (hsc : g.block sc)
    (h : g.var sc name info) : g.Refers callable B (loadInstr info).2 := by
  unfold loadInstr
  split
  · exact refers_var hsc h
  · trivial

theorem refers_storeInstr {name : String} {info : VarInfo} (hsc : g.block sc)
    (h : g.var sc name info) : g.Refers callable B (storeInstr info).2 := by
  unfold storeInstr
  split
  · exact refers_var hsc h
  · trivial

/-- All instructions from `a` to `b` have operands to which the function may refer. -/
def Sweeps (g : Site) (callable : String → Bool) (B : Nat → Prop) (a b : Nat) : Prop :=
  ∃ line, g.code.Line a line b ∧ ∀ i ∈ line, g.Refers callable B i.2

/-- The same, and no branch leads out. -/
def Swept (g : Site) (callable : String → Bool) (a b : Nat) : Prop :=
  g.Sweeps callable (g.code.Joint a b) a b

theorem Sweeps.leads (h : g.Sweeps callable B a b) : g.code.Leads a b := by
  obtain ⟨line, h, -⟩ := h
  exact ⟨line, h⟩

theorem Sweeps.append (h : g.Sweeps callable B a m) (h' : g.Sweeps callable B m b) :
    g.Sweeps callable B a b := by
  obtain ⟨xs, hxs, hx⟩ := h
  obtain ⟨ys, hys, hy⟩ := h'
  exact ⟨xs ++ ys, hxs.append hys, List.forall_mem_append.mpr ⟨hx, hy⟩⟩

theorem sweeps_line (h : g.code.Line a line b) (hline : ∀ i ∈ line, g.Refers callable B i.2) :
    g.Sweeps callable B a b := ⟨line, h, hline⟩

theorem refers_plain (h : ∀ i ∈ line, i.2 = .none) : ∀ i ∈ line, g.Refers callable B i.2 := fun i hi => by
  rw [h i hi]
  trivial

/-- Instructions without operands. -/
theorem sweeps_plain (h : g.code.Line a line b) (hline : ∀ i ∈ line, i.2 = .none) :
    g.Sweeps callable B a b := sweeps_line h (refers_plain hline)

/-- Instructions without operands, and one that refers to something. -/
theorem sweeps_last {last : Opcode × Operand} (h : g.code.Line a (line ++ [last]) b)
    (hline : ∀ i ∈ line, i.2 = .none) (hlast : g.Refers callable B last.2) : g.Sweeps callable B a b :=
  sweeps_line h (List.forall_mem_append.mpr ⟨refers_plain hline, List.forall_mem_singleton.mpr hlast⟩)

/-- A part of a longer piece of code. -/
theorem Swept.part (h : g.Swept callable m t) (ha : g.code.Leads a m) (hb : g.code.Leads t b) :
    g.Sweeps callable (g.code.Joint a b) m t := by
  obtain ⟨line, hline, hrefers⟩ := h
  exact ⟨line, hline, fun i hi => (hrefers i hi).mono fun _ ht => ht.mono ha hb⟩

theorem Swept.append (h : g.Swept callable a m) (h' : g.Swept callable m b) : g.Swept callable a b :=
  (h.part (.refl a) h'.leads).append (h'.part h.leads (.refl b))

theorem swept_nil (a : Nat) : g.Swept callable a a := ⟨[], rfl, List.forall_mem_nil _⟩

end Site

/-! ## The pieces of code without branches -/

theorem plain_coercion (found ty : Ty) : ∀ i ∈ coercion found ty, i.2 = .none := by
  cases found <;> cases ty <;> simp [coercion]

theorem plain_promotion (left right : Ty) : ∀ i ∈ promotion left right, i.2 = .none := by
  unfold promotion
  split_ifs <;> simp

theorem plain_boundCode (ty : Ty) : ∀ i ∈ boundCode ty, i.2 = .none := by
  cases ty <;> simp [boundCode]

theorem plain_dropCode (ty : Ty) : ∀ i ∈ dropCode ty, i.2 = .none := by
  cases ty <;> simp [dropCode]

theorem plain_unaryCode (op : UnaryOp) (ty : Ty) : ∀ i ∈ unaryCode op ty, i.2 = .none := by
  cases op <;> simp [unaryCode]

open Site

variable {g : Site} {callable : String → Bool}

theorem BinaryCode.swept {op : BinaryOp} {left right ty : Ty} {a b : Nat}
    (h : BinaryCode g.code op left right a ty b) : g.Swept callable a b := by
  cases h with
  | arithmetic _ _ _ h => exact sweeps_last h (plain_promotion _ _) trivial
  | ints _ h => exact sweeps_plain h (by simp)
  | comparison _ _ _ h h' =>
    have hstop := (h.leads.trans h'.leads).joint_stop
    refine (sweeps_line h (List.forall_mem_append.mpr
      ⟨refers_plain (plain_promotion _ _), ?_⟩)).append (sweeps_plain h' (by simp))
    simp only [List.forall_mem_cons]
    exact ⟨trivial, trivial, ⟨h.leads, h'.leads⟩, trivial, hstop, List.forall_mem_nil _⟩

/-! ## Phrases -/

/-- Blocks are nested as their scopes are, and the functions called are `callable`. -/
def Phrase.wellFormed (p : Program) (callable : String → Bool) (sc : ScopeIndex) : Phrase → Bool
  | .expr node | .stmt node => node.wellFormed p callable sc
  | .args nodes | .stmts nodes | .operands nodes => Node.allWellFormed p callable sc nodes
  | .block body => body.wellFormed p callable sc

/-- **The code of a phrase** is read from end to end, and refers to nothing but itself and what has
been found from the scopes of its function. -/
theorem Emitted.swept {p : Program} {sc : ScopeIndex} {phrase : Phrase} {a b : Nat}
    {types : List Ty} (h : Emitted g sc phrase a types b) (hsc : g.block sc)
    (hw : phrase.wellFormed p callable sc = true ∨ ∀ name, callable name = true) :
    g.Swept callable a b := by
  induction h with
  | int h => exact sweeps_line h (by simp [Refers])
  | double h => exact sweeps_line h (by simp [Refers])
  | string htext h => exact sweeps_line h (List.forall_mem_singleton.mpr ⟨_, htext⟩)
  | load hvar h => exact sweeps_line h (by simpa using refers_loadInstr hsc hvar)
  | binary _ _ h ihright ihleft =>
    simp only [Phrase.wellFormed, Node.wellFormed, Bool.and_eq_true] at hw
    exact ((ihright hsc (hw.imp_left And.right)).append (ihleft hsc (hw.imp_left And.left))).append
      h.swept
  | unary _ _ h ih =>
    simp only [Phrase.wellFormed, Node.wellFormed] at hw
    exact (ih hsc hw).append (sweeps_plain h (plain_unaryCode _ _))
  | call hfun _ _ h ih =>
    simp only [Phrase.wellFormed, Node.wellFormed, Bool.and_eq_true] at hw
    have hname : callable _ = true := hw.elim And.left fun hw => hw _
    refine (ih hsc (hw.imp_left And.right)).append (sweeps_line h (List.forall_mem_singleton.mpr ?_))
    exact ⟨_, _, _, hname, hsc, hfun⟩
  | argsNil => exact swept_nil _
  | argsCons _ _ _ h ihargs iharg =>
    simp only [Phrase.wellFormed, Node.allWellFormed, Bool.and_eq_true] at hw
    exact ((ihargs hsc (hw.imp_left And.right)).append (iharg hsc (hw.imp_left And.left))).append
      (sweeps_plain h (plain_coercion _ _))
  | drop _ h ih => exact (ih hsc hw).append (sweeps_plain h (plain_dropCode _))
  | assign hvar _ _ h ih =>
    simp only [Phrase.wellFormed, Node.wellFormed] at hw
    exact (ih hsc hw).append (sweeps_last h (plain_coercion _ _) (refers_storeInstr hsc hvar))
  | update _ hvar _ hload hcode h ih =>
    simp only [Phrase.wellFormed, Node.wellFormed] at hw
    have hloads : g.Swept callable _ _ := sweeps_line hload (by simpa using refers_loadInstr hsc hvar)
    have hstores : g.Swept callable _ _ := sweeps_line h (by simpa using refers_storeInstr hsc hvar)
    exact (((ih hsc hw).append hloads).append hcode.swept).append hstores
  | inner _ ih =>
    simp only [Phrase.wellFormed, Node.wellFormed] at hw
    exact ih hsc hw
  | ifThen _ htest _ ihcond ihthen =>
    simp only [Phrase.wellFormed, Node.wellFormed, Bool.and_eq_true] at hw
    have hcond := ihcond hsc (hw.imp_left And.left)
    have hthen := ihthen hsc (hw.imp_left And.right)
    have hbefore := hcond.leads.trans htest.leads
    have hstop := (hbefore.trans hthen.leads).joint_stop
    exact ((hcond.part (.refl _) (htest.leads.trans hthen.leads)).append
      (sweeps_line htest (by simpa [Refers] using hstop))).append (hthen.part hbefore (.refl _))
  | ifElse _ htest _ hskip _ ihcond ihthen ihelse =>
    simp only [Phrase.wellFormed, Node.wellFormed, Bool.and_eq_true] at hw
    have hcond := ihcond hsc (hw.imp_left fun h => h.1.1)
    have hthen := ihthen hsc (hw.imp_left fun h => h.1.2)
    have helse := ihelse hsc (hw.imp_left And.right)
    have hbefore := hcond.leads.trans htest.leads
    have hno := (hbefore.trans hthen.leads).trans hskip.leads
    have hstop := (hno.trans helse.leads).joint_stop
    have hafter := hskip.leads.trans helse.leads
    exact ((((hcond.part (.refl _) ((htest.leads.trans hthen.leads).trans hafter)).append
      (sweeps_line htest (by simpa [Refers] using ⟨hno, helse.leads⟩))).append
      (hthen.part hbefore hafter)).append (sweeps_line hskip (by simpa [Refers] using hstop))).append
      (helse.part hno (.refl _))
  | whileLoop _ htest _ hback ihcond ihbody =>
    simp only [Phrase.wellFormed, Node.wellFormed, Bool.and_eq_true] at hw
    have hcond := ihcond hsc (hw.imp_left And.left)
    have hbody := ihbody hsc (hw.imp_left And.right)
    have hbefore := hcond.leads.trans htest.leads
    have hall := (hbefore.trans hbody.leads).trans hback.leads
    exact (((hcond.part (.refl _) ((htest.leads.trans hbody.leads).trans hback.leads)).append
      (sweeps_line htest (by simpa [Refers] using hall.joint_stop))).append
      (hbody.part hbefore hback.leads)).append
      (sweeps_line hback (by simpa [Refers] using hall.joint_start))
  | forLoop hvar _ hlimit _ _ hu _ _ hl htest _ hback _ _ ihupper ihlower ihbody =>
    simp only [Phrase.wellFormed, Node.wellFormed, Bool.and_eq_true] at hw
    have hupper := ihupper hsc (hw.imp_left fun h => h.1.2)
    have hlower := ihlower hsc (hw.imp_left fun h => h.1.1)
    have hbody := ihbody hsc (hw.imp_left And.right)
    have hinit := ((hupper.leads.trans hu.leads).trans hlower.leads).trans hl.leads
    have hloop := (htest.leads.trans hbody.leads).trans hback.leads
    have hstop := (hinit.trans hloop).joint_stop
    have hbounds : g.Swept callable _ _ := ((hupper.append
      (sweeps_last hu (plain_boundCode _) (refers_hidden hsc hlimit))).append hlower).append
      (sweeps_last hl (plain_boundCode _) (refers_var hsc hvar))
    refine (((hbounds.part (.refl _) hloop).append (sweeps_line htest ?_)).append
      (hbody.part (hinit.trans htest.leads) hback.leads)).append (sweeps_line hback ?_)
    · simp only [List.forall_mem_cons]
      exact ⟨refers_hidden hsc hlimit, refers_var hsc hvar, hstop, List.forall_mem_nil _⟩
    · simp only [List.forall_mem_cons]
      exact ⟨trivial, refers_var hsc hvar, trivial, refers_var hsc hvar, ⟨hinit, hloop⟩,
        List.forall_mem_nil _⟩
  | ret _ h => exact sweeps_plain h (by simp)
  | retValue _ _ h ih =>
    simp only [Phrase.wellFormed, Node.wellFormed] at hw
    refine (ih hsc hw).append (sweeps_last h ?_ trivial)
    split_ifs
    · exact List.forall_mem_nil _
    · exact plain_coercion _ _
  | print _ ih =>
    simp only [Phrase.wellFormed, Node.wellFormed] at hw
    exact ih hsc hw
  | native hcount hvars hloads _ h =>
    refine Swept.append (sweeps_line hloads fun i hi => ?_) (sweeps_line h (by simp [Refers]))
    obtain ⟨info, hinfo, rfl⟩ := List.mem_map.mp hi
    obtain ⟨_, -, hvar⟩ := exists_param_of_zip hcount hvars info (List.mem_reverse.mp hinfo)
    exact refers_loadInstr hsc hvar
  | operandsNil => exact swept_nil _
  | operandsCons _ h _ ihoperand ihoperands =>
    simp only [Phrase.wellFormed, Node.allWellFormed, Bool.and_eq_true] at hw
    exact ((ihoperand hsc (hw.imp_left And.left)).append (sweeps_plain h (by simp))).append
      (ihoperands hsc (hw.imp_left And.right))
  | blockMk hin _ ih => exact ih hin (hw.imp_left fun hw => (Block.scope_of_wellFormed hw).2)
  | stmtsNil => exact swept_nil _
  | stmtsCons _ _ ihs ih =>
    simp only [Phrase.wellFormed, Node.allWellFormed, Bool.and_eq_true] at hw
    exact (ihs hsc (hw.imp_left And.left)).append (ih hsc (hw.imp_left And.right))

end StackLang
