import Mathlib.Data.List.Forall2
import StackLang.Proofs.Compile.Emitted
import StackLang.Proofs.Simulation.Denotes

/-!
# Operands beside the values of the program

`OnStack e below vs s`: the innermost frame's part of the stack holds the values `vs`, the top
first. `Operates` says what an instruction makes of these values if it does nothing else, with one
constructor for each of these instructions; `wp_stepInstr_of_operates` proves it of the machine.
The code that promotes, converts and combines values is a line of them (`operateAll_arithmetic` and its like).
-/

namespace StackLang

open MachineM (wp)
open Reference (orderInts relation truth binary binaryInts binaryDoubles unary)

/-! ## Instructions on values -/

/-- The three ways in which two values can be ordered, as the machine holds them. -/
def orderValue : Ordering → Int64
  | .lt => -1
  | .eq => 0
  | .gt => 1

/-- An instruction that only changes the stack takes the values on it, the top first, to others. -/
inductive Operates (e : Executable) :
    Opcode → Operand → List HostValue → List HostValue → Prop
  | loadInt (n : Int64) : Operates e .loadInt (.int n) vs (.int n :: vs)
  | loadDouble (d : Double) : Operates e .loadDouble (.double d) vs (.double d :: vs)
  | loadString {id : UInt16} {text : String} (h : e.strings.get? id = some text) :
      Operates e .loadString (.string id) vs (.string text :: vs)
  | int0 : Operates e .int0 .none vs (.int 0 :: vs)
  | int1 : Operates e .int1 .none vs (.int 1 :: vs)
  | addInt (a b : Int64) : Operates e .addInt .none (.int a :: .int b :: vs) (.int (a + b) :: vs)
  | subInt (a b : Int64) : Operates e .subInt .none (.int a :: .int b :: vs) (.int (a - b) :: vs)
  | mulInt (a b : Int64) : Operates e .mulInt .none (.int a :: .int b :: vs) (.int (a * b) :: vs)
  | divInt (a : Int64) {b : Int64} (hb : b ≠ 0) :
      Operates e .divInt .none (.int a :: .int b :: vs) (.int (a / b) :: vs)
  | modInt (a : Int64) {b : Int64} (hb : b ≠ 0) :
      Operates e .modInt .none (.int a :: .int b :: vs) (.int (a % b) :: vs)
  | andInt (a b : Int64) : Operates e .andInt .none (.int a :: .int b :: vs) (.int (a &&& b) :: vs)
  | orInt (a b : Int64) : Operates e .orInt .none (.int a :: .int b :: vs) (.int (a ||| b) :: vs)
  | xorInt (a b : Int64) : Operates e .xorInt .none (.int a :: .int b :: vs) (.int (a ^^^ b) :: vs)
  | negInt (a : Int64) : Operates e .negInt .none (.int a :: vs) (.int (-a) :: vs)
  | compareInt (a b : Int64) : Operates e .compareInt .none (.int a :: .int b :: vs)
      (.int (orderValue (orderInts a b)) :: vs)
  | addDouble (a b : Double) :
      Operates e .addDouble .none (.double a :: .double b :: vs) (.double (a + b) :: vs)
  | subDouble (a b : Double) :
      Operates e .subDouble .none (.double a :: .double b :: vs) (.double (a - b) :: vs)
  | mulDouble (a b : Double) :
      Operates e .mulDouble .none (.double a :: .double b :: vs) (.double (a * b) :: vs)
  | divDouble (a b : Double) :
      Operates e .divDouble .none (.double a :: .double b :: vs) (.double (a / b) :: vs)
  | negDouble (a : Double) : Operates e .negDouble .none (.double a :: vs) (.double (-a) :: vs)
  | compareDouble (a b : Double) : Operates e .compareDouble .none (.double a :: .double b :: vs)
      (.int (orderValue (a.compare b)) :: vs)
  | intToDouble (n : Int64) :
      Operates e .intToDouble .none (.int n :: vs) (.double (.ofInt n) :: vs)
  | doubleToInt (d : Double) :
      Operates e .doubleToInt .none (.double d :: vs) (.int d.truncate :: vs)
  | swap (a b : HostValue) : Operates e .swap .none (a :: b :: vs) (b :: a :: vs)
  | pop (v : HostValue) : Operates e .pop .none (v :: vs) vs
  | invalid : Operates e .invalid .none vs vs

/-- A line of such instructions. -/
inductive OperateAll (e : Executable) :
    List (Opcode × Operand) → List HostValue → List HostValue → Prop
  | nil : OperateAll e [] vs vs
  | cons {vs vs' vs'' : List HostValue} {op : Opcode} {operand : Operand} {line : List (Opcode × Operand)}
      (h : Operates e op operand vs vs') (hline : OperateAll e line vs' vs'') :
      OperateAll e ((op, operand) :: line) vs vs''

variable {σ : Type} {e : Executable} {below vs vs' vs'' : List HostValue} {s : State σ}
  {v : HostValue}

/-! ## The stack -/

/-- The stack holds `below` for the frames around and then `vs`, whose first is the top. -/
structure OnStack (e : Executable) (below vs : List HostValue) (s : State σ) : Prop where
  base : s.frameBase = below.length
  values : List.Forall₂ (Denotes e s.overlay) s.stack.toList.reverse (vs ++ below)

namespace OnStack

theorem size (h : OnStack e below vs s) : s.stack.size = vs.length + below.length := by
  have := h.values.length_eq
  simpa using this

theorem push (h : OnStack e below vs s) {x : Value} (hd : Denotes e s.overlay x v) :
    OnStack e below (v :: vs) { s with stack := s.stack.push x } where
  base := h.base
  values := by
    change List.Forall₂ _ (s.stack.push x).toList.reverse _
    rw [Array.toList_push, List.reverse_append]
    exact .cons hd h.values

theorem pop (h : OnStack e below (v :: vs) s) :
    ∃ x, s.stack.back? = some x ∧ Denotes e s.overlay x v ∧
      OnStack e below vs { s with stack := s.stack.pop } := by
  have hvalues := h.values
  generalize hrev : s.stack.toList.reverse = values at hvalues
  cases hvalues with
  | @cons x _ rest _ hd hrest =>
    have hlist : s.stack.toList = rest.reverse ++ [x] := by
      rw [← List.reverse_reverse s.stack.toList, hrev, List.reverse_cons]
    refine ⟨x, ?_, hd, h.base, ?_⟩
    · rw [← Array.getLast?_toList, hlist, List.getLast?_concat]
    · change List.Forall₂ _ s.stack.pop.toList.reverse _
      rwa [Array.toList_pop, hlist, List.dropLast_concat, List.reverse_reverse]

/-- Texts have been added, and what is not the stack may have changed. -/
theorem congr (h : OnStack e below vs s) {s' : State σ} (hbase : s'.frameBase = s.frameBase)
    (hstack : s'.stack = s.stack) (ho : Overlaid s.overlay s'.overlay) :
    OnStack e below vs s' where
  base := hbase.trans h.base
  values := by
    rw [hstack]
    exact h.values.imp fun _ _ hd => hd.mono ho

end OnStack

/-! ## Taking operands -/

namespace MachineM

variable {E : Trap → State σ → Prop} {op : Opcode}

theorem wp_pop_onStack {Q : Value → State σ → Prop} (h : OnStack e below (v :: vs) s)
    (hQ : ∀ x stack, Denotes e s.overlay x v → OnStack e below vs { s with stack } →
      Q x { s with stack }) : wp (pop op) Q E s := by
  obtain ⟨x, hx, hd, hrest⟩ := h.pop
  refine wp_pop_of ?_ fun x' hx' => ?_
  · rw [h.base, h.size, List.length_cons]
    omega
  · obtain rfl := Option.some.inj (hx.symm.trans hx')
    exact hQ _ _ hd hrest

theorem wp_popInt_onStack {Q : Int64 → State σ → Prop} {n : Int64}
    (h : OnStack e below (.int n :: vs) s)
    (hQ : ∀ stack, OnStack e below vs { s with stack } → Q n { s with stack }) :
    wp (popInt op) Q E s := by
  rw [wp_popInt]
  refine wp_pop_onStack h fun x stack hd hrest => ?_
  cases hd
  exact hQ stack hrest

theorem wp_popDouble_onStack {Q : Double → State σ → Prop} {d : Double}
    (h : OnStack e below (.double d :: vs) s)
    (hQ : ∀ stack, OnStack e below vs { s with stack } → Q d { s with stack }) :
    wp (popDouble op) Q E s := by
  rw [wp_popDouble]
  refine wp_pop_onStack h fun x stack hd hrest => ?_
  cases hd
  exact hQ stack hrest

theorem wp_popString_onStack {Q : UInt16 → State σ → Prop} {text : String}
    (h : OnStack e below (.string text :: vs) s)
    (hQ : ∀ id stack, textOf? e s.overlay id = some text → OnStack e below vs { s with stack } →
      Q id { s with stack }) : wp (popString op) Q E s := by
  rw [wp_popString]
  refine wp_pop_onStack h fun x stack hd hrest => ?_
  cases hd with
  | string ht => exact hQ _ stack ht hrest

end MachineM

theorem OperateAll.append {line line' : List (Opcode × Operand)} (h : OperateAll e line vs vs')
    (h' : OperateAll e line' vs' vs'') : OperateAll e (line ++ line') vs vs'' := by
  induction h with
  | nil => exact h'
  | cons h _ ih => exact .cons h (ih h')

theorem Operates.single {op : Opcode} {operand : Operand} (h : Operates e op operand vs vs') :
    OperateAll e [(op, operand)] vs vs' := .cons h .nil

namespace MachineM

variable {E : Trap → State σ → Prop}

/-! ## The machine does the same -/

theorem wp_onInts_onStack {Q : Unit → State σ → Prop} {op : Opcode} {f : Int64 → Int64 → Int64}
    {a b : Int64} (h : OnStack e below (.int a :: .int b :: vs) s)
    (hQ : ∀ stack, OnStack e below (.int (f a b) :: vs) { s with stack } → Q () { s with stack }) :
    wp (onInts op f) Q E s := by
  simp only [onInts, wp_bind]
  refine wp_popInt_onStack h fun stack h => ?_
  refine wp_popInt_onStack h fun stack h => ?_
  exact hQ _ (h.push (.int _))

theorem wp_divideInts_onStack {Q : Unit → State σ → Prop} {op : Opcode}
    {f : Int64 → Int64 → Int64} {a b : Int64} (h : OnStack e below (.int a :: .int b :: vs) s)
    (hQ : b ≠ 0 → ∀ stack, OnStack e below (.int (f a b) :: vs) { s with stack } →
      Q () { s with stack })
    (hE : b = 0 → ∀ stack, E .divisionByZero { s with stack }) :
    wp (divideInts op f) Q E s := by
  simp only [divideInts, wp_bind]
  refine wp_popInt_onStack h fun stack h => ?_
  refine wp_popInt_onStack h fun stack h => ?_
  rw [wp_ite]
  exact ⟨fun hb => hE hb _, fun hb => hQ hb _ (h.push (.int _))⟩

theorem wp_onDoubles_onStack {Q : Unit → State σ → Prop} {op : Opcode}
    {f : Double → Double → Value} {a b : Double} (h : OnStack e below (.double a :: .double b :: vs) s)
    (hd : Denotes e s.overlay (f a b) v)
    (hQ : ∀ stack, OnStack e below (v :: vs) { s with stack } → Q () { s with stack }) :
    wp (onDoubles op f) Q E s := by
  simp only [onDoubles, wp_bind]
  refine wp_popDouble_onStack h fun stack h => ?_
  refine wp_popDouble_onStack h fun stack h => ?_
  exact hQ _ (h.push hd)

theorem compareInts_eq (a b : Int64) : compareInts a b = orderValue (orderInts a b) := by
  unfold compareInts orderInts
  split
  · rfl
  · split <;> rfl

/-- **An instruction does to the stack what `Operates` says**, and nothing else. -/
theorem wp_stepInstr_of_operates {env : Env σ} {op : Opcode} {operand : Operand}
    (ho : Operates env.exe op operand vs vs') {offset : Nat}
    (h : OnStack env.exe below vs s) {Q : Flow → State σ → Prop}
    (hQ : ∀ stack, OnStack env.exe below vs' { s with stack } →
      Q (.next (offset + op.width)) { s with stack }) :
    wp (stepInstr env ⟨offset, op, operand⟩) Q E s := by
  cases ho with
  | loadInt n => exact hQ _ (h.push (.int n))
  | loadDouble d => exact hQ _ (h.push (.double d))
  | loadString ht => exact hQ _ (h.push (.string (textOf?_of_get? ht)))
  | int0 => exact hQ _ (h.push (.int _))
  | int1 => exact hQ _ (h.push (.int _))
  | invalid => exact hQ s.stack h
  | addInt | subInt | mulInt | andInt | orInt | xorInt =>
    simp only [stepInstr, stepPlain, wp_bind]
    exact wp_onInts_onStack h hQ
  | divInt _ hb | modInt _ hb =>
    simp only [stepInstr, stepPlain, wp_bind]
    exact wp_divideInts_onStack h (fun _ => hQ) fun hzero => absurd hzero hb
  | compareInt a b =>
    simp only [stepInstr, stepPlain, wp_bind]
    exact wp_onInts_onStack h (compareInts_eq a b ▸ hQ)
  | addDouble | subDouble | mulDouble | divDouble =>
    simp only [stepInstr, stepPlain, wp_bind]
    exact wp_onDoubles_onStack h (.double _) hQ
  | compareDouble a b =>
    simp only [stepInstr, stepPlain, wp_bind]
    refine wp_onDoubles_onStack h ?_ hQ
    generalize a.compare b = order
    cases order <;> exact .int _
  | negInt | intToDouble =>
    simp only [stepInstr, stepPlain, wp_bind]
    refine wp_popInt_onStack h fun stack h => ?_
    first | exact hQ _ (h.push (.int _)) | exact hQ _ (h.push (.double _))
  | negDouble | doubleToInt =>
    simp only [stepInstr, stepPlain, wp_bind]
    refine wp_popDouble_onStack h fun stack h => ?_
    first | exact hQ _ (h.push (.int _)) | exact hQ _ (h.push (.double _))
  | swap a b =>
    simp only [stepInstr, stepPlain, wp_bind]
    refine wp_pop_onStack h fun x stack hx h => ?_
    refine wp_pop_onStack h fun y stack hy h => ?_
    exact hQ _ ((h.push hx).push hy)
  | pop v =>
    simp only [stepInstr, stepPlain, wp_bind]
    exact wp_pop_onStack h fun x stack hx h => hQ _ h

/-- A jump that depends on the two ints on top. -/
theorem wp_stepInstr_jump {env : Env σ} {op : Opcode} {holds : Int64 → Int64 → Bool}
    (hop : jumpRelation op = some holds) {offset target : Nat} {a b : Int64}
    (h : OnStack e below (.int a :: .int b :: vs) s) {Q : Flow → State σ → Prop}
    (hQ : ∀ stack, OnStack e below vs { s with stack } →
      Q (.next (if holds a b then target else offset + op.width)) { s with stack }) :
    wp (stepInstr env ⟨offset, op, .target target⟩) Q E s := by
  have hne : op ≠ .jump := by
    rintro rfl
    cases hop
  simp only [stepInstr, stepBranch, if_neg hne, hop, wp_bind]
  refine wp_popInt_onStack h fun stack h => ?_
  refine wp_popInt_onStack h fun stack h => ?_
  exact hQ _ h

end MachineM

/-! ## Operators -/

/-- A value as a double. -/
def HostValue.toDouble : HostValue → HostValue
  | .int n => .double (.ofInt n)
  | v => v

/-- The code of `coerceTop` makes a value one of the type wanted. -/
theorem operateAll_coercion (v : HostValue) (ty : Ty) :
    OperateAll e (coercion v.ty ty) (v :: vs) (v.coerce ty :: vs) := by
  cases v <;> cases ty <;>
    first | exact .nil | exact (Operates.intToDouble _).single | exact (Operates.doubleToInt _).single

theorem ty_coerce (v : HostValue) (ty : Ty) : (v.coerce ty).ty = coerced v.ty ty := by
  cases v <;> cases ty <;> rfl

theorem coerce_self (v : HostValue) : v.coerce v.ty = v := by cases v <;> rfl

/-- The code of `promote` makes both numbers doubles, unless both are ints. -/
theorem operateAll_promotion {a b : HostValue} (ha : a.ty.isNumeric = true)
    (hb : b.ty.isNumeric = true) (hne : ¬ (a.ty = .int ∧ b.ty = .int)) :
    OperateAll e (promotion a.ty b.ty) (a :: b :: vs) (a.toDouble :: b.toDouble :: vs) := by
  cases a with
  | string => cases ha
  | int n =>
    cases b with
    | string => cases hb
    | int m => exact absurd ⟨rfl, rfl⟩ hne
    | double d => exact (Operates.intToDouble _).single
  | double c =>
    cases b with
    | string => cases hb
    | int m =>
      exact .cons (.swap _ _) (.cons (.intToDouble _) (Operates.swap _ _).single)
    | double d => exact .nil

/-- The code of an arithmetic operator computes it, unless an int is divided by 0. -/
theorem operateAll_arithmetic {op : BinaryOp} (hop : op.isArithmetic = true) {a b : HostValue}
    (ha : a.ty.isNumeric = true) (hb : b.ty.isNumeric = true) :
    (∃ v, binary op a b = .ok v ∧ v.ty = promoted a.ty b.ty ∧
      OperateAll e (promotion a.ty b.ty ++ [(arithmeticOp op (promoted a.ty b.ty), .none)])
        (a :: b :: vs) (v :: vs)) ∨
    (∃ n, op = .div ∧ a = .int n ∧ b = .int 0) := by
  by_cases hints : a.ty = .int ∧ b.ty = .int
  · obtain ⟨hta, htb⟩ := hints
    cases a <;> cases hta
    cases b <;> cases htb
    rename_i n m
    cases op with
    | add => exact .inl ⟨_, rfl, rfl, (Operates.addInt n m).single⟩
    | sub => exact .inl ⟨_, rfl, rfl, (Operates.subInt n m).single⟩
    | mul => exact .inl ⟨_, rfl, rfl, (Operates.mulInt n m).single⟩
    | div =>
      by_cases hm : m = 0
      · exact .inr ⟨n, rfl, rfl, hm ▸ rfl⟩
      · exact .inl ⟨_, if_neg hm, rfl, (Operates.divInt n hm).single⟩
    | _ => cases hop
  · -- Two numbers that are not both ints are combined as doubles.
    obtain ⟨x, hx⟩ : ∃ x, a.toDouble = .double x := by cases a <;> first | exact ⟨_, rfl⟩ | cases ha
    obtain ⟨y, hy⟩ : ∃ y, b.toDouble = .double y := by cases b <;> first | exact ⟨_, rfl⟩ | cases hb
    have hbinary : binary op a b = binaryDoubles op x y := by
      cases a <;> cases b <;> cases hx <;> cases hy <;> first | rfl | exact absurd ⟨rfl, rfl⟩ hints
    have hpromoted : promoted a.ty b.ty = .double := by
      cases a <;> cases b <;> first | rfl | exact absurd ⟨rfl, rfl⟩ hints
    have hline : OperateAll e (promotion a.ty b.ty) (a :: b :: vs) (.double x :: .double y :: vs) := by
      rw [← hx, ← hy]
      exact operateAll_promotion ha hb hints
    rw [hbinary, hpromoted]
    left
    cases op with
    | add => exact ⟨_, rfl, rfl, hline.append (Operates.addDouble x y).single⟩
    | sub => exact ⟨_, rfl, rfl, hline.append (Operates.subDouble x y).single⟩
    | mul => exact ⟨_, rfl, rfl, hline.append (Operates.mulDouble x y).single⟩
    | div => exact ⟨_, rfl, rfl, hline.append (Operates.divDouble x y).single⟩
    | _ => cases hop

/-- The opcode of an operator on ints computes it, unless the rest of a division by 0 is wanted. -/
theorem operates_intOp {op : BinaryOp} {opcode : Opcode} (hop : intOp op = some opcode)
    (a b : Int64) :
    (∃ n, binary op (.int a) (.int b) = .ok (.int n) ∧
      Operates e opcode .none (.int a :: .int b :: vs) (.int n :: vs)) ∨
    (op = .mod ∧ b = 0) := by
  cases op with
  | mod =>
    cases hop
    by_cases hb : b = 0
    · exact .inr ⟨rfl, hb⟩
    · exact .inl ⟨_, if_neg hb, .modInt a hb⟩
  | and | bitAnd =>
    cases hop
    exact .inl ⟨_, rfl, .andInt a b⟩
  | or | bitOr =>
    cases hop
    exact .inl ⟨_, rfl, .orInt a b⟩
  | bitXor =>
    cases hop
    exact .inl ⟨_, rfl, .xorInt a b⟩
  | _ => cases hop

/-- The jump that rules a relation out is taken if the relation does not hold. -/
theorem negatedJump_relation {op : BinaryOp} {negated : Opcode} (hop : op.negatedJump = some negated) :
    ∃ holds jumps, relation op = some holds ∧ MachineM.jumpRelation negated = some jumps ∧
      ∀ order, jumps 0 (orderValue order) = !holds order := by
  cases op <;> cases hop
  all_goals
    refine ⟨_, _, rfl, rfl, fun order => ?_⟩
    cases order <;> decide

/-- Before the jump, the code of a comparison orders its sides. -/
theorem operateAll_compare {op : BinaryOp} {holds : Ordering → Bool}
    (hop : relation op = some holds) {a b : HostValue} (ha : a.ty.isNumeric = true)
    (hb : b.ty.isNumeric = true) :
    ∃ order, binary op a b = .ok (truth (holds order)) ∧
      OperateAll e (promotion a.ty b.ty ++ [(compareOp (promoted a.ty b.ty), .none)])
        (a :: b :: vs) (.int (orderValue order) :: vs) := by
  have hints : ∀ x y, binaryInts op x y = .ok (truth (holds (orderInts x y))) := by
    intro x y
    cases op <;> cases hop <;> rfl
  have hdoubles : ∀ x y, binaryDoubles op x y = .ok (truth (holds (x.compare y))) := by
    intro x y
    cases op <;> cases hop <;> rfl
  cases a with
  | string => cases ha
  | int n =>
    cases b with
    | string => cases hb
    | int m => exact ⟨_, hints n m, (Operates.compareInt n m).single⟩
    | double d =>
      exact ⟨_, hdoubles (.ofInt n) d, .cons (.intToDouble n) (Operates.compareDouble _ d).single⟩
  | double c =>
    cases b with
    | string => cases hb
    | int m =>
      exact ⟨_, hdoubles c (.ofInt m), .cons (.swap _ _) (.cons (.intToDouble m) (.cons (.swap _ _)
        (Operates.compareDouble c _).single))⟩
    | double d => exact ⟨_, hdoubles c d, (Operates.compareDouble c d).single⟩

theorem operateAll_unary {op : UnaryOp} {v : HostValue} (hty : op.takes v.ty = true) :
    ∃ v', unary op v = .ok v' ∧ v'.ty = v.ty ∧ OperateAll e (unaryCode op v.ty) (v :: vs) (v' :: vs) := by
  cases op with
  | plus =>
    cases v with
    | int | double => exact ⟨_, rfl, rfl, .nil⟩
    | string => cases hty
  | minus =>
    cases v with
    | int n => exact ⟨_, rfl, rfl, (Operates.negInt n).single⟩
    | double d => exact ⟨_, rfl, rfl, (Operates.negDouble d).single⟩
    | string => cases hty
  | not =>
    cases v with
    | int n => exact ⟨_, rfl, rfl, .cons .int1 (Operates.xorInt 1 n).single⟩
    | _ => cases hty

/-- The bound of a range becomes an int. -/
theorem operateAll_bound {v : HostValue} (hty : v.ty.isNumeric = true) :
    ∃ n : Int64, v.coerce .int = .int n ∧ OperateAll e (boundCode v.ty) (v :: vs) (.int n :: vs) := by
  cases v with
  | string => cases hty
  | int n => exact ⟨n, rfl, .nil⟩
  | double d => exact ⟨_, rfl, (Operates.doubleToInt d).single⟩

theorem operateAll_drop (v : HostValue) : OperateAll e (dropCode v.ty) (v :: vs) vs := by
  cases v <;> exact (Operates.pop _).single

end StackLang
