import StackLang.Proofs.Compile.Emitted
import StackLang.Proofs.Reference.Evaluator
import StackLang.Proofs.Tree.WellFormed

/-!
# Typing rules

`HasType c scope phrase types` is the typing of syntax trees, one rule for each form of a phrase: an
expression has one type, the arguments of a call have those of the parameters, and everything else
has none. An operand must be an expression, and names mean what the tree says. `HasType.expr_unique`:
an expression has at most one type.

A program is well typed if the bodies of all functions are that can be reached from its root.
-/

namespace StackLang

/-- A value of the first type can be stored where the second is wanted. -/
def Ty.converts (found wanted : Ty) : Bool :=
  found = wanted || (found.isNumeric && wanted.isNumeric)

/-- The operators that are defined on ints alone. -/
def BinaryOp.isIntegral : BinaryOp → Bool
  | .mod | .and | .or | .bitAnd | .bitOr | .bitXor => true
  | _ => false

/-- An operator combines values of two types to one of the third. -/
inductive BinaryOp.Combines (op : BinaryOp) : (left right result : Ty) → Prop
  | arithmetic {left right : Ty} (hop : op.isArithmetic = true) (hl : left.isNumeric = true)
      (hr : right.isNumeric = true) : Combines op left right (promoted left right)
  | comparison {left right : Ty} (hop : op.isComparison = true) (hl : left.isNumeric = true)
      (hr : right.isNumeric = true) : Combines op left right .int
  | integral (hop : op.isIntegral = true) : Combines op .int .int .int

/-- The operator of a compound assignment. -/
def AssignOp.binary : AssignOp → Option BinaryOp
  | .assign => none
  | .addAssign => some .add
  | .subAssign => some .sub

/-- The types of a phrase in a function's body, with names looked up from a scope. -/
inductive HasType (c : FunctionContext) : ScopeIndex → Phrase → List Ty → Prop
  /- Expressions -/
  | int {sc : ScopeIndex} {n : Int64} : HasType c sc (.expr (.int n)) [.int]
  | double {sc : ScopeIndex} {d : Double} : HasType c sc (.expr (.double d)) [.double]
  | string {sc : ScopeIndex} {s : String} : HasType c sc (.expr (.string s)) [.string]
  | load {sc x : ScopeIndex} {name : String} {ty : Ty}
      (hvar : c.source.var? sc name = some (x, ty)) : HasType c sc (.expr (.load name)) [ty]
  | binary {sc : ScopeIndex} {op : BinaryOp} {left right : Node} {tl tr ty : Ty}
      (hl : HasType c sc (.expr left) [tl]) (hr : HasType c sc (.expr right) [tr])
      (hop : op.Combines tl tr ty) : HasType c sc (.expr (.binary op left right)) [ty]
  | unary {sc : ScopeIndex} {op : UnaryOp} {operand : Node} {ty : Ty}
      (h : HasType c sc (.expr operand) [ty]) (hty : op.takes ty = true) :
      HasType c sc (.expr (.unary op operand)) [ty]
  | call {sc : ScopeIndex} {name : String} {args : List Node} {f : FunctionDecl}
      (hfun : c.source.function? sc name = some f)
      (hargs : HasType c sc (.args args) (f.params.map (·.ty))) :
      HasType c sc (.expr (.call name args)) [f.result]
  /- Arguments -/
  | argsNil {sc : ScopeIndex} : HasType c sc (.args []) []
  | argsCons {sc : ScopeIndex} {arg : Node} {args : List Node} {found ty : Ty} {tys : List Ty}
      (harg : HasType c sc (.expr arg) [found]) (hty : found.converts ty = true)
      (hargs : HasType c sc (.args args) tys) : HasType c sc (.args (arg :: args)) (ty :: tys)
  /- Statements -/
  | value {sc : ScopeIndex} {n : Node} {ty : Ty} (h : HasType c sc (.expr n) [ty]) :
      HasType c sc (.stmt n) []
  | assign {sc x : ScopeIndex} {name : String} {value : Node} {ty found : Ty}
      (hvar : c.source.var? sc name = some (x, ty)) (hvalue : HasType c sc (.expr value) [found])
      (hty : found.converts ty = true) : HasType c sc (.stmt (.store name .assign value)) []
  | update {sc x : ScopeIndex} {name : String} {op : AssignOp} {binary : BinaryOp} {value : Node}
      {ty found : Ty} (hop : op.binary = some binary)
      (hvar : c.source.var? sc name = some (x, ty)) (hvalue : HasType c sc (.expr value) [found])
      (hty : binary.Combines ty found ty) : HasType c sc (.stmt (.store name op value)) []
  | inner {sc : ScopeIndex} {body : Block} (h : HasType c sc (.block body) []) :
      HasType c sc (.stmt (.block body)) []
  | ifThen {sc : ScopeIndex} {condition : Node} {thenBlock : Block}
      (hcond : HasType c sc (.expr condition) [.int]) (hthen : HasType c sc (.block thenBlock) []) :
      HasType c sc (.stmt (.ifElse condition thenBlock none)) []
  | ifElse {sc : ScopeIndex} {condition : Node} {thenBlock elseBlock : Block}
      (hcond : HasType c sc (.expr condition) [.int]) (hthen : HasType c sc (.block thenBlock) [])
      (helse : HasType c sc (.block elseBlock) []) :
      HasType c sc (.stmt (.ifElse condition thenBlock (some elseBlock))) []
  | whileLoop {sc : ScopeIndex} {condition : Node} {body : Block}
      (hcond : HasType c sc (.expr condition) [.int]) (hbody : HasType c sc (.block body) []) :
      HasType c sc (.stmt (.whileLoop condition body)) []
  | forLoop {sc x : ScopeIndex} {name : String} {lower upper : Node} {body : Block} {tl tu : Ty}
      (hvar : c.source.var? sc name = some (x, .int))
      (hupper : HasType c sc (.expr upper) [tu]) (htu : tu.isNumeric = true)
      (hlower : HasType c sc (.expr lower) [tl]) (htl : tl.isNumeric = true)
      (hbody : HasType c sc (.block body) []) :
      HasType c sc (.stmt (.forLoop name (.binary .range lower upper) body)) []
  | ret {sc : ScopeIndex} (hstrict : c.strict = true → c.function.result = .void) :
      HasType c sc (.stmt (.ret none)) []
  | retValue {sc : ScopeIndex} {value : Node} {found : Ty}
      (hvalue : HasType c sc (.expr value) [found])
      (hstrict : c.strict = true → found.converts c.function.result = true) :
      HasType c sc (.stmt (.ret (some value))) []
  | print {sc : ScopeIndex} {operands : List Node} (h : HasType c sc (.operands operands) []) :
      HasType c sc (.stmt (.print operands)) []
  | native {sc : ScopeIndex} {symbol : String} : HasType c sc (.stmt (.native symbol)) []
  /- Operands of a print -/
  | operandsNil {sc : ScopeIndex} : HasType c sc (.operands []) []
  | operandsCons {sc : ScopeIndex} {operand : Node} {operands : List Node} {ty : Ty}
      (hoperand : HasType c sc (.expr operand) [ty])
      (hoperands : HasType c sc (.operands operands) []) :
      HasType c sc (.operands (operand :: operands)) []
  /- Blocks and lists of statements -/
  | blockMk {sc inner : ScopeIndex} {statements : List Node}
      (h : HasType c inner (.stmts statements) []) :
      HasType c sc (.block (.mk inner statements)) []
  | stmtsNil {sc : ScopeIndex} : HasType c sc (.stmts []) []
  | stmtsCons {sc : ScopeIndex} {statement : Node} {statements : List Node}
      (hs : HasType c sc (.stmt statement) []) (h : HasType c sc (.stmts statements) []) :
      HasType c sc (.stmts (statement :: statements)) []

/-! ## Types of expressions -/

theorem Ty.converts_iff {found wanted : Ty} :
    found.converts wanted = true ↔ coerced found wanted = wanted := by
  cases found <;> cases wanted <;> decide

theorem BinaryOp.Combines.unique {op : BinaryOp} {left right ty ty' : Ty}
    (h : op.Combines left right ty) (h' : op.Combines left right ty') : ty = ty' := by
  cases h with
  | arithmetic hop _ _ =>
    cases h' with
    | arithmetic _ _ _ => rfl
    | comparison hop' _ _ => cases op <;> cases hop <;> cases hop'
    | integral hop' => cases op <;> cases hop <;> cases hop'
  | comparison hop _ _ =>
    cases h' with
    | arithmetic hop' _ _ => cases op <;> cases hop <;> cases hop'
    | comparison _ _ _ => rfl
    | integral _ => rfl
  | integral hop =>
    cases h' with
    | arithmetic hop' _ _ => cases op <;> cases hop <;> cases hop'
    | comparison _ _ _ => rfl
    | integral _ => rfl

/-- An expression has at most one type. -/
theorem HasType.expr_unique {c : FunctionContext} {sc : ScopeIndex} {n : Node} {ty ty' : Ty}
    (h : HasType c sc (.expr n) [ty]) (h' : HasType c sc (.expr n) [ty']) : ty = ty' := by
  generalize hphrase : Phrase.expr n = phrase at h
  generalize htypes : [ty] = types at h
  induction h generalizing n ty ty' with
  | int | double | string =>
    cases hphrase
    cases htypes
    cases h'
    rfl
  | load hvar =>
    cases hphrase
    cases htypes
    cases h' with
    | load hvar' =>
      rw [hvar] at hvar'
      cases hvar'
      rfl
  | binary _ _ hop ihl ihr =>
    cases hphrase
    cases htypes
    cases h' with
    | binary hl' hr' hop' =>
      obtain rfl := ihl hl' rfl rfl
      obtain rfl := ihr hr' rfl rfl
      exact hop.unique hop'
  | unary _ _ ih =>
    cases hphrase
    cases htypes
    cases h' with
    | unary h' _ => exact ih h' rfl rfl
  | call hfun _ _ =>
    cases hphrase
    cases htypes
    cases h' with
    | call hfun' _ =>
      rw [hfun] at hfun'
      cases hfun'
      rfl
  | _ => cases hphrase

/-! ## Programs -/

namespace Program

/-- The body of every function that can be reached from the root is well typed; with `strict`, every
returned value can become the declared result. -/
def WellTyped (p : Program) (strict : Bool) : Prop :=
  ∀ (i : ScopeIndex) (f : FunctionDecl), p.Below root i → p.DeclaredIn i f →
    HasType ⟨p, f, strict⟩ f.body.scope (.stmts f.body.statements) []

/-- The scope of every block is a child of the scope around the block. -/
def NestedBlocks (p : Program) : Prop :=
  ∀ (i : ScopeIndex) (f : FunctionDecl), p.Below root i → p.DeclaredIn i f →
    Node.allWellFormed p (fun _ => true) f.body.scope f.body.statements = true

theorem nestedBlocks_of_all {p : Program} (h : ∀ s ∈ p.scopes.toList, ∀ f ∈ s.functions.toList,
    Node.allWellFormed p (fun _ => true) f.body.scope f.body.statements = true) :
    p.NestedBlocks := by
  rintro i f - ⟨s, hs, hf⟩
  exact h s (Array.mem_toList_iff.mpr (Array.mem_of_getElem? hs)) f hf

end Program

end StackLang
