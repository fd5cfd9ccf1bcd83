import StackLang.Compile
import StackLang.Proofs.Tree.Scopes

/-!
# Properties of steps that carry over to bodies

A property of steps that holds of the primitive ones, and of one step before another, holds of the
compilation of every node (`Carries.compileNode`). A property may depend on the scope that names are
looked up from, which only a block changes, for as long as it lasts; the scopes of blocks are
known to be in `B`.
-/

namespace StackLang

open CompileM

/-- A property `P` of steps, each taken inside of a scope, that carries over from the primitive steps
to those that are put together from them. -/
structure Carries (c : FunctionContext) (B : ScopeIndex → Prop)
    (P : ScopeIndex → ∀ {α : Type}, CompileM α → Prop) : Prop where
  pure : ∀ {sc α} (a : α), P sc (Pure.pure a)
  throw : ∀ {sc α} (cause : Cause), P sc (MonadExcept.throw cause : CompileM α)
  bind : ∀ {sc α β} {m : CompileM β} {f : β → CompileM α}, P sc m → (∀ b, P sc (f b)) →
    P sc (m >>= f)
  write : ∀ {sc α} (step : Builder.Step α), P sc (write step)
  types : ∀ {sc α} {f : List Ty → CompileM α}, (∀ types, P sc (f types)) →
    P sc (get >>= fun t => f t.types)
  setTypes : ∀ {sc} (f : List Ty → List Ty),
    P sc (modify fun t : Compilation => { t with types := f t.types })
  intern : ∀ {sc} (text : String), P sc (intern text)
  internNative : ∀ {sc} (n : NativeDecl), P sc (internNative n)
  resolveVar : ∀ {sc} (name : String), P sc (resolveVar c.source name)
  resolveFunction : ∀ {sc} (name : String), P sc (resolveFunction c name)
  allocScratch : ∀ {sc}, P sc (allocScratch c)
  block : ∀ {sc scope} {m : CompileM Unit}, B scope → P scope m →
    P sc (enterBlock c scope >>= fun outer => m >>= fun _ => leaveBlock outer)

namespace Carries

variable {c : FunctionContext} {B : ScopeIndex → Prop}
  {P : ScopeIndex → ∀ {α : Type}, CompileM α → Prop} {sc : ScopeIndex} {α : Type}

theorem ite (_ : Carries c B P) {q : Prop} [Decidable q] {m m' : CompileM α} (hm : P sc m)
    (hm' : P sc m') : P sc (if q then m else m') := by
  split
  · exact hm
  · exact hm'

/-- A step that is refused if `q` holds. -/
theorem refuse (h : Carries c B P) {q : Prop} [Decidable q] {cause : Cause} {m : CompileM α}
    (hm : P sc m) :
    P sc (if q then (MonadExcept.throw cause : CompileM PUnit) >>= fun _ => m else m) :=
  h.ite (h.bind (h.throw _) fun _ => hm) hm

theorem forM (h : Carries c B P) {params : List VarDecl} {f : VarDecl → CompileM Unit}
    (hf : ∀ param, P sc (f param)) : P sc (params.forM f) := by
  induction params with
  | nil => exact h.pure _
  | cons param params ih => exact h.bind (hf param) fun _ => ih

/-! ## Code and types -/

theorem emit (h : Carries c B P) (op : Opcode) : P sc (CompileM.emit op) := h.write _

theorem emitVar (h : Carries c B P) (op : Opcode) (addr : VarAddr) :
    P sc (CompileM.emitVar op addr) :=
  h.bind (h.write _) fun _ => h.write _

theorem pushType (h : Carries c B P) (ty : Ty) : P sc (CompileM.pushType ty) :=
  h.setTypes (ty :: ·)

/-- A step for an empty stack of types, and one for each other. -/
def byTop (m : CompileM α) (f : Ty → List Ty → CompileM α) : List Ty → CompileM α
  | [] => m
  | ty :: types => f ty types

theorem byTop_types (h : Carries c B P) {m : CompileM α} {f : Ty → List Ty → CompileM α}
    (hm : P sc m) (hf : ∀ ty types, P sc (f ty types)) :
    P sc (get >>= fun t => byTop m f t.types) := by
  refine h.types fun types => ?_
  cases types with
  | nil => exact hm
  | cons ty types => exact hf ty types

theorem popType (h : Carries c B P) : P sc CompileM.popType :=
  h.byTop_types (h.throw _) fun _ types =>
    h.bind (h.setTypes fun _ => types) fun _ => h.pure _

theorem topType (h : Carries c B P) : P sc CompileM.topType :=
  h.byTop_types (h.throw _) fun _ _ => h.pure _

theorem popTypes (h : Carries c B P) : (count : Nat) → P sc (CompileM.popTypes count)
  | 0 => h.pure _
  | count + 1 => h.bind h.popType fun _ => h.popTypes count

theorem dropValues (h : Carries c B P) : (count : Nat) → P sc (CompileM.dropValues count)
  | 0 => h.pure _
  | count + 1 => h.bind h.popType fun _ => h.ite (h.bind (h.emit _) fun _ => h.dropValues count)
    (h.dropValues count)

theorem requireNumeric (h : Carries c B P) (ty : Ty) : P sc (CompileM.requireNumeric ty) :=
  h.ite (h.pure _) (h.throw _)

theorem requireInt (h : Carries c B P) (ty : Ty) : P sc (CompileM.requireInt ty) :=
  h.ite (h.pure _) (h.throw _)

theorem coerceTop (h : Carries c B P) (target : Ty) : P sc (CompileM.coerceTop target) := by
  have hcode : ∀ op, P sc (CompileM.emit op >>= fun _ => CompileM.popType >>= fun _ =>
      CompileM.pushType target) := fun op =>
    h.bind (h.emit op) fun _ => h.bind h.popType fun _ => h.pushType target
  refine h.bind h.topType fun found => ?_
  split
  · exact hcode _
  · exact hcode _
  · exact h.pure _

theorem convertTop (h : Carries c B P) (target : Ty) : P sc (CompileM.convertTop target) :=
  h.bind (h.coerceTop target) fun _ => h.bind h.topType fun _ => h.ite (h.throw _) (h.pure _)

theorem boundToInt (h : Carries c B P) : P sc CompileM.boundToInt := by
  refine h.bind h.popType fun ty => ?_
  split
  · exact h.pure _
  · exact h.emit _
  · exact h.throw _

/-! ## Variables -/

theorem loadVar (h : Carries c B P) (info : VarInfo) : P sc (CompileM.loadVar info) := by
  unfold CompileM.loadVar
  dsimp only
  split
  · exact h.bind (h.emitVar _ _) fun _ => h.pushType _
  · exact h.bind (h.emitVar _ _) fun _ => h.pushType _
  · exact h.bind (h.emitVar _ _) fun _ => h.pushType _
  · exact h.bind (h.emit _) fun _ => h.pushType _

theorem storeVar (h : Carries c B P) (info : VarInfo) : P sc (CompileM.storeVar info) := by
  unfold CompileM.storeVar
  split
  · exact h.emitVar _ _
  · exact h.emitVar _ _
  · exact h.emitVar _ _
  · exact h.emit _

theorem storeParams (h : Carries c B P) (sc : ScopeIndex) (params : List VarDecl) :
    P sc (ProgramM.storeParams c.source params) :=
  h.forM fun _ => h.bind (h.resolveVar _) fun _ => h.storeVar _

/-! ## Operators -/

theorem promote (h : Carries c B P) (left right : Ty) : P sc (StackLang.promote left right) := by
  refine h.bind (h.requireNumeric _) fun _ => h.bind (h.requireNumeric _) fun _ =>
    h.ite (h.pure _) (h.ite (h.bind (h.emit _) fun _ => ?_) ?_) <;>
  exact h.ite (h.bind (h.emit _) fun _ => h.bind (h.emit _) fun _ => h.bind (h.emit _) fun _ =>
    h.pure _) (h.pure _)

theorem compileComparison (h : Carries c B P) (op : BinaryOp) (ty : Ty) :
    P sc (StackLang.compileComparison op ty) := by
  refine h.bind (h.emit _) fun _ => ?_
  split
  · exact h.throw _
  · exact h.bind (h.write _) fun _ => h.bind (h.write _) fun _ => h.bind (h.emit _) fun _ =>
      h.bind (h.write _) fun _ => h.bind (h.emit _) fun _ => h.bind (h.write _) fun _ =>
      h.bind (h.write _) fun _ => h.bind (h.emit _) fun _ => h.write _

theorem compileBinary (h : Carries c B P) (op : BinaryOp) : P sc (StackLang.compileBinary op) := by
  unfold StackLang.compileBinary
  refine h.bind h.popType fun left => h.bind h.popType fun right => ?_
  have hints : ∀ opcode, P sc (do
      CompileM.requireInt left
      CompileM.requireInt right
      CompileM.emit opcode
      return Ty.int) := fun opcode =>
    h.bind (h.requireInt _) fun _ => h.bind (h.requireInt _) fun _ => h.bind (h.emit _) fun _ =>
      h.pure _
  cases op with
  | add | sub | mul | div =>
    exact h.bind (h.promote _ _) fun _ => h.bind (h.emit _) fun _ => h.pure _
  | mod | bitAnd | and | bitOr | or | bitXor => exact hints _
  | lt | le | gt | ge | eq | ne =>
    exact h.bind (h.promote _ _) fun _ => h.bind (h.compileComparison _ _) fun _ => h.pure _
  | range => exact h.throw _

theorem compileUnary (h : Carries c B P) (op : UnaryOp) : P sc (StackLang.compileUnary op) := by
  refine h.bind h.popType fun ty => ?_
  cases op with
  | plus => exact h.bind (h.requireNumeric _) fun _ => h.pure _
  | minus => exact h.bind (h.requireNumeric _) fun _ => h.bind (h.emit _) fun _ => h.pure _
  | not =>
    exact h.bind (h.requireInt _) fun _ => h.bind (h.emit _) fun _ => h.bind (h.emit _) fun _ =>
      h.pure _

/-! ## Calls to the host, returns and loops -/

theorem compileNative (h : Carries c B P) (symbol : String) :
    P sc (StackLang.compileNative c symbol) :=
  h.bind (h.forM fun _ => h.bind (h.resolveVar _) fun _ => h.loadVar _) fun _ =>
    h.bind (h.internNative _) fun _ => h.bind (h.emit _) fun _ => h.bind (h.write _) fun _ =>
    h.bind (h.popTypes _) fun _ => h.emit _

theorem compileReturnValue (h : Carries c B P) : P sc (StackLang.compileReturnValue c) := by
  refine h.bind h.topType fun found => h.ite (h.bind (h.coerceTop _) fun _ => ?_) ?_ <;>
  exact h.bind h.popType fun _ => h.refuse (h.emit _)

theorem openFor (h : Carries c B P) (var limit : VarAddr) : P sc (StackLang.openFor var limit) :=
  h.bind (h.write _) fun _ => h.bind (h.write _) fun _ => h.bind (h.emitVar _ _) fun _ =>
    h.bind (h.emitVar _ _) fun _ => h.bind (h.write _) fun _ => h.pure _

theorem closeFor (h : Carries c B P) (var : VarAddr) (start after : Label) :
    P sc (StackLang.closeFor var start after) :=
  h.bind (h.emit _) fun _ => h.bind (h.emitVar _ _) fun _ => h.bind (h.emit _) fun _ =>
    h.bind (h.emitVar _ _) fun _ => h.bind (h.write _) fun _ => h.write _

/-! ## Whole bodies -/

mutual

/-- **What carries over holds of the compilation of every node** whose blocks have scopes in `B`. -/
theorem compileNode (h : Carries c B P) {sc : ScopeIndex} :
    (n : Node) → (∀ i ∈ n.scopes, B i) → P sc (StackLang.compileNode c n)
  | .int _, _ => h.bind (h.emit _) fun _ => h.bind (h.write _) fun _ => h.pushType _
  | .double _, _ => h.bind (h.emit _) fun _ => h.bind (h.write _) fun _ => h.pushType _
  | .string _, _ => h.bind (h.intern _) fun _ => h.bind (h.emit _) fun _ =>
    h.bind (h.write _) fun _ => h.pushType _
  | .load _, _ => h.bind (h.resolveVar _) fun _ => h.loadVar _
  | .store name op value, hB => by
    rw [StackLang.compileNode]
    rw [Node.scopes] at hB
    refine h.bind (h.resolveVar _) fun info => h.bind (h.compileNode value hB) fun _ => ?_
    have hstore : P sc (CompileM.popType >>= fun _ => CompileM.storeVar info) :=
      h.bind h.popType fun _ => h.storeVar _
    have hcompound : ∀ op', P sc (CompileM.loadVar info >>= fun _ =>
        StackLang.compileBinary op' >>= fun result =>
        if result ≠ info.ty then
          MonadExcept.throw (Cause.compoundTypeMismatch name op.symbol info.ty result) >>=
            fun _ : PUnit => CompileM.pushType result >>= fun _ => CompileM.popType >>= fun _ =>
              CompileM.storeVar info
        else CompileM.pushType result >>= fun _ => CompileM.popType >>= fun _ =>
          CompileM.storeVar info) := fun op' =>
      h.bind (h.loadVar _) fun _ => h.bind (h.compileBinary _) fun _ =>
        h.refuse (h.bind (h.pushType _) fun _ => hstore)
    cases op with
    | assign => exact h.bind (h.convertTop _) fun _ => hstore
    | addAssign | subAssign => exact hcompound _
  | .binary op left right, hB => by
    rw [StackLang.compileNode]
    rw [Node.scopes, List.forall_mem_append] at hB
    exact h.refuse (h.bind (h.compileNode right hB.2) fun _ =>
      h.bind (h.compileNode left hB.1) fun _ => h.bind (h.compileBinary _) fun _ => h.pushType _)
  | .unary op operand, hB => by
    rw [StackLang.compileNode]
    rw [Node.scopes] at hB
    exact h.bind (h.compileNode operand hB) fun _ => h.bind (h.compileUnary _) fun _ =>
      h.pushType _
  | .call name args, hB => by
    rw [StackLang.compileNode]
    rw [Node.scopes] at hB
    exact h.bind (h.resolveFunction _) fun (id, callee) =>
      h.refuse (h.bind (h.compileArgs args hB _) fun _ => h.bind (h.emit _) fun _ =>
        h.bind (h.write _) fun _ => h.bind (h.popTypes _) fun _ => h.pushType _)
  | .block body, hB => by
    rw [StackLang.compileNode]
    rw [Node.scopes] at hB
    exact h.compileBlock body hB
  | .ifElse condition thenBlock none, hB => by
    rw [StackLang.compileNode]
    rw [Node.scopes, List.forall_mem_append] at hB
    exact h.bind (h.compileNode condition hB.1) fun _ => h.bind h.popType fun _ =>
      h.bind (h.requireInt _) fun _ => h.bind (h.write _) fun _ => h.bind (h.emit _) fun _ =>
      h.bind (h.write _) fun _ => h.bind (h.compileBlock thenBlock hB.2) fun _ => h.write _
  | .ifElse condition thenBlock (some elseBlock), hB => by
    rw [StackLang.compileNode]
    rw [Node.scopes, List.forall_mem_append, List.forall_mem_append] at hB
    exact h.bind (h.compileNode condition hB.1.1) fun _ => h.bind h.popType fun _ =>
      h.bind (h.requireInt _) fun _ => h.bind (h.write _) fun _ => h.bind (h.emit _) fun _ =>
      h.bind (h.write _) fun _ => h.bind (h.compileBlock thenBlock hB.1.2) fun _ =>
      h.bind (h.write _) fun _ => h.bind (h.write _) fun _ => h.bind (h.write _) fun _ =>
      h.bind (h.compileBlock elseBlock hB.2) fun _ => h.write _
  | .whileLoop condition body, hB => by
    rw [StackLang.compileNode]
    rw [Node.scopes, List.forall_mem_append] at hB
    exact h.bind (h.write _) fun _ => h.bind (h.write _) fun _ =>
      h.bind (h.compileNode condition hB.1) fun _ => h.bind h.popType fun _ =>
      h.bind (h.requireInt _) fun _ => h.bind (h.emit _) fun _ => h.bind (h.write _) fun _ =>
      h.bind (h.compileBlock body hB.2) fun _ => h.bind (h.write _) fun _ => h.write _
  | .forLoop name (.binary op lower upper) body, hB => by
    rw [Node.scopes, Node.scopes, List.forall_mem_append, List.forall_mem_append] at hB
    have hrange : P sc (StackLang.compileNode c (.forLoop name (.binary .range lower upper) body)) := by
      rw [StackLang.compileNode]
      exact h.bind (h.resolveVar _) fun _ => h.bind (h.requireInt _) fun _ =>
        h.bind h.allocScratch fun _ => h.bind (h.compileNode upper hB.1.2) fun _ =>
        h.bind h.boundToInt fun _ => h.bind (h.emitVar _ _) fun _ =>
        h.bind (h.compileNode lower hB.1.1) fun _ => h.bind h.boundToInt fun _ =>
        h.bind (h.emitVar _ _) fun _ => h.bind (h.openFor _ _) fun _ =>
        h.bind (h.compileBlock body hB.2) fun _ => h.closeFor _ _ _
    cases op with
    | range => exact hrange
    | _ => exact h.throw _
  -- Any other range is refused.
  | .forLoop _ (.int _) _, _ | .forLoop _ (.double _) _, _ | .forLoop _ (.string _) _, _
  | .forLoop _ (.load _) _, _ | .forLoop _ (.store _ _ _) _, _ | .forLoop _ (.unary _ _) _, _
  | .forLoop _ (.call _ _) _, _ | .forLoop _ (.block _) _, _ | .forLoop _ (.ifElse _ _ _) _, _
  | .forLoop _ (.whileLoop _ _) _, _ | .forLoop _ (.forLoop _ _ _) _, _ | .forLoop _ (.ret _) _, _
  | .forLoop _ (.print _) _, _ | .forLoop _ (.native _) _, _ => h.throw _
  | .ret none, _ => by
    rw [StackLang.compileNode]
    exact h.refuse (h.emit _)
  | .ret (some value), hB => by
    rw [StackLang.compileNode]
    rw [Node.scopes] at hB
    exact h.bind (h.compileNode value hB) fun _ => h.compileReturnValue
  | .print operands, hB => by
    rw [StackLang.compileNode]
    rw [Node.scopes] at hB
    exact h.compileOperands operands hB
  | .native symbol, _ => by
    rw [StackLang.compileNode]
    exact h.compileNative _
termination_by structural n => n

theorem compileArgs (h : Carries c B P) {sc : ScopeIndex} :
    (args : List Node) → (∀ i ∈ Node.allScopes args, B i) → (tys : List Ty) →
      P sc (StackLang.compileArgs c args tys)
  | [], _, _ => by
    rw [StackLang.compileArgs.eq_def]
    exact h.pure _
  | _ :: _, _, [] => by
    rw [StackLang.compileArgs.eq_def]
    exact h.pure _
  | arg :: args, hB, ty :: tys => by
    rw [StackLang.compileArgs]
    rw [Node.allScopes, List.forall_mem_append] at hB
    exact h.bind (h.compileArgs args hB.2 tys) fun _ => h.bind (h.compileNode arg hB.1) fun _ =>
      h.convertTop _
termination_by structural args => args

theorem compileOperands (h : Carries c B P) {sc : ScopeIndex} :
    (operands : List Node) → (∀ i ∈ Node.allScopes operands, B i) →
      P sc (StackLang.compileOperands c operands)
  | [], _ => h.pure _
  | operand :: operands, hB => by
    rw [StackLang.compileOperands]
    rw [Node.allScopes, List.forall_mem_append] at hB
    exact h.bind (h.compileNode operand hB.1) fun _ => h.bind h.popType fun _ =>
      h.bind (h.emit _) fun _ => h.compileOperands operands hB.2
termination_by structural operands => operands

theorem compileBlock (h : Carries c B P) {sc : ScopeIndex} :
    (body : Block) → (∀ i ∈ body.scopes, B i) → P sc (StackLang.compileBlock c body)
  | .mk scope statements, hB => by
    rw [StackLang.compileBlock]
    rw [Block.scopes, List.forall_mem_cons] at hB
    exact h.block hB.1 (h.compileStatements _ statements hB.2)
termination_by structural body => body

theorem compileStatements (h : Carries c B P) (sc : ScopeIndex) :
    (statements : List Node) → (∀ i ∈ Node.allScopes statements, B i) →
      P sc (StackLang.compileStatements c statements)
  | [], _ => h.pure _
  | statement :: statements, hB => by
    rw [StackLang.compileStatements]
    rw [Node.allScopes, List.forall_mem_append] at hB
    refine h.types fun before => h.bind (h.compileNode statement hB.1) fun _ =>
      h.types (f := fun types => CompileM.dropValues (types.length - before.length) >>= fun _ =>
        StackLang.compileStatements c statements) fun types => ?_
    exact h.bind (h.dropValues _) fun _ => h.compileStatements _ statements hB.2
termination_by structural statements => statements

end

end Carries

end StackLang
