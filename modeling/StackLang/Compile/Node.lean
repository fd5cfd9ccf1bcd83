import StackLang.Compile.Basic

/-!
# Compiling nodes

An expression becomes code that leaves its value on the stack, and pushes the value's type. The
right operand is compiled before the left one, and the last argument before the first, so that
the left operand and the first argument end on top.
-/

namespace StackLang

open CompileM

/-! ## Operators -/

/-- The type in which two numbers are combined. If one is an int and the other a double, the int
is converted; the left number is on top. -/
def promote (left right : Ty) : CompileM Ty := do
  requireNumeric left
  requireNumeric right
  if left = .int ∧ right = .int then
    return .int
  if left = .int then
    emit .intToDouble
  if right = .int then
    emit .swap
    emit .intToDouble
    emit .swap
  return .double

/-- The jump that rules a relation out. It compares 0 with the result of a comparison: `a < b` is
false if `0 ≤ cmp a b`. -/
def BinaryOp.negatedJump : BinaryOp → Option Opcode
  | .eq => some .jumpNe
  | .ne => some .jumpEq
  | .lt => some .jumpLe
  | .le => some .jumpLt
  | .gt => some .jumpGe
  | .ge => some .jumpGt
  | _ => none

/-- Makes 1 or 0 of a comparison:

```text
  compare
  int0
  jump to no, if the relation does not hold
  int1
  jump to after
no:
  int0
after:
``` -/
def compileComparison (op : BinaryOp) (ty : Ty) : CompileM Unit := do
  emit (if ty = .double then .compareDouble else .compareInt)
  match op.negatedJump with
  | none => throw (.internal s!"'{op.symbol}' is not a comparison")
  | some negated =>
    let no ← newLabel
    let after ← newLabel
    emit .int0
    emitBranch negated no
    emit .int1
    emitBranch .jump after
    bindLabel no
    emit .int0
    bindLabel after

/-- The opcode of an arithmetic operator. -/
def arithmeticOp (op : BinaryOp) (ty : Ty) : Opcode :=
  match op, ty with
  | .add, .int => .addInt
  | .add, _ => .addDouble
  | .sub, .int => .subInt
  | .sub, _ => .subDouble
  | .mul, .int => .mulInt
  | .mul, _ => .mulDouble
  | _, .int => .divInt
  | _, _ => .divDouble

/-- Combines the two values on top, the left one uppermost. The result's type is not pushed. -/
def compileBinary (op : BinaryOp) : CompileM Ty := do
  let left ← popType
  let right ← popType
  let onInts (opcode : Opcode) : CompileM Ty := do
    requireInt left
    requireInt right
    emit opcode
    return .int
  match op with
  | .add | .sub | .mul | .div =>
    let ty ← promote left right
    emit (arithmeticOp op ty)
    return ty
  | .mod => onInts .modInt
  | .bitAnd | .and => onInts .andInt
  | .bitOr | .or => onInts .orInt
  | .bitXor => onInts .xorInt
  | .lt | .le | .gt | .ge | .eq | .ne =>
    let ty ← promote left right
    compileComparison op ty
    return .int
  | .range => throw .rangeOutsideFor

/-- Changes the value on top. The result's type is not pushed. -/
def compileUnary (op : UnaryOp) : CompileM Ty := do
  let ty ← popType
  match op with
  | .plus =>
    requireNumeric ty
    return ty
  | .minus =>
    requireNumeric ty
    emit (if ty = .double then .negDouble else .negInt)
    return ty
  | .not =>
    requireInt ty
    emit .int1
    emit .xorInt
    return .int

/-! ## Calls to the host -/

/-- The opcode that prints a value. -/
def printOp : Ty → Opcode
  | .int => .printInt
  | .double => .printDouble
  | .string => .printString
  | _ => .invalid

/-- Pushes the parameters the way a call does. -/
def loadParams (source : Program) (params : List VarDecl) : CompileM Unit :=
  params.reverse.forM fun param => do
    loadVar (← resolveVar source param.name)

/-- Hands the parameters of the function to the host and returns the result. -/
def compileNative (c : FunctionContext) (symbol : String) : CompileM Unit := do
  let f := c.function
  loadParams c.source f.params
  let id ← internNative { symbol, params := f.params.map (·.ty), result := f.result }
  emit .callNative
  write (Builder.addId id)
  popTypes f.params.length
  emit .ret

/-! ## Nodes -/

/-- The signature of a function that can be called from here. -/
def resolveFunction (c : FunctionContext) (name : String) : CompileM (UInt16 × Routine) := do
  let t ← get
  match t.symbols.lookupFunction? c.source t.scope name with
  | none => throw (.undeclaredFunction name)
  | some id =>
    match t.exe.routine? id with
    | none => throw (.unknownFunction id.toNat)
    | some callee => return (id, callee)

/-- Goes into a block's scope, whose variables join the frame; gives back the scope left. -/
def enterBlock (c : FunctionContext) (scope : ScopeIndex) : CompileM ScopeIndex := do
  let id ← numberScope c.source scope
  modifyGet fun t =>
    let owned := if id ∈ t.owned then t.owned else t.owned ++ [id]
    (t.scope, { t with owned, scope })

def leaveBlock (outer : ScopeIndex) : CompileM Unit :=
  modify fun t => { t with scope := outer }

/-- The start of a loop over a range whose bounds are on the stack already: `limit` is the hidden
slot of the upper one.

```text
start:
  load limit
  load var
  jump to after, if var > limit
  ...
``` -/
def openFor (var limit : VarAddr) : CompileM (Label × Label) := do
  let start ← boundLabel
  let after ← newLabel
  emitVar .loadIntVar limit
  emitVar .loadIntVar var
  emitBranch .jumpGt after
  return (start, after)

/-- The end of a loop over a range: the variable goes up by one. -/
def closeFor (var : VarAddr) (start after : Label) : CompileM Unit := do
  emit .int1
  emitVar .loadIntVar var
  emit .addInt
  emitVar .storeIntVar var
  emitBranch .jump start
  bindLabel after

/-- A hidden int variable in the current scope. -/
def allocScratch (c : FunctionContext) : CompileM VarAddr := do
  let id ← numberScope c.source (← get).scope
  onSymbols (·.allocScratch id)

/-- Returns the value on top. -/
def compileReturnValue (c : FunctionContext) : CompileM Unit := do
  let declared := c.function.result
  let found ← topType
  if declared ≠ .void then
    coerceTop declared
  let converted ← popType
  if c.strict ∧ converted ≠ declared then
    throw (.returnTypeMismatch declared found)
  emit .ret

mutual

def compileNode (c : FunctionContext) : Node → CompileM Unit
  | .int n => do
    emit .loadInt
    write (Builder.addInt n)
    pushType .int
  | .double d => do
    emit .loadDouble
    write (Builder.addDouble d)
    pushType .double
  | .string s => do
    let id ← intern s
    emit .loadString
    write (Builder.addId id)
    pushType .string
  | .load name => do
    loadVar (← resolveVar c.source name)
  | .store name op value => do
    let var ← resolveVar c.source name
    compileNode c value
    match op with
    | .assign => convertTop var.ty
    | .addAssign | .subAssign =>
      loadVar var
      let result ← compileBinary (if op = .addAssign then .add else .sub)
      if result ≠ var.ty then
        throw (.compoundTypeMismatch name op.symbol var.ty result)
      pushType result
    let _ ← popType
    storeVar var
  | .binary op left right => do
    if op = .range then
      throw .rangeOutsideFor
    compileNode c right
    compileNode c left
    pushType (← compileBinary op)
  | .unary op operand => do
    compileNode c operand
    pushType (← compileUnary op)
  | .call name args => do
    let (id, callee) ← resolveFunction c name
    if callee.arity ≠ args.length then
      throw (.argumentCount name callee.arity args.length)
    compileArgs c args callee.params
    emit .call
    write (Builder.addId id)
    popTypes callee.arity
    pushType callee.result
  | .block body => compileBlock c body
  | .ifElse condition thenBlock none => do
    compileNode c condition
    requireInt (← popType)
    let no ← newLabel
    emit .int0
    emitBranch .jumpEq no
    compileBlock c thenBlock
    bindLabel no
  | .ifElse condition thenBlock (some elseBlock) => do
    compileNode c condition
    requireInt (← popType)
    let no ← newLabel
    emit .int0
    emitBranch .jumpEq no
    compileBlock c thenBlock
    let after ← newLabel
    emitBranch .jump after
    bindLabel no
    compileBlock c elseBlock
    bindLabel after
  | .whileLoop condition body => do
    let start ← boundLabel
    let after ← newLabel
    compileNode c condition
    requireInt (← popType)
    emit .int1
    emitBranch .jumpNe after
    compileBlock c body
    emitBranch .jump start
    bindLabel after
  | .forLoop name (.binary .range lower upper) body => do
    let var ← resolveVar c.source name
    requireInt var.ty
    let limit ← allocScratch c
    compileNode c upper
    boundToInt
    emitVar .storeIntVar limit
    compileNode c lower
    boundToInt
    emitVar .storeIntVar var.addr
    let (start, after) ← openFor var.addr limit
    compileBlock c body
    closeFor var.addr start after
  | .forLoop _ _ _ => throw .malformedRange
  | .ret none => do
    if c.strict ∧ c.function.result ≠ .void then
      throw (.returnTypeMismatch c.function.result .void)
    emit .ret
  | .ret (some value) => do
    compileNode c value
    compileReturnValue c
  | .print operands => compileOperands c operands
  | .native symbol => compileNative c symbol
termination_by structural node => node

/-- The arguments of a call, the last one first. -/
def compileArgs (c : FunctionContext) : List Node → List Ty → CompileM Unit
  | arg :: args, ty :: tys => do
    compileArgs c args tys
    compileNode c arg
    convertTop ty
  | _, _ => return
termination_by structural args => args

/-- The operands of a print, the first one first. -/
def compileOperands (c : FunctionContext) : List Node → CompileM Unit
  | [] => return
  | operand :: operands => do
    compileNode c operand
    emit (printOp (← popType))
    compileOperands c operands
termination_by structural operands => operands

/-- A block with its own scope. -/
def compileBlock (c : FunctionContext) : Block → CompileM Unit
  | .mk scope statements => do
    let outer ← enterBlock c scope
    compileStatements c statements
    leaveBlock outer
termination_by structural block => block

/-- Nodes in statement position. What one leaves on the stack is dropped. -/
def compileStatements (c : FunctionContext) : List Node → CompileM Unit
  | [] => return
  | statement :: statements => do
    let depth := (← get).types.length
    compileNode c statement
    dropValues ((← get).types.length - depth)
    compileStatements c statements
termination_by structural statements => statements

end

end StackLang
