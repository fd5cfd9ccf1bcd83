import Mathlib
import StackLang.Machine.Fault
import StackLang.Machine.Native
import StackLang.Machine.Run
import StackLang.Tree.Program

/-!
# The reference evaluator

What a program means, from its syntax tree alone. A call has variables of its own for all scopes
inside the function, empty when it begins; a name means the variable of the nearest enclosing scope
that declares it, in the call that the function was declared in (`Place.level`). The right operand
and the last argument come first, `while` goes on as long as its condition is 1, `&&` and `||`
combine bits, and a function of the host may stand anywhere in a function.

`rounds` bounds the rounds of a loop and the depth of calls: where it is used up, the evaluation
has timed out and says nothing.
-/

namespace StackLang

/-! ## Names -/

namespace Program

/-- The variable that a name means inside a scope: the scope that declares it, and its type. -/
def var? (p : Program) (scope : ScopeIndex) (name : String) : Option (ScopeIndex × Ty) :=
  (p.enclosing scope).findSome? fun i => (p.scope? i).bind fun s =>
    (s.vars.toList.find? (·.name = name)).map fun var => (i, var.ty)

/-- The function that a name means inside a scope. -/
def function? (p : Program) (scope : ScopeIndex) (name : String) : Option FunctionDecl :=
  (p.enclosing scope).findSome? fun i => (p.scope? i).bind fun s =>
    s.functions.toList.find? (·.name = name)

/-- The variable of the body of `<top>` that the host calls by this name. -/
def hostVar? (p : Program) (name : String) : Option VarDecl :=
  (p.scope? p.topScope).bind fun s => s.vars.toList.find? (·.name = name)

end Program

/-! ## Values -/

namespace HostValue

/-- What a variable holds before anything is stored to it. -/
def zero : Ty → HostValue
  | .double => .double .zero
  | .string => .string ""
  | _ => .int 0

/-- An int becomes a double, and a double an int, where the other of the two is wanted. -/
def coerce : HostValue → Ty → HostValue
  | .int n, .double => .double (.ofInt n)
  | .double d, .int => .int d.truncate
  | v, _ => v

end HostValue

namespace Reference

/-- Why an evaluation does not go on. -/
inductive Stop where
  /-- A function returns, perhaps with a value. -/
  | returned (value : Option HostValue)
  /-- The end of `<top>` has been reached. -/
  | halted
  | failed (trap : Trap)
  /-- No rounds are left. -/
  | timeout
  /-- There is no meaning: a name that means nothing, or an operand of the wrong kind. -/
  | stuck

/-- What programs change. -/
structure World (σ : Type) where
  /-- Variables by call, scope and name; none where nothing has been stored. -/
  cells : Nat → ScopeIndex → String → Option HostValue := fun _ _ _ => none
  output : String := ""
  host : σ

/-- A step of an evaluation. -/
abbrev EvalM (σ : Type) := EStateM Stop (World σ)

namespace World

variable {σ : Type}

def store (w : World σ) (level : Nat) (scope : ScopeIndex) (name : String) (v : HostValue) :
    World σ :=
  { w with cells := fun l i n =>
      if l = level ∧ i = scope ∧ n = name then some v else w.cells l i n }

/-- Forgets what earlier calls at this level have stored. -/
def clear (w : World σ) (level : Nat) : World σ :=
  { w with cells := fun l i n => if l = level then none else w.cells l i n }

end World

/-! ## Operators -/

def orderInts (a b : Int64) : Ordering := if a < b then .lt else if a = b then .eq else .gt

/-- The comparisons of a language, on the order of their sides; none for other operators. -/
def relation : BinaryOp → Option (Ordering → Bool)
  | .lt => some (· = .lt)
  | .le => some (· ≠ .gt)
  | .gt => some (· = .gt)
  | .ge => some (· ≠ .lt)
  | .eq => some (· = .eq)
  | .ne => some (· ≠ .eq)
  | _ => none

/-- Truth as an int. -/
def truth (b : Bool) : HostValue := .int (if b then 1 else 0)

def binaryInts (op : BinaryOp) (a b : Int64) : Except Stop HostValue :=
  match op with
  | .add => .ok (.int (a + b))
  | .sub => .ok (.int (a - b))
  | .mul => .ok (.int (a * b))
  | .div => if b = 0 then .error (.failed .divisionByZero) else .ok (.int (a / b))
  | .mod => if b = 0 then .error (.failed .divisionByZero) else .ok (.int (a % b))
  | .and | .bitAnd => .ok (.int (a &&& b))
  | .or | .bitOr => .ok (.int (a ||| b))
  | .bitXor => .ok (.int (a ^^^ b))
  | op =>
    match relation op with
    | some holds => .ok (truth (holds (orderInts a b)))
    | none => .error .stuck

def binaryDoubles (op : BinaryOp) (a b : Double) : Except Stop HostValue :=
  match op with
  | .add => .ok (.double (a + b))
  | .sub => .ok (.double (a - b))
  | .mul => .ok (.double (a * b))
  | .div => .ok (.double (a / b))
  | op =>
    match relation op with
    | some holds => .ok (truth (holds (a.compare b)))
    | none => .error .stuck

/-- Combines two values. Unless both are ints, two numbers are combined as doubles. -/
def binary (op : BinaryOp) : HostValue → HostValue → Except Stop HostValue
  | .int a, .int b => binaryInts op a b
  | .int a, .double b => binaryDoubles op (.ofInt a) b
  | .double a, .int b => binaryDoubles op a (.ofInt b)
  | .double a, .double b => binaryDoubles op a b
  | _, _ => .error .stuck

def unary : UnaryOp → HostValue → Except Stop HostValue
  | .plus, .int n => .ok (.int n)
  | .plus, .double d => .ok (.double d)
  | .minus, .int n => .ok (.int (-n))
  | .minus, .double d => .ok (.double (-d))
  | .not, .int n => .ok (.int (1 ^^^ n))
  | _, _ => .error .stuck

/-! ## Steps -/

variable {σ : Type}

/-- The result of an operator, or why there is none. -/
def lift {α : Type} (r : Except Stop α) : EvalM σ α :=
  match r with
  | .ok a => return a
  | .error stop => throw stop

/-- The value of an operand; a call without a result has none. -/
def operand (v : Option HostValue) : EvalM σ HostValue := lift (v.elim (.error .stuck) .ok)

/-- The value of an operand that must be an int. -/
def intOperand : Option HostValue → EvalM σ Int64
  | some (.int n) => return n
  | _ => throw .stuck

/-- The bound of a range as an int. -/
def bound : Option HostValue → EvalM σ Int64
  | some (.int n) => return n
  | some (.double d) => return d.truncate
  | _ => throw .stuck

def print (v : Option HostValue) : EvalM σ Unit :=
  modify fun w => { w with output := w.output ++ (v.elim "" (·.text)) }

/-- Calls the host for a function with this result, and returns what it gives. -/
def callHost (bridge : Bridge σ) (symbol : String) (result : Ty) (args : List HostValue) :
    EvalM σ (Option HostValue) := fun w =>
  match bridge.call symbol args w.host with
  | (none, host) => .error (.failed (.unresolvedNative symbol)) { w with host }
  | (some (.error reason), host) => .error (.failed (.nativeFailed symbol reason)) { w with host }
  | (some (.ok v?), host) =>
    if result.isValue then
      match v? with
      | none => .error (.failed (.nativeWithoutValue symbol)) { w with host }
      | some v =>
        if (v.coerce result).ty = result then .ok (some (v.coerce result)) { w with host }
        else .error (.failed (.typeMismatch result v.ty.name)) { w with host }
    else .ok none { w with host }

/-- Goes on for as long as the test says so. -/
def loop (test : EvalM σ Bool) (body : EvalM σ Unit) : (rounds : Nat) → EvalM σ Unit
  | 0 => throw .timeout
  | rounds + 1 => do
    if ← test then
      body
      loop test body rounds

/-! ## Nodes -/

/-- What names mean: the scope that they are looked up from, and for every scope around it the call
whose variables are meant. -/
structure Place where
  scope : ScopeIndex
  level : ScopeIndex → Nat

/-- A call under way. -/
structure Scene (σ : Type) where
  source : Program
  bridge : Bridge σ
  function : FunctionDecl
  /-- How many calls are around it. -/
  level : Nat
  rounds : Nat
  /-- Calls a function from here, with the variables that it sees and its arguments. -/
  invoke : FunctionDecl → (ScopeIndex → Nat) → List HostValue → EvalM σ (Option HostValue)

namespace Place

/-- Inside a block. Its variables are those of the call. -/
def into (place : Place) (scope : ScopeIndex) (level : Nat) : Place where
  scope
  level i := if i = scope then level else place.level i

def read (place : Place) (source : Program) (name : String) : EvalM σ HostValue :=
  match source.var? place.scope name with
  | none => throw .stuck
  | some (i, ty) => return ((← get).cells (place.level i) i name).getD (.zero ty)

def write (place : Place) (source : Program) (name : String) (v : HostValue) : EvalM σ Unit :=
  match source.var? place.scope name with
  | none => throw .stuck
  | some (i, ty) => modify fun w => w.store (place.level i) i name (v.coerce ty)

/-- One more, for a loop over a range. -/
def increment (place : Place) (source : Program) (name : String) : EvalM σ Unit := do
  let n ← intOperand (some (← place.read source name))
  place.write source name (.int (n + 1))

end Place

mutual

/-- Evaluates a node; none where it has no value. -/
def eval (x : Scene σ) (place : Place) : Node → EvalM σ (Option HostValue)
  | .int n => return some (.int n)
  | .double d => return some (.double d)
  | .string s => return some (.string s)
  | .load name => return some (← place.read x.source name)
  | .store name op value => do
    let v ← operand (← eval x place value)
    match op with
    | .assign => place.write x.source name v
    | .addAssign => place.write x.source name (← lift (binary .add (← place.read x.source name) v))
    | .subAssign => place.write x.source name (← lift (binary .sub (← place.read x.source name) v))
    return none
  | .binary op left right => do
    let b ← operand (← eval x place right)
    let a ← operand (← eval x place left)
    return some (← lift (binary op a b))
  | .unary op node => do
    let a ← operand (← eval x place node)
    return some (← lift (unary op a))
  | .call name args =>
    match x.source.function? place.scope name with
    | none => throw .stuck
    | some f => do
      let values ← evalArgs x place args (f.params.map (·.ty))
      x.invoke f place.level values
  | .block body => do
    evalBlock x place body
    return none
  | .ifElse condition thenBlock none => do
    let n ← intOperand (← eval x place condition)
    if n ≠ 0 then
      evalBlock x place thenBlock
    return none
  | .ifElse condition thenBlock (some elseBlock) => do
    let n ← intOperand (← eval x place condition)
    if n ≠ 0 then
      evalBlock x place thenBlock
    else
      evalBlock x place elseBlock
    return none
  | .whileLoop condition body => do
    loop (do return (← intOperand (← eval x place condition)) = 1) (evalBlock x place body) x.rounds
    return none
  | .forLoop name (.binary .range lower upper) body => do
    let last ← bound (← eval x place upper)
    let first ← bound (← eval x place lower)
    place.write x.source name (.int first)
    loop (do return (← intOperand (some (← place.read x.source name))) ≤ last)
      (do
        evalBlock x place body
        place.increment x.source name)
      x.rounds
    return none
  | .forLoop _ _ _ => throw .stuck
  | .ret none => throw (.returned none)
  | .ret (some value) => do
    let v ← eval x place value
    throw (.returned (v.map (·.coerce x.function.result)))
  | .print operands => do
    printAll x place operands
    return none
  | .native symbol => do
    let args ← x.function.params.mapM fun param => place.read x.source param.name
    let v ← callHost x.bridge symbol x.function.result args
    throw (.returned v)
termination_by structural node => node

/-- The arguments of a call, the last one first. -/
def evalArgs (x : Scene σ) (place : Place) : List Node → List Ty → EvalM σ (List HostValue)
  | arg :: args, ty :: tys => do
    let vs ← evalArgs x place args tys
    let v ← operand (← eval x place arg)
    return v.coerce ty :: vs
  | _, _ => return []
termination_by structural args => args

/-- Prints operands. One without a value prints nothing. -/
def printAll (x : Scene σ) (place : Place) : List Node → EvalM σ Unit
  | [] => return
  | node :: nodes => do
    print (← eval x place node)
    printAll x place nodes
termination_by structural nodes => nodes

def evalBlock (x : Scene σ) (place : Place) : Block → EvalM σ Unit
  | .mk scope statements => evalAll x (place.into scope x.level) statements
termination_by structural block => block

def evalAll (x : Scene σ) (place : Place) : List Node → EvalM σ Unit
  | [] => return
  | statement :: statements => do
    let _ ← eval x place statement
    evalAll x place statements
termination_by structural statements => statements

end

-- The equations of the evaluator are made here, once, and not by the first of the proofs that use
-- them, while the others wait.
section
attribute [local simp] eval evalArgs printAll evalBlock evalAll
end

/-! ## Calls -/

/-- The variables that a call of `f` sees: its own, and those that the caller sees. Variables of
the root are those of the innermost call of `<top>`. -/
def Place.ofCall (f : FunctionDecl) (level : Nat) (outer : ScopeIndex → Nat) : Place where
  scope := f.body.scope
  level i :=
    if i = f.body.scope ∨ f.name = Program.topName ∧ i = Program.root then level else outer i

/-- Goes through the statements of a function and reaches its end. -/
def runBody (x : Scene σ) (place : Place) : EvalM σ (Option HostValue) := do
  evalAll x place x.function.body.statements
  if x.function.name = Program.topName then
    throw .halted
  if x.function.result.isValue then
    throw (.failed (.missingValue x.function.name))
  return none

/-- A value returned is the value of the call. -/
def catchReturn (m : EvalM σ (Option HostValue)) : EvalM σ (Option HostValue) := fun w =>
  match m w with
  | .error (.returned v) w => .ok v w
  | result => result

/-- Gives the parameters of a call their values. -/
def bindParams (f : FunctionDecl) (level : Nat) (args : List HostValue) (w : World σ) : World σ :=
  (f.params.zip args).foldl (fun w (param, v) => w.store level f.body.scope param.name v) w

/-- Calls a function. -/
def invoke (p : Program) (bridge : Bridge σ) :
    (rounds level : Nat) → FunctionDecl → (ScopeIndex → Nat) → List HostValue →
      EvalM σ (Option HostValue)
  | 0, _, _, _, _ => throw .timeout
  | rounds + 1, level, f, outer, args => do
    modify fun w => bindParams f level args (w.clear level)
    catchReturn (runBody
      { source := p, bridge, function := f, level, rounds,
        invoke := invoke p bridge rounds (level + 1) }
      (.ofCall f level outer))

/-- The call of `<top>` that a run is. -/
def topScene (p : Program) (bridge : Bridge σ) (rounds : Nat) (f : FunctionDecl) : Scene σ where
  source := p
  bridge
  function := f
  level := 0
  rounds
  invoke := invoke p bridge rounds 1

/-! ## Runs -/

/-- Writes the host's variables. One that the program does not have is passed over. -/
def bindVars (p : Program) (vars : List HostVar) (w : World σ) : World σ :=
  vars.foldl (fun w var =>
    if (p.hostVar? var.name).isSome then w.store 0 p.topScope var.name var.value else w) w

/-- The value of a variable of the host after a run. -/
def readVar (p : Program) (w : World σ) (var : HostVar) : HostVar :=
  match p.hostVar? var.name with
  | none => var
  | some decl => { var with value := (w.cells 0 p.topScope var.name).getD (.zero decl.ty) }

/-- What is left when a program has ended. -/
structure Ending (σ : Type) where
  result : Except Trap Unit
  /-- The host's variables afterwards. -/
  vars : List HostVar
  output : String
  host : σ

/-- Runs a program, with this many rounds for each loop and this depth of calls. There is no ending
if that is not enough. -/
def run (p : Program) (bridge : Bridge σ) (vars : List HostVar) (host : σ) (rounds : Nat) :
    Option (Ending σ) :=
  match p.top? with
  | none => none
  | some f =>
    let done (w : World σ) : Option (Ending σ) :=
      some { result := .ok (), vars := vars.map (readVar p w), output := w.output, host := w.host }
    match runBody (topScene p bridge rounds f) (.ofCall f 0 fun _ => 0) (bindVars p vars { host }) with
    | .ok _ w | .error (.returned _) w | .error .halted w => done w
    | .error (.failed trap) w =>
      some { result := .error trap, vars, output := w.output, host := w.host }
    | .error .timeout _ | .error .stuck _ => none

end Reference

end StackLang
