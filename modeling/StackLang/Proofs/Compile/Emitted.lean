import StackLang.Compile.Node
import StackLang.Proofs.Code.Joints

/-!
# What code a phrase has

`Emitted g scope phrase start types stop` says that the code of a phrase stands from `start` to
`stop` and leaves values of these types, the first on top. It has one constructor for each form of
a phrase, with the places of branches as offsets; a `Site` is what the code refers to: the code
itself, and what the names and constants of the phrase have become. A phrase with a statement
where a value is needed has no code.
-/

namespace StackLang

/-! ## Conversions -/

/-- The type of what `coerceTop` makes of a value. -/
def coerced : Ty → Ty → Ty
  | .int, .double => .double
  | .double, .int => .int
  | ty, _ => ty

/-- The code of `coerceTop`. -/
def coercion : Ty → Ty → List (Opcode × Operand)
  | .int, .double => [(.intToDouble, .none)]
  | .double, .int => [(.doubleToInt, .none)]
  | _, _ => []

/-- The type in which `promote` combines two numbers. -/
def promoted : Ty → Ty → Ty
  | .int, .int => .int
  | _, _ => .double

/-- The code of `promote`, with the left number on top. -/
def promotion (left right : Ty) : List (Opcode × Operand) :=
  if left = .int ∧ right = .int then []
  else
    (if left = .int then [(.intToDouble, .none)] else []) ++
      (if right = .int then [(.swap, .none), (.intToDouble, .none), (.swap, .none)] else [])

/-- The code of `boundToInt`. -/
def boundCode : Ty → List (Opcode × Operand)
  | .double => [(.doubleToInt, .none)]
  | _ => []

def loadOp : Ty → Opcode
  | .int => .loadIntVar
  | .double => .loadDoubleVar
  | .string => .loadStringVar
  | _ => .invalid

def storeOp : Ty → Opcode
  | .int => .storeIntVar
  | .double => .storeDoubleVar
  | .string => .storeStringVar
  | _ => .invalid

/-- The instruction that loads a variable; one that cannot hold a value has none of its own. -/
def loadInstr (var : VarInfo) : Opcode × Operand :=
  if var.ty.isValue then (loadOp var.ty, .var var.addr) else (.invalid, .none)

def storeInstr (var : VarInfo) : Opcode × Operand :=
  if var.ty.isValue then (storeOp var.ty, .var var.addr) else (.invalid, .none)

theorem loadInstr_of_isValue {var : VarInfo} (h : var.ty.isValue = true) :
    loadInstr var = (loadOp var.ty, .var var.addr) := if_pos h

theorem storeInstr_of_isValue {var : VarInfo} (h : var.ty.isValue = true) :
    storeInstr var = (storeOp var.ty, .var var.addr) := if_pos h

def compareOp (ty : Ty) : Opcode := if ty = .double then .compareDouble else .compareInt

/-- The opcode of an operator that is defined on ints alone. -/
def intOp : BinaryOp → Option Opcode
  | .mod => some .modInt
  | .bitAnd | .and => some .andInt
  | .bitOr | .or => some .orInt
  | .bitXor => some .xorInt
  | _ => none

def BinaryOp.isArithmetic : BinaryOp → Bool
  | .add | .sub | .mul | .div => true
  | _ => false

/-- The code of an operator stands from `start` to `stop`; the left value is on top. -/
inductive BinaryCode (c : Code) (op : BinaryOp) : (left right : Ty) → Nat → Ty → Nat → Prop
  | arithmetic {left right : Ty} {start stop : Nat} (hop : op.isArithmetic = true)
      (hl : left.isNumeric = true) (hr : right.isNumeric = true)
      (h : c.Line start (promotion left right ++
        [(arithmeticOp op (promoted left right), .none)]) stop) :
      BinaryCode c op left right start (promoted left right) stop
  | ints {opcode : Opcode} {start stop : Nat} (hop : intOp op = some opcode)
      (h : c.Line start [(opcode, .none)] stop) : BinaryCode c op .int .int start .int stop
  | comparison {left right : Ty} {negated : Opcode} {start no stop : Nat}
      (hop : op.negatedJump = some negated)
      (hl : left.isNumeric = true) (hr : right.isNumeric = true)
      (h : c.Line start (promotion left right ++ [(compareOp (promoted left right), .none),
        (.int0, .none), (negated, .target no), (.int1, .none), (.jump, .target stop)]) no)
      (h' : c.Line no [(.int0, .none)] stop) :
      BinaryCode c op left right start .int stop

/-- The types that an operator takes. -/
def UnaryOp.takes : UnaryOp → Ty → Bool
  | .not, ty => ty = .int
  | _, ty => ty.isNumeric

def unaryCode : UnaryOp → Ty → List (Opcode × Operand)
  | .plus, _ => []
  | .minus, ty => [(if ty = .double then .negDouble else .negInt, .none)]
  | .not, _ => [(.int1, .none), (.xorInt, .none)]

/-- The code that drops the value of a statement. -/
def dropCode : Ty → List (Opcode × Operand)
  | .void => []
  | _ => [(.pop, .none)]

/-! ## Phrases -/

/-- What the code of a function refers to. -/
structure Site where
  code : Code
  /-- The function has this result and is compiled with strict returns. -/
  result : Ty
  strict : Bool
  /-- What a name means inside a scope. -/
  var : ScopeIndex → String → VarInfo → Prop
  function : ScopeIndex → String → UInt16 → Routine → Prop
  text : String → UInt16 → Prop
  host : NativeDecl → UInt16 → Prop
  /-- A hidden slot of a scope. -/
  hidden : ScopeIndex → VarAddr → Prop
  /-- A block's scope. -/
  block : ScopeIndex → Prop
  /-- The parameters of the function. -/
  params : List VarDecl

/-- The variables of the parameters, looked up one by one. -/
theorem Site.exists_param_of_zip {g : Site} {sc : ScopeIndex} {params : List VarDecl}
    {infos : List VarInfo} (hcount : infos.length = params.length)
    (hvars : ∀ x ∈ params.zip infos, g.var sc x.1.name x.2) :
    ∀ info ∈ infos, ∃ param ∈ params, g.var sc param.name info := by
  intro info hinfo
  have hzip : (params.zip infos).map Prod.snd = infos := List.map_snd_zip (Nat.le_of_eq hcount)
  rw [← hzip] at hinfo
  obtain ⟨x, hx, rfl⟩ := List.mem_map.mp hinfo
  exact ⟨x.1, (List.of_mem_zip hx).1, hvars x hx⟩

/-- What is compiled as one piece. -/
inductive Phrase where
  /-- A node that leaves a value. -/
  | expr (n : Node)
  /-- A node in statement position. -/
  | stmt (n : Node)
  | stmts (ns : List Node)
  | block (b : Block)
  | args (ns : List Node)
  | operands (ns : List Node)

/-- The code of a phrase stands from `start` to `stop` and leaves values of these types. -/
inductive Emitted (g : Site) : ScopeIndex → Phrase → Nat → List Ty → Nat → Prop
  /- Expressions -/
  | int {sc : ScopeIndex} {n : Int64} {a b : Nat} (h : g.code.Line a [(.loadInt, .int n)] b) :
      Emitted g sc (.expr (.int n)) a [.int] b
  | double {sc : ScopeIndex} {d : Double} {a b : Nat}
      (h : g.code.Line a [(.loadDouble, .double d)] b) :
      Emitted g sc (.expr (.double d)) a [.double] b
  | string {sc : ScopeIndex} {s : String} {id : UInt16} {a b : Nat} (hid : g.text s id)
      (h : g.code.Line a [(.loadString, .string id)] b) :
      Emitted g sc (.expr (.string s)) a [.string] b
  | load {sc : ScopeIndex} {name : String} {info : VarInfo} {a b : Nat}
      (hvar : g.var sc name info) (h : g.code.Line a [loadInstr info] b) :
      Emitted g sc (.expr (.load name)) a [info.ty] b
  | binary {sc : ScopeIndex} {op : BinaryOp} {left right : Node} {tl tr ty : Ty} {a m₁ m₂ b : Nat}
      (hright : Emitted g sc (.expr right) a [tr] m₁)
      (hleft : Emitted g sc (.expr left) m₁ [tl] m₂) (h : BinaryCode g.code op tl tr m₂ ty b) :
      Emitted g sc (.expr (.binary op left right)) a [ty] b
  | unary {sc : ScopeIndex} {op : UnaryOp} {operand : Node} {ty : Ty} {a m b : Nat}
      (hoperand : Emitted g sc (.expr operand) a [ty] m) (hty : op.takes ty = true)
      (h : g.code.Line m (unaryCode op ty) b) :
      Emitted g sc (.expr (.unary op operand)) a [ty] b
  | call {sc : ScopeIndex} {name : String} {args : List Node} {id : UInt16} {callee : Routine}
      {a m b : Nat} (hfun : g.function sc name id callee) (hcount : callee.arity = args.length)
      (hargs : Emitted g sc (.args args) a callee.params m)
      (h : g.code.Line m [(.call, .function id)] b) :
      Emitted g sc (.expr (.call name args)) a [callee.result] b
  /- Arguments, the last one first -/
  | argsNil {sc : ScopeIndex} {a : Nat} : Emitted g sc (.args []) a [] a
  | argsCons {sc : ScopeIndex} {arg : Node} {args : List Node} {ty found : Ty} {tys : List Ty}
      {a m₁ m₂ b : Nat} (hargs : Emitted g sc (.args args) a tys m₁)
      (harg : Emitted g sc (.expr arg) m₁ [found] m₂) (hty : coerced found ty = ty)
      (h : g.code.Line m₂ (coercion found ty) b) :
      Emitted g sc (.args (arg :: args)) a (ty :: tys) b
  /- Statements -/
  | drop {sc : ScopeIndex} {n : Node} {ty : Ty} {a m b : Nat}
      (hn : Emitted g sc (.expr n) a [ty] m) (h : g.code.Line m (dropCode ty) b) :
      Emitted g sc (.stmt n) a [] b
  | assign {sc : ScopeIndex} {name : String} {value : Node} {info : VarInfo} {found : Ty}
      {a m b : Nat} (hvar : g.var sc name info) (hvalue : Emitted g sc (.expr value) a [found] m)
      (hty : coerced found info.ty = info.ty)
      (h : g.code.Line m (coercion found info.ty ++ [storeInstr info]) b) :
      Emitted g sc (.stmt (.store name .assign value)) a [] b
  | update {sc : ScopeIndex} {name : String} {op : AssignOp} {value : Node} {info : VarInfo}
      {found : Ty} {a m₁ m₂ m₃ b : Nat} (hop : op ≠ .assign) (hvar : g.var sc name info)
      (hvalue : Emitted g sc (.expr value) a [found] m₁)
      (hload : g.code.Line m₁ [loadInstr info] m₂)
      (hcode : BinaryCode g.code (if op = .addAssign then .add else .sub) info.ty found m₂
        info.ty m₃)
      (h : g.code.Line m₃ [storeInstr info] b) :
      Emitted g sc (.stmt (.store name op value)) a [] b
  | inner {sc : ScopeIndex} {body : Block} {a b : Nat} (h : Emitted g sc (.block body) a [] b) :
      Emitted g sc (.stmt (.block body)) a [] b
  | ifThen {sc : ScopeIndex} {condition : Node} {thenBlock : Block} {a m₁ m₂ b : Nat}
      (hcond : Emitted g sc (.expr condition) a [.int] m₁)
      (htest : g.code.Line m₁ [(.int0, .none), (.jumpEq, .target b)] m₂)
      (hthen : Emitted g sc (.block thenBlock) m₂ [] b) :
      Emitted g sc (.stmt (.ifElse condition thenBlock none)) a [] b
  | ifElse {sc : ScopeIndex} {condition : Node} {thenBlock elseBlock : Block}
      {a m₁ m₂ m₃ no b : Nat} (hcond : Emitted g sc (.expr condition) a [.int] m₁)
      (htest : g.code.Line m₁ [(.int0, .none), (.jumpEq, .target no)] m₂)
      (hthen : Emitted g sc (.block thenBlock) m₂ [] m₃)
      (hskip : g.code.Line m₃ [(.jump, .target b)] no)
      (helse : Emitted g sc (.block elseBlock) no [] b) :
      Emitted g sc (.stmt (.ifElse condition thenBlock (some elseBlock))) a [] b
  | whileLoop {sc : ScopeIndex} {condition : Node} {body : Block} {a m₁ m₂ m₃ b : Nat}
      (hcond : Emitted g sc (.expr condition) a [.int] m₁)
      (htest : g.code.Line m₁ [(.int1, .none), (.jumpNe, .target b)] m₂)
      (hbody : Emitted g sc (.block body) m₂ [] m₃)
      (hback : g.code.Line m₃ [(.jump, .target a)] b) :
      Emitted g sc (.stmt (.whileLoop condition body)) a [] b
  | forLoop {sc : ScopeIndex} {name : String} {lower upper : Node} {body : Block} {info : VarInfo}
      {limit : VarAddr} {tl tu : Ty} {a m₁ m₂ m₃ m₄ m₅ m₆ b : Nat} (hvar : g.var sc name info)
      (hint : info.ty = .int) (hlimit : g.hidden sc limit)
      (hupper : Emitted g sc (.expr upper) a [tu] m₁) (htu : tu.isNumeric = true)
      (hu : g.code.Line m₁ (boundCode tu ++ [(.storeIntVar, .var limit)]) m₂)
      (hlower : Emitted g sc (.expr lower) m₂ [tl] m₃) (htl : tl.isNumeric = true)
      (hl : g.code.Line m₃ (boundCode tl ++ [(.storeIntVar, .var info.addr)]) m₄)
      (htest : g.code.Line m₄ [(.loadIntVar, .var limit), (.loadIntVar, .var info.addr),
        (.jumpGt, .target b)] m₅)
      (hbody : Emitted g sc (.block body) m₅ [] m₆)
      (hback : g.code.Line m₆ [(.int1, .none), (.loadIntVar, .var info.addr), (.addInt, .none),
        (.storeIntVar, .var info.addr), (.jump, .target m₄)] b)
      (hsparel : g.code.Spares limit m₂ m₃) (hspareb : g.code.Spares limit m₅ m₆) :
      Emitted g sc (.stmt (.forLoop name (.binary .range lower upper) body)) a [] b
  | ret {sc : ScopeIndex} {a b : Nat} (hstrict : g.strict = true → g.result = .void)
      (h : g.code.Line a [(.ret, .none)] b) : Emitted g sc (.stmt (.ret none)) a [] b
  | retValue {sc : ScopeIndex} {value : Node} {found : Ty} {a m b : Nat}
      (hvalue : Emitted g sc (.expr value) a [found] m)
      (hstrict : g.strict = true →
        (if g.result = .void then found else coerced found g.result) = g.result)
      (h : g.code.Line m ((if g.result = .void then [] else coercion found g.result) ++
        [(.ret, .none)]) b) : Emitted g sc (.stmt (.ret (some value))) a [] b
  | print {sc : ScopeIndex} {operands : List Node} {a b : Nat}
      (h : Emitted g sc (.operands operands) a [] b) :
      Emitted g sc (.stmt (.print operands)) a [] b
  | native {sc : ScopeIndex} {symbol : String} {infos : List VarInfo} {id : UInt16} {a m b : Nat}
      (hcount : infos.length = g.params.length)
      (hvars : ∀ x ∈ g.params.zip infos, g.var sc x.1.name x.2)
      (hloads : g.code.Line a (infos.reverse.map loadInstr) m)
      (hhost : g.host { symbol, params := g.params.map (·.ty), result := g.result } id)
      (h : g.code.Line m [(.callNative, .native id), (.ret, .none)] b) :
      Emitted g sc (.stmt (.native symbol)) a [] b
  /- Operands of a print, the first one first -/
  | operandsNil {sc : ScopeIndex} {a : Nat} : Emitted g sc (.operands []) a [] a
  | operandsCons {sc : ScopeIndex} {operand : Node} {operands : List Node} {ty : Ty}
      {a m₁ m₂ b : Nat} (hoperand : Emitted g sc (.expr operand) a [ty] m₁)
      (h : g.code.Line m₁ [(printOp ty, .none)] m₂)
      (hoperands : Emitted g sc (.operands operands) m₂ [] b) :
      Emitted g sc (.operands (operand :: operands)) a [] b
  /- Blocks and lists of statements -/
  | blockMk {sc inner : ScopeIndex} {statements : List Node} {a b : Nat} (hin : g.block inner)
      (h : Emitted g inner (.stmts statements) a [] b) :
      Emitted g sc (.block (.mk inner statements)) a [] b
  | stmtsNil {sc : ScopeIndex} {a : Nat} : Emitted g sc (.stmts []) a [] a
  | stmtsCons {sc : ScopeIndex} {statement : Node} {statements : List Node} {a m b : Nat}
      (hs : Emitted g sc (.stmt statement) a [] m)
      (h : Emitted g sc (.stmts statements) m [] b) :
      Emitted g sc (.stmts (statement :: statements)) a [] b

end StackLang
