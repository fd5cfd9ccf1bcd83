import StackLang.Compile.Node
import Std.Data.TreeSet

/-!
# Compiling programs

`p.compile strict` numbers the scopes from the root on, each before its children, and gives every
function an id where its scope declares it. The functions of a scope are compiled after those of
the scopes inside it, so a body may call whatever is visible from it, declared before or after.

With `strict`, a function may only return what can become its declared type.
-/

namespace StackLang

open CompileM

/-- A step in the compilation of a program. -/
abbrev ProgramM := StateT Compilation (Except Diagnostic)

namespace ProgramM

/-- A step outside every function. -/
def outside {α : Type} (step : CompileM α) : ProgramM α := fun t =>
  (step t).mapError fun cause => { cause }

/-- A step in the compilation of a function. -/
def inside {α : Type} (name : String) (step : CompileM α) : ProgramM α := fun t =>
  (step t).mapError fun cause => Diagnostic.inFunction { cause } name

/-! ## Functions -/

/-- A function that has its id but no code yet. -/
def signature (scope : UInt16) (f : FunctionDecl) : Routine where
  id := 0
  name := f.name
  declaringScope := scope
  scope := scope
  params := f.params.map (·.ty)
  result := f.result
  locals := 0
  layout := []
  code := {}

/-- Gives a function the next id. -/
def declareFunction (i : ScopeIndex) (scope : UInt16) (f : FunctionDecl) : CompileM UInt16 :=
  fun t =>
    let exe := t.exe
    let symbols := t.symbols
    let t := { t with exe := {}, symbols := {} }
    match exe.addRoutine (signature scope f) with
    | (none, _) => .error (.limitExceeded .functions Symbols.maxId)
    | (some id, exe) => .ok (id, { t with exe, symbols := symbols.declareFunction i f.name id })

/-- Lays the scopes out one behind the other; the second part is the size of the whole. -/
def layOut (symbols : Symbols) (owned : List UInt16) : List ScopeLayout × Nat :=
  owned.foldl (fun (layout, base) scope =>
    let size := symbols.scopeSize scope
    (layout ++ [{ scope, base, size }], base + size)) ([], 0)

/-- Takes the arguments from the stack, the first one first. -/
def storeParams (source : Program) (params : List VarDecl) : CompileM Unit :=
  params.forM fun param => do
    storeVar (← resolveVar source param.name)

/-- Starts the code of a function. What the root declares lives in the frame of `<top>`. -/
def openFunction (c : FunctionContext) : CompileM UInt16 := do
  let body := c.function.body.scope
  let scope ← numberScope c.source body
  let owned ←
    if c.function.name = Program.topName then
      let root ← numberScope c.source Program.root
      pure [root, scope]
    else pure [scope]
  modify fun t => { t with code := {}, types := [], owned, scope := body }
  return scope

/-- Puts the finished code and the layout of the frame into the function's record. -/
def closeFunction (id : UInt16) (scope : UInt16) : CompileM Unit := do
  let t ← get
  let code ← t.code.finish
  let (layout, locals) := layOut t.symbols t.owned
  modify fun t =>
    { t with exe := t.exe.modifyRoutine id fun r => { r with scope, locals, layout, code } }

/-- Compiles the body of a function. -/
def compileFunction (c : FunctionContext) (id : UInt16) : CompileM Unit := do
  let scope ← openFunction c
  storeParams c.source c.function.params
  compileStatements c c.function.body.statements
  emit (if c.function.name = Program.topName then .stop else .ret)
  closeFunction id scope

/-! ## Scopes -/

/-- Numbers the scope at `i`, declares its functions, goes through the scopes inside it, and then
compiles its functions. The tree is not deeper than `depth`. -/
def compileScope (source : Program) (strict : Bool) :
    (depth : Nat) → (i : ScopeIndex) → ProgramM Unit
  | 0, i => throw { cause := .unknownScope i }
  | depth + 1, i =>
    match source.scope? i with
    | none => throw { cause := .unknownScope i }
    | some scope => do
      let number ← outside (onSymbols (·.enterScope i scope))
      let ids ← scope.functions.toList.mapM fun f => outside (declareFunction i number f)
      scope.children.forM fun child => compileScope source strict depth child
      (scope.functions.toList.zip ids).forM fun (f, id) =>
        inside f.name (compileFunction { source, function := f, strict } id)

end ProgramM

/-! ## Programs -/

namespace Program

/-- The first variable of each name. -/
def firstOfEachName (vars : List VarDecl) : List VarDecl :=
  (vars.foldl (fun (seen, firsts) var =>
    if var.name ∈ seen then (seen, firsts) else (seen.insert var.name, var :: firsts))
    ((∅ : Std.TreeSet String), [])).2.reverse

/-- The variables in the body of `<top>`, where the host finds them. -/
def topVars (p : Program) (symbols : Symbols) : List TopVar :=
  match (p.scope? p.topScope) with
  | none => []
  | some scope =>
    (firstOfEachName scope.vars.toList).filterMap fun var =>
      (symbols.lookupVar? p p.topScope var.name).map fun info =>
        { name := var.name, ty := info.ty, addr := info.addr }

/-- Compiles a program, which must declare `<top>` in its root. -/
def compile (p : Program) (strict : Bool := false) : Except Diagnostic Executable := do
  if p.top?.isNone then
    throw { cause := .undeclaredFunction topName }
  let ((), t) ← (ProgramM.compileScope p strict (p.scopeCount + 1) root).run {}
  return { t.exe with scopeCount := t.symbols.scopeCount, topVars := p.topVars t.symbols }

end Program

end StackLang
