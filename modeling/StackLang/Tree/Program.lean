import StackLang.Tree.Node

/-!
# Programs

A program is a tree of scopes, kept in an array and linked by index. The root scope, at 0,
declares the function `<top>`: its body, scope 1 of a new program, holds the top-level statements
and the variables that the host can see.

The operations below only ever add to the tree, except `define`, which replaces the statements of
one function.
-/

namespace StackLang

structure VarDecl where
  name : String
  ty : Ty
  deriving DecidableEq

/-- A declared function. Its parameters are also the leading variables of its body's scope. -/
structure FunctionDecl where
  name : String
  result : Ty
  params : List VarDecl
  body : Block

/-- The body is a call to the host and nothing else. -/
def FunctionDecl.isNative (f : FunctionDecl) : Bool :=
  match f.body.statements with
  | [.native _] => true
  | _ => false

/-- One node of the scope tree. -/
structure Scope where
  parent : Option ScopeIndex := none
  vars : Array VarDecl := #[]
  functions : Array FunctionDecl := #[]
  children : Array ScopeIndex := #[]

structure Program where
  scopes : Array Scope

namespace Program

/-- Name of the function that holds the top-level statements. -/
def topName : String := "<top>"

def root : ScopeIndex := 0

def scope? (p : Program) (i : ScopeIndex) : Option Scope := p.scopes[i]?

def scopeCount (p : Program) : Nat := p.scopes.size

/-! ## Building -/

/-- Adds an empty scope under `parent`. -/
def addScope (p : Program) (parent : ScopeIndex) : ScopeIndex × Program :=
  let child := p.scopes.size
  let scopes := p.scopes.push { parent := some parent }
  (child, ⟨scopes.modify parent fun s => { s with children := s.children.push child }⟩)

def declareVar (p : Program) (scope : ScopeIndex) (var : VarDecl) : Program :=
  ⟨p.scopes.modify scope fun s => { s with vars := s.vars.push var }⟩

/-- Declares a function without statements; the index is that of its body's scope. -/
def declareFunction (p : Program) (scope : ScopeIndex) (name : String) (result : Ty)
    (params : List VarDecl) : ScopeIndex × Program :=
  let (body, p) := p.addScope scope
  let p := params.foldl (fun p param => p.declareVar body param) p
  let f := { name, result, params, body := .mk body [] }
  (body, ⟨p.scopes.modify scope fun s => { s with functions := s.functions.push f }⟩)

/-- Sets the statements of the function whose body's scope is `body`. Without such a function in
the parent of `body` nothing changes. -/
def define (p : Program) (body : ScopeIndex) (statements : List Node) : Program :=
  match (p.scope? body).bind (·.parent) with
  | none => p
  | some parent =>
    ⟨p.scopes.modify parent fun s =>
      match s.functions.findIdx? (·.body.scope = body) with
      | none => s
      | some i =>
        { s with functions := s.functions.modify i fun f =>
            { f with body := .mk f.body.scope statements } }⟩

/-- Declares a function whose body hands its parameters to the host's `symbol`. -/
def declareNative (p : Program) (scope : ScopeIndex) (name : String) (result : Ty)
    (params : List VarDecl) (symbol : String) : ScopeIndex × Program :=
  let (body, p) := p.declareFunction scope name result params
  (body, p.define body [.native symbol])

/-- A root scope and an empty `<top>`. -/
def empty : Program :=
  ((Program.mk #[{}]).declareFunction root topName .void []).2

def top? (p : Program) : Option FunctionDecl :=
  (p.scope? root).bind fun s => s.functions.find? (·.name = topName)

/-- The scope of the body of `<top>`. -/
def topScope (p : Program) : ScopeIndex :=
  match p.top? with
  | some f => f.body.scope
  | none => 1

def defineTop (p : Program) (statements : List Node) : Program :=
  p.define p.topScope statements

/-! ## Looking outwards -/

/-- The scopes met on `steps` steps outwards, innermost first. -/
def outwards (p : Program) (from? : Option ScopeIndex) : Nat → List ScopeIndex
  | 0 => []
  | steps + 1 =>
    match from? with
    | none => []
    | some i => i :: p.outwards ((p.scope? i).bind (·.parent)) steps

/-- `scope` and the scopes around it, innermost first. No chain of parents without a repetition is
longer than the program has scopes. -/
def enclosing (p : Program) (scope : ScopeIndex) : List ScopeIndex :=
  p.outwards (some scope) (p.scopeCount + 1)

end Program

end StackLang
