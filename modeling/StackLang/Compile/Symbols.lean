import StackLang.Code.Instr
import StackLang.Diagnostic
import StackLang.Tree.Program
import Std.Data.TreeMap

/-!
# Symbols

Addresses of variables and ids of functions. Scopes are numbered as they are entered, and the
variables of a scope get its slots in the order of their declaration. A name means what the
nearest enclosing scope that has been entered declares, and there its first declaration.
-/

namespace StackLang

/-- Names of one kind, by the scope that declares them. -/
abbrev NameTable (α : Type) := Std.TreeMap ScopeIndex (Std.TreeMap String α)

namespace NameTable

variable {α : Type}

/-- Declares a name. The first declaration in a scope stays. -/
def declare (t : NameTable α) (scope : ScopeIndex) (name : String) (a : α) : NameTable α :=
  t.alter scope fun names => some ((names.getD ∅).insertIfNew name a)

/-- What a scope itself declares under a name. -/
def declared? (t : NameTable α) (scope : ScopeIndex) (name : String) : Option α :=
  t[scope]?.bind (·[name]?)

/-- What a name means inside a scope. -/
def lookup? (t : NameTable α) (p : Program) (scope : ScopeIndex) (name : String) : Option α :=
  (p.enclosing scope).findSome? (t.declared? · name)

end NameTable

structure VarInfo where
  addr : VarAddr
  ty : Ty
  deriving DecidableEq

structure Symbols where
  scopeIds : Std.TreeMap ScopeIndex UInt16 := ∅
  /-- Slots of each numbered scope, the hidden ones included. -/
  sizes : Array Nat := #[]
  vars : NameTable VarInfo := ∅
  functions : NameTable UInt16 := ∅

namespace Symbols

/-- The largest 16-bit number. -/
def maxId : Nat := UInt16.size - 1

def scopeId? (s : Symbols) (scope : ScopeIndex) : Option UInt16 := s.scopeIds[scope]?

def scopeCount (s : Symbols) : Nat := s.sizes.size

/-- Slots of the scope with a number; none if there is no such scope. -/
def scopeSize (s : Symbols) (id : UInt16) : Nat := s.sizes[id.toNat]?.getD 0

/-- Variables in the order of their slots, by name; of two with one name the first counts. -/
def slots (id : UInt16) (vars : List VarDecl) : Std.TreeMap String VarInfo :=
  vars.zipIdx.foldl (fun names (var, slot) =>
    names.insertIfNew var.name ⟨⟨id, slot.toUInt16⟩, var.ty⟩) ∅

/-- Numbers a scope, unless it has a number, and gives its variables their slots. -/
def enterScope (s : Symbols) (i : ScopeIndex) (scope : Scope) :
    Except Cause (UInt16 × Symbols) :=
  match s.scopeId? i with
  | some id => .ok (id, s)
  | none =>
    if s.sizes.size > maxId then .error (.limitExceeded .scopes maxId)
    else if scope.vars.size > maxId then .error (.limitExceeded .vars maxId)
    else
      let id := s.sizes.size.toUInt16
      .ok (id, { s with
        scopeIds := s.scopeIds.insert i id
        sizes := s.sizes.push scope.vars.size
        vars := s.vars.insert i (slots id scope.vars.toList) })

def declareFunction (s : Symbols) (i : ScopeIndex) (name : String) (id : UInt16) : Symbols :=
  { s with functions := s.functions.declare i name id }

def lookupVar? (s : Symbols) (p : Program) (scope : ScopeIndex) (name : String) : Option VarInfo :=
  s.vars.lookup? p scope name

def lookupFunction? (s : Symbols) (p : Program) (scope : ScopeIndex) (name : String) :
    Option UInt16 :=
  s.functions.lookup? p scope name

/-- Adds a hidden int slot at the end of a numbered scope. -/
def allocScratch (s : Symbols) (id : UInt16) : Except Cause (VarAddr × Symbols) :=
  match s.sizes[id.toNat]? with
  | none => .error (.unknownScope id.toNat)
  | some size =>
    if size > maxId then .error (.limitExceeded .vars maxId)
    else
      .ok (⟨id, size.toUInt16⟩, { s with sizes := s.sizes.setIfInBounds id.toNat (size + 1) })

end Symbols

end StackLang
