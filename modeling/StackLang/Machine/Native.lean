import StackLang.Text.Quoted
import StackLang.Value
import Std.Data.TreeMap

/-!
# Host functions

A program calls its host through a `Bridge`, which may keep a state of its own. A `NativeTable` is
a bridge made of functions by name.
-/

namespace StackLang

/-- What a host function answers: a value or none, or why it failed. -/
abbrev NativeResult := Except String (Option HostValue)

/-- Answers the calls of a program; none where it does not know the symbol. -/
structure Bridge (σ : Type) where
  call : (symbol : String) → (args : List HostValue) → σ → Option NativeResult × σ

/-- A function of the host. -/
abbrev NativeFn (σ : Type) := List HostValue → σ → NativeResult × σ

structure NativeTable (σ : Type) where
  functions : Std.TreeMap String (NativeFn σ) := ∅

namespace NativeTable

variable {σ : Type}

/-- Adds a function, in place of one with the same name. -/
def register (t : NativeTable σ) (symbol : String) (f : NativeFn σ) : NativeTable σ :=
  ⟨t.functions.insert symbol f⟩

def contains (t : NativeTable σ) (symbol : String) : Bool := t.functions.contains symbol

def bridge (t : NativeTable σ) : Bridge σ where
  call symbol args s :=
    match t.functions[symbol]? with
    | none => (none, s)
    | some f =>
      let (result, s) := f args s
      (some result, s)

/-- The names, in order, as a record on one line. -/
def text (t : NativeTable σ) : String :=
  let names := ", ".intercalate (t.functions.keys.map Text.quoted)
  "NativeTable \x7b functions: [" ++ names ++ "] \x7d"

/-! ## Mathematics -/

/-- A function without a state. -/
def pureFn (f : List HostValue → NativeResult) : NativeFn σ := fun args s => (f args, s)

/-- A function on one double; an int is converted. -/
def onDouble (f : Double → Double) : List HostValue → NativeResult
  | [.double d] => .ok (some (.double (f d)))
  | [.int n] => .ok (some (.double (f (.ofInt n))))
  | args => .error s!"expected one number, got {args.length} argument(s)"

/-- Number of characters of a string. -/
def strlen : List HostValue → NativeResult
  | [.string s] => .ok (some (.int (.ofNat s.length)))
  | _ => .error "strlen expects one string"

/-- `sqrt`, `floor` and `abs` of numbers, and `strlen`. -/
def withMath : NativeTable σ :=
  (({} : NativeTable σ).register "sqrt" (pureFn (onDouble .sqrt)))
    |>.register "floor" (pureFn (onDouble .floor))
    |>.register "abs" (pureFn (onDouble .abs))
    |>.register "strlen" (pureFn strlen)

end NativeTable

end StackLang
