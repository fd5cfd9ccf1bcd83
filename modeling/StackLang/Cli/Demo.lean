import StackLang.Tree.Program

/-!
# Demo programs

Small programs that show what the language can do, and the host variables that they run with.
-/

namespace StackLang.Cli

structure Demo where
  name : String
  program : Program
  hostVars : List (String × Int64) := []

namespace Demo

/-- Sets the top-level variables and scopes of a program: `vars`, then `scopes` empty scopes inside
the body of `<top>`. -/
def withTop (vars : List VarDecl) (scopes : Nat) : Program :=
  let p := vars.foldl (fun p var => p.declareVar p.topScope var) Program.empty
  (List.range scopes).foldl (fun p _ => (p.addScope p.topScope).2) p

/-- A loop over a range and a loop that counts down. -/
def loops : Program :=
  (withTop [⟨"i", .int⟩, ⟨"k", .int⟩] 2).defineTop [
    .forLoop "i" (.binary .range (.int 1) (.int 5)) (.mk 2 [.print [.load "i"]]),
    .print [.string "\n"],
    .store "k" .assign (.int 3),
    .whileLoop (.binary .gt (.load "k") (.int 0)) (.mk 3 [
      .print [.load "k", .string " "],
      .store "k" .subAssign (.int 1)])]

/-- The Fibonacci numbers, by recursion. -/
def fib : Program :=
  let p := withTop [⟨"i", .int⟩] 0
  let (body, p) := p.declareFunction p.topScope "fib" .int [⟨"n", .int⟩]
  let (base, p) := p.addScope body
  let call (k : Int64) : Node := .call "fib" [.binary .sub (.load "n") (.int k)]
  let p := p.define body [
    .ifElse (.binary .lt (.load "n") (.int 2)) (.mk base [.ret (some (.load "n"))]) none,
    .ret (some (.binary .add (call 1) (call 2)))]
  let (loop, p) := p.addScope p.topScope
  p.defineTop [
    .forLoop "i" (.binary .range (.int 0) (.int 15)) (.mk loop [
      .print [.call "fib" [.load "i"], .string " "]])]

/-- Ints and doubles in one expression, and conversion on assignment. -/
def mixed : Program :=
  (withTop [⟨"r", .int⟩, ⟨"area", .double⟩, ⟨"whole", .int⟩] 0).defineTop [
    .store "r" .assign (.int 3),
    .store "area" .assign
      (.binary .mul (.binary .mul (.load "r") (.load "r")) (.double ⟨0x400921f9f01b866e⟩)),
    .store "whole" .assign (.load "area"),
    .print [.string "area of r=3: ", .load "area", .string ", truncated: ", .load "whole"]]

/-- Calls to the host. -/
def natives : Program :=
  let p := Program.empty
  let (_, p) := p.declareNative p.topScope "sqrt" .double [⟨"x", .double⟩] "sqrt"
  let (_, p) := p.declareNative p.topScope "strlen" .int [⟨"s", .string⟩] "strlen"
  p.defineTop [
    .print [
      .string "sqrt(2) = ", .call "sqrt" [.int 2],
      .string ", strlen(\"cinder\") = ", .call "strlen" [.string "cinder"]]]

/-- The sum of the numbers up to `n`, which comes from the host, as `sum` goes back to it. -/
def host : Program :=
  (withTop [⟨"n", .int⟩, ⟨"sum", .int⟩, ⟨"i", .int⟩] 1).defineTop [
    .forLoop "i" (.binary .range (.int 1) (.load "n")) (.mk 2 [
      .store "sum" .addAssign (.load "i")])]

/-- All demos, in the order in which they are run. -/
def all : List Demo := [
  { name := "loops", program := loops },
  { name := "fib", program := fib },
  { name := "mixed", program := mixed },
  { name := "natives", program := natives },
  { name := "host", program := host, hostVars := [("n", 10), ("sum", 0)] }]

end Demo

end StackLang.Cli
