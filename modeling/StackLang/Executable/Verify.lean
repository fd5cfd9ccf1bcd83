import StackLang.Executable
import StackLang.Executable.Heights
import Std.Data.TreeSet

/-!
# Verification

`e.verify` follows every path through every function and makes sure that each instruction finds
the operands it takes and the table entries it names, that branches lead to instructions, and that
control never runs off the end. It works on heights of the operand stack alone; a call does what
the callee's signature says.

Where paths meet, the lower height counts: what a path left over is not used by the code behind.
An offset is visited again only when a lower height arrives, so the search ends.
-/

namespace StackLang

/-- What verification objects to. -/
inductive Objection where
  | undecodable (e : DecodeError)
  | empty
  | underflow (op : Opcode) (needs holds : Nat)
  | targetOutOfRange (target : Nat)
  | targetInsideInstr (target : Nat)
  | fallsOffEnd
  | unknownFunction (id : UInt16)
  | unknownNative (id : UInt16)
  | unknownString (id : UInt16)
  | unknownScope (scope : UInt16)
  | noEffect (op : Opcode)
  deriving DecidableEq

def Objection.message : Objection → String
  | undecodable e => e.message
  | empty => "empty function body"
  | underflow op needs holds =>
    s!"stack underflow: {op.mnemonic} needs {needs} value(s), stack holds {holds}"
  | targetOutOfRange target => s!"branch target {target} out of range"
  | targetInsideInstr target => s!"branch target {target} is inside an instruction"
  | fallsOffEnd => "control falls off the end of the function"
  | unknownFunction id => s!"unknown function id {id}"
  | unknownNative id => s!"unknown native id {id}"
  | unknownString id => s!"unknown string id {id}"
  | unknownScope scope => s!"unknown scope id {scope}"
  | noEffect op => s!"{op.mnemonic} has no static effect"

/-- An objection, and where it was met. -/
structure VerifyError where
  function : String
  offset : Nat
  objection : Objection
  deriving DecidableEq

def VerifyError.message (e : VerifyError) : String :=
  s!"stack-check error in '{e.function}' at {e.offset}: {e.objection.message}"

namespace Executable

/-! ## One instruction -/

/-- The effect of an instruction that is no call. -/
def plainEffect (op : Opcode) : Except Objection Effect :=
  match op.effect with
  | some effect => .ok effect
  | none => .error (.noEffect op)

/-- What an instruction takes and leaves. The table entry that it names must exist. -/
def effectOf (e : Executable) (op : Opcode) (operand : Operand) : Except Objection Effect :=
  match operand with
  | .function id =>
    match e.routine? id with
    | some callee => .ok ⟨callee.arity, if callee.returnsValue then 1 else 0⟩
    | none => .error (.unknownFunction id)
  | .native id =>
    match e.native? id with
    | some native => .ok ⟨native.params.length, if native.result.isValue then 1 else 0⟩
    | none => .error (.unknownNative id)
  | .string id =>
    if (e.strings.get? id).isNone then .error (.unknownString id) else plainEffect op
  | .var addr =>
    if e.scopeCount ≤ addr.scope.toNat then .error (.unknownScope addr.scope) else plainEffect op
  | _ => plainEffect op

/-- Offset of a branch's target: inside the stream, and where an instruction begins. -/
def branchTarget (code : Code) (boundaries : Std.TreeSet Nat) :
    Operand → Except Objection (List Nat)
  | .target target =>
    if code.size ≤ target then .error (.targetOutOfRange target)
    else if boundaries.contains target then .ok [target]
    else .error (.targetInsideInstr target)
  | _ => .ok []

/-- Offset of the instruction behind this one, unless control never gets there. -/
def fallThrough (code : Code) (i : Instr) : Except Objection (List Nat) :=
  if i.op.isTerminator then .ok []
  else if code.size ≤ i.next then .error .fallsOffEnd
  else .ok [i.next]

/-- What becomes of a stack of this height at an offset: its height afterwards, and where control
goes, a branch's target before the next instruction. -/
def visit (e : Executable) (code : Code) (boundaries : Std.TreeSet Nat) (offset height : Nat) :
    Except Objection (Nat × List Nat) := do
  let i ← (code.decodeAt offset).mapError .undecodable
  let effect ← e.effectOf i.op i.operand
  if height < effect.pops then
    throw (.underflow i.op effect.pops height)
  let branch ← branchTarget code boundaries i.operand
  let next ← fallThrough code i
  return (height - effect.pops + effect.pushes, branch ++ next)

/-! ## The search -/

/-- Visits the pending offsets, and every offset that a lower height arrives at. The result is the
greatest height met, starting from `deepest`. -/
def search (e : Executable) (code : Code) (boundaries : Std.TreeSet Nat) (hs : Heights)
    (pending : List Nat) (deepest : Nat) : Except (Nat × Objection) Nat :=
  match pending with
  | [] => .ok deepest
  | offset :: rest =>
    match hs[offset]? with
    | some (some height) =>
      match e.visit code boundaries offset height with
      | .error objection => .error (offset, objection)
      | .ok (after, successors) =>
        let next := successors.foldl (Heights.arrive after) (hs, rest)
        e.search code boundaries next.1 next.2 (max deepest after)
    | _ => e.search code boundaries hs rest deepest
termination_by (hs.unvisited, hs.total, pending.length)
decreasing_by
  · rcases Heights.foldl_arrive_eq_or_below after successors (hs, rest) with h | h
    · rw [h]; simp [Prod.lex_def]
    · rcases h with h | ⟨h, h'⟩
      · exact Prod.Lex.left _ _ h
      · rw [h]; exact Prod.Lex.right _ (Prod.Lex.left _ _ h')
  · simp [Prod.lex_def]

/-- The greatest height of the operand stack on any path through a function. Its arguments are on
the stack when it begins. -/
def verifyRoutine (e : Executable) (r : Routine) : Except VerifyError Nat :=
  let fail (offset : Nat) (objection : Objection) : VerifyError := ⟨r.name, offset, objection⟩
  match r.code.instructions with
  | .error err => .error (fail 0 (.undecodable err))
  | .ok instrs =>
    if instrs.isEmpty then .error (fail 0 .empty)
    else
      let boundaries := Std.TreeSet.ofList (instrs.toList.map (·.offset))
      let heights := (Array.replicate r.code.size none).setIfInBounds 0 (some r.arity)
      (e.search r.code boundaries heights [0] r.arity).mapError fun (offset, o) => fail offset o

/-- Verifies every function, in the order of their ids. -/
def verify (e : Executable) : Except VerifyError Unit :=
  e.routines.toList.forM fun r => do
    let _ ← e.verifyRoutine r

end Executable

end StackLang
