import StackLang.Code.Instr
import StackLang.Diagnostic

/-!
# Writing code

A `Builder` is a stream being written, with labels for the places that branches lead to. A branch
to a label that is bound already gets its distance at once; before that it is written as zero and
the label remembers it. Binding the label fills in every branch that waits for it.

An operation that fails leaves behind what it had done by then, as `EStateM` does.
-/

namespace StackLang

/-- A place in the code that branches can name. -/
structure Label where
  index : Nat
  deriving DecidableEq

/-- What a builder knows of a label. -/
structure LabelSlot where
  position : Option Nat := none
  /-- Where the operands of the branches are that wait for this label, oldest first. -/
  uses : List Nat := []
  deriving DecidableEq

structure Builder where
  bytes : Array UInt8 := #[]
  labels : Array LabelSlot := #[]
  deriving DecidableEq

/-- A step in writing code. -/
abbrev Builder.Step := EStateM Cause Builder

namespace Builder

/-- Where the next instruction will begin. -/
def position (b : Builder) : Nat := b.bytes.size

/-! ## Bytes -/

def addBytes (bytes : List UInt8) : Step Unit :=
  modify fun b => { b with bytes := b.bytes ++ bytes }

def addOp (op : Opcode) : Step Unit :=
  modify fun b => { b with bytes := b.bytes.push op.toByte }

def addId (id : UInt16) : Step Unit := addBytes (littleEndian 2 id.toNat)

def addInt (n : Int64) : Step Unit := addBytes (littleEndian 8 n.toUInt64.toNat)

def addDouble (d : Double) : Step Unit := addBytes (littleEndian 8 d.bits.toNat)

def addAddr (a : VarAddr) : Step Unit := do
  addId a.scope
  addId a.slot

/-! ## Branches -/

/-- The distance from a branch's operand at `source` to `target`. -/
def distance (source target : Nat) : Except Cause Int16 :=
  let d := (target : Int) - source
  if Int16.minValue.toInt ≤ d ∧ d ≤ Int16.maxValue.toInt then .ok (.ofInt d)
  else .error (.branchTooFar source target)

/-- A distance in the two bytes of a branch's operand. -/
def distanceBytes (d : Int16) : List UInt8 := littleEndian 2 d.toUInt16.toNat

/-- Overwrites the bytes from `at` on. -/
def patch (bytes : Array UInt8) (start : Nat) : List UInt8 → Array UInt8
  | [] => bytes
  | b :: bs => patch (bytes.setIfInBounds start b) (start + 1) bs

/-- Fills in the operand at `source` of a branch to `target`. -/
def resolve (target source : Nat) : Step Unit := do
  match distance source target with
  | .error e => throw e
  | .ok d => modify fun b => { b with bytes := patch b.bytes source (distanceBytes d) }

def unknownLabel (l : Label) : Cause := .internal s!"unknown label {l.index}"

/-- A label without a place yet. -/
def newLabel : Step Label :=
  modifyGet fun b => (⟨b.labels.size⟩, { b with labels := b.labels.push {} })

/-- Gives a label the current position. -/
def bind (l : Label) : Step Unit := do
  let b ← get
  match b.labels[l.index]? with
  | none => throw (unknownLabel l)
  | some slot =>
    if slot.position.isSome then
      throw (.internal s!"label {l.index} bound twice")
    let target := b.position
    modify fun b => { b with labels := b.labels.setIfInBounds l.index { position := target } }
    slot.uses.forM (resolve target)

/-- A label at the current position. -/
def boundLabel : Step Label := do
  let l ← newLabel
  bind l
  return l

/-- Writes a branch to a label. -/
def addBranch (op : Opcode) (l : Label) : Step Unit := do
  if !op.isBranch then
    throw (.internal s!"{op.mnemonic} is not a branch")
  addOp op
  let source := (← get).position
  match (← get).labels[l.index]? with
  | none => throw (unknownLabel l)
  | some slot =>
    match slot.position with
    | some target =>
      match distance source target with
      | .error e => throw e
      | .ok d => addBytes (distanceBytes d)
    | none =>
      let slot := { slot with uses := slot.uses ++ [source] }
      modify fun b => { b with labels := b.labels.setIfInBounds l.index slot }
      addBytes (distanceBytes 0)

/-- The finished stream. Every label must have a place. -/
def finish (b : Builder) : Except Cause Code :=
  match b.labels.findIdx? (·.position.isNone) with
  | some label => .error (.unboundLabel label)
  | none => .ok ⟨b.bytes⟩

end Builder

end StackLang
