import StackLang.Code.Opcode
import StackLang.Double
import StackLang.Text.Padded

/-!
# Instructions

`Code` is a stream of bytes. `code.decodeAt offset` reads the instruction at an offset, and
`code.instructions` reads the whole stream from its start. Operands are little-endian.
-/

namespace StackLang

/-- Where a variable lives: its scope's number and its place in that scope. -/
structure VarAddr where
  scope : UInt16
  slot : UInt16
  deriving DecidableEq

/-- A decoded operand. -/
inductive Operand where
  | none
  | int (n : Int64)
  | double (d : Double)
  | string (id : UInt16)
  | var (addr : VarAddr)
  /-- Offset of the instruction that a branch leads to. -/
  | target (offset : Nat)
  | function (id : UInt16)
  | native (id : UInt16)
  deriving DecidableEq

structure Instr where
  offset : Nat
  op : Opcode
  operand : Operand
  deriving DecidableEq

/-- Offset of the instruction behind this one. -/
def Instr.next (i : Instr) : Nat := i.offset + i.op.width

/-! ## Little-endian numbers -/

/-- The `width` low bytes of `n`, lowest first. -/
def littleEndian : Nat → Nat → List UInt8
  | 0, _ => []
  | width + 1, n => n.toUInt8 :: littleEndian width (n / 256)

/-- The number whose bytes these are, lowest first. -/
def ofLittleEndian : List UInt8 → Nat
  | [] => 0
  | b :: bs => b.toNat + 256 * ofLittleEndian bs

/-! ## Decoding -/

/-- Why there is no instruction at an offset. -/
inductive DecodeError where
  | unknownOpcode (offset : Nat) (byte : UInt8)
  | truncated (offset : Nat) (op : Opcode)
  | outOfRange (offset : Nat)
  | negativeTarget (offset : Nat)
  deriving DecidableEq

def DecodeError.message : DecodeError → String
  | unknownOpcode offset byte => s!"unknown opcode 0x{Text.hex 2 byte.toNat} at {offset}"
  | truncated offset op => s!"truncated {op.mnemonic} at {offset}"
  | outOfRange offset => s!"instruction pointer {offset} out of range"
  | negativeTarget offset => s!"branch at {offset} points before the start of the stream"

/-- A stream of instructions. -/
structure Code where
  bytes : Array UInt8 := #[]
  deriving DecidableEq

namespace Code

def size (c : Code) : Nat := c.bytes.size

/-- The operand at `start`, given its bytes as one number. A branch may not lead before the start
of the stream. -/
def operand? (kind : OperandKind) (start n : Nat) : Option Operand :=
  match kind with
  | .none => some .none
  | .int => some (.int n.toUInt64.toInt64)
  | .double => some (.double ⟨n.toUInt64⟩)
  | .string => some (.string n.toUInt16)
  | .var => some (.var ⟨n.toUInt16, (n / UInt16.size).toUInt16⟩)
  | .branch =>
    let target := start + n.toUInt16.toInt16.toInt
    if target < 0 then none else some (.target target.toNat)
  | .function => some (.function n.toUInt16)
  | .native => some (.native n.toUInt16)

/-- The instruction at an offset. -/
def decodeAt (c : Code) (offset : Nat) : Except DecodeError Instr :=
  match c.bytes[offset]? with
  | none => .error (.outOfRange offset)
  | some byte =>
    match Opcode.ofByte? byte with
    | none => .error (.unknownOpcode offset byte)
    | some op =>
      let start := offset + 1
      let raw := c.bytes.extract start (start + op.operandKind.width)
      if raw.size < op.operandKind.width then .error (.truncated offset op)
      else
        match operand? op.operandKind start (ofLittleEndian raw.toList) with
        | none => .error (.negativeTarget offset)
        | some operand => .ok { offset, op, operand }

/-- Adds the instructions from `offset` on to those already read. -/
def instructionsFrom (c : Code) (offset : Nat) (read : Array Instr) :
    Except DecodeError (Array Instr) :=
  if offset < c.size then
    match c.decodeAt offset with
    | .error e => .error e
    | .ok i => c.instructionsFrom (offset + i.op.width) (read.push i)
  else .ok read
termination_by c.size - offset
decreasing_by unfold Opcode.width; omega

/-- The whole stream, in order. -/
def instructions (c : Code) : Except DecodeError (Array Instr) := c.instructionsFrom 0 #[]

end Code

end StackLang
