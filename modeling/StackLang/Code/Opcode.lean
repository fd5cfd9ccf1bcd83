/-!
# Opcodes

One byte each, followed by an operand whose kind the opcode fixes. `opcode.effect` is what an
instruction takes from the operand stack and leaves on it; for calls it depends on the callee.

A binary instruction takes its left operand from the top of the stack and its right operand from
below it.
-/

namespace StackLang

/-- The operation of an instruction, in the order of the encoding. -/
inductive Opcode where
  /-- Stands where no operation fits; it does nothing. -/
  | invalid
  | loadDouble
  | loadInt
  | loadString
  | double0
  | int0
  | string0
  | double1
  | int1
  | doubleM1
  | intM1
  | addDouble
  | addInt
  | subDouble
  | subInt
  | mulDouble
  | mulInt
  | divDouble
  | divInt
  | modInt
  | negDouble
  | negInt
  | orInt
  | andInt
  | xorInt
  | printInt
  | printDouble
  | printString
  | intToDouble
  | doubleToInt
  | swap
  | pop
  | loadDoubleVar
  | loadIntVar
  | loadStringVar
  | storeDoubleVar
  | storeIntVar
  | storeStringVar
  /-- Pushes -1, 0 or 1 as the upper operand is below, equal to or above the lower one. -/
  | compareDouble
  | compareInt
  | jump
  /-- Conditional jumps take two ints and jump if the relation holds of the upper and the lower. -/
  | jumpNe
  | jumpEq
  | jumpGt
  | jumpGe
  | jumpLt
  | jumpLe
  | call
  | callNative
  | ret
  | stop
  deriving DecidableEq

/-- What follows an opcode. -/
inductive OperandKind where
  | none
  | int
  | double
  | string
  /-- Scope and slot of a variable. -/
  | var
  /-- Signed distance to the target, from the operand's own position. -/
  | branch
  | function
  | native
  deriving DecidableEq

/-- Width in bytes. -/
def OperandKind.width : OperandKind → Nat
  | none => 0
  | int | double => 8
  | var => 4
  | string | branch | function | native => 2

/-- Operands taken from the stack and results left on it. -/
structure Effect where
  pops : Nat
  pushes : Nat
  deriving DecidableEq

namespace Opcode

/-- All opcodes; the place of each is its byte. -/
def all : Array Opcode :=
  #[invalid, loadDouble, loadInt, loadString, double0, int0, string0, double1, int1, doubleM1,
    intM1, addDouble, addInt, subDouble, subInt, mulDouble, mulInt, divDouble, divInt, modInt,
    negDouble, negInt, orInt, andInt, xorInt, printInt, printDouble, printString, intToDouble,
    doubleToInt, swap, pop, loadDoubleVar, loadIntVar, loadStringVar, storeDoubleVar, storeIntVar,
    storeStringVar, compareDouble, compareInt, jump, jumpNe, jumpEq, jumpGt, jumpGe, jumpLt,
    jumpLe, call, callNative, ret, stop]

def toByte (op : Opcode) : UInt8 := op.ctorIdx.toUInt8

def ofByte? (b : UInt8) : Option Opcode := all[b.toNat]?

theorem ofByte?_toByte (op : Opcode) : ofByte? op.toByte = some op := by
  cases op <;> rfl

def operandKind : Opcode → OperandKind
  | loadDouble => .double
  | loadInt => .int
  | loadString => .string
  | loadDoubleVar | loadIntVar | loadStringVar
  | storeDoubleVar | storeIntVar | storeStringVar => .var
  | jump | jumpNe | jumpEq | jumpGt | jumpGe | jumpLt | jumpLe => .branch
  | call => .function
  | callNative => .native
  | _ => .none

/-- Width of an instruction: the opcode and its operand. -/
def width (op : Opcode) : Nat := 1 + op.operandKind.width

/-- What every instruction with this opcode does to the stack; none for calls, whose effect is the
callee's. A returned value is checked against the signature and not counted here. -/
def effect : Opcode → Option Effect
  | invalid | jump | ret | stop => some ⟨0, 0⟩
  | loadDouble | loadInt | loadString | double0 | int0 | string0 | double1 | int1 | doubleM1
  | intM1 | loadDoubleVar | loadIntVar | loadStringVar => some ⟨0, 1⟩
  | addDouble | addInt | subDouble | subInt | mulDouble | mulInt | divDouble | divInt | modInt
  | orInt | andInt | xorInt | compareDouble | compareInt => some ⟨2, 1⟩
  | negDouble | negInt | intToDouble | doubleToInt => some ⟨1, 1⟩
  | printInt | printDouble | printString | pop
  | storeDoubleVar | storeIntVar | storeStringVar => some ⟨1, 0⟩
  | swap => some ⟨2, 2⟩
  | jumpNe | jumpEq | jumpGt | jumpGe | jumpLt | jumpLe => some ⟨2, 0⟩
  | call | callNative => none

def isBranch (op : Opcode) : Bool := op.operandKind = .branch

/-- Control never goes on to the instruction behind it. -/
def isTerminator : Opcode → Bool
  | jump | ret | stop => true
  | _ => false

/-- The name in listings and messages. -/
def mnemonic : Opcode → String
  | invalid => "INVALID"
  | loadDouble => "DLOAD"
  | loadInt => "ILOAD"
  | loadString => "SLOAD"
  | double0 => "DLOAD0"
  | int0 => "ILOAD0"
  | string0 => "SLOAD0"
  | double1 => "DLOAD1"
  | int1 => "ILOAD1"
  | doubleM1 => "DLOADM1"
  | intM1 => "ILOADM1"
  | addDouble => "DADD"
  | addInt => "IADD"
  | subDouble => "DSUB"
  | subInt => "ISUB"
  | mulDouble => "DMUL"
  | mulInt => "IMUL"
  | divDouble => "DDIV"
  | divInt => "IDIV"
  | modInt => "IMOD"
  | negDouble => "DNEG"
  | negInt => "INEG"
  | orInt => "IAOR"
  | andInt => "IAAND"
  | xorInt => "IAXOR"
  | printInt => "IPRINT"
  | printDouble => "DPRINT"
  | printString => "SPRINT"
  | intToDouble => "I2D"
  | doubleToInt => "D2I"
  | swap => "SWAP"
  | pop => "POP"
  | loadDoubleVar => "LOADCTXDVAR"
  | loadIntVar => "LOADCTXIVAR"
  | loadStringVar => "LOADCTXSVAR"
  | storeDoubleVar => "STORECTXDVAR"
  | storeIntVar => "STORECTXIVAR"
  | storeStringVar => "STORECTXSVAR"
  | compareDouble => "DCMP"
  | compareInt => "ICMP"
  | jump => "JA"
  | jumpNe => "IFICMPNE"
  | jumpEq => "IFICMPE"
  | jumpGt => "IFICMPG"
  | jumpGe => "IFICMPGE"
  | jumpLt => "IFICMPL"
  | jumpLe => "IFICMPLE"
  | call => "CALL"
  | callNative => "CALLNATIVE"
  | ret => "RETURN"
  | stop => "STOP"

end Opcode

end StackLang
