import StackLang.Ty

/-!
# The wire format

Numbers are written in groups of seven bits, lowest first; every byte but the last has its high
bit set. A text or a sequence is its length and then its items; a record is its fields in order.
A reader takes what it needs from the front of the bytes and leaves the rest.
-/

namespace StackLang.Wire

/-- Why bytes cannot be read. -/
inductive WireError where
  | unexpectedEnd
  /-- A number that is too long, or too large for its width. -/
  | badVarint
  | badText
  | unknownVariant
  deriving DecidableEq

def WireError.message : WireError → String
  | unexpectedEnd => "Hit the end of buffer, expected more data"
  | badVarint => "Found a varint that didn't terminate. Is the usize too big for this platform?"
  | badText => "Tried to parse invalid utf-8"
  | unknownVariant => "Serde Deserialization Error"

/-- Reads a value from the front of the bytes. -/
abbrev Reader := StateT (List UInt8) (Except WireError)

/-! ## Bytes -/

def readByte : Reader UInt8 := do
  match ← get with
  | [] => throw .unexpectedEnd
  | b :: rest =>
    set rest
    return b

def readBytes (count : Nat) : Reader (List UInt8) := do
  let bytes ← get
  let taken := bytes.take count
  if taken.length < count then
    throw .unexpectedEnd
  set (bytes.drop count)
  return taken

/-! ## Numbers -/

def writeVarint (n : Nat) : List UInt8 :=
  if n < 128 then [n.toUInt8] else (n % 128 + 128).toUInt8 :: writeVarint (n / 128)

/-- Reads at most `width` bytes; the last of that many may be at most `top`. -/
def readVarint (top : Nat) : Nat → Reader Nat
  | 0 => throw .badVarint
  | width + 1 => do
    let b ← readByte
    if b < 128 then
      if width = 0 ∧ top < b.toNat then throw .badVarint
      return b.toNat
    else
      let high ← readVarint top width
      return b.toNat - 128 + 128 * high

/-- Reads an id, a number of 16 bits. -/
def readId : Reader UInt16 := return (← readVarint 3 3).toUInt16

/-- Reads a count, a number of 64 bits. -/
def readCount : Reader Nat := readVarint 1 10

def writeId (id : UInt16) : List UInt8 := writeVarint id.toNat

/-! ## Sequences -/

def writeSeq {α : Type} (item : α → List UInt8) (items : List α) : List UInt8 :=
  writeVarint items.length ++ items.flatMap item

/-- Reads `count` items behind those already read. -/
def readItems {α : Type} (item : Reader α) : Nat → Array α → Reader (Array α)
  | 0, read => return read
  | count + 1, read => do
    let a ← item
    readItems item count (read.push a)

def readSeq {α : Type} (item : Reader α) : Reader (Array α) := do
  readItems item (← readCount) #[]

/-! ## Texts and types -/

def writeText (s : String) : List UInt8 :=
  let bytes := s.toUTF8.toList
  writeVarint bytes.length ++ bytes

def readText : Reader String := do
  let bytes ← readBytes (← readCount)
  match String.fromUTF8? ⟨bytes.toArray⟩ with
  | some s => return s
  | none => throw .badText

def writeTy (ty : Ty) : List UInt8 := writeVarint ty.ctorIdx

/-- Reads a type by its place among the types. -/
def readTy : Reader Ty := do
  match ← readVarint 15 5 with
  | 0 => return .int
  | 1 => return .double
  | 2 => return .string
  | 3 => return .void
  | 4 => return .invalid
  | _ => throw .unknownVariant

end StackLang.Wire
