import StackLang.Executable.Verify
import StackLang.Wire

/-!
# Images

An executable as bytes. `e.toImage` writes the functions, then the name map, then the tables;
`Executable.ofImage` reads them back, ignores what follows them, and verifies every function. The
index of the string pool is not written: it follows from the texts.
-/

namespace StackLang

open Wire

namespace StringPool

def write (pool : StringPool) : List UInt8 := writeSeq writeText pool.strings.toList

def read : Reader StringPool := return .ofList (← readSeq readText).toList

end StringPool

namespace Executable

/-! ## Writing -/

def writeLayout (l : ScopeLayout) : List UInt8 :=
  writeId l.scope ++ writeVarint l.base ++ writeVarint l.size

def writeRoutine (r : Routine) : List UInt8 :=
  writeId r.id ++ writeText r.name ++ writeId r.declaringScope ++ writeId r.scope ++
    writeSeq writeTy r.params ++ writeTy r.result ++ writeVarint r.locals ++
    writeSeq writeLayout r.layout ++ writeSeq (fun b => [b]) r.code.bytes.toList

def writeRoutines (e : Executable) : List UInt8 := writeSeq writeRoutine e.routines.toList

/-- The entries of a name map, in the order given. -/
def writeNames (names : List (String × UInt16)) : List UInt8 :=
  writeSeq (fun (name, id) => writeText name ++ writeId id) names

def writeNative (n : NativeDecl) : List UInt8 :=
  writeText n.symbol ++ writeSeq writeTy n.params ++ writeTy n.result

def writeTopVar (v : TopVar) : List UInt8 :=
  writeText v.name ++ writeTy v.ty ++ writeId v.addr.scope ++ writeId v.addr.slot

/-- What follows the name map. -/
def writeTables (e : Executable) : List UInt8 :=
  e.strings.write ++ writeSeq writeNative e.natives.toList ++ writeVarint e.scopeCount ++
    writeSeq writeTopVar e.topVars

/-- The image with the entries of the name map in the order given. -/
def imageWith (e : Executable) (names : List (String × UInt16)) : List UInt8 :=
  e.writeRoutines ++ writeNames names ++ e.writeTables

/-- The image, with the name map in the order of the names. -/
def toImage (e : Executable) : List UInt8 := e.imageWith e.byName.toList

/-! ## Reading -/

def readLayout : Reader ScopeLayout := do
  return { scope := ← readId, base := ← readCount, size := ← readCount }

def readRoutine : Reader Routine := do
  let id ← readId
  let name ← readText
  let declaringScope ← readId
  let scope ← readId
  let params ← readSeq readTy
  let result ← readTy
  let locals ← readCount
  let layout ← readSeq readLayout
  let bytes ← readSeq readByte
  return { id, name, declaringScope, scope, params := params.toList, result, locals,
           layout := layout.toList, code := ⟨bytes⟩ }

def readName : Reader (String × UInt16) := return (← readText, ← readId)

def readNative : Reader NativeDecl := do
  let symbol ← readText
  let params ← readSeq readTy
  let result ← readTy
  return { symbol, params := params.toList, result }

def readTopVar : Reader TopVar := do
  return { name := ← readText, ty := ← readTy, addr := { scope := ← readId, slot := ← readId } }

/-- An executable as it was written. Of two entries for a name the later one counts. -/
def read : Reader Executable := do
  let routines ← readSeq readRoutine
  let names ← readSeq readName
  let strings ← StringPool.read
  let natives ← readSeq readNative
  let scopeCount ← readCount
  let topVars ← readSeq readTopVar
  return { routines, byName := .ofList names.toList, strings, natives, scopeCount,
           topVars := topVars.toList }

/-- Why bytes are no image. -/
inductive ImageError where
  | unreadable (e : WireError)
  | rejected (e : VerifyError)
  deriving DecidableEq

def ImageError.message : ImageError → String
  | unreadable e => s!"cannot decode program image: {e.message}"
  | rejected e => s!"program image failed verification: {e.message}"

/-- Reads an image and verifies it. -/
def ofImage (bytes : List UInt8) : Except ImageError Executable :=
  match read.run bytes with
  | .error e => .error (.unreadable e)
  | .ok (e, _) =>
    match e.verify with
    | .error err => .error (.rejected err)
    | .ok () => .ok e

end Executable

end StackLang
