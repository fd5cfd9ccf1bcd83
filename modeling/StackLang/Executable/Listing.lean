import StackLang.Double.Text
import StackLang.Executable
import StackLang.Text.Quoted
import Std.Data.TreeSet

/-!
# Listings

Executables for people to read: `e.listing` shows every function with its instructions, and
`e.statistics` counts what is in it. Where a branch leads, a line above the instruction and a mark
before it show the place.
-/

namespace StackLang

namespace Routine

def rule : String := "".pushn '═' 40

/-- The heading: id, signature, and the sizes of code and frame. -/
def heading (r : Routine) : String :=
  let params := ", ".intercalate (r.params.map (·.name))
  s!"{rule}\n [{r.id}] {r.result.name} {r.name}({params})\n" ++
    s!" {r.code.size} bytes, {r.locals} locals, body scope {r.scope}\n{rule}\n"

end Routine

namespace Executable

/-- An operand in a listing. A table entry is shown with what it stands for. -/
def operandText (e : Executable) (i : Instr) : Option String :=
  match i.operand with
  | .none => none
  | .int n => some (toString n)
  | .double d => some d.literal
  | .string id =>
    let text := ((e.strings.get? id).map Text.quoted).getD "<missing>"
    some s!"@{id} {text}"
  | .var addr => some s!"{addr.scope}:{addr.slot}"
  | .target target =>
    let arrow := if target ≤ i.offset then "↑" else "↓"
    some s!"{arrow} {Text.zeroPadded 4 target}"
  | .function id =>
    let name := ((e.routine? id).map (·.name)).getD "<unknown>"
    some s!"{id} ; {name}"
  | .native id =>
    let symbol := ((e.native? id).map (·.symbol)).getD "<unknown>"
    some s!"{id} ; {symbol}"

/-- The mnemonic, and the operand in a column of its own. -/
def instrText (e : Executable) (i : Instr) : String :=
  match e.operandText i with
  | none => i.op.mnemonic
  | some operand => Text.padRight 12 i.op.mnemonic ++ operand

/-- Where the branches of a function lead. -/
def targets (instrs : Array Instr) : Std.TreeSet Nat :=
  instrs.foldl (fun targets i =>
    match i.operand with
    | .target target => targets.insert target
    | _ => targets) ∅

/-- One instruction, with the marks of a branch's target. -/
def line (e : Executable) (targets : Std.TreeSet Nat) (i : Instr) : String :=
  let (above, mark) :=
    if targets.contains i.offset then ("      ┌" ++ "".pushn '─' 34 ++ "\n", "► ") else ("", "  ")
  s!"{above}{Text.zeroPadded 4 i.offset} {mark}{e.instrText i}\n"

/-- A function's heading and its instructions. -/
def routineListing (e : Executable) (r : Routine) : String :=
  r.heading ++
    match r.code.instructions with
    | .error err => s!"  <undecodable: {err.message}>\n"
    | .ok instrs =>
      let targets := targets instrs
      instrs.foldl (fun text i => text ++ e.line targets i) ""

/-- Every function, in the order of their ids. -/
def listing (e : Executable) : String :=
  e.routines.foldl (fun text r => text ++ e.routineListing r ++ "\n") "=== BYTECODE PROGRAM ===\n\n"

/-! ## Statistics -/

/-- How often each opcode occurs, in code that can be decoded; the most frequent first, and the
equally frequent by mnemonic. -/
def opcodeCounts (e : Executable) : List (String × Nat) :=
  let instrs := e.routines.toList.flatMap fun r =>
    match r.code.instructions with
    | .error _ => []
    | .ok instrs => instrs.toList
  let counts := Opcode.all.toList.map fun op => (op.mnemonic, instrs.countP (·.op = op))
  (counts.filter (0 < ·.2)).mergeSort fun (op, n) (op', n') =>
    n' < n || n' = n && op ≤ op'

/-- One line of the opcode table: the count, and its share of all instructions. -/
def countLine (total : Nat) (op : String) (count : Nat) : String :=
  let share := Double.ofInt (.ofNat count) / Double.ofInt (.ofNat (max total 1))
  let percent := (share * Double.ofInt 100).oneDecimal
  let count := Text.padLeft 4 (toString count)
  s!"  {Text.padRight 14 op} {count} ({Text.padLeft 5 percent}%)\n"

/-- The sizes of the tables and the ten most frequent opcodes. -/
def statistics (e : Executable) : String :=
  let counts := e.opcodeCounts
  let total := counts.foldl (fun n (_, count) => n + count) 0
  let bytes := e.routines.foldl (fun n r => n + r.code.size) 0
  "=== BYTECODE STATISTICS ===\n\n" ++
    s!"Functions:        {e.routines.size}\n" ++
    s!"Natives:          {e.natives.size}\n" ++
    s!"String constants: {e.strings.size}\n" ++
    s!"Instructions:     {total}\n" ++
    s!"Bytes:            {bytes}\n\n" ++
    "Op frequency:\n" ++
    String.join ((counts.take 10).map fun (op, count) => countLine total op count)

end Executable

end StackLang
