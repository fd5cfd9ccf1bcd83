import StackLang.Cli.Demo
import StackLang.Cli.Options
import StackLang.Executable.Image
import StackLang.Executable.Listing
import StackLang.Machine.Run
import StackLang.Compile

/-!
# The command

What the command line does, over a `Console`: a place to print to and files to read and write. The
command compiles and runs demos, or runs an image from a file.
-/

namespace StackLang.Cli

/-- The outside world of a command. Files are named by paths; a failure is a text. -/
structure Console (m : Type → Type) where
  print : ByteArray → m Unit
  complain : String → m Unit
  load : String → m (Except String ByteArray)
  save : String → ByteArray → m (Except String Unit)

/-- A part of the command. It may end the command with an exit code. -/
abbrev CommandM (m : Type → Type) := ExceptT UInt8 m

def demoNames : String := ", ".intercalate (Demo.all.map (·.name))

def usage : String :=
  "CINDER - typed AST to stack bytecode translator and interpreter\n\n" ++
    "Usage:\n" ++
    "  cinder                    Run every demo program\n" ++
    s!"  cinder <demo>             Run one demo ({demoNames})\n" ++
    "  cinder --bc <demo>        Print the bytecode before running\n" ++
    "  cinder --stats <demo>     Print opcode statistics\n" ++
    "  cinder --strict <demo>    Check return types while translating\n" ++
    "  cinder --emit <path> <demo>  Write the compiled image to <path>\n" ++
    "  cinder --load <path>      Run a compiled image\n" ++
    "  cinder --max-steps <n>    Stop after n instructions\n" ++
    "  cinder --help, -h         Show this help\n\n" ++
    "Set RUST_LOG=cinder=debug (or trace) for translator and VM logs.\n"

namespace Console

variable {m : Type → Type} [Monad m]

def printText (c : Console m) (text : String) : CommandM m Unit :=
  ExceptT.lift (c.print text.toUTF8)

/-- Ends the command with a complaint. -/
def fail {α : Type} (c : Console m) (code : UInt8) (message : String) : CommandM m α := do
  ExceptT.lift (c.complain (message ++ "\n"))
  throw code

/-- Complains, shows the usage and ends the command. -/
def failUsage {α : Type} (c : Console m) (message : String) : CommandM m α := do
  ExceptT.lift (c.complain (message ++ "\n"))
  c.printText usage
  throw 2

/-! ## Running -/

/-- Shows what the options ask for, and runs an executable with the mathematical host functions. -/
def execute (c : Console m) (o : Options) (exe : Executable) (hostVars : List (String × Int64)) :
    CommandM m Unit := do
  if o.listing then
    c.printText exe.listing
  if o.statistics then
    c.printText exe.statistics
  let config : Config := { maxSteps := o.maxSteps }
  let env : Env Unit := { exe, config, bridge := NativeTable.withMath.bridge }
  let vars := hostVars.map fun (name, n) => { name, value := .int n }
  match env.run vars {} () config.fuel with
  | none => throw 1
  | some outcome =>
    ExceptT.lift (c.print outcome.state.sink.written)
    match outcome.result with
    | .error fault =>
      c.printText "\n"
      c.fail 1 fault.message
    | .ok () =>
      outcome.vars.forM fun var => c.printText s!"[host] {var.name} = {var.value.text}\n"

def emitImage (c : Console m) (path : String) (exe : Executable) : CommandM m Unit := do
  let image : ByteArray := ⟨exe.toImage.toArray⟩
  match ← ExceptT.lift (c.save path image) with
  | .error reason => c.fail 1 s!"Failed to write '{path}': {reason}"
  | .ok () => c.printText s!"wrote {image.size} bytes to {path}\n"

def runDemo (c : Console m) (o : Options) (demo : Demo) : CommandM m Unit := do
  c.printText s!"── {demo.name} ──\n"
  match demo.program.compile o.strict with
  | .error d => c.fail 1 s!"Compile error: {d.message}"
  | .ok exe =>
    if let some path := o.emitTo then
      c.emitImage path exe
    c.execute o exe demo.hostVars
    c.printText "\n"

def runImage (c : Console m) (o : Options) (path : String) : CommandM m Unit := do
  match ← ExceptT.lift (c.load path) with
  | .error reason => c.fail 1 s!"Failed to read '{path}': {reason}"
  | .ok bytes =>
    match Executable.ofImage bytes.toList with
    | .error e => c.fail 1 s!"Error: {e.message}"
    | .ok exe => c.execute o exe []

/-! ## The command line -/

def runOptions (c : Console m) (o : Options) : CommandM m Unit := do
  match o.loadFrom, o.demo with
  | some path, _ => c.runImage o path
  | none, none => Demo.all.forM (c.runDemo o)
  | none, some name =>
    match Demo.all.find? (·.name = name) with
    | some demo => c.runDemo o demo
    | none => c.failUsage s!"Unknown demo '{name}'"

def runWords (c : Console m) (words : List String) : CommandM m Unit := do
  if "--help" ∈ words ∨ "-h" ∈ words then
    c.printText usage
  else
    match Options.parse {} words with
    | .error e => c.failUsage s!"Error: {e.message}"
    | .ok o => c.runOptions o

/-- Does what the words of the command line ask for. The result is the exit code. -/
def run (c : Console m) (words : List String) : m UInt8 := do
  match ← (c.runWords words).run with
  | .error code => return code
  | .ok () => return 0

end Console

end StackLang.Cli
