/-!
# Options

The words of the command line. A word that is no flag names a demo; of two the later one counts.
-/

namespace StackLang.Cli

structure Options where
  /-- Show the listing before running. -/
  listing : Bool := false
  statistics : Bool := false
  /-- Check return types while compiling. -/
  strict : Bool := false
  /-- Where to write the image. -/
  emitTo : Option String := none
  /-- The image to run. -/
  loadFrom : Option String := none
  maxSteps : Option Nat := none
  demo : Option String := none

/-- Why the words cannot be understood. -/
inductive UsageError where
  | missingValue (flag : String)
  | notANumber (word : String)
  | unknownFlag (flag : String)
  deriving DecidableEq

def UsageError.message : UsageError → String
  | missingValue flag => s!"{flag} expects a value"
  | notANumber word => s!"--max-steps expects a number, got '{word}'"
  | unknownFlag flag => s!"unknown flag '{flag}'"

/-- A number of 64 bits in decimal digits; a plus sign may come first. -/
def parseCount (word : String) : Option Nat :=
  let digits :=
    match word.toList with
    | '+' :: digits => digits
    | digits => digits
  if digits.isEmpty || digits.any (!·.isDigit) then none
  else
    let n := digits.foldl (fun n c => 10 * n + (c.toNat - '0'.toNat)) 0
    if n < UInt64.size then some n else none

namespace Options

/-- Reads the words from left to right. -/
def parse (o : Options) : List String → Except UsageError Options
  | [] => .ok o
  | "--bc" :: words => parse { o with listing := true } words
  | "--bytecode" :: words => parse { o with listing := true } words
  | "--stats" :: words => parse { o with statistics := true } words
  | "--strict" :: words => parse { o with strict := true } words
  | ["--emit"] => .error (.missingValue "--emit")
  | "--emit" :: path :: words => parse { o with emitTo := path } words
  | ["--load"] => .error (.missingValue "--load")
  | "--load" :: path :: words => parse { o with loadFrom := path } words
  | ["--max-steps"] => .error (.missingValue "--max-steps")
  | "--max-steps" :: word :: words =>
    match parseCount word with
    | none => .error (.notANumber word)
    | some steps => parse { o with maxSteps := steps } words
  | word :: words =>
    if word.startsWith "-" then .error (.unknownFlag word)
    else parse { o with demo := word } words

end Options

end StackLang.Cli
