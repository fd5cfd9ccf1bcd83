/-!
# Output

Where a program prints to. A sink takes text as bytes; it may have a capacity, and it may fail when
it is flushed.
-/

namespace StackLang

structure Sink where
  written : ByteArray := .empty
  /-- How many bytes it takes in all; none is no limit. -/
  capacity : Option Nat := none
  flushFails : Bool := false

namespace Sink

/-- Takes a text, or as much of it as fits. -/
def write (s : Sink) (text : String) : Except String Unit × Sink :=
  let bytes := text.toUTF8
  match s.capacity with
  | none => (.ok (), { s with written := s.written ++ bytes })
  | some capacity =>
    let room := capacity - s.written.size
    if bytes.size ≤ room then (.ok (), { s with written := s.written ++ bytes })
    else (.error "sink full", { s with written := s.written ++ bytes.extract 0 room })

def flush (s : Sink) : Except String Unit :=
  if s.flushFails then .error "flush failed" else .ok ()

end Sink

end StackLang
