import Std.Data.ExtTreeMap

/-!
# String constants

Texts by 16-bit id. Id 0 is the empty text. A text that occurs more than once, which only a pool
made from a list can hold, is found under its first id.
-/

namespace StackLang

structure StringPool where
  strings : Array String
  /-- The first id of each text. -/
  index : Std.ExtTreeMap String UInt16
  deriving DecidableEq

namespace StringPool

/-- The pool with these texts in order, after the empty text if they do not begin with it. -/
def ofList (texts : List String) : StringPool :=
  let texts := if texts.head? = some "" then texts else "" :: texts
  { strings := texts.toArray
    index := texts.zipIdx.foldl (fun index (text, i) => index.insertIfNew text i.toUInt16) ∅ }

def empty : StringPool := ofList []

def size (pool : StringPool) : Nat := pool.strings.size

def isEmpty (pool : StringPool) : Bool := pool.strings.isEmpty

def get? (pool : StringPool) (id : UInt16) : Option String := pool.strings[id.toNat]?

def lookup? (pool : StringPool) (text : String) : Option UInt16 := pool.index[text]?

/-- The id of a text, which is added if it is new. If it is new and no id is left, there is none
and the pool stays as it is. -/
def intern (pool : StringPool) (text : String) : Option UInt16 × StringPool :=
  match pool.lookup? text with
  | some id => (some id, pool)
  | none =>
    if pool.size < UInt16.size then
      let id := pool.size.toUInt16
      (some id, { strings := pool.strings.push text, index := pool.index.insert text id })
    else (none, pool)

end StringPool

end StackLang
