import StackLang.Proofs.Compile.Emitted

/-!
# For loops

The loops in a phrase, each with the scope it stands in, and where the parts of their code are.
`ForLoop.CodeAt g loop l`: `l` has the offsets of the bounds, the test, the body and the step, the
address of the loop's variable, and that of the hidden slot in which the loop keeps its upper bound.
-/

namespace StackLang

/-! ## Loops of the tree -/

/-- A loop `for (name in lower..upper) body` in a scope. -/
structure ForLoop where
  scope : ScopeIndex
  name : String
  lower : Node
  upper : Node
  body : Block

mutual

/-- The loops in a node that stands in the scope `sc`. -/
def Node.loops (sc : ScopeIndex) : Node → List ForLoop
  | .store _ _ value => value.loops sc
  | .binary _ left right => left.loops sc ++ right.loops sc
  | .unary _ operand => operand.loops sc
  | .call _ args => Node.allLoops sc args
  | .block body => body.loops
  | .ifElse condition thenBlock none => condition.loops sc ++ thenBlock.loops
  | .ifElse condition thenBlock (some elseBlock) =>
    condition.loops sc ++ thenBlock.loops ++ elseBlock.loops
  | .whileLoop condition body => condition.loops sc ++ body.loops
  | .forLoop name (.binary .range lower upper) body =>
    ⟨sc, name, lower, upper, body⟩ :: (lower.loops sc ++ upper.loops sc ++ body.loops)
  | .forLoop _ range body => range.loops sc ++ body.loops
  | .ret (some value) => value.loops sc
  | .print operands => Node.allLoops sc operands
  | _ => []
termination_by structural node => node

def Node.allLoops (sc : ScopeIndex) : List Node → List ForLoop
  | [] => []
  | node :: nodes => node.loops sc ++ Node.allLoops sc nodes
termination_by structural nodes => nodes

/-- The loops in a block, whose statements stand in its own scope. -/
def Block.loops : Block → List ForLoop
  | .mk scope statements => Node.allLoops scope statements
termination_by structural block => block

end

/-- The loops in a phrase that stands in the scope `sc`. -/
def Phrase.loops (sc : ScopeIndex) : Phrase → List ForLoop
  | .expr node | .stmt node => node.loops sc
  | .args nodes | .stmts nodes | .operands nodes => Node.allLoops sc nodes
  | .block body => body.loops

/-! ## Loops of the code -/

/-- Where the parts of a loop's code are. -/
structure LoopCode where
  /-- The upper bound is evaluated first. -/
  entry : Nat
  upperEnd : Nat
  lower : Nat
  lowerEnd : Nat
  /-- The test of whether there is another round. -/
  head : Nat
  body : Nat
  /-- The loop's variable becomes the next int. -/
  step : Nat
  exit : Nat
  /-- The types of the bounds. -/
  upperTy : Ty
  lowerTy : Ty
  var : VarAddr
  /-- The hidden slot of the upper bound. -/
  limit : VarAddr

/-- The code of a loop has its parts where `l` says. -/
structure ForLoop.CodeAt (g : Site) (loop : ForLoop) (l : LoopCode) : Prop where
  block : g.block loop.scope
  var : ∃ info, g.var loop.scope loop.name info ∧ info.ty = .int ∧ info.addr = l.var
  limit : g.hidden loop.scope l.limit
  upper : Emitted g loop.scope (.expr loop.upper) l.entry [l.upperTy] l.upperEnd
  keep : g.code.Line l.upperEnd (boundCode l.upperTy ++ [(.storeIntVar, .var l.limit)]) l.lower
  lower : Emitted g loop.scope (.expr loop.lower) l.lower [l.lowerTy] l.lowerEnd
  init : g.code.Line l.lowerEnd (boundCode l.lowerTy ++ [(.storeIntVar, .var l.var)]) l.head
  test : g.code.Line l.head [(.loadIntVar, .var l.limit), (.loadIntVar, .var l.var),
    (.jumpGt, .target l.exit)] l.body
  body : Emitted g loop.scope (.block loop.body) l.body [] l.step
  back : g.code.Line l.step [(.int1, .none), (.loadIntVar, .var l.var), (.addInt, .none),
    (.storeIntVar, .var l.var), (.jump, .target l.head)] l.exit
  sparesLower : g.code.Spares l.limit l.lower l.lowerEnd
  sparesBody : g.code.Spares l.limit l.body l.step

/-- The phrases that leave values, which hold no statements. -/
def Phrase.isOperands : Phrase → Bool
  | .expr _ | .args _ | .operands _ => true
  | _ => false

/-- No loop stands where a value is needed. -/
theorem Emitted.loops_eq_nil {g : Site} {sc : ScopeIndex} {phrase : Phrase} {a b : Nat}
    {types : List Ty} (h : Emitted g sc phrase a types b) (hphrase : phrase.isOperands = true) :
    phrase.loops sc = [] := by
  induction h with
  | int | double | string | load | argsNil | operandsNil => rfl
  | binary _ _ _ ihright ihleft =>
    simp only [Phrase.loops, Node.loops] at ihright ihleft ⊢
    rw [ihleft rfl, ihright rfl, List.nil_append]
  | unary _ _ _ ih | call _ _ _ _ ih =>
    simp only [Phrase.loops, Node.loops] at ih ⊢
    exact ih rfl
  | argsCons _ _ _ _ ihargs iharg =>
    simp only [Phrase.loops, Node.allLoops] at ihargs iharg ⊢
    rw [iharg rfl, ihargs rfl, List.nil_append]
  | operandsCons _ _ _ ih ihrest =>
    simp only [Phrase.loops, Node.allLoops] at ih ihrest ⊢
    rw [ih rfl, ihrest rfl, List.nil_append]
  | _ => cases hphrase

end StackLang
