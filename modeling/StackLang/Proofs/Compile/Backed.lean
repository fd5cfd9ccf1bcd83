import StackLang.Proofs.Compile.Emitted

/-!
# What the types of a phrase stand for

While a node is compiled its types are counted, one for each expression, and what is counted is not
always on the stack: an expression of type `void` or `<invalid>` leaves nothing there.
`Phrase.Backed g sc phrase` says that where the code takes values off the stack for the types of a
phrase, values are there: what it calls has parameters of types that have values, what is handed to the
host is of such a type, and no statement has the type `<invalid>`. A statement of type `void` is told
apart.
-/

namespace StackLang

/-! ## Calls and statements of the tree -/

mutual

/-- The calls in a node that stands in the scope `sc`: their scopes, and the functions called. -/
def Node.calls (sc : ScopeIndex) : Node → List (ScopeIndex × String)
  | .store _ _ value => value.calls sc
  | .binary _ left right => left.calls sc ++ right.calls sc
  | .unary _ operand => operand.calls sc
  | .call name args => (sc, name) :: Node.allCalls sc args
  | .block body => body.calls
  | .ifElse condition thenBlock none => condition.calls sc ++ thenBlock.calls
  | .ifElse condition thenBlock (some elseBlock) =>
    condition.calls sc ++ thenBlock.calls ++ elseBlock.calls
  | .whileLoop condition body => condition.calls sc ++ body.calls
  | .forLoop _ (.binary .range lower upper) body =>
    lower.calls sc ++ upper.calls sc ++ body.calls
  | .forLoop _ range body => range.calls sc ++ body.calls
  | .ret (some value) => value.calls sc
  | .print operands => Node.allCalls sc operands
  | _ => []
termination_by structural node => node

def Node.allCalls (sc : ScopeIndex) : List Node → List (ScopeIndex × String)
  | [] => []
  | node :: nodes => node.calls sc ++ Node.allCalls sc nodes
termination_by structural nodes => nodes

/-- The calls in a block, whose statements stand in its own scope. -/
def Block.calls : Block → List (ScopeIndex × String)
  | .mk scope statements => Node.allCalls scope statements
termination_by structural block => block

end

mutual

/-- The nodes in statement position inside of a node that stands in the scope `sc`. -/
def Node.inner (sc : ScopeIndex) : Node → List (ScopeIndex × Node)
  | .store _ _ value => value.inner sc
  | .binary _ left right => left.inner sc ++ right.inner sc
  | .unary _ operand => operand.inner sc
  | .call _ args => Node.allInner sc args
  | .block body => body.positions
  | .ifElse condition thenBlock none => condition.inner sc ++ thenBlock.positions
  | .ifElse condition thenBlock (some elseBlock) =>
    condition.inner sc ++ thenBlock.positions ++ elseBlock.positions
  | .whileLoop condition body => condition.inner sc ++ body.positions
  | .forLoop _ (.binary .range lower upper) body =>
    lower.inner sc ++ upper.inner sc ++ body.positions
  | .forLoop _ range body => range.inner sc ++ body.positions
  | .ret (some value) => value.inner sc
  | .print operands => Node.allInner sc operands
  | _ => []
termination_by structural node => node

/-- The same for nodes that are no statements. -/
def Node.allInner (sc : ScopeIndex) : List Node → List (ScopeIndex × Node)
  | [] => []
  | node :: nodes => node.inner sc ++ Node.allInner sc nodes
termination_by structural nodes => nodes

/-- The nodes in statement position that a block consists of. -/
def Block.positions : Block → List (ScopeIndex × Node)
  | .mk scope statements => Node.allPositions scope statements
termination_by structural block => block

def Node.allPositions (sc : ScopeIndex) : List Node → List (ScopeIndex × Node)
  | [] => []
  | node :: nodes => (sc, node) :: (node.inner sc ++ Node.allPositions sc nodes)
termination_by structural nodes => nodes

end

/-- The calls in a phrase that stands in the scope `sc`. -/
def Phrase.calls (sc : ScopeIndex) : Phrase → List (ScopeIndex × String)
  | .expr node | .stmt node => node.calls sc
  | .args nodes | .stmts nodes | .operands nodes => Node.allCalls sc nodes
  | .block body => body.calls

/-- The nodes in statement position in a phrase that stands in the scope `sc`. A statement comes before
those inside of it. -/
def Phrase.positions (sc : ScopeIndex) : Phrase → List (ScopeIndex × Node)
  | .expr node => node.inner sc
  | .stmt node => (sc, node) :: node.inner sc
  | .args nodes | .operands nodes => Node.allInner sc nodes
  | .stmts nodes => Node.allPositions sc nodes
  | .block body => body.positions

attribute [simp] Node.calls Node.allCalls Block.calls Phrase.calls Node.inner Node.allInner
  Block.positions Node.allPositions Phrase.positions

/-! ## Types and values -/

/-- A node in statement position neither leaves anything of type `<invalid>` nor hands anything to the
host that has no value. -/
def Node.Settled (g : Site) (sc : ScopeIndex) : Node → Prop
  | .load name => ∀ info, g.var sc name info → info.ty ≠ .invalid
  | .call name _ => ∀ id callee, g.function sc name id callee → callee.result ≠ .invalid
  | .native _ => ∀ param ∈ g.params, ∀ info, g.var sc param.name info → info.ty.isValue = true
  | _ => True

/-- Where the code of a phrase takes values for its types, there are values. -/
structure Phrase.Backed (g : Site) (sc : ScopeIndex) (phrase : Phrase) : Prop where
  calls : ∀ x ∈ phrase.calls sc, ∀ id callee, g.function x.1 x.2 id callee →
    ∀ ty ∈ callee.params, ty.isValue = true
  positions : ∀ x ∈ phrase.positions sc, x.2.Settled g x.1

/-- What holds of a phrase holds of its parts: their calls and statements are among its own. -/
theorem Phrase.Backed.part {g : Site} {sc sc' : ScopeIndex} {phrase phrase' : Phrase}
    (h : phrase.Backed g sc)
    (hcalls : ∀ x ∈ phrase'.calls sc', x ∈ phrase.calls sc := by simp +contextual)
    (hpositions : ∀ x ∈ phrase'.positions sc', x ∈ phrase.positions sc := by simp +contextual) :
    phrase'.Backed g sc' :=
  ⟨fun x hx => h.calls x (hcalls x hx), fun x hx => h.positions x (hpositions x hx)⟩

/-- All names mean what has values, or leaves nothing. -/
structure Site.Backed (g : Site) : Prop where
  var : ∀ {sc name info}, g.var sc name info → info.ty.isValue = true
  params : ∀ {sc name id r}, g.function sc name id r → ∀ ty ∈ r.params, ty.isValue = true
  result : ∀ {sc name id r}, g.function sc name id r → r.result ≠ .invalid

theorem Ty.ne_invalid_of_isValue {ty : Ty} (h : ty.isValue = true) : ty ≠ .invalid := by
  rintro rfl
  cases h

theorem Site.Backed.phrase {g : Site} (hg : g.Backed) (sc : ScopeIndex) (phrase : Phrase) :
    phrase.Backed g sc := by
  refine ⟨fun x _ id callee hfun => hg.params hfun, fun x _ => ?_⟩
  obtain ⟨sc', node⟩ := x
  cases node with
  | load name => exact fun info hvar => Ty.ne_invalid_of_isValue (hg.var hvar)
  | call name args => exact fun id callee hfun => hg.result hfun
  | native symbol => exact fun param _ info hvar => hg.var hvar
  | _ => trivial

/-! ## Positions in the code -/

/-- All of these nodes in statement position have their code. -/
def Site.HasPositions (g : Site) (xs : List (ScopeIndex × Node)) : Prop :=
  ∃ spans, List.Forall₂ (fun x (span : Nat × Nat) => Emitted g x.1 (.stmt x.2) span.1 [] span.2)
    xs spans

theorem Site.hasPositions_nil {g : Site} : g.HasPositions [] := ⟨[], .nil⟩

theorem Site.HasPositions.append {g : Site} {xs ys : List (ScopeIndex × Node)}
    (h : g.HasPositions xs) (h' : g.HasPositions ys) : g.HasPositions (xs ++ ys) := by
  obtain ⟨spans, hspans⟩ := h
  obtain ⟨spans', hspans'⟩ := h'
  exact ⟨spans ++ spans', List.rel_append hspans hspans'⟩

theorem Site.HasPositions.cons {g : Site} {xs : List (ScopeIndex × Node)} {sc : ScopeIndex}
    {n : Node} {a b : Nat} (hn : Emitted g sc (.stmt n) a [] b) (h : g.HasPositions xs) :
    g.HasPositions ((sc, n) :: xs) := by
  obtain ⟨spans, hspans⟩ := h
  exact ⟨(a, b) :: spans, .cons hn hspans⟩

/-- The nodes in statement position inside of a phrase. -/
def Phrase.inner (sc : ScopeIndex) : Phrase → List (ScopeIndex × Node)
  | .stmt node => node.inner sc
  | phrase => phrase.positions sc

theorem Emitted.hasInner {g : Site} {sc : ScopeIndex} {phrase : Phrase} {a b : Nat}
    {types : List Ty} (h : Emitted g sc phrase a types b) : g.HasPositions (phrase.inner sc) := by
  induction h with
  | int | double | string | load | ret | native => exact Site.hasPositions_nil
  | argsNil | operandsNil | stmtsNil => exact Site.hasPositions_nil
  | unary _ _ _ ih | drop _ _ ih | assign _ _ _ _ ih | update _ _ _ _ _ _ ih | inner _ ih
  | retValue _ _ _ ih | print _ ih | call _ _ _ _ ih | blockMk _ _ ih =>
    simpa [Phrase.inner] using ih
  | binary _ _ _ ihright ihleft =>
    simpa [Phrase.inner] using ihleft.append ihright
  | argsCons _ _ _ _ ihargs iharg =>
    simpa [Phrase.inner] using iharg.append ihargs
  | operandsCons _ _ _ ih ihrest =>
    simpa [Phrase.inner] using ih.append ihrest
  | stmtsCons hs _ ih ihrest =>
    simpa [Phrase.inner] using
      .cons hs (ih.append ihrest)
  | ifThen _ _ _ ihcond ihthen | whileLoop _ _ _ _ ihcond ihthen =>
    simpa [Phrase.inner] using ihcond.append ihthen
  | ifElse _ _ _ _ _ ihcond ihthen ihelse =>
    simpa [Phrase.inner] using
      (ihcond.append ihthen).append ihelse
  | forLoop _ _ _ _ _ _ _ _ _ _ _ _ _ _ ihupper ihlower ihbody =>
    simpa [Phrase.inner] using
      (ihlower.append ihupper).append ihbody

end StackLang
