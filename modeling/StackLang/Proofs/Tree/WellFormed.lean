import StackLang.Proofs.Tree.Around

/-!
# Well-formed programs

The scope of a block is a child of the scope around the block, the parameters of a function have
distinct names, variables hold values, and only functions with certain names are called. All of it
can be computed from the tree.
-/

namespace StackLang

mutual

/-- The blocks inside a node have children of the scope around them for scopes, and the functions
called are `callable`. -/
def Node.wellFormed (p : Program) (callable : String → Bool) (sc : ScopeIndex) : Node → Bool
  | .store _ _ value => value.wellFormed p callable sc
  | .binary _ left right => left.wellFormed p callable sc && right.wellFormed p callable sc
  | .unary _ operand => operand.wellFormed p callable sc
  | .call name args => callable name && Node.allWellFormed p callable sc args
  | .block body => body.wellFormed p callable sc
  | .ifElse condition thenBlock none =>
    condition.wellFormed p callable sc && thenBlock.wellFormed p callable sc
  | .ifElse condition thenBlock (some elseBlock) =>
    condition.wellFormed p callable sc && thenBlock.wellFormed p callable sc &&
      elseBlock.wellFormed p callable sc
  | .whileLoop condition body =>
    condition.wellFormed p callable sc && body.wellFormed p callable sc
  | .forLoop _ range body => range.wellFormed p callable sc && body.wellFormed p callable sc
  | .ret (some value) => value.wellFormed p callable sc
  | .print operands => Node.allWellFormed p callable sc operands
  | _ => true
termination_by structural node => node

def Node.allWellFormed (p : Program) (callable : String → Bool) (sc : ScopeIndex) :
    List Node → Bool
  | [] => true
  | node :: nodes => node.wellFormed p callable sc && Node.allWellFormed p callable sc nodes
termination_by structural nodes => nodes

def Block.wellFormed (p : Program) (callable : String → Bool) (sc : ScopeIndex) : Block → Bool
  | .mk scope statements =>
    ((p.scope? sc).any (·.children.contains scope)) &&
      Node.allWellFormed p callable scope statements
termination_by structural block => block

end

namespace Program

/-- Every variable of the program can hold a value. -/
def ValueVars (p : Program) : Prop :=
  ∀ (i : ScopeIndex) scope, p.scope? i = some scope →
    ∀ var ∈ scope.vars.toList, var.ty.isValue = true

/-- Variables and parameters hold values; functions return values or nothing. -/
structure Typed (p : Program) : Prop where
  vars : p.ValueVars
  results : ∀ {i f}, p.DeclaredIn i f → f.result ≠ .invalid

/-- A program whose functions are well-formed and call only functions with callable names. -/
structure WellFormed (p : Program) (callable : String → Bool) : Prop extends p.Typed where
  bodies : ∀ {i f}, p.DeclaredIn i f →
    Node.allWellFormed p callable f.body.scope f.body.statements = true
  params : ∀ {i f}, p.DeclaredIn i f → (f.params.map (·.name)).Nodup

/-- All blocks are nested as their scopes are, and only functions with callable names are called. -/
def Nested (p : Program) (callable : String → Bool) : Prop :=
  ∀ {i f}, p.DeclaredIn i f →
    Node.allWellFormed p callable f.body.scope f.body.statements = true

variable {p : Program}

theorem nested_of_all {callable : String → Bool}
    (h : ∀ s ∈ p.scopes.toList, ∀ f ∈ s.functions.toList,
      Node.allWellFormed p callable f.body.scope f.body.statements = true) : p.Nested callable := by
  rintro i f ⟨s, hs, hf⟩
  exact h s (Array.mem_toList_iff.mpr (Array.mem_of_getElem? hs)) f hf

theorem typed_of_all (h : ∀ s ∈ p.scopes.toList,
    (∀ var ∈ s.vars.toList, var.ty.isValue = true) ∧
      ∀ f ∈ s.functions.toList, f.result ≠ .invalid) : p.Typed where
  vars i s hs var hvar := (h s (Array.mem_toList_iff.mpr (Array.mem_of_getElem? hs))).1 var hvar
  results := by
    rintro i f ⟨s, hs, hf⟩
    exact (h s (Array.mem_toList_iff.mpr (Array.mem_of_getElem? hs))).2 f hf

theorem wellFormed_of_all {callable : String → Bool} (ht : p.Typed)
    (h : ∀ s ∈ p.scopes.toList, ∀ f ∈ s.functions.toList,
      Node.allWellFormed p callable f.body.scope f.body.statements = true ∧
        (f.params.map (·.name)).Nodup) : p.WellFormed callable where
  toTyped := ht
  bodies := by
    rintro i f ⟨s, hs, hf⟩
    exact (h s (Array.mem_toList_iff.mpr (Array.mem_of_getElem? hs)) f hf).1
  params := by
    rintro i f ⟨s, hs, hf⟩
    exact (h s (Array.mem_toList_iff.mpr (Array.mem_of_getElem? hs)) f hf).2

end Program

theorem Block.scope_of_wellFormed {p : Program} {callable : String → Bool} {sc scope : ScopeIndex}
    {statements : List Node} (h : (Block.mk scope statements).wellFormed p callable sc = true) :
    (∃ s, p.scope? sc = some s ∧ scope ∈ s.children) ∧
      Node.allWellFormed p callable scope statements = true := by
  rw [Block.wellFormed, Bool.and_eq_true, Option.any_eq_true] at h
  obtain ⟨⟨s, hs, hmem⟩, h⟩ := h
  exact ⟨⟨s, hs, by simpa using hmem⟩, h⟩

end StackLang
