import StackLang.Proofs.Tree.WellFormed

/-!
# Which function has which scope

A scope is the root, that of a function's body or that of a block; `Program.ScopedOnce` says that it
is one of them, once. `FunctionDecl.frameScopes` lists the scopes whose variables live in the frame of
a function, and `nodup_frameScopes` says that no two functions have one in common.

`Program.preorder` lists the scopes as they are compiled, from the root inwards and each once
(`Linked.nodup_preorder`). Two functions on the way have no scope in common
(`ScopedOnce.unique_place`).
-/

namespace StackLang

/-! ## Blocks -/

mutual

/-- The scopes of the blocks inside a node. -/
def Node.scopes : Node → List ScopeIndex
  | .store _ _ value => value.scopes
  | .binary _ left right => left.scopes ++ right.scopes
  | .unary _ operand => operand.scopes
  | .call _ args => Node.allScopes args
  | .block body => body.scopes
  | .ifElse condition thenBlock none => condition.scopes ++ thenBlock.scopes
  | .ifElse condition thenBlock (some elseBlock) =>
    condition.scopes ++ thenBlock.scopes ++ elseBlock.scopes
  | .whileLoop condition body => condition.scopes ++ body.scopes
  | .forLoop _ range body => range.scopes ++ body.scopes
  | .ret (some value) => value.scopes
  | .print operands => Node.allScopes operands
  | _ => []
termination_by structural node => node

def Node.allScopes : List Node → List ScopeIndex
  | [] => []
  | node :: nodes => node.scopes ++ Node.allScopes nodes
termination_by structural nodes => nodes

/-- The scope of a block and those of the blocks inside it. -/
def Block.scopes : Block → List ScopeIndex
  | .mk scope statements => scope :: Node.allScopes statements
termination_by structural block => block

end

theorem Block.scopes_eq (b : Block) : b.scopes = b.scope :: Node.allScopes b.statements := by
  obtain ⟨scope, statements⟩ := b
  rw [Block.scopes]
  rfl

theorem Block.scope_mem_scopes (b : Block) : b.scope ∈ b.scopes :=
  b.scopes_eq ▸ List.mem_cons_self

section Inward

set_option linter.unusedSectionVars false

variable {p : Program} {callable : String → Bool} {P S : ScopeIndex → Prop}

variable (hstep : ∀ {y s k}, P y → p.scope? y = some s → k ∈ s.children → S k → P k)

include hstep

/- What goes on from a scope to its children goes on to the scopes of the blocks inside it, `S`. -/
mutual

theorem Node.forall_mem_scopes {sc : ScopeIndex} (hsc : P sc) : (n : Node) →
    n.wellFormed p callable sc = true → (∀ x ∈ n.scopes, S x) → ∀ x ∈ n.scopes, P x
  | .store _ _ value, hw, hS => by
    rw [Node.wellFormed] at hw
    rw [Node.scopes] at hS ⊢
    exact Node.forall_mem_scopes hsc value hw hS
  | .binary _ left right, hw, hS => by
    rw [Node.wellFormed, Bool.and_eq_true] at hw
    rw [Node.scopes, List.forall_mem_append] at hS ⊢
    exact ⟨Node.forall_mem_scopes hsc left hw.1 hS.1, Node.forall_mem_scopes hsc right hw.2 hS.2⟩
  | .unary _ operand, hw, hS => by
    rw [Node.wellFormed] at hw
    rw [Node.scopes] at hS ⊢
    exact Node.forall_mem_scopes hsc operand hw hS
  | .call _ args, hw, hS => by
    rw [Node.wellFormed, Bool.and_eq_true] at hw
    rw [Node.scopes] at hS ⊢
    exact Node.forall_mem_allScopes hsc args hw.2 hS
  | .block body, hw, hS => by
    rw [Node.wellFormed] at hw
    rw [Node.scopes] at hS ⊢
    exact Block.forall_mem_scopes hsc body hw hS
  | .ifElse condition thenBlock none, hw, hS => by
    rw [Node.wellFormed, Bool.and_eq_true] at hw
    rw [Node.scopes, List.forall_mem_append] at hS ⊢
    exact ⟨Node.forall_mem_scopes hsc condition hw.1 hS.1,
      Block.forall_mem_scopes hsc thenBlock hw.2 hS.2⟩
  | .ifElse condition thenBlock (some elseBlock), hw, hS => by
    rw [Node.wellFormed, Bool.and_eq_true, Bool.and_eq_true] at hw
    rw [Node.scopes, List.forall_mem_append, List.forall_mem_append] at hS ⊢
    exact ⟨⟨Node.forall_mem_scopes hsc condition hw.1.1 hS.1.1,
      Block.forall_mem_scopes hsc thenBlock hw.1.2 hS.1.2⟩,
      Block.forall_mem_scopes hsc elseBlock hw.2 hS.2⟩
  | .whileLoop condition body, hw, hS => by
    rw [Node.wellFormed, Bool.and_eq_true] at hw
    rw [Node.scopes, List.forall_mem_append] at hS ⊢
    exact ⟨Node.forall_mem_scopes hsc condition hw.1 hS.1,
      Block.forall_mem_scopes hsc body hw.2 hS.2⟩
  | .forLoop _ range body, hw, hS => by
    rw [Node.wellFormed, Bool.and_eq_true] at hw
    rw [Node.scopes, List.forall_mem_append] at hS ⊢
    exact ⟨Node.forall_mem_scopes hsc range hw.1 hS.1, Block.forall_mem_scopes hsc body hw.2 hS.2⟩
  | .ret (some value), hw, hS => by
    rw [Node.wellFormed] at hw
    rw [Node.scopes] at hS ⊢
    exact Node.forall_mem_scopes hsc value hw hS
  | .print operands, hw, hS => by
    rw [Node.wellFormed] at hw
    rw [Node.scopes] at hS ⊢
    exact Node.forall_mem_allScopes hsc operands hw hS
  | .int _, _, _ | .double _, _, _ | .string _, _, _ | .load _, _, _ | .ret none, _, _
  | .native _, _, _ => List.forall_mem_nil _
termination_by structural n => n

theorem Node.forall_mem_allScopes {sc : ScopeIndex} (hsc : P sc) : (ns : List Node) →
    Node.allWellFormed p callable sc ns = true → (∀ x ∈ Node.allScopes ns, S x) →
      ∀ x ∈ Node.allScopes ns, P x
  | [], _, _ => List.forall_mem_nil _
  | n :: ns, hw, hS => by
    rw [Node.allWellFormed, Bool.and_eq_true] at hw
    rw [Node.allScopes, List.forall_mem_append] at hS ⊢
    exact ⟨Node.forall_mem_scopes hsc n hw.1 hS.1, Node.forall_mem_allScopes hsc ns hw.2 hS.2⟩
termination_by structural ns => ns

theorem Block.forall_mem_scopes {sc : ScopeIndex} (hsc : P sc) : (b : Block) →
    b.wellFormed p callable sc = true → (∀ x ∈ b.scopes, S x) → ∀ x ∈ b.scopes, P x
  | .mk scope statements, hw, hS => by
    obtain ⟨⟨s, hs, hmem⟩, hw⟩ := Block.scope_of_wellFormed hw
    rw [Block.scopes, List.forall_mem_cons] at hS ⊢
    have hscope := hstep hsc hs hmem hS.1
    exact ⟨hscope, Node.forall_mem_allScopes hscope statements hw hS.2⟩
termination_by structural b => b

end

end Inward

/-! ## Functions -/

/-- The scopes whose variables live in the frame of a function. -/
def FunctionDecl.frameScopes (f : FunctionDecl) : List ScopeIndex :=
  if f.name = Program.topName then Program.root :: f.body.scopes else f.body.scopes

theorem FunctionDecl.mem_frameScopes {f : FunctionDecl} {x : ScopeIndex} :
    x ∈ f.frameScopes ↔ x ∈ f.body.scopes ∨ f.name = Program.topName ∧ x = Program.root := by
  unfold frameScopes
  split
  · rename_i hname
    rw [List.mem_cons]
    exact ⟨fun h => h.symm.imp_right fun h => ⟨hname, h⟩, fun h => h.symm.imp_left And.right⟩
  · rename_i hname
    exact ⟨.inl, fun h => h.resolve_right fun h => hname h.1⟩

theorem FunctionDecl.body_mem_frameScopes (f : FunctionDecl) : f.body.scope ∈ f.frameScopes :=
  mem_frameScopes.mpr (.inl f.body.scope_mem_scopes)

section Bodies

variable {p : Program} {callable : String → Bool} {f : FunctionDecl} {x : ScopeIndex}
  (hw : Node.allWellFormed p callable f.body.scope f.body.statements = true)

include hw

/-- What goes on from the scope of a function's body to its children goes on to all scopes of its
blocks. -/
theorem FunctionDecl.forall_mem_scopes {P : ScopeIndex → Prop} (hbody : P f.body.scope)
    (hstep : ∀ {y s k}, P y → p.scope? y = some s → k ∈ s.children → k ∈ f.body.scopes → P k) :
    ∀ x ∈ f.body.scopes, P x := by
  rw [f.body.scopes_eq] at hstep ⊢
  exact List.forall_mem_cons.mpr ⟨hbody, Node.forall_mem_allScopes hstep hbody _ hw
    fun x hx => List.mem_cons_of_mem _ hx⟩

theorem FunctionDecl.below_of_mem_scopes (hx : x ∈ f.body.scopes) : p.Below f.body.scope x :=
  FunctionDecl.forall_mem_scopes hw .refl (fun hy hs hk _ => .child hy hs hk) x hx

/-- Around the blocks of a function there are its blocks and what is around its declaration. -/
theorem FunctionDecl.scopes_of_encloses (hl : p.Linked) {i sc : ScopeIndex}
    (hd : p.DeclaredIn i f) (hsc : sc ∈ f.body.scopes) (h : p.Encloses x sc) :
    x ∈ f.body.scopes ∨ p.Encloses x i := by
  obtain ⟨s, hs, hf⟩ := hd
  refine FunctionDecl.forall_mem_scopes hw
    (P := fun y => ∀ x, p.Encloses x y → x ∈ f.body.scopes ∨ p.Encloses x i)
    (fun x hx => ?_) (fun {y s k} hy hs hk hmem x hx => ?_) sc hsc x h
  · rcases hl.encloses_child hs (hl.body hs (Array.mem_toList_iff.mp hf)).1 hx with rfl | hx
    · exact .inl f.body.scope_mem_scopes
    · exact .inr hx
  · rcases hl.encloses_child hs hk hx with rfl | hx
    · exact .inl hmem
    · exact hy x hx

/-- Around the scopes in the frame of a function there are others in the frame and what is around its
declaration. -/
theorem FunctionDecl.frameScopes_of_encloses (hl : p.Linked) {i sc : ScopeIndex}
    (hd : p.DeclaredIn i f) (hsc : sc ∈ f.frameScopes) (h : p.Encloses x sc) :
    x ∈ f.frameScopes ∨ p.Encloses x i := by
  rcases FunctionDecl.mem_frameScopes.mp hsc with hsc | ⟨hname, rfl⟩
  · exact (FunctionDecl.scopes_of_encloses hw hl hd hsc h).imp_left
      fun hx => FunctionDecl.mem_frameScopes.mpr (.inl hx)
  · exact .inl (FunctionDecl.mem_frameScopes.mpr (.inr ⟨hname, hl.encloses_root h⟩))

end Bodies

namespace Program

open FunctionDecl (mem_frameScopes)

/-- All functions of the program. -/
def functions (p : Program) : List FunctionDecl := p.scopes.toList.flatMap (·.functions.toList)

/-- What a scope can be: the root, that of a function's body, or that of a block. -/
def scopeUses (p : Program) : List ScopeIndex := root :: p.functions.flatMap (·.body.scopes)

/-- Every scope is the root, one function's body or the scope of one block, and no other function has
the name of `<top>`. -/
structure ScopedOnce (p : Program) : Prop where
  once : p.scopeUses.Nodup
  all : ∀ i < p.scopeCount, i ∈ p.scopeUses
  top : p.functions.countP (·.name = topName) ≤ 1

variable {p : Program}

/-- **No two functions have a scope in common.** -/
theorem ScopedOnce.nodup_frameScopes (h : p.ScopedOnce) :
    (p.functions.flatMap (·.frameScopes)).Nodup := by
  obtain ⟨hroot, honce⟩ := List.nodup_cons.mp h.once
  obtain ⟨hbody, hapart⟩ := List.nodup_flatMap.mp honce
  have hbodies : ∀ f ∈ p.functions, root ∉ f.body.scopes := fun f hf hmem =>
    hroot (List.mem_flatMap.mpr ⟨f, hf, hmem⟩)
  refine List.nodup_flatMap.mpr ⟨fun f hf => ?_, ?_⟩
  · unfold FunctionDecl.frameScopes
    split
    · exact List.nodup_cons.mpr ⟨hbodies f hf, hbody f hf⟩
    · exact hbody f hf
  · have htop : p.functions.Pairwise fun f g => ¬ (f.name = topName ∧ g.name = topName) := by
      have hcount := h.top
      generalize p.functions = fs at hcount
      induction fs with
      | nil => exact .nil
      | cons f fs ih =>
        rw [List.countP_cons] at hcount
        refine List.pairwise_cons.mpr ⟨fun g hg ⟨hf, hname⟩ => ?_, ih (by omega)⟩
        have hpos : 0 < fs.countP (·.name = topName) :=
          List.countP_pos_iff.mpr ⟨g, hg, by simpa using hname⟩
        simp only [hf, decide_true, if_true] at hcount
        omega
    refine (hapart.and htop).imp_of_mem fun {f g} hf hg hfg => ?_
    intro x hxf hxg
    rcases mem_frameScopes.mp hxf with hxf | ⟨hf', rfl⟩ <;>
      rcases mem_frameScopes.mp hxg with hxg | ⟨hg', hroot'⟩
    · exact hfg.1 hxf hxg
    · exact hbodies f hf (hroot' ▸ hxf)
    · exact hbodies g hg hxg
    · exact hfg.2 ⟨hf', hg'⟩

/-- Every scope inside the root is one of a function that is met on the way. -/
theorem ScopedOnce.exists_function (h : p.ScopedOnce) (hl : p.Linked) {callable : String → Bool}
    (hn : p.Nested callable) {top : FunctionDecl} (htop : p.top? = some top) {x : ScopeIndex}
    (hx : p.Below root x) :
    ∃ j f, p.Below root j ∧ p.DeclaredIn j f ∧ x ∈ f.frameScopes := by
  obtain ⟨s, hs⟩ := hl.exists_scope? hx
  rcases List.mem_cons.mp (h.all x (scope?_lt hs)) with rfl | hmem
  · obtain ⟨hd, hname⟩ := declared_of_top? htop
    exact ⟨root, top, .refl, hd, mem_frameScopes.mpr (.inr ⟨hname, rfl⟩)⟩
  · obtain ⟨f, hf, hmem⟩ := List.mem_flatMap.mp hmem
    obtain ⟨s', hs', hf⟩ := List.mem_flatMap.mp hf
    obtain ⟨j, hj⟩ := List.mem_iff_getElem?.mp hs'
    have hd : p.DeclaredIn j f := ⟨s', by rw [scope?, ← Array.getElem?_toList, hj], hf⟩
    have hbelow := (hl.below_body hd).trans (FunctionDecl.below_of_mem_scopes (hn hd) hmem)
    refine ⟨j, f, ?_, hd, mem_frameScopes.mpr (.inl hmem)⟩
    rcases hl.below_total hx hbelow with hj | hj
    · exact hj
    · exact hl.below_root hj ▸ .refl

/-! ## From the root inwards -/

/-- The functions of a scope. -/
def functionsAt (p : Program) (i : ScopeIndex) : List FunctionDecl :=
  match p.scope? i with
  | none => []
  | some s => s.functions.toList

/-- The scope `i` and those inside it, each in front of its children, down to a depth. -/
def preorder (p : Program) : (depth : Nat) → (i : ScopeIndex) → List ScopeIndex
  | 0, _ => []
  | depth + 1, i =>
    match p.scope? i with
    | none => []
    | some s => i :: s.children.toList.flatMap (p.preorder depth)

variable {i j : ScopeIndex} {depth : Nat}

theorem functions_eq (p : Program) :
    p.functions = (List.range p.scopeCount).flatMap p.functionsAt := by
  have hscopes : ∀ scopes : List Scope, scopes.flatMap (·.functions.toList) =
      (List.range scopes.length).flatMap fun i =>
        (scopes[i]?).elim [] (·.functions.toList) := by
    intro scopes
    induction scopes with
    | nil => rfl
    | cons s scopes ih =>
      rw [List.length_cons, List.range_succ_eq_map, List.flatMap_cons, List.flatMap_cons,
        List.flatMap_map, ih]
      rfl
  rw [functions, hscopes, Array.length_toList]
  refine List.flatMap_congr fun i _ => ?_
  rw [functionsAt, scope?, Array.getElem?_toList]
  cases p.scopes[i]? <;> rfl

theorem below_of_mem_preorder (h : j ∈ p.preorder depth i) : p.Below i j ∧ j < p.scopeCount := by
  induction depth generalizing i with
  | zero => cases h
  | succ depth ih =>
    rw [preorder] at h
    cases hs : p.scope? i with
    | none =>
      rw [hs] at h
      cases h
    | some s =>
      rw [hs] at h
      rcases List.mem_cons.mp h with rfl | h
      · exact ⟨.refl, scope?_lt hs⟩
      · obtain ⟨c, hc, h⟩ := List.mem_flatMap.mp h
        obtain ⟨hbelow, hlt⟩ := ih h
        exact ⟨(Below.child .refl hs (Array.mem_toList_iff.mp hc)).trans hbelow, hlt⟩

theorem Linked.mem_preorder (hl : p.Linked) (hroot : p.Below Program.root i)
    (hdepth : p.scopeCount ≤ i + depth) (h : p.Below i j) : j ∈ p.preorder depth i := by
  induction depth generalizing i with
  | zero =>
    obtain ⟨s, hs⟩ := hl.exists_scope? hroot
    exact absurd hdepth (Nat.not_le.mpr (scope?_lt hs))
  | succ depth ih =>
    obtain ⟨s, hs⟩ := hl.exists_scope? hroot
    rw [preorder, hs]
    rcases h.cases_head with rfl | ⟨s', c, hs', hc, h⟩
    · exact List.mem_cons_self
    · obtain rfl := Option.some.inj (hs.symm.trans hs')
      have hdepth' : p.scopeCount ≤ c + depth := by
        rw [← Nat.add_assoc, Nat.add_right_comm] at hdepth
        exact Nat.le_trans hdepth (Nat.add_le_add_right (hl.lt_child hroot hs hc) depth)
      exact List.mem_cons_of_mem _ (List.mem_flatMap.mpr
        ⟨c, Array.mem_toList_iff.mpr hc, ih (.child hroot hs hc) hdepth' h⟩)

/-- No scope is met twice on the way inwards. -/
theorem Linked.nodup_preorder (hl : p.Linked) (hroot : p.Below Program.root i) :
    (p.preorder depth i).Nodup := by
  induction depth generalizing i with
  | zero => exact .nil
  | succ depth ih =>
    rw [preorder]
    cases hs : p.scope? i with
    | none => exact .nil
    | some s =>
      refine List.nodup_cons.mpr ⟨fun h => ?_, List.nodup_flatMap.mpr ⟨fun c hc => ?_, ?_⟩⟩
      · obtain ⟨c, hc, h⟩ := List.mem_flatMap.mp h
        have hlt := hl.lt_child hroot hs (Array.mem_toList_iff.mp hc)
        exact absurd (hl.below_le (below_of_mem_preorder h).1) (Nat.not_le.mpr hlt)
      · exact ih (.child hroot hs (Array.mem_toList_iff.mp hc))
      · refine (hl.nodup hs).imp_of_mem fun {c c'} hc hc' hne j hj hj' => hne ?_
        exact hl.child_unique hroot hs (Array.mem_toList_iff.mp hc) (Array.mem_toList_iff.mp hc')
          (below_of_mem_preorder hj).1 (below_of_mem_preorder hj').1

/-- The functions as they are met on the way inwards, each with the scope that declares it. -/
def functionsFrom (p : Program) (depth : Nat) (i : ScopeIndex) : List (ScopeIndex × FunctionDecl) :=
  (p.preorder depth i).flatMap fun j => (p.functionsAt j).map (j, ·)

theorem mem_functionsAt {f : FunctionDecl} : f ∈ p.functionsAt i ↔ p.DeclaredIn i f := by
  unfold functionsAt DeclaredIn
  cases p.scope? i <;> simp

/-- Every function of a scope inside is met. -/
theorem Linked.mem_functionsFrom (hl : p.Linked) (hroot : p.Below Program.root i)
    (hdepth : p.scopeCount ≤ i + depth) (h : p.Below i j) {f : FunctionDecl}
    (hf : p.DeclaredIn j f) : (j, f) ∈ p.functionsFrom depth i :=
  List.mem_flatMap.mpr ⟨j, hl.mem_preorder hroot hdepth h,
    List.mem_map_of_mem (mem_functionsAt.mpr hf)⟩

/-- The functions of a scope come in front of those inside it. -/
theorem functionsFrom_succ {s : Scope} (hs : p.scope? i = some s) :
    p.functionsFrom (depth + 1) i =
      s.functions.toList.map (i, ·) ++ s.children.toList.flatMap (p.functionsFrom depth) := by
  have hat : p.functionsAt i = s.functions.toList := by rw [functionsAt, hs]
  have hpre : p.preorder (depth + 1) i = i :: s.children.toList.flatMap (p.preorder depth) := by
    rw [preorder, hs]
  rw [functionsFrom, hpre, List.flatMap_cons, hat, List.flatMap_assoc]
  rfl

/-- **A scope belongs to one function**: where two functions on the way inwards have a scope in
common, they are at the same place. -/
theorem ScopedOnce.unique_place (h : p.ScopedOnce) (hl : p.Linked) {n m : Nat}
    {f g : ScopeIndex × FunctionDecl} {x : ScopeIndex}
    (hf : (p.functionsFrom depth root)[n]? = some f)
    (hg : (p.functionsFrom depth root)[m]? = some g) (hx : x ∈ f.2.frameScopes)
    (hx' : x ∈ g.2.frameScopes) : n = m := by
  have hnodup : ((p.functionsFrom depth root).flatMap (·.2.frameScopes)).Nodup := by
    obtain ⟨is, hperm, hsub⟩ : (p.preorder depth root).Subperm (List.range p.scopeCount) :=
      (hl.nodup_preorder .refl).subperm fun j hj => List.mem_range.mpr (below_of_mem_preorder hj).2
    have hall := h.nodup_frameScopes
    rw [functions_eq] at hall
    have his : ((is.flatMap p.functionsAt).flatMap (·.frameScopes)).Nodup :=
      hall.sublist ((hsub.flatMap _).flatMap _)
    have hpre := ((hperm.flatMap fun _ _ => .refl _).flatMap fun _ _ => .refl _).nodup_iff.mp his
    rw [List.flatMap_assoc] at hpre
    rw [functionsFrom, List.flatMap_assoc]
    simpa only [List.flatMap_map] using hpre
  have hpairs := List.pairwise_iff_getElem.mp (List.nodup_flatMap.mp hnodup).2
  obtain ⟨hn, rfl⟩ := List.getElem?_eq_some_iff.mp hf
  obtain ⟨hm, rfl⟩ := List.getElem?_eq_some_iff.mp hg
  rcases Nat.lt_trichotomy n m with hlt | heq | hlt
  · exact absurd hx' (hpairs n m hn hm hlt hx)
  · exact heq
  · exact absurd hx (hpairs m n hm hn hlt hx')

end Program

end StackLang
