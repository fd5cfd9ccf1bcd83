import StackLang.Proofs.Tree.Around

/-!
# The tree of scopes as a program grows

`Program.Grown p` says that `p` comes from the operations that build programs, each of them at a
scope that exists. `Program.ScopeTree` is the shape that they keep to, though none of them checks
it: every scope but the root is in one list of children, once, and that list is its parent's.
`Linked` is one part of it, and `Rooted` the other.

Main results:
* **`scopeTree_of_grown`**: the scopes of a grown program are a tree, and `define` changes the
  statements of the function with the given body and nothing else.
-/

namespace StackLang

/-- The scopes of the bodies of a scope's functions, in order. -/
def Scope.bodies (s : Scope) : List ScopeIndex := s.functions.toList.map (·.body.scope)

/-- The scope with other statements in every function with this body. -/
def Scope.redefined (s : Scope) (body : ScopeIndex) (statements : List Node) : Scope :=
  { s with functions := s.functions.map fun f =>
      if f.body.scope = body then { f with body := .mk body statements } else f }

namespace Program

/-- A program made by the operations for building one, at scopes that exist. -/
inductive Grown : Program → Prop
  | empty : Grown .empty
  | addScope {p : Program} {parent : ScopeIndex} (h : Grown p) (hp : parent < p.scopeCount) :
      Grown (p.addScope parent).2
  | declareVar {p : Program} {scope : ScopeIndex} (h : Grown p) (hs : scope < p.scopeCount)
      (var : VarDecl) : Grown (p.declareVar scope var)
  | declareFunction {p : Program} {scope : ScopeIndex} (h : Grown p) (hs : scope < p.scopeCount)
      (name : String) (result : Ty) (params : List VarDecl) :
      Grown (p.declareFunction scope name result params).2
  | declareNative {p : Program} {scope : ScopeIndex} (h : Grown p) (hs : scope < p.scopeCount)
      (name : String) (result : Ty) (params : List VarDecl) (symbol : String) :
      Grown (p.declareNative scope name result params symbol).2
  | define {p : Program} {body : ScopeIndex} (h : Grown p) (hb : body < p.scopeCount)
      (statements : List Node) : Grown (p.define body statements)
  | defineTop {p : Program} (h : Grown p) (statements : List Node) : Grown (p.defineTop statements)

/-- The program with other statements in every function with this body, wherever it is. -/
def redefined (p : Program) (body : ScopeIndex) (statements : List Node) : Program :=
  ⟨p.scopes.map (·.redefined body statements)⟩

/-- The scopes are a tree, and every function has a body of its own in it. -/
structure ScopeTree (p : Program) : Prop where
  root : ∃ s, p.scope? root = some s ∧ s.parent = none
  /-- Every other scope has a parent before it, which has it once among its children. -/
  parent : ∀ {i s}, p.scope? i = some s → i ≠ Program.root →
    ∃ x t, s.parent = some x ∧ x < i ∧ p.scope? x = some t ∧ t.children.count i = 1
  /-- No other scope has it among its children. -/
  child : ∀ {x t c}, p.scope? x = some t → c ∈ t.children →
    ∃ s, p.scope? c = some s ∧ s.parent = some x
  reachable : ∀ {i}, i < p.scopeCount → p.Below Program.root i
  chain : ∀ {i}, i < p.scopeCount → (p.enclosing i).getLast? = some Program.root
  /-- A function's body is a child of the scope with the function, and begins with the
  parameters. -/
  body : ∀ {x s f}, p.scope? x = some s → f ∈ s.functions → f.body.scope ∈ s.children ∧
    ∃ s', p.scope? f.body.scope = some s' ∧ f.params <+: s'.vars.toList
  /-- No two functions share a body. -/
  apart : ∀ {x y s t} {k l : Nat} {f f' : FunctionDecl}, p.scope? x = some s →
    s.functions[k]? = some f → p.scope? y = some t → t.functions[l]? = some f' →
    f.body.scope = f'.body.scope → x = y ∧ k = l

/-- What `Linked` leaves open: no scope is outside the tree, and the functions of a scope have
different bodies. -/
structure Rooted (p : Program) : Prop where
  adopted : ∀ {i s}, p.scope? i = some s → i ≠ root →
    ∃ x t, s.parent = some x ∧ x < i ∧ p.scope? x = some t ∧ i ∈ t.children
  bodies : ∀ {x s}, p.scope? x = some s → s.bodies.Nodup

variable {p : Program} {i scope : ScopeIndex}

theorem exists_scope?_of_lt (h : i < p.scopeCount) : ∃ s, p.scope? i = some s :=
  ⟨_, Array.getElem?_eq_getElem h⟩

/-! ## Every operation keeps the scopes in the tree -/

/-- Variables and functions of a scope may change, if the functions have different bodies after
it. -/
theorem Rooted.modify (h : p.Rooted) {g : Scope → Scope}
    (hparent : ∀ s, (g s).parent = s.parent)
    (hchildren : ∀ s, (g s).children = s.children)
    (hbodies : ∀ s, p.scope? i = some s → (g s).bodies.Nodup) :
    Rooted ⟨p.scopes.modify i g⟩ where
  adopted {j s'} hs' hne := by
    rw [scope?_modify] at hs'
    obtain ⟨s, hs, rfl⟩ := Option.map_eq_some_iff.mp hs'
    obtain ⟨x, t, hx, hlt, ht, hmem⟩ := h.adopted hs hne
    refine ⟨x, _, ?_, hlt, (scope?_modify i x g).trans (by rw [ht]; rfl), ?_⟩
    · split
      · exact (hparent s).trans hx
      · exact hx
    · split
      · rwa [hchildren]
      · exact hmem
  bodies {x s'} hs' := by
    rw [scope?_modify] at hs'
    obtain ⟨s, hs, rfl⟩ := Option.map_eq_some_iff.mp hs'
    split
    · rename_i heq
      exact hbodies s (heq ▸ hs)
    · exact h.bodies hs

theorem Rooted.declareVar (h : p.Rooted) (scope : ScopeIndex) (var : VarDecl) :
    (p.declareVar scope var).Rooted :=
  h.modify (fun _ => rfl) (fun _ => rfl) fun s hs => show s.bodies.Nodup from h.bodies hs

theorem Rooted.declareVars (h : p.Rooted) (scope : ScopeIndex) (vars : List VarDecl) :
    (vars.foldl (fun p var => p.declareVar scope var) p).Rooted := by
  induction vars generalizing p with
  | nil => exact h
  | cons var vars ih => exact ih (h.declareVar scope var)

/-- Declaring variables leaves the functions of every scope alone. -/
theorem functions_declareVars (scope : ScopeIndex) (vars : List VarDecl) {s' : Scope}
    (h : (vars.foldl (fun p var => p.declareVar scope var) p).scope? i = some s') :
    ∃ s, p.scope? i = some s ∧ s'.functions = s.functions := by
  induction vars generalizing p with
  | nil => exact ⟨s', h, rfl⟩
  | cons var vars ih =>
    obtain ⟨s₁, hs₁, hfunctions⟩ := ih h
    unfold Program.declareVar at hs₁
    rw [scope?_modify] at hs₁
    obtain ⟨s, hs, rfl⟩ := Option.map_eq_some_iff.mp hs₁
    refine ⟨s, hs, hfunctions.trans ?_⟩
    split <;> rfl

theorem bodies_define (s : Scope) (k : Nat) (statements : List Node) :
    Scope.bodies { s with functions := s.functions.modify k fun f =>
      { f with body := .mk f.body.scope statements } } = s.bodies := by
  unfold Scope.bodies
  refine List.ext_getElem? fun n => ?_
  simp only [List.getElem?_map, Array.getElem?_toList, Array.getElem?_modify]
  split
  · rw [Option.map_map]
    rfl
  · rfl

theorem Rooted.define (h : p.Rooted) (body : ScopeIndex) (statements : List Node) :
    (p.define body statements).Rooted := by
  unfold Program.define
  split
  · exact h
  · refine h.modify (fun s => ?_) (fun s => ?_) fun s hs => ?_ <;> split
    · rfl
    · rfl
    · rfl
    · rfl
    · exact h.bodies hs
    · rw [bodies_define]
      exact h.bodies hs

theorem Rooted.addScope (h : p.Rooted) {parent : ScopeIndex} (hp : parent < p.scopeCount) :
    (p.addScope parent).2.Rooted where
  adopted {j s'} hs' hne := by
    obtain ⟨s, hparent, -, -, -, -, hs | ⟨rfl, rfl⟩⟩ := scope?_addScope_cases hs'
    · obtain ⟨x, t, hx, hlt, ht, hmem⟩ := h.adopted hs hne
      have hxlt := scope?_lt ht
      refine ⟨x, _, hparent.trans hx, hlt,
        (scope?_addScope parent x).trans (by rw [if_neg (Nat.ne_of_lt hxlt), ht]; rfl), ?_⟩
      split
      · exact Array.mem_push.mpr (.inl hmem)
      · exact hmem
    · obtain ⟨t, ht⟩ := exists_scope?_of_lt hp
      refine ⟨parent, { t with children := t.children.push p.scopeCount }, hparent, hp, ?_,
        Array.mem_push_self⟩
      rw [scope?_addScope, if_neg (Nat.ne_of_lt hp), ht, Option.map_some, if_pos rfl]
  bodies hs' := by
    obtain ⟨s, -, -, hfunctions, -, -, hs | ⟨rfl, rfl⟩⟩ := scope?_addScope_cases hs'
    · rw [Scope.bodies, hfunctions]
      exact h.bodies hs
    · rw [Scope.bodies, hfunctions]
      exact List.nodup_nil

/-- The scope that is added is no body yet. -/
theorem Linked.new_not_body (hl : p.Linked) {parent : ScopeIndex} {s' : Scope}
    (h : (p.addScope parent).2.scope? i = some s') : p.scopeCount ∉ s'.bodies := by
  obtain ⟨s, -, -, hfunctions, -, -, hs | ⟨rfl, rfl⟩⟩ := scope?_addScope_cases h
  · intro hmem
    rw [Scope.bodies, hfunctions] at hmem
    obtain ⟨f, hf, heq⟩ := List.mem_map.mp hmem
    obtain ⟨-, t, ht, -⟩ := hl.body hs (Array.mem_toList_iff.mp hf)
    exact Nat.lt_irrefl _ (heq ▸ scope?_lt ht)
  · rw [Scope.bodies, hfunctions]
    exact List.not_mem_nil

theorem Rooted.declareFunction (h : p.Rooted) (hl : p.Linked) (hs : scope < p.scopeCount)
    (name : String) (result : Ty) (params : List VarDecl) :
    (p.declareFunction scope name result params).2.Rooted := by
  have hrooted := (h.addScope hs).declareVars p.scopeCount params
  refine hrooted.modify (fun _ => rfl) (fun _ => rfl) fun s hs' => ?_
  obtain ⟨s₁, hs₁, hfunctions⟩ := functions_declareVars p.scopeCount params hs'
  have hfresh := hl.new_not_body hs₁
  have hold := hrooted.bodies hs'
  rw [Scope.bodies, ← hfunctions] at hfresh
  rw [Scope.bodies, Array.toList_push, List.map_append]
  exact List.nodup_append.mpr ⟨hold, List.nodup_singleton _, fun a ha b hb => by
    rw [List.mem_singleton.mp hb]
    rintro rfl
    exact hfresh ha⟩

/-! ## Grown programs -/

theorem Grown.built (h : p.Grown) : p.Built := by
  induction h with
  | empty => exact .empty
  | addScope _ hp ih => exact .addScope ih (Nat.le_of_lt hp)
  | declareVar _ _ var ih => exact .declareVar ih _ var
  | declareFunction _ hs name result params ih =>
    exact .declareFunction ih (Nat.le_of_lt hs) name result params
  | declareNative _ hs name result params symbol ih =>
    exact .declareNative ih (Nat.le_of_lt hs) name result params symbol
  | define _ _ statements ih => exact .define ih _ statements
  | defineTop _ statements ih => exact .defineTop ih statements

/-- A new program has a root with one child, the body of `<top>`. -/
theorem rooted_empty : Program.empty.Rooted where
  adopted {i s} hs hne := by
    match i, hs with
    | 0, _ => exact absurd rfl hne
    | 1, hs =>
      obtain rfl := Option.some.inj hs
      exact ⟨0, _, rfl, Nat.zero_lt_one, rfl, Array.mem_of_getElem? (i := 0) rfl⟩
    | _ + 2, hs => cases hs
  bodies {i s} hs := by
    match i, hs with
    | 0, hs =>
      obtain rfl := Option.some.inj hs
      exact List.nodup_singleton _
    | 1, hs =>
      obtain rfl := Option.some.inj hs
      exact List.nodup_nil
    | _ + 2, hs => cases hs

theorem Grown.rooted (h : p.Grown) : p.Rooted := by
  induction h with
  | empty => exact rooted_empty
  | addScope _ hp ih => exact ih.addScope hp
  | declareVar _ _ var ih => exact ih.declareVar _ var
  | declareFunction h hs name result params ih =>
    exact ih.declareFunction h.built.linked.1 hs name result params
  | declareNative h hs name result params symbol ih =>
    exact (ih.declareFunction h.built.linked.1 hs name result params).define _ _
  | define _ _ statements ih => exact ih.define _ statements
  | defineTop _ statements ih => exact ih.define _ statements

/-! ## The tree -/

theorem Rooted.below_root (h : p.Rooted) (hi : i < p.scopeCount) : p.Below root i := by
  induction i using Nat.strongRecOn with
  | ind i ih =>
    by_cases hroot : i = root
    · exact hroot ▸ .refl
    · obtain ⟨s, hs⟩ := exists_scope?_of_lt hi
      obtain ⟨x, t, -, hlt, ht, hmem⟩ := h.adopted hs hroot
      exact .child (ih x hlt (scope?_lt ht)) ht hmem

theorem outwards_none (p : Program) (steps : Nat) : p.outwards none steps = [] := by
  cases steps <;> rfl

/-- With enough steps, the way outwards ends at the root. -/
theorem Rooted.getLast?_outwards (h : p.Rooted) (hl : p.Linked) {steps : Nat}
    (hi : i < p.scopeCount) (hsteps : i < steps) :
    (p.outwards (some i) steps).getLast? = some root := by
  induction steps generalizing i with
  | zero => exact absurd hsteps (Nat.not_lt_zero _)
  | succ steps ih =>
    obtain ⟨s, hs⟩ := exists_scope?_of_lt hi
    rw [outwards.eq_3, hs, Option.bind_some, List.getLast?_cons]
    by_cases hroot : i = root
    · obtain ⟨r, hr, hnone⟩ := hl.root
      rw [hroot, hr] at hs
      obtain rfl := Option.some.inj hs
      rw [hnone, outwards_none, hroot]
      rfl
    · obtain ⟨x, t, hx, hlt, ht, -⟩ := h.adopted hs hroot
      rw [hx, ih (scope?_lt ht) (Nat.lt_of_lt_of_le hlt (Nat.le_of_lt_succ hsteps))]
      rfl

/-- The parent of a body is the scope with the function. -/
theorem Linked.parent_of_body (hl : p.Linked) {s b : Scope} {f : FunctionDecl}
    (hs : p.scope? i = some s) (hf : f ∈ s.functions) (hb : p.scope? f.body.scope = some b) :
    b.parent = some i := by
  obtain ⟨b', hb', hi⟩ := hl.child hs (hl.body hs hf).1
  rw [hb] at hb'
  exact Option.some.inj hb' ▸ hi

/-- A function is found by its body. -/
theorem index_of_body {s : Scope} {k l : Nat} {f f' : FunctionDecl} (h : s.bodies.Nodup)
    (hf : s.functions[k]? = some f) (hf' : s.functions[l]? = some f')
    (heq : f.body.scope = f'.body.scope) : k = l := by
  have hbody : ∀ {n : Nat} {f : FunctionDecl}, s.functions[n]? = some f →
      s.bodies[n]? = some f.body.scope := by
    intro n f hf
    rw [Scope.bodies, List.getElem?_map, Array.getElem?_toList, hf]
    rfl
  refine (List.getElem?_inj (List.getElem?_eq_some_iff.mp (hbody hf)).1 h).mp ?_
  rw [hbody hf, hbody hf', heq]

theorem Rooted.scopeTree (h : p.Rooted) (hl : p.Linked) : p.ScopeTree where
  root := hl.root
  parent hs hne := by
    obtain ⟨x, t, hx, hlt, ht, hmem⟩ := h.adopted hs hne
    refine ⟨x, t, hx, hlt, ht, ?_⟩
    rw [← Array.count_toList]
    exact List.count_eq_one_of_mem (hl.nodup ht) (Array.mem_toList_iff.mpr hmem)
  child := hl.child
  reachable := h.below_root
  chain hi := h.getLast?_outwards hl hi (Nat.lt_succ_of_lt hi)
  body := hl.body
  apart {x y s t k l f f'} hs hf ht hf' heq := by
    have hmem := Array.mem_of_getElem? hf
    have hmem' := Array.mem_of_getElem? hf'
    obtain ⟨-, b, hb, -⟩ := hl.body hs hmem
    obtain rfl : x = y := Option.some.inj
      ((hl.parent_of_body hs hmem hb).symm.trans (hl.parent_of_body ht hmem' (heq ▸ hb)))
    obtain rfl := Option.some.inj (hs.symm.trans ht)
    exact ⟨rfl, index_of_body (h.bodies hs) hf hf' heq⟩

/-! ## What `define` changes -/

theorem redefined_of_not_mem {s : Scope} {body : ScopeIndex} (statements : List Node)
    (h : body ∉ s.bodies) : s.redefined body statements = s := by
  have hid : ∀ f ∈ s.functions, (if f.body.scope = body then
      { f with body := .mk body statements } else f) = f := fun f hf =>
    if_neg fun heq => h (List.mem_map.mpr ⟨f, Array.mem_toList_iff.mpr hf, heq⟩)
  unfold Scope.redefined
  rw [Array.map_congr_left hid, Array.map_id']

/-- Of different bodies at most one is the one looked for. -/
theorem modify_eq_redefined {s : Scope} (body : ScopeIndex) (statements : List Node)
    (h : s.bodies.Nodup) :
    (match s.functions.findIdx? (·.body.scope = body) with
      | none => s
      | some k =>
        { s with functions := s.functions.modify k fun f =>
            { f with body := .mk f.body.scope statements } }) = s.redefined body statements := by
  split
  · rename_i hnone
    refine (redefined_of_not_mem statements fun hmem => ?_).symm
    obtain ⟨f, hf, heq⟩ := List.mem_map.mp hmem
    have := Array.findIdx?_eq_none_iff.mp hnone f (Array.mem_toList_iff.mp hf)
    simp [heq] at this
  · rename_i k hk
    obtain ⟨hlt, hbody, -⟩ := Array.findIdx?_eq_some_iff_getElem.mp hk
    have hbody : s.functions[k].body.scope = body := of_decide_eq_true hbody
    unfold Scope.redefined
    congr 1
    refine Array.ext_getElem? fun n => ?_
    rw [Array.getElem?_modify, Array.getElem?_map]
    split
    · rename_i heq
      rw [← heq, Array.getElem?_eq_getElem hlt, Option.map_some, Option.map_some, if_pos hbody,
        hbody]
    · rename_i hne
      cases hn : s.functions[n]? with
      | none => rfl
      | some f =>
        rw [Option.map_some, if_neg]
        intro heq
        exact hne (index_of_body h (Array.getElem?_eq_getElem hlt) hn (hbody.trans heq.symm))

theorem scope?_redefined (p : Program) (body : ScopeIndex) (statements : List Node) :
    (p.redefined body statements).scope? i = (p.scope? i).map (·.redefined body statements) :=
  Array.getElem?_map

theorem scope?_ext {q : Program} (h : ∀ i, p.scope? i = q.scope? i) : p = q := by
  cases p
  cases q
  exact congrArg Program.mk (Array.ext_getElem? h)

/-- **`define` changes the functions with the body and nothing else.** -/
theorem Rooted.define_eq_redefined (h : p.Rooted) (hl : p.Linked) (body : ScopeIndex)
    (statements : List Node) : p.define body statements = p.redefined body statements := by
  have hother : ∀ {i s}, p.scope? i = some s → (p.scope? body).bind (·.parent) ≠ some i →
      s.redefined body statements = s := by
    intro i s hs hne
    refine redefined_of_not_mem statements fun hmem => ?_
    obtain ⟨f, hf, rfl⟩ := List.mem_map.mp hmem
    have hf := Array.mem_toList_iff.mp hf
    obtain ⟨-, b, hb, -⟩ := hl.body hs hf
    rw [hb, Option.bind_some] at hne
    exact hne (hl.parent_of_body hs hf hb)
  refine scope?_ext fun i => ?_
  rw [scope?_redefined]
  unfold Program.define
  split
  · rename_i hnone
    cases hs : p.scope? i with
    | none => rfl
    | some s =>
      rw [Option.map_some, hother hs]
      rw [hnone]
      exact Option.some_ne_none i |>.symm
  · rename_i x hx
    rw [scope?_modify]
    cases hs : p.scope? i with
    | none => rfl
    | some s =>
      rw [Option.map_some, Option.map_some]
      split
      · exact congrArg some (modify_eq_redefined body statements (h.bodies hs))
      · rename_i hne
        rw [hother hs]
        rw [hx]
        exact fun heq => hne (Option.some.inj heq)

/-- **The scopes of a grown program are a tree**, and `define` changes the statements of the
function with the body and nothing else. -/
theorem scopeTree_of_grown (h : p.Grown) :
    p.ScopeTree ∧ ∀ body statements, p.define body statements = p.redefined body statements :=
  ⟨h.rooted.scopeTree h.built.linked.1, h.rooted.define_eq_redefined h.built.linked.1⟩

/-- A function with a block in it beside a native one, both at the top level. -/
def nestedProgram : Program :=
  let p := (Program.empty.declareFunction 1 "f" .int [⟨"n", .int⟩]).2
  let p := (p.addScope 2).2
  let p := (p.declareNative 1 "show" .void [⟨"s", .string⟩] "show").2
  p.define 2 [.block (.mk 3 []), .ret (some (.load "n"))]

theorem scopeTree_nestedProgram :
    nestedProgram.Grown ∧ nestedProgram.ScopeTree ∧ nestedProgram.enclosing 3 = [3, 2, 1, 0] ∧
      nestedProgram.define 4 [] = nestedProgram.redefined 4 [] := by
  have hgrown : nestedProgram.Grown := by
    unfold nestedProgram
    refine .define (.declareNative (.addScope
      (.declareFunction .empty ?_ _ _ _) ?_) ?_ _ _ _ _) ?_ _
    all_goals decide
  exact ⟨hgrown, (scopeTree_of_grown hgrown).1, by decide +kernel,
    (scopeTree_of_grown hgrown).2 4 []⟩

end Program

end StackLang
