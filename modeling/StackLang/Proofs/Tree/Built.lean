import Mathlib
import StackLang.Tree.Program

/-!
# Programs made by the program's own operations

`Program.Built p` says that `p` comes from the operations that build programs, in any order and
with any arguments that they take. `Built.linked` is what they guarantee: the links between scopes
go both ways, a scope comes behind its parent, a function's body has a scope of its own that begins
with the parameters, and the first function of the root is `<top>`.
-/

namespace StackLang

/-- What `define` leaves alone of a function. -/
structure FunctionDecl.SameHeader (f f' : FunctionDecl) : Prop where
  name : f'.name = f.name
  result : f'.result = f.result
  params : f'.params = f.params
  scope : f'.body.scope = f.body.scope

theorem FunctionDecl.SameHeader.refl (f : FunctionDecl) : f.SameHeader f := ⟨rfl, rfl, rfl, rfl⟩

namespace Program

/-- A program made by the operations for building one. -/
inductive Built : Program → Prop
  | empty : Built .empty
  | addScope {p : Program} {parent : ScopeIndex} (h : Built p) (hp : parent ≤ p.scopeCount) :
      Built (p.addScope parent).2
  | declareVar {p : Program} (h : Built p) (scope : ScopeIndex) (var : VarDecl) :
      Built (p.declareVar scope var)
  | declareFunction {p : Program} {scope : ScopeIndex} (h : Built p) (hs : scope ≤ p.scopeCount)
      (name : String) (result : Ty) (params : List VarDecl) :
      Built (p.declareFunction scope name result params).2
  | declareNative {p : Program} {scope : ScopeIndex} (h : Built p) (hs : scope ≤ p.scopeCount)
      (name : String) (result : Ty) (params : List VarDecl) (symbol : String) :
      Built (p.declareNative scope name result params symbol).2
  | define {p : Program} (h : Built p) (body : ScopeIndex) (statements : List Node) :
      Built (p.define body statements)
  | defineTop {p : Program} (h : Built p) (statements : List Node) : Built (p.defineTop statements)

/-- The links between scopes, and between a function and its body's scope. -/
structure Linked (p : Program) : Prop where
  root : ∃ s, p.scope? root = some s ∧ s.parent = none
  child : ∀ {x s c}, p.scope? x = some s → c ∈ s.children →
    ∃ s', p.scope? c = some s' ∧ s'.parent = some x
  parent_le : ∀ {c s x}, p.scope? c = some s → s.parent = some x → x ≤ c
  body : ∀ {x s f}, p.scope? x = some s → f ∈ s.functions →
    f.body.scope ∈ s.children ∧
      ∃ s', p.scope? f.body.scope = some s' ∧ f.params <+: s'.vars.toList
  nodup : ∀ {x s}, p.scope? x = some s → s.children.toList.Nodup

/-- The first function of the root is `<top>`. -/
def TopFirst (p : Program) : Prop :=
  ∃ s f, p.scope? root = some s ∧ s.functions[0]? = some f ∧ f.name = topName ∧
    f.result = .void ∧ f.params = []

/-! ## Changing one scope -/

/-- What no operation takes away from a scope. -/
structure Keeps (s s' : Scope) : Prop where
  parent : s'.parent = s.parent
  children : s'.children = s.children
  vars : s.vars.toList <+: s'.vars.toList
  functions : ∀ f' ∈ s'.functions, ∃ f ∈ s.functions, f.SameHeader f'
  first : ∀ f, s.functions[0]? = some f → ∃ f', s'.functions[0]? = some f' ∧ f.SameHeader f'

variable {p : Program}

theorem scope?_modify (i j : ScopeIndex) (g : Scope → Scope) :
    (Program.mk (p.scopes.modify i g)).scope? j =
      (p.scope? j).map fun s => if i = j then g s else s := by
  unfold scope?
  rw [Array.getElem?_modify]
  split
  · rfl
  · simp

theorem Keeps.modify {i j : ScopeIndex} {g : Scope → Scope} (hg : ∀ s, Keeps s (g s)) {s' : Scope}
    (h : (Program.mk (p.scopes.modify i g)).scope? j = some s') :
    ∃ s, p.scope? j = some s ∧ Keeps s s' := by
  rw [scope?_modify] at h
  obtain ⟨s, hs, rfl⟩ := Option.map_eq_some_iff.mp h
  refine ⟨s, hs, ?_⟩
  split
  · exact hg s
  · exact ⟨rfl, rfl, List.prefix_refl _, fun f hf => ⟨f, hf, .refl f⟩, fun f hf => ⟨f, hf, .refl f⟩⟩

theorem Keeps.modify' {i j : ScopeIndex} {g : Scope → Scope} (hg : ∀ s, Keeps s (g s)) {s : Scope}
    (h : p.scope? j = some s) :
    ∃ s', (Program.mk (p.scopes.modify i g)).scope? j = some s' ∧ Keeps s s' := by
  have h' := scope?_modify (p := p) i j g
  rw [h, Option.map_some] at h'
  obtain ⟨s₀, hs₀, hk⟩ := Keeps.modify hg h'
  obtain rfl : s = s₀ := Option.some.inj (h.symm.trans hs₀)
  exact ⟨_, h', hk⟩

theorem Linked.modify (h : p.Linked) {i : ScopeIndex} {g : Scope → Scope}
    (hg : ∀ s, Keeps s (g s)) : Linked ⟨p.scopes.modify i g⟩ where
  root := by
    obtain ⟨s, hs, hnone⟩ := h.root
    obtain ⟨s', hs', hk⟩ := Keeps.modify' (i := i) hg hs
    exact ⟨s', hs', hk.parent.trans hnone⟩
  child hs' hc := by
    obtain ⟨s, hs, hk⟩ := Keeps.modify hg hs'
    obtain ⟨t, ht, hparent⟩ := h.child hs (hk.children ▸ hc)
    obtain ⟨t', ht', hk'⟩ := Keeps.modify' (i := i) hg ht
    exact ⟨t', ht', hk'.parent.trans hparent⟩
  parent_le hs' hx := by
    obtain ⟨s, hs, hk⟩ := Keeps.modify hg hs'
    exact h.parent_le hs (hk.parent ▸ hx)
  body hs' hf := by
    obtain ⟨s, hs, hk⟩ := Keeps.modify hg hs'
    obtain ⟨f, hf, hsame⟩ := hk.functions _ hf
    obtain ⟨hmem, t, ht, hparams⟩ := h.body hs hf
    obtain ⟨t', ht', hk'⟩ := Keeps.modify' (i := i) hg ht
    rw [hsame.scope, hsame.params, hk.children]
    exact ⟨hmem, t', ht', hparams.trans hk'.vars⟩
  nodup hs' := by
    obtain ⟨s, hs, hk⟩ := Keeps.modify hg hs'
    rw [hk.children]
    exact h.nodup hs

theorem TopFirst.modify (h : p.TopFirst) {i : ScopeIndex} {g : Scope → Scope}
    (hg : ∀ s, Keeps s (g s)) : TopFirst ⟨p.scopes.modify i g⟩ := by
  obtain ⟨s, f, hs, hf, hname, hresult, hparams⟩ := h
  obtain ⟨s', hs', hk⟩ := Keeps.modify' (i := i) hg hs
  obtain ⟨f', hf', hsame⟩ := hk.first f hf
  exact ⟨s', f', hs', hf', hsame.name.trans hname, hsame.result.trans hresult,
    hsame.params.trans hparams⟩

theorem keeps_declareVar (var : VarDecl) (s : Scope) :
    Keeps s { s with vars := s.vars.push var } :=
  ⟨rfl, rfl, by simp, fun f hf => ⟨f, hf, .refl f⟩, fun f hf => ⟨f, hf, .refl f⟩⟩

theorem keeps_define (body : ScopeIndex) (statements : List Node) (s : Scope) :
    Keeps s (match s.functions.findIdx? (·.body.scope = body) with
      | none => s
      | some i =>
        { s with functions := s.functions.modify i fun f =>
            { f with body := .mk f.body.scope statements } }) := by
  split
  · exact ⟨rfl, rfl, List.prefix_refl _, fun f hf => ⟨f, hf, .refl f⟩, fun f hf => ⟨f, hf, .refl f⟩⟩
  · rename_i i _
    refine ⟨rfl, rfl, List.prefix_refl _, fun f' hf' => ?_, fun f hf => ?_⟩
    · obtain ⟨k, hk⟩ := Array.getElem?_of_mem hf'
      rw [Array.getElem?_modify] at hk
      split at hk
      · obtain ⟨f, hf, rfl⟩ := Option.map_eq_some_iff.mp hk
        exact ⟨f, Array.mem_of_getElem? hf, rfl, rfl, rfl, rfl⟩
      · exact ⟨f', Array.mem_of_getElem? hk, .refl f'⟩
    · dsimp only
      rw [Array.getElem?_modify, hf]
      split
      · exact ⟨_, rfl, rfl, rfl, rfl, rfl⟩
      · exact ⟨f, rfl, .refl f⟩

theorem define_cases (p : Program) (body : ScopeIndex) (statements : List Node) :
    p.define body statements = p ∨ ∃ i g, (∀ s, Keeps s (g s)) ∧
      p.define body statements = ⟨p.scopes.modify i g⟩ := by
  unfold define
  split
  · exact .inl rfl
  · exact .inr ⟨_, _, keeps_define body statements, rfl⟩

/-! ## Adding scopes and functions -/

theorem scope?_addScope (parent i : ScopeIndex) :
    (p.addScope parent).2.scope? i =
      (if i = p.scopeCount then some { parent := some parent } else p.scope? i).map fun s =>
        if parent = i then { s with children := s.children.push p.scopeCount } else s := by
  rw [addScope, scope?_modify]
  simp only [scope?, scopeCount, Array.getElem?_push]
  rfl

theorem scope?_lt {i : ScopeIndex} {s : Scope} (h : p.scope? i = some s) : i < p.scopeCount :=
  (Array.getElem?_eq_some_iff.mp h).1

/-- What a scope of a program with one more scope was before. -/
theorem scope?_addScope_cases {parent i : ScopeIndex} {s' : Scope}
    (h : (p.addScope parent).2.scope? i = some s') :
    ∃ s : Scope, s'.parent = s.parent ∧ s'.vars = s.vars ∧ s'.functions = s.functions ∧
      (∀ c ∈ s'.children, c ∈ s.children ∨ i = parent ∧ c = p.scopeCount) ∧
      (∀ c ∈ s.children, c ∈ s'.children) ∧
      (p.scope? i = some s ∨ i = p.scopeCount ∧ s = { parent := some parent }) := by
  rw [scope?_addScope] at h
  obtain ⟨s, hs, rfl⟩ := Option.map_eq_some_iff.mp h
  have hold : p.scope? i = some s ∨ i = p.scopeCount ∧ s = { parent := some parent } := by
    split at hs
    · cases hs
      exact .inr ⟨by assumption, rfl⟩
    · exact .inl hs
  refine ⟨s, ?_, ?_, ?_, fun c hc => ?_, fun c hc => ?_, hold⟩
  · split <;> rfl
  · split <;> rfl
  · split <;> rfl
  · split at hc
    · rename_i heq
      rcases Array.mem_push.mp hc with hc | rfl
      · exact .inl hc
      · exact .inr ⟨heq.symm, rfl⟩
    · exact .inl hc
  · split
    · exact Array.mem_push.mpr (.inl hc)
    · exact hc

/-- A scope stays when another one is added. -/
theorem scope?_addScope_of {i : ScopeIndex} {s : Scope} (parent : ScopeIndex)
    (h : p.scope? i = some s) :
    ∃ s', (p.addScope parent).2.scope? i = some s' ∧ s'.parent = s.parent ∧ s'.vars = s.vars ∧
      s'.functions = s.functions := by
  have hne : i ≠ p.scopeCount := Nat.ne_of_lt (scope?_lt h)
  refine ⟨_, (scope?_addScope parent i).trans (by rw [if_neg hne, h]; rfl), ?_, ?_, ?_⟩ <;>
    split <;> rfl

theorem scope?_addScope_new (p : Program) (parent : ScopeIndex) :
    ∃ s', (p.addScope parent).2.scope? p.scopeCount = some s' ∧ s'.parent = some parent ∧
      s'.vars = #[] := by
  refine ⟨_, (scope?_addScope parent _).trans (by rw [if_pos rfl]; rfl), ?_, ?_⟩ <;>
    split <;> rfl

theorem Linked.addScope (h : p.Linked) {parent : ScopeIndex} (hp : parent ≤ p.scopeCount) :
    (p.addScope parent).2.Linked where
  root := by
    obtain ⟨s, hs, hnone⟩ := h.root
    obtain ⟨s', hs', hparent, -⟩ := scope?_addScope_of parent hs
    exact ⟨s', hs', hparent.trans hnone⟩
  child {x s' c} hs' hc := by
    obtain ⟨s, -, -, -, hchildren, -, hold⟩ := scope?_addScope_cases hs'
    rcases hchildren _ hc with hc | ⟨rfl, rfl⟩
    · rcases hold with hs | ⟨-, rfl⟩
      · obtain ⟨t, ht, hparent⟩ := h.child hs hc
        obtain ⟨t', ht', hparent', -⟩ := scope?_addScope_of parent ht
        exact ⟨t', ht', hparent'.trans hparent⟩
      · exact absurd hc (Array.not_mem_empty _)
    · obtain ⟨t', ht', hparent, -⟩ := scope?_addScope_new p x
      exact ⟨t', ht', hparent⟩
  parent_le hs' hx := by
    obtain ⟨s, hparent, -, -, -, -, hs | ⟨rfl, rfl⟩⟩ := scope?_addScope_cases hs'
    · exact h.parent_le hs (hparent ▸ hx)
    · rw [hparent] at hx
      cases hx
      exact hp
  body hs' hf := by
    obtain ⟨s, -, -, hfunctions, -, hchildren, hs | ⟨rfl, rfl⟩⟩ := scope?_addScope_cases hs'
    · obtain ⟨hmem, t, ht, hparams⟩ := h.body hs (hfunctions ▸ hf)
      obtain ⟨t', ht', -, hvars, -⟩ := scope?_addScope_of parent ht
      exact ⟨hchildren _ hmem, t', ht', hvars ▸ hparams⟩
    · exact absurd (hfunctions ▸ hf) (Array.not_mem_empty _)
  nodup {x s'} hs' := by
    rw [scope?_addScope] at hs'
    obtain ⟨s, hs, rfl⟩ := Option.map_eq_some_iff.mp hs'
    obtain ⟨hnodup, hnew⟩ : s.children.toList.Nodup ∧ p.scopeCount ∉ s.children.toList := by
      split at hs
      · cases hs
        exact ⟨List.nodup_nil, List.not_mem_nil⟩
      · refine ⟨h.nodup hs, fun hmem => ?_⟩
        obtain ⟨t, ht, -⟩ := h.child hs (Array.mem_toList_iff.mp hmem)
        exact Nat.lt_irrefl _ (scope?_lt ht)
    split
    · rw [Array.toList_push]
      exact List.nodup_append.mpr ⟨hnodup, List.nodup_singleton _, fun a ha b hb => by
        rw [List.mem_singleton.mp hb]
        rintro rfl
        exact hnew ha⟩
    · exact hnodup

theorem TopFirst.addScope (h : p.TopFirst) (parent : ScopeIndex) :
    (p.addScope parent).2.TopFirst := by
  obtain ⟨s, f, hs, hf, hrest⟩ := h
  obtain ⟨s', hs', -, -, hfunctions⟩ := scope?_addScope_of parent hs
  exact ⟨s', f, hs', hfunctions ▸ hf, hrest⟩

theorem foldl_declareVar (h : p.Linked) (body : ScopeIndex) (params : List VarDecl) {s : Scope}
    (hs : p.scope? body = some s) :
    (params.foldl (fun p param => p.declareVar body param) p).Linked ∧
      (p.TopFirst → (params.foldl (fun p param => p.declareVar body param) p).TopFirst) ∧
      (∀ {i : ScopeIndex} {s₁}, p.scope? i = some s₁ →
        ∃ s₂, (params.foldl (fun p param => p.declareVar body param) p).scope? i = some s₂ ∧
          Keeps s₁ s₂) ∧
      ∃ s', (params.foldl (fun p param => p.declareVar body param) p).scope? body = some s' ∧
        s'.vars.toList = s.vars.toList ++ params := by
  induction params generalizing p s with
  | nil =>
    exact ⟨h, id, fun hs => ⟨_, hs, rfl, rfl, List.prefix_refl _, fun f hf => ⟨f, hf, .refl f⟩,
      fun f hf => ⟨f, hf, .refl f⟩⟩, s, hs, by simp⟩
  | cons param params ih =>
    have hs' : (p.declareVar body param).scope? body = some { s with vars := s.vars.push param } := by
      rw [declareVar, scope?_modify, hs]
      simp
    obtain ⟨hlinked, htop, hkeeps, s', hs'', hvars⟩ :=
      ih (h.modify (keeps_declareVar param)) hs'
    refine ⟨hlinked, fun ht => htop (ht.modify (keeps_declareVar param)), fun hi => ?_, s', hs'', ?_⟩
    · obtain ⟨s₂, hs₂, hk⟩ := Keeps.modify' (i := body) (keeps_declareVar param) hi
      obtain ⟨s₃, hs₃, hk'⟩ := hkeeps hs₂
      refine ⟨s₃, hs₃, hk'.parent.trans hk.parent, hk'.children.trans hk.children,
        hk.vars.trans hk'.vars, fun f hf => ?_, fun f hf => ?_⟩
      · obtain ⟨f₂, hf₂, h₂⟩ := hk'.functions f hf
        obtain ⟨f₁, hf₁, h₁⟩ := hk.functions f₂ hf₂
        exact ⟨f₁, hf₁, h₂.name.trans h₁.name, h₂.result.trans h₁.result,
          h₂.params.trans h₁.params, h₂.scope.trans h₁.scope⟩
      · obtain ⟨f₂, hf₂, h₂⟩ := hk.first f hf
        obtain ⟨f₃, hf₃, h₃⟩ := hk'.first f₂ hf₂
        exact ⟨f₃, hf₃, h₃.name.trans h₂.name, h₃.result.trans h₂.result,
          h₃.params.trans h₂.params, h₃.scope.trans h₂.scope⟩
    · rw [hvars]
      simp

/-- A function may be added to the parent of its body's scope. -/
theorem Linked.addFunction (h : p.Linked) {scope : ScopeIndex} {f : FunctionDecl} {s' : Scope}
    (hchild : ∀ s, p.scope? scope = some s → f.body.scope ∈ s.children)
    (hbody : p.scope? f.body.scope = some s') (hparams : f.params <+: s'.vars.toList) :
    Linked ⟨p.scopes.modify scope fun s => { s with functions := s.functions.push f }⟩ where
  root := by
    obtain ⟨s, hs, hnone⟩ := h.root
    refine ⟨_, (scope?_modify scope _ _).trans (by rw [hs]; rfl), ?_⟩
    split <;> exact hnone
  child hs' hc := by
    rw [scope?_modify] at hs' ⊢
    obtain ⟨s, hs, rfl⟩ := Option.map_eq_some_iff.mp hs'
    obtain ⟨t, ht, hparent⟩ := h.child hs (by split at hc <;> exact hc)
    refine ⟨_, by rw [ht]; rfl, ?_⟩
    split <;> exact hparent
  parent_le hs' hx := by
    rw [scope?_modify] at hs'
    obtain ⟨s, hs, rfl⟩ := Option.map_eq_some_iff.mp hs'
    exact h.parent_le hs (by split at hx <;> exact hx)
  body {x s₁ f₁} hs' hf := by
    rw [scope?_modify] at hs'
    obtain ⟨s, hs, rfl⟩ := Option.map_eq_some_iff.mp hs'
    have hvars : ∀ {i : ScopeIndex} {s₂ : Scope} {params : List VarDecl}, p.scope? i = some s₂ →
        params <+: s₂.vars.toList → ∃ s₃, (Program.mk (p.scopes.modify scope fun s =>
          { s with functions := s.functions.push f })).scope? i = some s₃ ∧
            params <+: s₃.vars.toList := by
      intro i s₂ params hs₂ hpre
      refine ⟨_, (scope?_modify scope i _).trans (by rw [hs₂]; rfl), ?_⟩
      split <;> exact hpre
    have hchildren : ∀ c ∈ s.children, c ∈ (if scope = x then
        { s with functions := s.functions.push f } else s).children := by
      intro c hc
      split <;> exact hc
    have hmem : f₁ ∈ s.functions ∨ scope = x ∧ f₁ = f := by
      split at hf
      · rename_i heq
        rcases Array.mem_push.mp hf with hf | rfl
        · exact .inl hf
        · exact .inr ⟨heq, rfl⟩
      · exact .inl hf
    rcases hmem with hf | ⟨rfl, rfl⟩
    · obtain ⟨hmem, t, ht, hpre⟩ := h.body hs hf
      exact ⟨hchildren _ hmem, hvars ht hpre⟩
    · exact ⟨hchildren _ (hchild s hs), hvars hbody hparams⟩
  nodup hs' := by
    rw [scope?_modify] at hs'
    obtain ⟨s, hs, rfl⟩ := Option.map_eq_some_iff.mp hs'
    have hnodup := h.nodup hs
    split <;> exact hnodup

/-- The steps of `declareFunction`, up to the declaration itself. -/
theorem linked_declareFunction (h : p.Linked) {scope : ScopeIndex} (hs : scope ≤ p.scopeCount)
    (name : String) (result : Ty) (params : List VarDecl) :
    (p.declareFunction scope name result params).2.Linked := by
  obtain ⟨s₁, hs₁, -, hvars₁⟩ := scope?_addScope_new p scope
  obtain ⟨hlinked, -, hkeeps, s₂, hs₂, hvars₂⟩ := foldl_declareVar (h.addScope hs) p.scopeCount params hs₁
  refine hlinked.addFunction (fun s hs' => ?_) hs₂ ?_
  · have hscope := scope?_addScope (p := p) scope scope
    simp only [if_true] at hscope
    obtain ⟨s₀, hs₀⟩ : ∃ s₀, (if scope = p.scopeCount then some { parent := some scope }
        else p.scope? scope) = some s₀ := by
      split
      · exact ⟨_, rfl⟩
      · rename_i hne
        exact ⟨_, Array.getElem?_eq_getElem (Nat.lt_of_le_of_ne hs hne)⟩
    rw [hs₀, Option.map_some] at hscope
    obtain ⟨s₃, hs₃, hk⟩ := hkeeps hscope
    obtain rfl : s = s₃ := Option.some.inj (hs'.symm.trans hs₃)
    rw [hk.children]
    exact Array.mem_push_self
  · rw [hvars₂, hvars₁]
    exact List.prefix_refl _

theorem TopFirst.declareFunction (hl : p.Linked) (h : p.TopFirst) {scope : ScopeIndex}
    (hs : scope ≤ p.scopeCount) (name : String) (result : Ty) (params : List VarDecl) :
    (p.declareFunction scope name result params).2.TopFirst := by
  obtain ⟨s₁, hs₁, -, -⟩ := scope?_addScope_new p scope
  obtain ⟨-, htop, -, -⟩ := foldl_declareVar (hl.addScope hs) p.scopeCount params hs₁
  obtain ⟨s, f, hs, hf, hrest⟩ := htop (h.addScope scope)
  refine ⟨_, f, (scope?_modify scope _ _).trans (congrArg (Option.map _) hs), ?_, hrest⟩
  split
  · have hlt := (Array.getElem?_eq_some_iff.mp hf).1
    rw [Array.getElem?_push, if_neg (by omega)]
    exact hf
  · exact hf

/-! ## Programs as they are built -/

theorem linked_empty : Program.empty.Linked := by
  have h : (Program.mk #[{}]).Linked := by
    have hscope : ∀ {i s}, (Program.mk #[{}]).scope? i = some s → i = 0 ∧ s = {} := by
      intro i s hs
      cases i with
      | zero => exact ⟨rfl, (Option.some.inj hs).symm⟩
      | succ i => cases hs
    refine ⟨⟨{}, rfl, rfl⟩, fun hs hc => ?_, fun hs hx => ?_, fun hs hf => ?_, fun hs => ?_⟩ <;>
      obtain ⟨rfl, rfl⟩ := hscope hs
    · exact absurd hc (Array.not_mem_empty _)
    · cases hx
    · exact absurd hf (Array.not_mem_empty _)
    · exact List.nodup_nil
  exact linked_declareFunction h (Nat.zero_le _) _ _ _

/-- **What building guarantees.** -/
theorem Built.linked (h : p.Built) : p.Linked ∧ p.TopFirst := by
  have hdefine : ∀ {p : Program} (body : ScopeIndex) (statements : List Node),
      p.Linked ∧ p.TopFirst → (p.define body statements).Linked ∧
        (p.define body statements).TopFirst := by
    intro p body statements ih
    rcases define_cases p body statements with heq | ⟨i, g, hg, heq⟩
    · rwa [heq]
    · rw [heq]
      exact ⟨ih.1.modify hg, ih.2.modify hg⟩
  induction h with
  | empty => exact ⟨linked_empty, _, _, rfl, rfl, rfl, rfl, rfl⟩
  | addScope _ hp ih => exact ⟨ih.1.addScope hp, ih.2.addScope _⟩
  | declareVar _ scope var ih =>
    exact ⟨ih.1.modify (keeps_declareVar var), ih.2.modify (keeps_declareVar var)⟩
  | declareFunction _ hs name result params ih =>
    exact ⟨linked_declareFunction ih.1 hs name result params, ih.2.declareFunction ih.1 hs name result params⟩
  | declareNative _ hs name result params symbol ih =>
    exact hdefine _ _ ⟨linked_declareFunction ih.1 hs name result params,
      ih.2.declareFunction ih.1 hs name result params⟩
  | define _ body statements ih => exact hdefine body statements ih
  | defineTop _ statements ih => exact hdefine _ statements ih

end Program

end StackLang
