import StackLang.Proofs.Compile.Scopes
import StackLang.Proofs.Compile.Walk

/-!
# The scopes in a frame

`owned_of_functionCode`: the frame of a function holds the variables of the scopes of the function's
body and of nothing else, apart from the root's in `<top>`. Only entering a block gives the frame
another scope (`Owns.carries`), and the string constants only ever grow by interning. `FunctionCode.block`
is the converse, and the code of the function tells it: every block in it has been entered.
-/

namespace StackLang

/-- `t'` is `t` after a step that has given the frame only scopes in `B`. -/
structure Compilation.Adds (B : ScopeIndex → Prop) (t t' : Compilation) : Prop where
  numbered : ∀ {i id}, t.symbols.scopeId? i = some id → t'.symbols.scopeId? i = some id
  owned : ∀ {id}, id ∈ t'.owned → id ∈ t.owned ∨ ∃ i, B i ∧ t'.symbols.scopeId? i = some id
  strings : t.exe.strings.Grown t'.exe.strings

namespace CompileM

/-- A step that gives the frame only scopes in `B`. -/
structure Owns {α : Type} (B : ScopeIndex → Prop) (m : CompileM α) : Prop where
  adds : ∀ {t : Compilation} {a : α} {t' : Compilation}, m t = .ok (a, t') → t.Adds B t'

namespace Owns

variable {α β : Type} {B : ScopeIndex → Prop}

/-- A step that changes neither the symbols, the scopes of the frame nor the string constants. -/
theorem of_same {m : CompileM α} (h : ∀ {t a t'}, m t = .ok (a, t') →
    t'.symbols = t.symbols ∧ t'.owned = t.owned ∧ t'.exe.strings = t.exe.strings) : Owns B m := by
  refine ⟨fun {t a t'} hm => ?_⟩
  obtain ⟨hs, ho, hp⟩ := h hm
  exact ⟨fun hi => hs ▸ hi, fun hid => .inl (ho ▸ hid), hp ▸ .refl⟩

theorem bind {m : CompileM β} {f : β → CompileM α} (hm : Owns B m) (hf : ∀ b, Owns B (f b)) :
    Owns B (m >>= f) := by
  refine ⟨fun {t a t''} h => ?_⟩
  obtain ⟨b, t', hm', hf'⟩ := bind_ok h
  have h₁ := hm.adds hm'
  have h₂ := (hf b).adds hf'
  refine ⟨fun hi => h₂.numbered (h₁.numbered hi), fun hid => ?_, h₁.strings.trans h₂.strings⟩
  rcases h₂.owned hid with hid | hid
  · rcases h₁.owned hid with hid | ⟨i, hi, hid⟩
    · exact .inl hid
    · exact .inr ⟨i, hi, h₂.numbered hid⟩
  · exact .inr hid

theorem pure (a : α) : Owns B (Pure.pure a) := of_same fun h => by cases h; exact ⟨rfl, rfl, rfl⟩

theorem throw (cause : Cause) : Owns B (MonadExcept.throw cause : CompileM α) :=
  ⟨fun h => (nomatch h)⟩

theorem get : Owns B (MonadState.get : CompileM Compilation) :=
  of_same fun h => by cases h; exact ⟨rfl, rfl, rfl⟩

theorem write (step : Builder.Step α) : Owns B (CompileM.write step) :=
  of_same fun h => by
    obtain ⟨code, -, rfl⟩ := write_ok h
    exact ⟨rfl, rfl, rfl⟩

/-! ## Names -/

theorem onSymbols {f : Symbols → Except Cause (α × Symbols)}
    (hf : ∀ {s a s'}, f s = .ok (a, s') →
      ∀ {i id}, s.scopeId? i = some id → s'.scopeId? i = some id) :
    Owns B (CompileM.onSymbols f) := by
  refine ⟨fun {t a t'} h => ?_⟩
  obtain ⟨symbols, hs, rfl⟩ := onSymbols_ok h
  exact ⟨hf hs, .inl, .refl⟩

theorem numberScope (p : Program) (i : ScopeIndex) : Owns B (CompileM.numberScope p i) := by
  refine .bind get fun t => ?_
  split
  · exact .pure _
  · split
    · exact .throw _
    · refine onSymbols fun {s id s'} h {j id'} hj => ?_
      unfold Symbols.enterScope at h
      split at h
      · cases h
        exact hj
      · rename_i hnone
        split at h
        · cases h
        · split at h <;> cases h
          have hne : i ≠ j := by
            rintro rfl
            rw [hnone] at hj
            cases hj
          simpa [Symbols.scopeId?, Std.TreeMap.getElem?_insert, hne] using hj

theorem allocScratch (c : FunctionContext) : Owns B (StackLang.allocScratch c) := by
  refine .bind get fun t => .bind (numberScope _ _) fun id => onSymbols fun {s a s'} h {j id'} hj => ?_
  unfold Symbols.allocScratch at h
  split at h
  · cases h
  · split at h <;> cases h
    exact hj

theorem resolveVar (p : Program) (name : String) : Owns B (CompileM.resolveVar p name) := by
  refine .bind get fun t => ?_
  split
  · exact .pure _
  · exact .throw _

theorem intern (text : String) : Owns B (CompileM.intern text) := by
  refine ⟨fun {t a t'} h => ?_⟩
  unfold CompileM.intern Executable.intern at h
  dsimp only at h
  split at h
  · rename_i id exe heq
    cases h
    cases (Prod.ext_iff.mp heq).2
    exact ⟨fun hi => hi, .inl, .intern text .refl⟩
  · cases h

theorem strings_addNative (e : Executable) (n : NativeDecl) : (e.addNative n).2.strings = e.strings := by
  unfold Executable.addNative
  dsimp only
  split
  · split <;> rfl
  · rfl

theorem internNative (n : NativeDecl) : Owns B (CompileM.internNative n) := by
  refine ⟨fun {t a t'} h => ?_⟩
  unfold CompileM.internNative at h
  obtain ⟨_, _, hget, h⟩ := bind_ok h
  cases hget
  have hstrings := strings_addNative t.exe n
  generalize t.exe.addNative n = added at h hstrings
  obtain ⟨_ | id, exe⟩ := added
  · cases h
  · cases h
    exact ⟨fun hi => hi, .inl, hstrings ▸ .refl⟩

theorem resolveFunction (c : FunctionContext) (name : String) :
    Owns B (StackLang.resolveFunction c name) := by
  refine .bind get fun t => ?_
  split
  · exact .throw _
  · split
    · exact .throw _
    · exact .pure _

theorem scopeId?_of_numberScope {p : Program} {i : ScopeIndex} {id : UInt16}
    {t t' : Compilation} (h : CompileM.numberScope p i t = .ok (id, t')) :
    t'.symbols.scopeId? i = some id := by
  unfold CompileM.numberScope at h
  obtain ⟨_, _, hg, h⟩ := bind_ok h
  cases hg
  cases hid : t.symbols.scopeId? i with
  | some id' =>
    rw [hid] at h
    cases h
    exact hid
  | none =>
    rw [hid] at h
    cases hscope : p.scope? i with
    | none => rw [hscope] at h; cases h
    | some scope =>
      rw [hscope] at h
      obtain ⟨symbols, hs, rfl⟩ := onSymbols_ok h
      unfold Symbols.enterScope at hs
      split at hs
      · rename_i hid
        cases hs
        exact hid
      · split at hs
        · cases hs
        · split at hs <;> cases hs
          simp [Symbols.scopeId?]

theorem enterBlock {c : FunctionContext} {i : ScopeIndex} (hi : B i) :
    Owns B (StackLang.enterBlock c i) := by
  refine ⟨fun {t a t'} h => ?_⟩
  unfold StackLang.enterBlock at h
  obtain ⟨id, t₁, hn, h⟩ := bind_ok h
  have h₁ : t.Adds B t₁ := (numberScope c.source i).adds hn
  have hid := scopeId?_of_numberScope hn
  cases h
  refine ⟨h₁.numbered, fun {id'} hmem => ?_, h₁.strings⟩
  dsimp only at hmem
  split at hmem
  · exact h₁.owned hmem
  · rcases List.mem_append.mp hmem with hmem | hmem
    · exact h₁.owned hmem
    · obtain rfl := List.mem_singleton.mp hmem
      exact .inr ⟨i, hi, hid⟩

theorem leaveBlock (outer : ScopeIndex) : Owns B (StackLang.leaveBlock outer) :=
  of_same fun h => by cases h; exact ⟨rfl, rfl, rfl⟩

/-- Entering a block is the only step that gives the frame a scope. -/
theorem carries (c : FunctionContext) (B : ScopeIndex → Prop) : Carries c B fun _ _ m => Owns B m where
  pure := pure
  throw := throw
  bind := bind
  write := write
  types hf := bind get fun _ => hf _
  setTypes _ := of_same fun h => by cases h; exact ⟨rfl, rfl, rfl⟩
  intern := intern
  internNative := internNative
  resolveVar := resolveVar c.source
  resolveFunction := resolveFunction c
  allocScratch := allocScratch c
  block hscope hm := bind (enterBlock hscope) fun outer => bind hm fun _ => leaveBlock outer

end Owns

end CompileM

open CompileM

/-- **The scopes in the frame of a function** are those that the tree gives it. -/
theorem owned_of_functionCode {c : FunctionContext} {t₀ t₁ : Compilation} {code : Code}
    (hf : FunctionCode c t₀ t₁ code) {id : UInt16} (hid : id ∈ t₁.owned) :
    ∃ i ∈ c.function.frameScopes, t₁.symbols.scopeId? i = some id := by
  obtain ⟨t, u, t', hok, hsymbols, howned, hsymbols', howned'⟩ := hf.statements
  have hscopes : ∀ i ∈ Node.allScopes c.function.body.statements, i ∈ c.function.frameScopes :=
    fun i hi => FunctionDecl.mem_frameScopes.mpr
      (.inl (c.function.body.scopes_eq ▸ List.mem_cons_of_mem _ hi))
  have hbody := c.function.body_mem_frameScopes
  have hadds : t.Adds (· ∈ c.function.frameScopes) t' :=
    ((Owns.carries c _).compileStatements c.function.body.scope _ hscopes).adds hok
  rcases hadds.owned (howned' ▸ hid) with hid | ⟨i, hi, hnumber⟩
  · rw [howned] at hid
    have hkept : ∀ {i : ScopeIndex} {id : UInt16}, t₀.symbols.scopeId? i = some id →
        t₁.symbols.scopeId? i = some id := hf.grows.symbols.scopeIds
    have hfirst := hf.owned
    generalize t₀.owned = first at hid hfirst
    rcases hfirst with ⟨-, hscope⟩ | ⟨hname, hroot, hscope⟩
    · obtain rfl := List.mem_singleton.mp hid
      exact ⟨_, hbody, hkept hscope⟩
    · rcases List.mem_cons.mp hid with rfl | hid
      · exact ⟨_, FunctionDecl.mem_frameScopes.mpr (.inr ⟨hname, rfl⟩), hkept hroot⟩
      · obtain rfl := List.mem_singleton.mp hid
        exact ⟨_, hbody, hkept hscope⟩
  · exact ⟨i, hi, hsymbols' ▸ hnumber⟩

/-! ## Phrases -/

namespace Phrase

/-- The scopes of the blocks inside a phrase. -/
def scopes : Phrase → List ScopeIndex
  | expr node | stmt node => node.scopes
  | args nodes | stmts nodes | operands nodes => Node.allScopes nodes
  | block body => body.scopes

end Phrase

/-- The code of a phrase has entered all blocks inside it. -/
theorem Emitted.block {g : Site} {sc : ScopeIndex} {phrase : Phrase} {a b : Nat} {types : List Ty}
    (h : Emitted g sc phrase a types b) : ∀ x ∈ phrase.scopes, g.block x := by
  induction h with
  | int | double | string | load | argsNil | ret | native | operandsNil | stmtsNil =>
    exact List.forall_mem_nil _
  | binary _ _ _ ihright ihleft =>
    simp only [Phrase.scopes, Node.scopes, List.forall_mem_append]
    exact ⟨ihleft, ihright⟩
  | unary _ _ _ ih | call _ _ _ _ ih | assign _ _ _ _ ih | update _ _ _ _ _ _ ih | inner _ ih
  | retValue _ _ _ ih | print _ ih =>
    simp only [Phrase.scopes, Node.scopes]
    exact ih
  | drop _ _ ih => exact ih
  | argsCons _ _ _ _ ihargs iharg =>
    simp only [Phrase.scopes, Node.allScopes, List.forall_mem_append]
    exact ⟨iharg, ihargs⟩
  | ifThen _ _ _ ihcond ihthen =>
    simp only [Phrase.scopes, Node.scopes, List.forall_mem_append]
    exact ⟨ihcond, ihthen⟩
  | ifElse _ _ _ _ _ ihcond ihthen ihelse =>
    simp only [Phrase.scopes, Node.scopes, List.forall_mem_append]
    exact ⟨⟨ihcond, ihthen⟩, ihelse⟩
  | whileLoop _ _ _ _ ihcond ihbody =>
    simp only [Phrase.scopes, Node.scopes, List.forall_mem_append]
    exact ⟨ihcond, ihbody⟩
  | forLoop _ _ _ _ _ _ _ _ _ _ _ _ _ _ ihupper ihlower ihbody =>
    simp only [Phrase.scopes, Node.scopes, List.forall_mem_append]
    exact ⟨⟨ihlower, ihupper⟩, ihbody⟩
  | operandsCons _ _ _ ihoperand ihoperands =>
    simp only [Phrase.scopes, Node.allScopes, List.forall_mem_append]
    exact ⟨ihoperand, ihoperands⟩
  | blockMk hin _ ih =>
    simp only [Phrase.scopes, Block.scopes, List.forall_mem_cons]
    exact ⟨hin, ih⟩
  | stmtsCons _ _ ihs ih =>
    simp only [Phrase.scopes, Node.allScopes, List.forall_mem_append]
    exact ⟨ihs, ih⟩

/-- **Every scope that the tree gives a function is in its frame.** -/
theorem FunctionCode.block {c : FunctionContext} {t₀ t₁ : Compilation} {code : Code}
    (h : FunctionCode c t₀ t₁ code) : ∀ x ∈ c.function.frameScopes, (Site.of c t₀ t₁).block x := by
  have hfirst : ∀ {x id}, t₀.symbols.scopeId? x = some id → id ∈ t₀.owned →
      (Site.of c t₀ t₁).block x :=
    fun hid hmem => ⟨_, h.grows.symbols.scopeIds hid, h.grows.owned _ hmem⟩
  obtain ⟨_, m₁, m₂, -, -, -, hbody, -⟩ := h.emitted
  have howned := h.owned
  intro x hx
  rw [FunctionDecl.mem_frameScopes, Block.scopes_eq, List.mem_cons] at hx
  rcases hx with (rfl | hx) | ⟨hname, rfl⟩
  · generalize t₀.owned = owned at howned hfirst
    rcases howned with ⟨-, hscope⟩ | ⟨-, -, hscope⟩
    · exact hfirst hscope List.mem_cons_self
    · exact hfirst hscope (by simp)
  · exact hbody.block x hx
  · generalize t₀.owned = owned at howned hfirst
    rcases howned with ⟨hname', -⟩ | ⟨-, hroot, -⟩
    · exact absurd hname hname'
    · exact hfirst hroot List.mem_cons_self

end StackLang
