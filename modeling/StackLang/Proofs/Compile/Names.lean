import StackLang.Proofs.Compile.Scopes
import StackLang.Proofs.Compile.Walk

/-!
# Names while a function is compiled

Once all scopes of a function have numbers, its compilation leaves the names alone, and it would do
the same with any other tables that mean the same by every name inside the function
(`settled_compileFunction`). So whatever the tables hold of other scopes by then makes no difference.
-/

namespace StackLang

open CompileM

namespace Compilation

/-- Scopes have the same numbers, and they declare the same. -/
structure SameNames (t t' : Compilation) : Prop where
  scopeIds : t'.symbols.scopeIds = t.symbols.scopeIds
  count : t'.symbols.scopeCount = t.symbols.scopeCount
  vars : t'.symbols.vars = t.symbols.vars
  functions : t'.symbols.functions = t.symbols.functions

theorem SameNames.refl (t : Compilation) : t.SameNames t := ⟨rfl, rfl, rfl, rfl⟩

theorem SameNames.trans {t t' t'' : Compilation} (h : t.SameNames t') (h' : t'.SameNames t'') :
    t.SameNames t'' :=
  ⟨h'.scopeIds.trans h.scopeIds, h'.count.trans h.count, h'.vars.trans h.vars,
    h'.functions.trans h.functions⟩

/-- The compilation, with names taken from other symbols. -/
def named (t : Compilation) (s : Symbols) : Compilation :=
  { t with symbols := { t.symbols with vars := s.vars, functions := s.functions } }

@[simp] theorem named_exe (t : Compilation) (s : Symbols) : (t.named s).exe = t.exe := rfl

@[simp] theorem named_scope (t : Compilation) (s : Symbols) : (t.named s).scope = t.scope := rfl

/-- Inside the scopes in `B`, which have numbers, other symbols mean the same by every name. -/
structure Agrees (p : Program) (B : ScopeIndex → Prop) (t : Compilation) (s : Symbols) : Prop where
  numbered : ∀ {sc}, B sc → ∃ id, t.symbols.scopeId? sc = some id
  var : ∀ {sc}, B sc → ∀ name, s.lookupVar? p sc name = t.symbols.lookupVar? p sc name
  function : ∀ {sc}, B sc → ∀ name, s.lookupFunction? p sc name = t.symbols.lookupFunction? p sc name

/-- What a step comes to, with names taken from other symbols. -/
def namedResult {ε α : Type} (s : Symbols) :
    Except ε (α × Compilation) → Except ε (α × Compilation) :=
  Except.map fun r => (r.1, r.2.named s)

end Compilation

open Compilation

theorem CompileM.get_bind {α : Type} (f : Compilation → CompileM α) (t : Compilation) :
    (get >>= f) t = f t t := rfl

section Bind

variable {ε α β : Type} {m : StateT Compilation (Except ε) β} {f : β → StateT Compilation (Except ε) α}
  {t t' : Compilation}

/-- What a sequence of steps comes to, by the first of them. -/
theorem bind_of_ok {b : β} (h : m t = .ok (b, t')) : (m >>= f) t = f b t' := by
  change (m t >>= fun r => f r.1 r.2) = _
  rw [h]
  rfl

theorem bind_of_error {e : ε} (h : m t = .error e) : (m >>= f) t = .error e := by
  change (m t >>= fun r => f r.1 r.2) = _
  rw [h]
  rfl

end Bind

/-- A step inside of `sc` that leaves the names of `t₀` alone and would do the same with those of
`s`. -/
structure CompileM.Settled (t₀ : Compilation) (s : Symbols) (B : ScopeIndex → Prop)
    (sc : ScopeIndex) {α : Type} (m : CompileM α) : Prop where
  keeps : B sc → ∀ {t a t'}, t₀.SameNames t → t.scope = sc → m t = .ok (a, t') →
    t₀.SameNames t' ∧ t'.scope = sc
  same : B sc → ∀ {t}, t₀.SameNames t → t.scope = sc → m (t.named s) = namedResult s (m t)

namespace CompileM.Settled

variable {t₀ t : Compilation} {s : Symbols} {B : ScopeIndex → Prop} {sc : ScopeIndex} {α β : Type}
  {p : Program} {c : FunctionContext}

/-- A step that has nothing to do with symbols and scopes. -/
theorem of_apart {m : CompileM α}
    (hkeeps : ∀ {t a t'}, m t = .ok (a, t') → t'.symbols = t.symbols ∧ t'.scope = t.scope)
    (hsame : ∀ t, m (t.named s) = namedResult s (m t)) : Settled t₀ s B sc m := by
  refine ⟨fun _ {t a t'} h hsc hm => ?_, fun _ {t} _ _ => hsame t⟩
  obtain ⟨hsymbols, hscope⟩ := hkeeps hm
  exact ⟨h.trans ⟨by rw [hsymbols], by rw [hsymbols], by rw [hsymbols], by rw [hsymbols]⟩, hscope.trans hsc⟩

theorem pure (a : α) : Settled t₀ s B sc (Pure.pure a) :=
  of_apart (fun h => by cases h; exact ⟨rfl, rfl⟩) fun _ => rfl

theorem throw (cause : Cause) : Settled t₀ s B sc (MonadExcept.throw cause : CompileM α) :=
  of_apart (fun h => (nomatch h)) fun _ => rfl

theorem bind {m : CompileM β} {f : β → CompileM α} (hm : Settled t₀ s B sc m)
    (hf : ∀ b, Settled t₀ s B sc (f b)) : Settled t₀ s B sc (m >>= f) := by
  refine ⟨fun hB {t a t''} h hsc hok => ?_, fun hB {t} h hsc => ?_⟩
  · obtain ⟨b, t', hm', hf'⟩ := bind_ok hok
    obtain ⟨h', hsc'⟩ := hm.keeps hB h hsc hm'
    exact (hf b).keeps hB h' hsc' hf'
  · change (m (t.named s) >>= fun (b, t') => f b t') =
      namedResult s (m t >>= fun (b, t') => f b t')
    rw [hm.same hB h hsc]
    cases hm' : m t with
    | error e => rfl
    | ok r =>
      obtain ⟨h', hsc'⟩ := hm.keeps hB h hsc hm'
      exact (hf r.1).same hB h' hsc'

theorem write (step : Builder.Step α) : Settled t₀ s B sc (CompileM.write step) := by
  refine of_apart (fun h => ?_) fun t => ?_
  · obtain ⟨code, -, rfl⟩ := write_ok h
    exact ⟨rfl, rfl⟩
  · unfold CompileM.write
    dsimp only [named]
    cases step.run t.code <;> rfl

theorem intern (text : String) : Settled t₀ s B sc (CompileM.intern text) := by
  refine of_apart (fun {t a t'} h => ?_) fun t => ?_
  · unfold CompileM.intern at h
    dsimp only at h
    split at h <;> cases h
    exact ⟨rfl, rfl⟩
  · unfold CompileM.intern
    dsimp only [named]
    cases t.exe.intern text with
    | mk id? exe => cases id? <;> rfl

theorem internNative (n : NativeDecl) : Settled t₀ s B sc (CompileM.internNative n) := by
  refine of_apart (fun {t a t'} h => ?_) fun t => ?_
  · unfold CompileM.internNative at h
    obtain ⟨_, _, hget, h⟩ := bind_ok h
    cases hget
    generalize t.exe.addNative n = added at h
    obtain ⟨_ | id, exe⟩ := added <;> cases h
    exact ⟨rfl, rfl⟩
  · unfold CompileM.internNative
    rw [get_bind, get_bind, named_exe]
    obtain ⟨_ | id, exe⟩ := t.exe.addNative n <;> rfl

theorem resolveVar (ha : t₀.Agrees c.source B s) (name : String) :
    Settled t₀ s B sc (CompileM.resolveVar c.source name) := by
  refine ⟨fun _ {t info t'} h hsc hm => ?_, fun hB {t} h hsc => ?_⟩
  · obtain ⟨-, rfl⟩ := resolveVar_ok hm
    exact ⟨h, hsc⟩
  · have hlook : (t.named s).symbols.lookupVar? c.source sc name =
        t.symbols.lookupVar? c.source sc name := by
      have := ha.var hB name
      rw [Symbols.lookupVar?, Symbols.lookupVar?, ← h.vars] at this
      exact this
    unfold CompileM.resolveVar
    rw [get_bind, get_bind, named_scope, hsc, hlook]
    cases t.symbols.lookupVar? c.source sc name <;> rfl

theorem resolveFunction (ha : t₀.Agrees c.source B s) (name : String) :
    Settled t₀ s B sc (StackLang.resolveFunction c name) := by
  refine ⟨fun _ {t r t'} h hsc hm => ?_, fun hB {t} h hsc => ?_⟩
  · obtain ⟨id, callee⟩ := r
    obtain ⟨-, -, rfl⟩ := resolveFunction_ok hm
    exact ⟨h, hsc⟩
  · have hlook : (t.named s).symbols.lookupFunction? c.source sc name =
        t.symbols.lookupFunction? c.source sc name := by
      have := ha.function hB name
      rw [Symbols.lookupFunction?, Symbols.lookupFunction?, ← h.functions] at this
      exact this
    unfold StackLang.resolveFunction
    rw [get_bind, get_bind, named_scope, hsc, hlook]
    cases t.symbols.lookupFunction? c.source sc name with
    | none => rfl
    | some id =>
      dsimp only
      rw [named_exe]
      cases t.exe.routine? id <;> rfl

/-- Slots are counted, not named. -/
theorem onSymbols {f : Symbols → Except Cause (α × Symbols)}
    (hkeeps : ∀ {s₁ a s₂}, f s₁ = .ok (a, s₂) →
      s₂.scopeIds = s₁.scopeIds ∧ s₂.scopeCount = s₁.scopeCount ∧ s₂.vars = s₁.vars ∧
        s₂.functions = s₁.functions)
    (hsame : ∀ s₁ : Symbols, f { s₁ with vars := s.vars, functions := s.functions } =
      (f s₁).map fun r => (r.1, { r.2 with vars := s.vars, functions := s.functions })) :
    Settled t₀ s B sc (CompileM.onSymbols f) := by
  refine ⟨fun _ {t a t'} h hsc hm => ?_, fun _ {t} _ _ => ?_⟩
  · obtain ⟨symbols, hf, rfl⟩ := onSymbols_ok hm
    obtain ⟨hids, hcount, hvars, hfunctions⟩ := hkeeps hf
    exact ⟨h.trans ⟨hids, hcount, hvars, hfunctions⟩, hsc⟩
  · unfold CompileM.onSymbols
    dsimp only [named]
    rw [hsame]
    cases f t.symbols <;> rfl

theorem allocScratch (ha : t₀.Agrees c.source B s) : Settled t₀ s B sc (StackLang.allocScratch c) := by
  have hslot : ∀ id, Settled t₀ s B sc (CompileM.onSymbols (·.allocScratch id)) := by
    refine fun id => onSymbols (fun {s₁ a s₂} h => ?_) fun s₁ => ?_
    · unfold Symbols.allocScratch at h
      split at h
      · cases h
      · split at h <;> cases h
        exact ⟨rfl, Array.size_setIfInBounds, rfl, rfl⟩
    · unfold Symbols.allocScratch
      dsimp only
      cases s₁.sizes[id.toNat]? with
      | none => rfl
      | some size =>
        dsimp only
        split <;> rfl
  have hnumber : ∀ {t}, B sc → t₀.SameNames t → t.scope = sc → ∃ id,
      StackLang.allocScratch c t = CompileM.onSymbols (·.allocScratch id) t ∧
        StackLang.allocScratch c (t.named s) = CompileM.onSymbols (·.allocScratch id) (t.named s) := by
    intro t hB h hsc
    obtain ⟨id, hid⟩ := ha.numbered hB
    have hid' : t.symbols.scopeId? t.scope = some id := by
      rwa [hsc, Symbols.scopeId?, h.scopeIds]
    have hid'' : (t.named s).symbols.scopeId? (t.named s).scope = some id := hid'
    have halloc : ∀ t : Compilation, StackLang.allocScratch c t = (numberScope c.source t.scope >>=
        fun id => CompileM.onSymbols (·.allocScratch id)) t := fun _ => rfl
    exact ⟨id, (halloc _).trans (bind_of_ok (numberScope_eq hid')),
      (halloc _).trans (bind_of_ok (numberScope_eq hid''))⟩
  refine ⟨fun hB {t a t'} h hsc hm => ?_, fun hB {t} h hsc => ?_⟩ <;>
    obtain ⟨id, heq, heq'⟩ := hnumber hB h hsc
  · exact (hslot id).keeps hB h hsc (heq ▸ hm)
  · rw [heq, heq']
    exact (hslot id).same hB h hsc

/-- A block begins and ends in the scope around it. -/
theorem block {scope : ScopeIndex} {m : CompileM Unit} (ha : t₀.Agrees c.source B s) (hB : B scope)
    (hm : Settled t₀ s B scope m) :
    Settled t₀ s B sc (enterBlock c scope >>= fun outer => m >>= fun _ => leaveBlock outer) := by
  obtain ⟨id, hid⟩ := ha.numbered hB
  -- Where the names are those of `t₀`, the scope has its number, so entering it adds to the frame only.
  have henter : ∀ t : Compilation, t.symbols.scopeIds = t₀.symbols.scopeIds →
      (enterBlock c scope >>= fun outer => m >>= fun _ => leaveBlock outer) t =
        (m >>= fun _ => leaveBlock t.scope) { t with
          owned := if id ∈ t.owned then t.owned else t.owned ++ [id], scope } := by
    intro t hids
    have hid' : t.symbols.scopeId? scope = some id := by rwa [Symbols.scopeId?, hids]
    refine bind_of_ok ?_
    unfold enterBlock
    rw [bind_of_ok (numberScope_eq hid')]
    rfl
  refine ⟨fun _ {t a t'} h hsc hok => ?_, fun _ {t} h hsc => ?_⟩
  · rw [henter t h.scopeIds] at hok
    obtain ⟨_, t₁, hm', hok⟩ := bind_ok hok
    cases hok
    obtain ⟨h₁, -⟩ := hm.keeps hB (t := { t with
      owned := if id ∈ t.owned then t.owned else t.owned ++ [id], scope })
      ⟨h.scopeIds, h.count, h.vars, h.functions⟩ rfl hm'
    exact ⟨⟨h₁.scopeIds, h₁.count, h₁.vars, h₁.functions⟩, hsc⟩
  · rw [henter t h.scopeIds, henter (t.named s) h.scopeIds]
    have hsame := hm.same hB (t := { t with
      owned := if id ∈ t.owned then t.owned else t.owned ++ [id], scope })
      ⟨h.scopeIds, h.count, h.vars, h.functions⟩ rfl
    cases hm' : m { t with owned := if id ∈ t.owned then t.owned else t.owned ++ [id], scope } with
    | error e =>
      rw [hm'] at hsame
      rw [bind_of_error hm']
      exact bind_of_error hsame
    | ok r =>
      rw [hm'] at hsame
      rw [bind_of_ok hm']
      exact bind_of_ok hsame

/-- **No step but that into a new scope has to do with what other scopes declare.** -/
theorem carries (ha : t₀.Agrees c.source B s) :
    Carries c B fun sc _ m => Settled t₀ s B sc m where
  pure := pure
  throw := throw
  bind := bind
  write := write
  types {sc α f} hf := by
    refine ⟨fun hB {t a t'} h hsc hm => ?_, fun hB {t} h hsc => ?_⟩
    · exact (hf t.types).keeps hB h hsc hm
    · exact (hf t.types).same hB h hsc
  setTypes f := of_apart (fun h => by cases h; exact ⟨rfl, rfl⟩) fun _ => rfl
  intern := intern
  internNative := internNative
  resolveVar := resolveVar ha
  resolveFunction := resolveFunction ha
  allocScratch := allocScratch ha
  block := block ha

/-- The layout of a frame depends on how many slots there are. -/
theorem closeFunction (id scope : UInt16) : Settled t₀ s B sc (ProgramM.closeFunction id scope) := by
  refine of_apart (fun h => ?_) fun t => ?_
  · obtain ⟨code, -, rfl⟩ := ProgramM.closeFunction_ok h
    exact ⟨rfl, rfl⟩
  · unfold ProgramM.closeFunction
    rw [get_bind, get_bind]
    have hcode : (t.named s).code.finish = t.code.finish := rfl
    rw [hcode]
    cases t.code.finish <;> rfl

end CompileM.Settled

/-- **The compilation of a function** whose scopes have numbers leaves the names alone and would be the
same with any tables that mean the same by the names inside the function. -/
theorem settled_compileFunction {c : FunctionContext} {B : ScopeIndex → Prop} {t : Compilation}
    {s : Symbols} {root : UInt16} (ha : t.Agrees c.source B s) (hB : ∀ i ∈ c.function.body.scopes, B i)
    (hroot : t.symbols.scopeId? Program.root = some root) (id : UInt16) :
    (∀ {u t'}, ProgramM.compileFunction c id t = .ok (u, t') → t.SameNames t') ∧
      ProgramM.compileFunction c id (t.named s) =
        namedResult s (ProgramM.compileFunction c id t) := by
  rw [Block.scopes_eq, List.forall_mem_cons] at hB
  obtain ⟨scope, hscope⟩ := ha.numbered hB.1
  have hsteps := CompileM.Settled.carries ha
  have hrest : Settled t s B c.function.body.scope (do
      ProgramM.storeParams c.source c.function.params
      compileStatements c c.function.body.statements
      emit (if c.function.name = Program.topName then .stop else .ret)
      ProgramM.closeFunction id scope) :=
    .bind (hsteps.storeParams _ _) fun _ => .bind (hsteps.compileStatements _ _ hB.2) fun _ =>
      .bind (.write _) fun _ => .closeFunction _ _
  have hopen := ProgramM.openFunction_eq (c := c) hscope hroot
  have hopen' := ProgramM.openFunction_eq (c := c) (t := t.named s) hscope hroot
  have hnames : t.SameNames { t with
      code := {}, types := [],
      owned := if c.function.name = Program.topName then [root, scope] else [scope],
      scope := c.function.body.scope } := ⟨rfl, rfl, rfl, rfl⟩
  refine ⟨fun {u t'} h => ?_, ?_⟩
  · unfold ProgramM.compileFunction at h
    rw [bind_of_ok hopen] at h
    obtain ⟨⟨hids, hcount, hvars, hfunctions⟩, -⟩ := hrest.keeps hB.1 hnames rfl h
    exact ⟨hids, hcount, hvars, hfunctions⟩
  · unfold ProgramM.compileFunction
    rw [bind_of_ok hopen, bind_of_ok hopen']
    exact hrest.same hB.1 hnames rfl

end StackLang
