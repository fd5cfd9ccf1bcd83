import StackLang.Compile
import StackLang.Proofs.Compile.Nodes

/-!
# The code of functions

`compileFunction_ok`: a function that compiles has code that takes the parameters from the stack,
goes on with the statements of the body as `Emitted` says, and ends with a return or, in `<top>`,
with a stop. `FunctionCode` keeps what the rest of the program may change: only where the
compilation of the function began and ended.
-/

namespace StackLang

open CompileM

/-- What holds between two functions. The code and the types are then left over from the last. -/
structure Compilation.Tables (p : Program) (t : Compilation) : Prop where
  strings : t.exe.strings.Faithful
  symbols : t.symbols.Sound p

/-- What the code of a function refers to, with nothing forgotten of its compilation. -/
def Site.of (c : FunctionContext) (t₀ t₁ : Compilation) : Site where
  code := ⟨t₁.code.bytes⟩
  result := c.function.result
  strict := c.strict
  var sc name info := ∃ t : Compilation, t₀.Grows c.source t ∧ t.Grows c.source t₁ ∧
    t.symbols.lookupVar? c.source sc name = some info
  function sc name id r := ∃ t : Compilation, t₀.Grows c.source t ∧
    t.symbols.lookupFunction? c.source sc name = some id ∧ t.exe.routine? id = some r
  text s id := t₁.exe.strings.get? id = some s
  host n id := t₁.exe.native? id = some n
  hidden sc addr := ∃ scope, c.source.scope? sc = some scope ∧
    t₁.symbols.scopeId? sc = some addr.scope ∧ scope.vars.size ≤ addr.slot.toNat ∧
    addr.slot.toNat < t₁.symbols.scopeSize addr.scope
  block sc := ∃ id, t₁.symbols.scopeId? sc = some id ∧ id ∈ t₁.owned
  params := c.function.params

theorem Site.fits_of {c : FunctionContext} {t₀ t₁ : Compilation} (h : t₁.code.Complete) :
    (Site.of c t₀ t₁).Fits c t₀ t₁ where
  code := rfl
  complete := h
  result := rfl
  strict := rfl
  params := rfl
  var h₀ h₁ hlook := ⟨_, h₀, h₁, hlook⟩
  function h₀ hlook hr := ⟨_, h₀, hlook, hr⟩
  text h := h
  host h := h
  hidden hscope hid hle _ hlt := ⟨_, hscope, hid, hle, hlt⟩
  block hid hmem := ⟨_, hid, hmem⟩

/-- The instruction that ends the code of a function. -/
def FunctionDecl.lastOp (f : FunctionDecl) : Opcode :=
  if f.name = Program.topName then .stop else .ret

/-- The scopes whose variables live in the frame of a function when its code begins. -/
inductive OwnedFirst (s : Symbols) (f : FunctionDecl) : List UInt16 → Prop
  | plain {scope : UInt16} (hname : f.name ≠ Program.topName)
      (h : s.scopeId? f.body.scope = some scope) : OwnedFirst s f [scope]
  | top {root scope : UInt16} (hname : f.name = Program.topName)
      (hroot : s.scopeId? Program.root = some root) (h : s.scopeId? f.body.scope = some scope) :
      OwnedFirst s f [root, scope]

theorem OwnedFirst.mem_body {s : Symbols} {f : FunctionDecl} {owned : List UInt16} {id : UInt16}
    (h : OwnedFirst s f owned) (hid : s.scopeId? f.body.scope = some id) : id ∈ owned := by
  cases h with
  | plain _ h =>
    obtain rfl := Option.some.inj (hid.symm.trans h)
    exact List.mem_cons_self
  | top _ _ h =>
    obtain rfl := Option.some.inj (hid.symm.trans h)
    exact List.mem_cons_of_mem _ List.mem_cons_self

/-- The code of a function, begun in `t₀` and finished in `t₁`. -/
structure FunctionCode (c : FunctionContext) (t₀ t₁ : Compilation) (code : Code) : Prop where
  begun : t₀.code = {}
  grows : t₀.Grows c.source t₁
  owned : OwnedFirst t₀.symbols c.function t₀.owned
  finished : t₁.code.finish = .ok code
  statements : ∃ t u t', compileStatements c c.function.body.statements t = .ok (u, t') ∧
    t.symbols = t₀.symbols ∧ t.owned = t₀.owned ∧ t'.symbols = t₁.symbols ∧ t'.owned = t₁.owned
  emitted : ∃ infos m₁ m₂, infos.length = c.function.params.length ∧
    (∀ x ∈ c.function.params.zip infos,
      (Site.of c t₀ t₁).var c.function.body.scope x.1.name x.2) ∧
    (Site.of c t₀ t₁).code.Line 0
      (infos.map storeInstr) m₁ ∧
    Emitted (Site.of c t₀ t₁) c.function.body.scope (.stmts c.function.body.statements) m₁ [] m₂ ∧
    (Site.of c t₀ t₁).code.Line m₂ [(c.function.lastOp, .none)] (Site.of c t₀ t₁).code.size

theorem FunctionCode.code_eq {c : FunctionContext} {t₀ t₁ : Compilation} {code : Code}
    (h : FunctionCode c t₀ t₁ code) : (Site.of c t₀ t₁).code = code :=
  (Builder.complete_of_finish h.finished).2.symm

namespace ProgramM

variable {c : FunctionContext} {t t' : Compilation}

/-- The state in which the code of a function begins. -/
theorem openFunction_ok {scope : UInt16} (ht : t.Tables c.source)
    (h : openFunction c t = .ok (scope, t')) :
    t'.code = {} ∧ t'.types = [] ∧ t'.scope = c.function.body.scope ∧ t'.exe = t.exe ∧
      t'.Sound c.source ∧ t.symbols.Extends c.source t'.symbols ∧
      t'.symbols.functions = t.symbols.functions ∧
      t'.symbols.scopeId? c.function.body.scope = some scope ∧
      OwnedFirst t'.symbols c.function t'.owned := by
  unfold openFunction at h
  obtain ⟨scope', t₁, hn, h⟩ := bind_ok h
  obtain ⟨s₁, rfl, hext₁, hf₁, hid₁⟩ := extends_numberScope ht.symbols hn
  have hsound : ∀ {s : Symbols} {owned : List UInt16}, s.Sound c.source →
      (∀ id ∈ owned, id.toNat < s.scopeCount) →
      Compilation.Sound c.source { t with
        symbols := s, code := {}, types := [], owned, scope := c.function.body.scope } :=
    fun hs hlt => ⟨Builder.sound_empty, ht.strings, hs, hlt⟩
  have hlt : ∀ {s : Symbols} {i : ScopeIndex} {id : UInt16}, s.Sound c.source →
      s.scopeId? i = some id → id.toNat < s.scopeCount := by
    intro s i id hs hid
    obtain ⟨_, _, hlt, -⟩ := hs.numbered hid
    exact hlt
  by_cases hname : c.function.name = Program.topName
  · simp only [if_pos hname] at h
    obtain ⟨root, _, hr, h⟩ := bind_ok h
    obtain ⟨s₂, rfl, hext₂, hf₂, hid₂⟩ := extends_numberScope hext₁.after hr
    cases h
    have hid := hext₂.scopeIds hid₁
    refine ⟨rfl, rfl, rfl, rfl, hsound hext₂.after ?_, hext₁.trans hext₂, hf₂.trans hf₁, hid,
      .top hname hid₂ hid⟩
    simp only [List.mem_cons, List.not_mem_nil, or_false]
    rintro id (rfl | rfl)
    · exact hlt hext₂.after hid₂
    · exact hlt hext₂.after hid
  · simp only [if_neg hname] at h
    cases h
    refine ⟨rfl, rfl, rfl, rfl, hsound hext₁.after ?_, hext₁, hf₁, hid₁,
      .plain hname hid₁⟩
    simp only [List.mem_singleton]
    rintro id rfl
    exact hlt hext₁.after hid₁

/-- The code of a function can begin once its scopes have numbers. -/
theorem openFunction_eq {id root : UInt16} (hid : t.symbols.scopeId? c.function.body.scope = some id)
    (hroot : t.symbols.scopeId? Program.root = some root) :
    openFunction c t = .ok (id, { t with
      code := {}, types := [],
      owned := if c.function.name = Program.topName then [root, id] else [id],
      scope := c.function.body.scope }) := by
  unfold openFunction
  simp only [bind, StateT.bind, Except.bind, numberScope_eq hid]
  split_ifs with hname
  · simp only [StateT.bind, bind, Except.bind, numberScope_eq hroot]
    rfl
  · rfl

theorem storeParams_ok {ps : List VarDecl} {u : Unit}
    (hs : t.Sound c.source) (h : storeParams c.source ps t = .ok (u, t')) :
    ∃ infos code, infos.length = ps.length ∧
      (∀ x ∈ ps.zip infos, t.symbols.lookupVar? c.source t.scope x.1.name = some x.2) ∧
      t.code.Emits (infos.map storeInstr) code ∧
      t' = { t with code } := by
  unfold storeParams at h
  induction ps generalizing t with
  | nil =>
    obtain ⟨-, rfl⟩ := pure_ok h
    exact ⟨[], t.code, rfl, nofun, .nil hs.code, rfl⟩
  | cons param ps ih =>
    obtain ⟨_, _, hstore, h⟩ := bind_ok h
    obtain ⟨info, _, hr, hstore⟩ := bind_ok hstore
    obtain ⟨hlook, rfl⟩ := resolveVar_ok hr
    obtain ⟨c₁, h₁, rfl⟩ := storeVar_ok hs.code hstore
    obtain ⟨infos, c₂, hlen, hvars, h₂, rfl⟩ :=
      ih (Compilation.Grows.of_code hs h₁.grows t.types t.scope).after h
    refine ⟨info :: infos, c₂, by simp [hlen], fun x hx => ?_, h₁.append h₂, rfl⟩
    rcases List.mem_cons.mp hx with rfl | hx
    · exact hlook
    · exact hvars x hx

theorem closeFunction_ok {id scope : UInt16} {u : Unit}
    (h : closeFunction id scope t = .ok (u, t')) :
    ∃ code, t.code.finish = .ok code ∧
      t' = { t with exe := t.exe.modifyRoutine id fun r =>
        { r with scope, locals := (layOut t.symbols t.owned).2,
                 layout := (layOut t.symbols t.owned).1, code } } := by
  unfold closeFunction at h
  obtain ⟨_, _, hg, h⟩ := bind_ok h
  cases hg
  cases hf : t.code.finish with
  | error e =>
    rw [hf] at h
    cases h
  | ok code =>
    rw [hf] at h
    cases h
    exact ⟨code, rfl, rfl⟩

/-- What the compilation of a function has made of a compilation. -/
structure Compiles (c : FunctionContext) (id : UInt16) (t t₀ t₁ t' : Compilation)
    (scope : UInt16) (code : Code) : Prop where
  function : FunctionCode c t₀ t₁ code
  before : t₀.exe = t.exe
  symbols : t.symbols.Extends c.source t₀.symbols
  functions : t₀.symbols.functions = t.symbols.functions
  numbered : t₁.symbols.scopeId? c.function.body.scope = some scope
  after : t'.symbols = t₁.symbols
  exe : t'.exe = t₁.exe.modifyRoutine id fun r =>
    { r with scope, locals := (layOut t₁.symbols t₁.owned).2,
             layout := (layOut t₁.symbols t₁.owned).1, code }
  /-- Each loop of the function has its code, and a slot of its own. -/
  loops : ∃ ls, List.Forall₂ (ForLoop.CodeAt (Site.of c t₀ t₁)) c.function.body.loops ls ∧
    t₀.symbols.AddsSlots (ls.map (·.limit)) t₁.symbols

/-- **The code of a function that compiles.** -/
theorem compileFunction_ok {id : UInt16} {u : Unit}
    (ht : t.Tables c.source) (h : compileFunction c id t = .ok (u, t')) :
    ∃ t₀ t₁ scope code, Compiles c id t t₀ t₁ t' scope code := by
  unfold compileFunction at h
  obtain ⟨scope, t₀, ho, h⟩ := bind_ok h
  obtain ⟨hcode, htypes, hscope, hexe, hs, hext, hfun, hid, howned⟩ := openFunction_ok ht ho
  obtain ⟨_, _, hst, h⟩ := bind_ok h
  obtain ⟨infos, c₁, hlen, hvars, h₁, rfl⟩ := storeParams_ok hs hst
  have g₁ := Compilation.Grows.of_code hs h₁.grows t₀.types t₀.scope
  obtain ⟨_, t₂, hb, h⟩ := bind_ok h
  have s₂ := compileStatements_spec c.function.body.statements g₁.after hb
  obtain ⟨_, _, hl, h⟩ := bind_ok h
  have hkind : c.function.lastOp.operandKind = .none := by
    unfold FunctionDecl.lastOp
    split <;> rfl
  obtain ⟨c₃, h₃, rfl⟩ := emit_ok s₂.grows.after.code hkind hl
  have g₃ := Compilation.Grows.of_code s₂.grows.after h₃.grows t₂.types t₂.scope
  obtain ⟨code, hfinish, rfl⟩ := closeFunction_ok h
  have hgrows := (g₁.trans s₂.grows).trans g₃
  have hcomplete := (Builder.complete_of_finish hfinish).1
  have hfits : (Site.of c t₀ _).Fits c t₀ _ := Site.fits_of hcomplete
  refine ⟨t₀, _, scope, code, ⟨hcode, hgrows, howned, hfinish,
    ⟨_, _, t₂, hb, rfl, rfl, rfl, rfl⟩, infos, c₁.position,
    t₂.code.position, hlen, fun x hx => ?_, ?_, ?_, ?_⟩, hexe, hext, hfun,
    hgrows.symbols.scopeIds hid, rfl, rfl, ?_⟩
  · exact ⟨t₀, .refl hs, hgrows, hscope ▸ hvars x hx⟩
  · have hline := h₁.line (s₂.grows.trans g₃).code
    rwa [hcode] at hline
  · have hemitted := s₂.code htypes hfits g₁ g₃
    rwa [hscope] at hemitted
  · exact h₃.line (.refl h₃.grows.after)
  · obtain ⟨limits, hlimits, hcodes⟩ := (s₂.loops htypes hscope).within g₁ g₃
    obtain ⟨ls, hls, rfl⟩ := hcodes hfits (.refl hs) (.refl g₃.after)
      ⟨scope, hgrows.symbols.scopeIds hid, hgrows.owned scope (howned.mem_body hid)⟩
    refine ⟨ls, ?_, hlimits⟩
    generalize c.function.body = body at hls ⊢
    cases body
    exact hls

end ProgramM

end StackLang
