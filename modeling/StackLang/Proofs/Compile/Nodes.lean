import StackLang.Proofs.Compile.ForLoops
import StackLang.Proofs.Compile.Operators
import StackLang.Proofs.Compile.Sweeps

/-!
# The code of nodes

`compileNode_spec`: a node that compiles adds to the compilation, leaves at most one type, and has
code as `Emitted` says, if it is an expression in operand position or stands where the stack is
empty. The types carry the argument: an operand that is no expression leaves one type too few, and
the statements of a body start with none, so nothing can make up for it.
-/

namespace StackLang

open CompileM

-- The equations of the compiler are made here, once, and not by the first of the proofs that use
-- them, while the others wait.
section
attribute [local simp] compileNode compileArgs compileOperands compileBlock compileStatements
end

/-- What the code of a function refers to is what its compilation, from `t₀` to `t₁`, has made of
the names and constants. -/
structure Site.Fits (g : Site) (c : FunctionContext) (t₀ t₁ : Compilation) : Prop where
  code : g.code = ⟨t₁.code.bytes⟩
  complete : t₁.code.Complete
  result : g.result = c.function.result
  strict : g.strict = c.strict
  params : g.params = c.function.params
  var : ∀ {t sc name info}, t₀.Grows c.source t → t.Grows c.source t₁ →
    t.symbols.lookupVar? c.source sc name = some info → g.var sc name info
  function : ∀ {t sc name id r}, t₀.Grows c.source t →
    t.symbols.lookupFunction? c.source sc name = some id → t.exe.routine? id = some r →
    g.function sc name id r
  text : ∀ {s id}, t₁.exe.strings.get? id = some s → g.text s id
  host : ∀ {n id}, t₁.exe.native? id = some n → g.host n id
  hidden : ∀ {sc addr scope}, c.source.scope? sc = some scope →
    t₁.symbols.scopeId? sc = some addr.scope → scope.vars.size ≤ addr.slot.toNat →
    t₀.symbols.scopeSize addr.scope ≤ addr.slot.toNat →
    addr.slot.toNat < t₁.symbols.scopeSize addr.scope → g.hidden sc addr
  block : ∀ {sc id}, t₁.symbols.scopeId? sc = some id → id ∈ t₁.owned → g.block sc

namespace Node

/-- The nodes that leave a value. -/
def isExpr : Node → Bool
  | int _ | double _ | string _ | load _ | binary .. | unary .. | call .. => true
  | _ => false

/-- How many types a node leaves at most. -/
def gain (n : Node) : Nat := if n.isExpr then 1 else 0

end Node

variable {c : FunctionContext} {t t' : Compilation}

/-- The code from `t` to `t'` is that of a phrase, whatever the function becomes later on. -/
def HasCode (c : FunctionContext) (phrase : Phrase) (types : List Ty) (t t' : Compilation) : Prop :=
  ∀ {g : Site} {t₀ t₁ : Compilation}, g.Fits c t₀ t₁ → t₀.Grows c.source t →
    t'.Grows c.source t₁ → Emitted g t.scope phrase t.code.position types t'.code.position

/-- From `t` to `t'` code has been made for these loops, which stand in the scope `sc`, and each has got a
slot of its own. -/
def MakesLoops (c : FunctionContext) (sc : ScopeIndex) (loops : List ForLoop)
    (t t' : Compilation) : Prop :=
  ∃ limits, t.symbols.AddsSlots limits t'.symbols ∧
    ∀ {g : Site} {t₀ t₁ : Compilation}, g.Fits c t₀ t₁ → t₀.Grows c.source t →
      t'.Grows c.source t₁ → g.block sc →
        ∃ ls, List.Forall₂ (ForLoop.CodeAt g) loops ls ∧ ls.map (·.limit) = limits

/-- What compiling a node does. -/
structure NodeSpec (c : FunctionContext) (n : Node) (t t' : Compilation) : Prop where
  grows : t.Grows c.source t'
  scope : t'.scope = t.scope
  bound : t'.types.length ≤ t.types.length + n.gain
  nonempty : n.isExpr = true → t'.types ≠ []
  expr : n.isExpr = true → t'.types.length = t.types.length + 1 →
    ∃ ty, t'.types = ty :: t.types ∧ HasCode c (.expr n) [ty] t t'
  stmt : n.isExpr = false → t.types = [] → HasCode c (.stmt n) [] t t'
  loops : n.isExpr = false → t.types = [] → MakesLoops c t.scope (n.loops t.scope) t t'

/-- What compiling some statements, the operands of a print or a block does. -/
structure BodySpec (c : FunctionContext) (phrase : Phrase) (t t' : Compilation) : Prop where
  grows : t.Grows c.source t'
  scope : t'.scope = t.scope
  bound : t'.types.length ≤ t.types.length
  code : t.types = [] → HasCode c phrase [] t t'
  loops : t.types = [] → ∀ {sc}, t.scope = sc → MakesLoops c sc (phrase.loops sc) t t'

/-- What compiling the arguments of a call does. -/
structure ArgsSpec (c : FunctionContext) (args : List Node) (tys : List Ty)
    (t t' : Compilation) : Prop where
  grows : t.Grows c.source t'
  scope : t'.scope = t.scope
  bound : t'.types.length ≤ t.types.length + args.length
  code : t'.types.length = t.types.length + args.length →
    t'.types = tys ++ t.types ∧ HasCode c (.args args) tys t t'

/-- A step that adds code and types, seen from the finished function. -/
theorem NodeSpec.of_line {n : Node} {line : List (Opcode × Operand)} {ty : Ty} {code : Builder}
    (hs : t.Sound c.source) (hn : n.isExpr = true) (h : t.code.Emits line code)
    (hcode : ∀ {g : Site} {t₀ t₁ : Compilation}, g.Fits c t₀ t₁ → t₀.Grows c.source t →
      { t with code, types := ty :: t.types }.Grows c.source t₁ →
      g.code.Line t.code.position line code.position →
        Emitted g t.scope (.expr n) t.code.position [ty] code.position) :
    NodeSpec c n t { t with code, types := ty :: t.types } := by
  refine ⟨.of_code hs h.grows _ _, rfl, by simp [Node.gain, hn], fun _ => nofun,
    fun _ _ => ⟨ty, rfl, fun {g t₀ t₁} hg h₀ h₁ => hcode hg h₀ h₁ ?_⟩,
    fun h => (nomatch hn.symm.trans h), fun h => nomatch hn.symm.trans h⟩
  rw [hg.code]
  exact h.line h₁.code

namespace MakesLoops

variable {sc : ScopeIndex} {loops loops' : List ForLoop} {t₁ t₂ : Compilation}

theorem none (hgrows : t.Grows c.source t')
    (h : ∀ {g : Site} {t₀ t₁ : Compilation}, g.Fits c t₀ t₁ → t₀.Grows c.source t →
      t'.Grows c.source t₁ → loops = []) : MakesLoops c sc loops t t' :=
  ⟨[], .none hgrows.symbols.size, fun hg h₀ h₁ _ => ⟨[], h hg h₀ h₁ ▸ .nil, rfl⟩⟩

/-- No loop stands where a value is needed. -/
theorem of_operands {phrase : Phrase} {types : List Ty} (hgrows : t.Grows c.source t')
    (hcode : HasCode c phrase types t t') (hphrase : phrase.isOperands = true) :
    MakesLoops c sc (phrase.loops t.scope) t t' :=
  none hgrows fun hg h₀ h₁ => (hcode hg h₀ h₁).loops_eq_nil hphrase

/-- Other steps come before and after. -/
theorem within (h : MakesLoops c sc loops t₁ t₂) (g₁ : t.Grows c.source t₁)
    (g₂ : t₂.Grows c.source t') : MakesLoops c sc loops t t' := by
  obtain ⟨limits, hlimits, hcode⟩ := h
  have hadds := (Symbols.AddsSlots.none g₁.symbols.size).append
    (hlimits.append (.none g₂.symbols.size))
  rw [List.append_nil, List.nil_append] at hadds
  exact ⟨limits, hadds, fun hg h₀ h₁ => hcode hg (h₀.trans g₁) (g₂.trans h₁)⟩

theorem append (h : MakesLoops c sc loops t t₁) (h' : MakesLoops c sc loops' t₁ t')
    (g₁ : t.Grows c.source t₁) (g₂ : t₁.Grows c.source t') :
    MakesLoops c sc (loops ++ loops') t t' := by
  obtain ⟨limits, hlimits, hcode⟩ := h
  obtain ⟨limits', hlimits', hcode'⟩ := h'
  refine ⟨limits ++ limits', hlimits.append hlimits', fun hg h₀ h₁ hsc => ?_⟩
  obtain ⟨ls, hls, heq⟩ := hcode hg h₀ (g₂.trans h₁) hsc
  obtain ⟨ls', hls', heq'⟩ := hcode' hg (h₀.trans g₁) h₁ hsc
  exact ⟨ls ++ ls', List.rel_append hls hls', by rw [List.map_append, heq, heq']⟩

/-- A loop gets its slot before those inside it. -/
theorem cons {loop : ForLoop} {limit : VarAddr} (h : t.symbols.AddsSlots [limit] t₁.symbols)
    (hcode : ∀ {g : Site} {t₀ t₂ : Compilation}, g.Fits c t₀ t₂ → t₀.Grows c.source t →
      t'.Grows c.source t₂ → g.block sc → ∃ l, loop.CodeAt g l ∧ l.limit = limit)
    (h' : MakesLoops c sc loops t₁ t') (g₁ : t.Grows c.source t₁) :
    MakesLoops c sc (loop :: loops) t t' := by
  obtain ⟨limits, hlimits, hcodes⟩ := h'
  refine ⟨limit :: limits, h.append hlimits, fun hg h₀ h₁ hsc => ?_⟩
  obtain ⟨l, hl, rfl⟩ := hcode hg h₀ h₁ hsc
  obtain ⟨ls, hls, rfl⟩ := hcodes hg (h₀.trans g₁) h₁ hsc
  exact ⟨l :: ls, .cons hl hls, rfl⟩

end MakesLoops

/-! ## Constants and variables -/

theorem spec_int {n : Int64} {u : Unit} (hs : t.Sound c.source)
    (h : compileNode c (.int n) t = .ok (u, t')) : NodeSpec c (.int n) t t' := by
  rw [compileNode] at h
  obtain ⟨_, t₁, he, h⟩ := bind_ok h
  obtain ⟨c₁, h₁, rfl⟩ := emit_appends he
  obtain ⟨_, _, hw, h⟩ := bind_ok h
  obtain ⟨c₂, h₂, rfl⟩ := write_ok hw
  have hemits : t.code.Emits [(.loadInt, .int n)] c₂ :=
    (h₁.trans (Builder.appends_addBytes h₂)).emits hs.code rfl (encodes_int _ _)
  rw [pushType_ok h]
  exact .of_line hs rfl hemits fun _ _ _ hline => .int hline

theorem spec_double {d : Double} {u : Unit} (hs : t.Sound c.source)
    (h : compileNode c (.double d) t = .ok (u, t')) : NodeSpec c (.double d) t t' := by
  rw [compileNode] at h
  obtain ⟨_, t₁, he, h⟩ := bind_ok h
  obtain ⟨c₁, h₁, rfl⟩ := emit_appends he
  obtain ⟨_, _, hw, h⟩ := bind_ok h
  obtain ⟨c₂, h₂, rfl⟩ := write_ok hw
  have hemits : t.code.Emits [(.loadDouble, .double d)] c₂ :=
    (h₁.trans (Builder.appends_addBytes h₂)).emits hs.code rfl (encodes_double _ _)
  rw [pushType_ok h]
  exact .of_line hs rfl hemits fun _ _ _ hline => .double hline

theorem spec_string {s : String} {u : Unit} (hs : t.Sound c.source)
    (h : compileNode c (.string s) t = .ok (u, t')) : NodeSpec c (.string s) t t' := by
  rw [compileNode] at h
  obtain ⟨id, _, hi, h⟩ := bind_ok h
  obtain ⟨strings, rfl, hget, hgrows⟩ := intern_ok hs hi
  obtain ⟨_, t₁, he, h⟩ := bind_ok h
  obtain ⟨c₁, h₁, rfl⟩ := emit_appends he
  obtain ⟨_, _, hw, h⟩ := bind_ok h
  obtain ⟨c₂, h₂, rfl⟩ := write_ok hw
  have hemits : t.code.Emits [(.loadString, .string id)] c₂ :=
    (h₁.trans (Builder.appends_addBytes h₂)).emits hs.code rfl (encodes_string _ _)
  rw [pushType_ok h]
  have hcode : NodeSpec c (.string s) { t with exe := { t.exe with strings } }
      { t with exe := { t.exe with strings }, code := c₂, types := .string :: t.types } :=
    .of_line hgrows.after rfl hemits fun hg _ h₁ hline =>
      .string (hg.text (h₁.strings.get? hget)) hline
  refine ⟨hgrows.trans hcode.grows, rfl, hcode.bound, hcode.nonempty, fun _ _ => ?_, nofun, nofun⟩
  obtain ⟨ty, hty, hemitted⟩ := hcode.expr rfl rfl
  exact ⟨ty, hty, fun hg h₀ h₁ => hemitted hg (h₀.trans hgrows) h₁⟩

/-- A name means a variable of the program, which can hold a value. -/
theorem isValue_of_lookupVar? {p : Program} {s : Symbols} (hp : p.ValueVars) (hs : s.Sound p)
    {sc : ScopeIndex} {name : String} {info : VarInfo}
    (h : s.lookupVar? p sc name = some info) : info.ty.isValue = true := by
  obtain ⟨i, -, hi⟩ := List.exists_of_findSome?_eq_some h
  obtain ⟨scope, hscope, -, hslot, -, -⟩ := hs.declared? hi
  exact hp i scope hscope _ (List.mem_of_getElem? hslot.1)

theorem spec_load {name : String} {u : Unit} (hs : t.Sound c.source)
    (h : compileNode c (.load name) t = .ok (u, t')) : NodeSpec c (.load name) t t' := by
  rw [compileNode] at h
  obtain ⟨info, _, hr, h⟩ := bind_ok h
  obtain ⟨hlook, rfl⟩ := resolveVar_ok hr
  obtain ⟨c₁, h₁, rfl⟩ := loadVar_ok hs.code h
  refine .of_line hs rfl h₁ fun hg h₀ h₁' hline => .load (hg.var h₀ ?_ hlook) hline
  exact (Compilation.Grows.of_code hs h₁.grows (info.ty :: t.types) t.scope).trans h₁'

/-! ## Operators -/

/-- A node compiles as `NodeSpec` says, from any compilation on. -/
abbrev NodeOk (c : FunctionContext) (n : Node) : Prop :=
  ∀ {t t' : Compilation} {u : Unit}, t.Sound c.source → compileNode c n t = .ok (u, t') →
    NodeSpec c n t t'

/-- An operand that has left its type is an expression. -/
theorem NodeSpec.operand {n : Node} (h : NodeSpec c n t t')
    (hlen : t'.types.length = t.types.length + 1) :
    ∃ ty, t'.types = ty :: t.types ∧ HasCode c (.expr n) [ty] t t' := by
  cases hn : n.isExpr with
  | true => exact h.expr hn hlen
  | false =>
    have := h.bound
    simp only [Node.gain, hn] at this
    simp only [Bool.false_eq_true, if_false] at this
    omega

theorem Node.gain_le_one (n : Node) : n.gain ≤ 1 := by
  unfold gain
  split <;> omega

theorem spec_binary {op : BinaryOp} {left right : Node} {u : Unit} (hl : NodeOk c left)
    (hr : NodeOk c right) (hs : t.Sound c.source)
    (h : compileNode c (.binary op left right) t = .ok (u, t')) :
    NodeSpec c (.binary op left right) t t' := by
  rw [compileNode] at h
  by_cases hop : op = .range
  · rw [if_pos hop] at h
    obtain ⟨_, _, ht, -⟩ := bind_ok h
    cases ht
  rw [if_neg hop] at h
  obtain ⟨_, t₁, hr', h⟩ := bind_ok h
  have s₁ := hr hs hr'
  obtain ⟨_, t₂, hl', h⟩ := bind_ok h
  have s₂ := hl s₁.grows.after hl'
  obtain ⟨ty, _, hb, h⟩ := bind_ok h
  obtain ⟨tl, tr, types, c₃, htypes, rfl, hext, hcode⟩ := compileBinary_ok s₂.grows.after.code hb
  rw [pushType_ok h]
  have hgrows : t₂.Grows c.source { t₂ with code := c₃, types := ty :: types } :=
    .of_code s₂.grows.after hext _ _
  have b₁ := s₁.bound
  have b₂ := s₂.bound
  have hlen : t₂.types.length = types.length + 2 := by rw [htypes]; rfl
  have := right.gain_le_one
  have := left.gain_le_one
  refine ⟨(s₁.grows.trans s₂.grows).trans hgrows, s₂.scope.trans s₁.scope, ?_, fun _ => nofun,
    fun _ htotal => ?_, nofun, nofun⟩
  · simp only [Node.gain, Node.isExpr, if_true, List.length_cons]
    omega
  · simp only [List.length_cons] at htotal
    obtain ⟨tr', htr, e₁⟩ := s₁.operand (by omega)
    obtain ⟨tl', htl, e₂⟩ := s₂.operand (by omega)
    rw [htr] at htl
    rw [htl] at htypes
    cases htypes
    refine ⟨ty, rfl, fun hg h₀ h₁ => ?_⟩
    have i₁ := e₁ hg h₀ (s₂.grows.trans (hgrows.trans h₁))
    have i₂ := e₂ hg (h₀.trans s₁.grows) (hgrows.trans h₁)
    rw [s₁.scope] at i₂
    exact .binary i₁ i₂ (hg.code ▸ hcode h₁.code hg.complete)

theorem spec_unary {op : UnaryOp} {operand : Node} {u : Unit} (ho : NodeOk c operand)
    (hs : t.Sound c.source) (h : compileNode c (.unary op operand) t = .ok (u, t')) :
    NodeSpec c (.unary op operand) t t' := by
  rw [compileNode] at h
  obtain ⟨_, t₁, ho', h⟩ := bind_ok h
  have s₁ := ho hs ho'
  obtain ⟨ty, _, hb, h⟩ := bind_ok h
  obtain ⟨types, c₂, htypes, htakes, hemits, rfl⟩ := compileUnary_ok s₁.grows.after.code hb
  rw [pushType_ok h]
  have hgrows : t₁.Grows c.source { t₁ with code := c₂, types := ty :: types } :=
    .of_code s₁.grows.after hemits.grows _ _
  have b₁ := s₁.bound
  have hlen : t₁.types.length = types.length + 1 := by rw [htypes]; rfl
  have := operand.gain_le_one
  refine ⟨s₁.grows.trans hgrows, s₁.scope, ?_, fun _ => nofun, fun _ htotal => ?_, nofun, nofun⟩
  · simp only [Node.gain, Node.isExpr, if_true, List.length_cons]
    omega
  · simp only [List.length_cons] at htotal
    obtain ⟨ty', hty, e₁⟩ := s₁.operand (by omega)
    rw [hty] at htypes
    cases htypes
    refine ⟨ty, rfl, fun hg h₀ h₁ => ?_⟩
    exact .unary (e₁ hg h₀ (hgrows.trans h₁)) htakes (hg.code ▸ hemits.line h₁.code)

/-! ## Calls -/

theorem resolveFunction_ok {name : String} {id : UInt16} {callee : Routine}
    (h : resolveFunction c name t = .ok ((id, callee), t')) :
    t.symbols.lookupFunction? c.source t.scope name = some id ∧
      t.exe.routine? id = some callee ∧ t = t' := by
  unfold resolveFunction at h
  obtain ⟨_, _, hg, h⟩ := bind_ok h
  cases hg
  cases hl : t.symbols.lookupFunction? c.source t.scope name with
  | none => rw [hl] at h; cases h
  | some id' =>
    rw [hl] at h
    dsimp only at h
    cases hr : t.exe.routine? id' with
    | none => rw [hr] at h; cases h
    | some r =>
      rw [hr] at h
      obtain ⟨heq, rfl⟩ := pure_ok h
      cases heq
      exact ⟨rfl, hr, rfl⟩

/-- Arguments compile as `ArgsSpec` says, from any compilation on. -/
abbrev ArgsOk (c : FunctionContext) (args : List Node) : Prop :=
  ∀ {tys : List Ty} {t t' : Compilation} {u : Unit}, args.length = tys.length →
    t.Sound c.source → compileArgs c args tys t = .ok (u, t') → ArgsSpec c args tys t t'

theorem args_nil : ArgsOk c [] := by
  intro tys t t' u hlen hs h
  cases tys with
  | cons ty tys => cases hlen
  | nil =>
    rw [compileArgs] at h
    · obtain ⟨-, rfl⟩ := pure_ok h
      exact ⟨.refl hs, rfl, Nat.le_refl _, fun _ => ⟨rfl, fun _ _ _ => .argsNil⟩⟩
    · nofun

theorem args_cons {arg : Node} {args : List Node} (ha : NodeOk c arg) (has : ArgsOk c args) :
    ArgsOk c (arg :: args) := by
  intro tys t t' u hlen hs h
  cases tys with
  | nil => cases hlen
  | cons ty tys =>
    rw [compileArgs] at h
    obtain ⟨_, t₁, has', h⟩ := bind_ok h
    have s₁ := has (Nat.succ.inj hlen) hs has'
    obtain ⟨_, t₂, ha', h⟩ := bind_ok h
    have s₂ := ha s₁.grows.after ha'
    obtain ⟨found, types, c₃, htypes, hty, hemits, rfl⟩ := convertTop_ok s₂.grows.after.code h
    have hgrows : t₂.Grows c.source { t₂ with code := c₃, types := ty :: types } :=
      .of_code s₂.grows.after hemits.grows _ _
    have b₁ := s₁.bound
    have b₂ := s₂.bound
    have hlen₂ : t₂.types.length = types.length + 1 := by rw [htypes]; rfl
    have := arg.gain_le_one
    refine ⟨(s₁.grows.trans s₂.grows).trans hgrows, s₂.scope.trans s₁.scope, ?_, fun htotal => ?_⟩
    · simp only [List.length_cons]
      omega
    · simp only [List.length_cons] at htotal
      obtain ⟨htypes₁, e₁⟩ := s₁.code (by omega)
      obtain ⟨found', hfound, e₂⟩ := s₂.operand (by omega)
      rw [htypes₁] at hfound
      rw [hfound] at htypes
      cases htypes
      refine ⟨rfl, fun hg h₀ h₁ => ?_⟩
      have i₁ := e₁ hg h₀ (s₂.grows.trans (hgrows.trans h₁))
      have i₂ := e₂ hg (h₀.trans s₁.grows) (hgrows.trans h₁)
      rw [s₁.scope] at i₂
      exact .argsCons i₁ i₂ hty (hg.code ▸ hemits.line h₁.code)

theorem spec_call {name : String} {args : List Node} {u : Unit} (has : ArgsOk c args)
    (hs : t.Sound c.source) (h : compileNode c (.call name args) t = .ok (u, t')) :
    NodeSpec c (.call name args) t t' := by
  rw [compileNode] at h
  obtain ⟨⟨id, callee⟩, _, hr, h⟩ := bind_ok h
  obtain ⟨hlook, hcallee, rfl⟩ := resolveFunction_ok hr
  dsimp only at h
  by_cases hcount : callee.arity = args.length
  · rw [if_neg (by simp [hcount])] at h
    obtain ⟨_, t₁, has', h⟩ := bind_ok h
    have s₁ := has hcount.symm hs has'
    obtain ⟨_, _, he, h⟩ := bind_ok h
    obtain ⟨c₂, h₂, rfl⟩ := emit_appends he
    obtain ⟨_, _, hw, h⟩ := bind_ok h
    obtain ⟨c₃, h₃, rfl⟩ := write_ok hw
    have hemits : t₁.code.Emits [(.call, .function id)] c₃ :=
      (h₂.trans (Builder.appends_addBytes h₃)).emits s₁.grows.after.code rfl (encodes_function _ _)
    obtain ⟨_, _, hpop, h⟩ := bind_ok h
    obtain ⟨hle, rfl⟩ := popTypes_ok hpop
    rw [pushType_ok h]
    have hgrows : t₁.Grows c.source
        { t₁ with code := c₃, types := callee.result :: t₁.types.drop callee.arity } :=
      .of_code s₁.grows.after hemits.grows _ _
    have b₁ := s₁.bound
    refine ⟨s₁.grows.trans hgrows, s₁.scope, ?_, fun _ => nofun, fun _ htotal => ?_, nofun, nofun⟩
    · simp only [Node.gain, Node.isExpr, if_true, List.length_cons, List.length_drop]
      omega
    · simp only [List.length_cons, List.length_drop] at htotal
      dsimp only at hle
      obtain ⟨htypes, e₁⟩ := s₁.code (by omega)
      refine ⟨callee.result, ?_, fun hg h₀ h₁ => ?_⟩
      · simp [htypes, Routine.arity]
      · exact .call (hg.function h₀ hlook hcallee) hcount (e₁ hg h₀ (hgrows.trans h₁))
          (hg.code ▸ hemits.line h₁.code)
  · rw [if_pos hcount] at h
    obtain ⟨_, _, ht, -⟩ := bind_ok h
    cases ht

/-! ## Assignments -/

/-- The code of an expression that stands where the stack is empty. -/
theorem NodeSpec.operand_of_nil {n : Node} {ty : Ty} {types : List Ty} (h : NodeSpec c n t t')
    (hnil : t.types = []) (htypes : t'.types = ty :: types) :
    types = [] ∧ HasCode c (.expr n) [ty] t t' := by
  have hb := h.bound
  have := n.gain_le_one
  rw [htypes, hnil] at hb
  simp only [List.length_cons, List.length_nil] at hb
  have hlen : t'.types.length = t.types.length + 1 := by
    rw [htypes, hnil]
    simp only [List.length_cons, List.length_nil]
    omega
  obtain ⟨ty', hty, hcode⟩ := h.operand hlen
  rw [htypes, hnil] at hty
  cases hty
  exact ⟨rfl, hcode⟩

/-- An expression alone leaves its value. -/
theorem NodeSpec.expr_of_nil {n : Node} (h : NodeSpec c n t t') (hn : n.isExpr = true)
    (hnil : t.types = []) : ∃ ty, t'.types = [ty] ∧ HasCode c (.expr n) [ty] t t' := by
  obtain ⟨ty, types, htypes⟩ := List.exists_cons_of_ne_nil (h.nonempty hn)
  obtain ⟨rfl, hcode⟩ := h.operand_of_nil hnil htypes
  exact ⟨ty, htypes, hcode⟩

/-- After the value of a store comes some code that leaves nothing of it. -/
theorem NodeSpec.store {name : String} {op : AssignOp} {value : Node} {info : VarInfo} {found : Ty}
    {types : List Ty} {code : Builder} (hs : t.Sound c.source)
    (hlook : t.symbols.lookupVar? c.source t.scope name = some info) (s₁ : NodeSpec c value t t₁)
    (htypes : t₁.types = found :: types) (hext : t₁.code.Extends code)
    (ht' : t' = { t₁ with code, types })
    (hcode : ∀ {g : Site} {b : Builder}, g.code = ⟨b.bytes⟩ → code.Extends b → b.Complete →
      g.var t.scope name info → Emitted g t.scope (.expr value) t.code.position [found]
        t₁.code.position → Emitted g t.scope (.stmt (.store name op value)) t.code.position []
          code.position) : NodeSpec c (.store name op value) t t' := by
  subst ht'
  have hgrows : t₁.Grows c.source { t₁ with code, types } := .of_code s₁.grows.after hext _ _
  have b₁ := s₁.bound
  have hlen : t₁.types.length = types.length + 1 := by rw [htypes]; rfl
  have := value.gain_le_one
  refine ⟨s₁.grows.trans hgrows, s₁.scope, ?_, nofun, nofun, fun _ hnil => ?_, fun _ hnil => ?_⟩
  · simp only [Node.gain, Node.isExpr, Bool.false_eq_true, if_false]
    omega
  · obtain ⟨-, e₁⟩ := s₁.operand_of_nil hnil htypes
    intro g t₀ t₂ hg h₀ h₁
    exact hcode hg.code h₁.code hg.complete
      (hg.var h₀ (s₁.grows.trans (hgrows.trans h₁)) hlook) (e₁ hg h₀ (hgrows.trans h₁))
  · obtain ⟨-, e₁⟩ := s₁.operand_of_nil hnil htypes
    rw [Node.loops]
    exact (MakesLoops.of_operands s₁.grows e₁ rfl).within (.refl hs) hgrows

/-- The code of `+=` and `-=` after the value. -/
theorem NodeSpec.update {name symbol : String} {op : AssignOp} {bop : BinaryOp} {value : Node}
    {info : VarInfo} {u : Unit} (hs : t.Sound c.source)
    (hlook : t.symbols.lookupVar? c.source t.scope name = some info) (s₁ : NodeSpec c value t t₁)
    (hop : op ≠ .assign) (hbop : bop = if op = .addAssign then .add else .sub)
    (h : (loadVar info >>= fun _ => compileBinary bop >>= fun result =>
      if result ≠ info.ty then
        throw (.compoundTypeMismatch name symbol info.ty result) >>= fun (_ : PUnit) =>
          pushType result >>= fun _ => popType >>= fun _ => storeVar info
      else pushType result >>= fun _ => popType >>= fun _ => storeVar info) t₁ = .ok (u, t')) :
    NodeSpec c (.store name op value) t t' := by
  obtain ⟨_, _, hload, h⟩ := bind_ok h
  obtain ⟨c₂, h₂, rfl⟩ := loadVar_ok s₁.grows.after.code hload
  obtain ⟨result, _, hb, h⟩ := bind_ok h
  obtain ⟨tl, tr, types, c₃, htypes, rfl, hext, hcode⟩ :=
    compileBinary_ok (t := { t₁ with code := c₂, types := info.ty :: t₁.types }) h₂.grows.after hb
  obtain ⟨rfl, htail⟩ := List.cons.inj htypes
  by_cases hres : result = info.ty
  · rw [if_neg (by simp [hres])] at h
    obtain ⟨_, _, hpush, h⟩ := bind_ok h
    rw [pushType_ok hpush] at h
    obtain ⟨_, _, hpop, h⟩ := bind_ok h
    obtain ⟨types', htypes', rfl⟩ := popType_ok hpop
    obtain ⟨-, rfl⟩ := List.cons.inj htypes'
    obtain ⟨c₄, h₄, rfl⟩ := storeVar_ok (t := { t₁ with code := c₃, types }) hext.after h
    refine s₁.store hs hlook htail ((h₂.grows.trans hext).trans h₄.grows) rfl
      fun {g b} hgc hb hdone hvar hval => ?_
    have i₂ := h₂.line (hext.trans (h₄.grows.trans hb))
    have i₃ := hcode (h₄.grows.trans hb) hdone
    have i₄ := h₄.line hb
    rw [← hgc] at i₂ i₃ i₄
    subst hbop
    rw [hres] at i₃
    exact .update hop hvar hval i₂ i₃ i₄
  · rw [if_pos hres] at h
    obtain ⟨_, _, ht, -⟩ := bind_ok h
    cases ht

theorem spec_store {name : String} {op : AssignOp} {value : Node} {u : Unit}
    (hv : NodeOk c value) (hs : t.Sound c.source)
    (h : compileNode c (.store name op value) t = .ok (u, t')) :
    NodeSpec c (.store name op value) t t' := by
  rw [compileNode] at h
  obtain ⟨info, _, hr, h⟩ := bind_ok h
  obtain ⟨hlook, rfl⟩ := resolveVar_ok hr
  obtain ⟨_, t₁, hv', h⟩ := bind_ok h
  have s₁ := hv hs hv'
  cases op with
  | assign =>
    obtain ⟨_, _, hc, h⟩ := bind_ok h
    obtain ⟨found, types, c₂, htypes, hty, h₂, rfl⟩ := convertTop_ok s₁.grows.after.code hc
    obtain ⟨_, _, hpop, h⟩ := bind_ok h
    obtain ⟨types', htypes', rfl⟩ := popType_ok hpop
    obtain ⟨-, rfl⟩ := List.cons.inj htypes'
    obtain ⟨c₃, h₃, rfl⟩ := storeVar_ok (t := { t₁ with code := c₂, types }) h₂.grows.after h
    exact s₁.store hs hlook htypes (h₂.grows.trans h₃.grows) rfl fun hgc hb _ hvar hval =>
      .assign hvar hval hty (hgc ▸ (h₂.append h₃).line hb)
  | addAssign => exact s₁.update hs hlook (by decide) rfl h
  | subAssign => exact s₁.update hs hlook (by decide) rfl h

/-! ## Statements -/

/-- A node of which nothing is left. -/
theorem NodeSpec.of_stmt {n : Node} (hn : n.isExpr = false) (hgrows : t.Grows c.source t')
    (hscope : t'.scope = t.scope) (hbound : t'.types.length ≤ t.types.length)
    (hcode : t.types = [] → HasCode c (.stmt n) [] t t')
    (hloops : t.types = [] → MakesLoops c t.scope (n.loops t.scope) t t') : NodeSpec c n t t' :=
  ⟨hgrows, hscope, by simpa [Node.gain, hn] using hbound, fun h => (nomatch hn.symm.trans h),
    fun h => (nomatch hn.symm.trans h), fun _ => hcode, fun _ => hloops⟩

theorem NodeSpec.length_le {n : Node} (h : NodeSpec c n t t') :
    t'.types.length ≤ t.types.length + 1 :=
  Nat.le_trans h.bound (Nat.add_le_add_left n.gain_le_one _)

theorem spec_ret {u : Unit} (hs : t.Sound c.source)
    (h : compileNode c (.ret none) t = .ok (u, t')) : NodeSpec c (.ret none) t t' := by
  rw [compileNode] at h
  by_cases hc : c.strict = true ∧ c.function.result ≠ .void
  · rw [if_pos hc] at h
    obtain ⟨_, _, ht, -⟩ := bind_ok h
    cases ht
  · rw [if_neg hc] at h
    obtain ⟨c₁, h₁, rfl⟩ := emit_ok hs.code rfl h
    have hgrows := Compilation.Grows.of_code hs h₁.grows t.types t.scope
    refine .of_stmt rfl hgrows rfl (Nat.le_refl _) (fun _ => ?_)
      fun _ => .none hgrows fun _ _ _ => rfl
    intro g t₀ t₂ hg h₀ h₂
    refine .ret (fun hstrict => ?_) (hg.code ▸ h₁.line h₂.code)
    rw [hg.strict] at hstrict
    rw [hg.result]
    exact Classical.not_not.mp fun hne => hc ⟨hstrict, hne⟩

theorem spec_retValue {value : Node} {u : Unit} (hv : NodeOk c value) (hs : t.Sound c.source)
    (h : compileNode c (.ret (some value)) t = .ok (u, t')) :
    NodeSpec c (.ret (some value)) t t' := by
  rw [compileNode] at h
  obtain ⟨_, t₁, hv', h⟩ := bind_ok h
  have s₁ := hv hs hv'
  obtain ⟨found, types, c₂, htypes, hstrict, h₂, rfl⟩ :=
    compileReturnValue_ok s₁.grows.after.code h
  have hgrows : t₁.Grows c.source { t₁ with code := c₂, types } :=
    .of_code s₁.grows.after h₂.grows _ _
  have hlen : t₁.types.length = types.length + 1 := by rw [htypes]; rfl
  have := s₁.length_le
  refine .of_stmt rfl (s₁.grows.trans hgrows) s₁.scope (by dsimp only; omega) (fun hnil => ?_)
    fun hnil => ?_ <;> obtain ⟨-, e₁⟩ := s₁.operand_of_nil hnil htypes
  · intro g t₀ t₂ hg h₀ h₁
    refine .retValue (e₁ hg h₀ (hgrows.trans h₁)) (fun hs' => ?_) ?_
    · rw [hg.strict] at hs'
      rw [hg.result]
      exact hstrict hs'
    · rw [hg.code, hg.result]
      exact h₂.line h₁.code
  · rw [Node.loops]
    exact (MakesLoops.of_operands s₁.grows e₁ rfl).within (.refl hs) hgrows

/-! ## Printing -/

/-- Operands of a print compile as `BodySpec` says. -/
abbrev OperandsOk (c : FunctionContext) (operands : List Node) : Prop :=
  ∀ {t t' : Compilation} {u : Unit}, t.Sound c.source →
    compileOperands c operands t = .ok (u, t') → BodySpec c (.operands operands) t t'

theorem operands_nil : OperandsOk c [] := by
  intro t t' u hs h
  rw [compileOperands] at h
  obtain ⟨-, rfl⟩ := pure_ok h
  exact ⟨.refl hs, rfl, Nat.le_refl _, fun _ _ _ _ _ _ _ => .operandsNil,
    fun _ _ _ => .none (.refl hs) fun _ _ _ => rfl⟩

theorem operands_cons {operand : Node} {operands : List Node} (ho : NodeOk c operand)
    (hos : OperandsOk c operands) : OperandsOk c (operand :: operands) := by
  intro t t' u hs h
  rw [compileOperands] at h
  obtain ⟨_, t₁, ho', h⟩ := bind_ok h
  have s₁ := ho hs ho'
  obtain ⟨ty, _, hp, h⟩ := bind_ok h
  obtain ⟨types, htypes, rfl⟩ := popType_ok hp
  obtain ⟨_, _, he, h⟩ := bind_ok h
  obtain ⟨c₂, h₂, rfl⟩ := emit_ok (t := { t₁ with types }) s₁.grows.after.code (printOp_kind ty) he
  have hgrows : t₁.Grows c.source { t₁ with code := c₂, types } :=
    .of_code s₁.grows.after h₂.grows _ _
  have s₃ := hos hgrows.after h
  have hlen : t₁.types.length = types.length + 1 := by rw [htypes]; rfl
  have := s₁.length_le
  have b₃ := s₃.bound
  have hall := s₁.grows.trans (hgrows.trans s₃.grows)
  have hcode : t.types = [] → HasCode c (.operands (operand :: operands)) [] t t' := ?_
  · exact ⟨hall, s₃.scope.trans s₁.scope, by dsimp only at b₃; omega, hcode,
      fun hnil _ hsc => hsc ▸ .of_operands hall (hcode hnil) rfl⟩
  intro hnil
  obtain ⟨rfl, e₁⟩ := s₁.operand_of_nil hnil htypes
  intro g t₀ t₂ hg h₀ h₁
  have i₁ := e₁ hg h₀ (hgrows.trans (s₃.grows.trans h₁))
  have i₂ := h₂.line (s₃.grows.trans h₁).code
  have i₃ := s₃.code rfl hg (h₀.trans (s₁.grows.trans hgrows)) h₁
  rw [← hg.code] at i₂
  dsimp only at i₃
  rw [s₁.scope] at i₃
  exact .operandsCons i₁ i₂ i₃

theorem spec_print {operands : List Node} {u : Unit} (hos : OperandsOk c operands)
    (hs : t.Sound c.source) (h : compileNode c (.print operands) t = .ok (u, t')) :
    NodeSpec c (.print operands) t t' := by
  rw [compileNode] at h
  have s₁ := hos hs h
  refine .of_stmt rfl s₁.grows s₁.scope s₁.bound
    (fun hnil _ _ _ hg h₀ h₁ => .print (s₁.code hnil hg h₀ h₁)) fun hnil => ?_
  rw [Node.loops]
  exact s₁.loops hnil rfl

/-! ## Calls to the host -/

theorem loadParams_ok {ps : List VarDecl} {u : Unit} (hs : t.Sound c.source)
    (h : (ps.forM fun param => resolveVar c.source param.name >>= fun info => loadVar info) t =
      .ok (u, t')) :
    ∃ infos code, infos.length = ps.length ∧
      (∀ x ∈ ps.zip infos, t.symbols.lookupVar? c.source t.scope x.1.name = some x.2) ∧
      t.code.Emits (infos.map loadInstr) code ∧
      t' = { t with code, types := (infos.map (·.ty)).reverse ++ t.types } := by
  induction ps generalizing t with
  | nil =>
    obtain ⟨-, rfl⟩ := pure_ok h
    exact ⟨[], t.code, rfl, nofun, .nil hs.code, rfl⟩
  | cons param ps ih =>
    obtain ⟨_, _, hload, h⟩ := bind_ok h
    obtain ⟨info, _, hr, hload⟩ := bind_ok hload
    obtain ⟨hlook, rfl⟩ := resolveVar_ok hr
    obtain ⟨c₁, h₁, rfl⟩ := loadVar_ok hs.code hload
    obtain ⟨infos, c₂, hlen, hvars, h₂, rfl⟩ :=
      ih (Compilation.Grows.of_code hs h₁.grows (info.ty :: t.types) t.scope).after h
    refine ⟨info :: infos, c₂, by simp [hlen], fun x hx => ?_, h₁.append h₂, by simp⟩
    rcases List.mem_cons.mp hx with rfl | hx
    · exact hlook
    · exact hvars x hx

theorem spec_native {symbol : String} {u : Unit} 
    (hs : t.Sound c.source) (h : compileNode c (.native symbol) t = .ok (u, t')) :
    NodeSpec c (.native symbol) t t' := by
  rw [compileNode] at h
  unfold compileNative at h
  obtain ⟨_, _, hload, h⟩ := bind_ok h
  obtain ⟨infos, c₁, hlen, hvars, h₁, rfl⟩ := loadParams_ok hs hload
  rw [List.length_reverse] at hlen
  have g₁ : t.Grows c.source
      { t with code := c₁, types := (infos.map (·.ty)).reverse ++ t.types } :=
    .of_code hs h₁.grows _ _
  obtain ⟨id, _, hi, h⟩ := bind_ok h
  obtain ⟨natives, rfl, hget, g₂⟩ := internNative_ok g₁.after hi
  obtain ⟨_, _, he, h⟩ := bind_ok h
  obtain ⟨c₂, h₂, rfl⟩ := emit_appends he
  obtain ⟨_, _, hw, h⟩ := bind_ok h
  obtain ⟨c₃, h₃, rfl⟩ := write_ok hw
  have hemits : c₁.Emits [(.callNative, .native id)] c₃ :=
    (h₂.trans (Builder.appends_addBytes h₃)).emits g₁.after.code rfl (encodes_native _ _)
  obtain ⟨_, _, hpop, h⟩ := bind_ok h
  obtain ⟨-, rfl⟩ := popTypes_ok hpop
  obtain ⟨c₄, h₄, rfl⟩ := emit_ok
    (t := { t with exe := { t.exe with natives }, code := c₃,
                   types := ((infos.map (·.ty)).reverse ++ t.types).drop
                    c.function.params.length }) hemits.grows.after rfl h
  have hgrows := g₂.trans (Compilation.Grows.of_code g₂.after (hemits.append h₄).grows
    (((infos.map (·.ty)).reverse ++ t.types).drop c.function.params.length) t.scope)
  refine .of_stmt rfl (g₁.trans hgrows) rfl ?_ (fun _ => ?_)
    fun _ => .none (g₁.trans hgrows) fun _ _ _ => rfl
  · simp only [List.length_drop, List.length_append, List.length_reverse, List.length_map, hlen]
    omega
  · intro g t₀ t₂ hg h₀ h₂'
    have i₁ := h₁.line (hgrows.trans h₂').code
    have i₂ := (hemits.append h₄).line h₂'.code
    rw [← hg.code] at i₁ i₂
    have hhost := hg.host (h₂'.natives hget)
    rw [← hg.params, ← hg.result] at hhost
    have hrev : infos = infos.reverse.reverse := (List.reverse_reverse infos).symm
    rw [hrev] at i₁
    refine .native (by rw [hg.params, List.length_reverse, hlen]) (fun x hx => ?_) i₁ hhost i₂
    refine hg.var h₀ ((g₁.trans hgrows).trans h₂') (hvars x ?_)
    rw [hg.params] at hx
    rw [← List.mem_reverse, List.zip, List.reverse_zipWith (by rw [List.length_reverse, hlen]),
      List.reverse_reverse]
    exact hx

/-! ## Blocks -/

/-- A block compiles as `BodySpec` says, and so do statements. -/
abbrev BlockOk (c : FunctionContext) (b : Block) : Prop :=
  ∀ {t t' : Compilation} {u : Unit}, t.Sound c.source → compileBlock c b t = .ok (u, t') →
    BodySpec c (.block b) t t'

abbrev StmtsOk (c : FunctionContext) (ns : List Node) : Prop :=
  ∀ {t t' : Compilation} {u : Unit}, t.Sound c.source → compileStatements c ns t = .ok (u, t') →
    BodySpec c (.stmts ns) t t'

theorem enterBlock_ok {scope outer : ScopeIndex} (hs : t.Sound c.source)
    (h : enterBlock c scope t = .ok (outer, t')) :
    outer = t.scope ∧ t'.scope = scope ∧ t'.types = t.types ∧ t'.code = t.code ∧
      t.Grows c.source t' ∧ ∃ id, t'.symbols.scopeId? scope = some id ∧ id ∈ t'.owned := by
  unfold enterBlock at h
  obtain ⟨id, _, hn, h⟩ := bind_ok h
  obtain ⟨symbols, rfl, hext, hf, hid, hgrows⟩ := numberScope_ok hs hn
  cases h
  obtain ⟨_, -, hlt, -⟩ := hgrows.after.symbols.numbered hid
  refine ⟨rfl, rfl, rfl, rfl, hgrows.trans ⟨hgrows.after, ⟨hs.code, hs.strings, hext.after, ?_⟩,
    .refl hs.code, .refl _, fun h => h, rfl, rfl, rfl, .refl hext.after, fun id' h => ?_,
    fun h => ?_⟩, id, hid, ?_⟩
  · dsimp only
    intro id' hid'
    split at hid'
    · exact hgrows.after.owned_lt id' hid'
    · rcases List.mem_append.mp hid' with h | h
      · exact hgrows.after.owned_lt id' h
      · rw [List.mem_singleton.mp h]
        exact hlt
  · dsimp only at h ⊢
    split
    · exact h
    · exact List.mem_append_left _ h
  · dsimp only at h ⊢
    split
    · exact h
    · rename_i hnot
      exact List.nodup_append.mpr ⟨h, by simp, fun a ha b hb => by
        rw [List.mem_singleton.mp hb]
        rintro rfl
        exact hnot ha⟩
  · dsimp only
    split
    · assumption
    · simp

theorem block_mk {scope : ScopeIndex} {statements : List Node} (hb : StmtsOk c statements) :
    BlockOk c (.mk scope statements) := by
  intro t t' u hs h
  rw [compileBlock] at h
  obtain ⟨outer, t₁, he, h⟩ := bind_ok h
  obtain ⟨rfl, hscope, htypes, hcode, g₁, id, hid, hmem⟩ := enterBlock_ok hs he
  obtain ⟨_, t₂, hb', h⟩ := bind_ok h
  have s₂ := hb g₁.after hb'
  cases h
  have g₃ : t₂.Grows c.source { t₂ with scope := t.scope } :=
    .of_code s₂.grows.after (.refl s₂.grows.after.code) _ _
  have hblock : ∀ {g : Site} {t₀ t₃ : Compilation}, g.Fits c t₀ t₃ →
      { t₂ with scope := t.scope }.Grows c.source t₃ → g.block scope := fun hg h₁ =>
    hg.block ((s₂.grows.trans (g₃.trans h₁)).symbols.scopeIds hid)
      ((s₂.grows.trans (g₃.trans h₁)).owned id hmem)
  refine ⟨g₁.trans (s₂.grows.trans g₃), rfl, htypes ▸ s₂.bound, fun hnil => ?_, fun hnil sc hsc => ?_⟩
  · intro g t₀ t₃ hg h₀ h₁
    have i₂ := s₂.code (htypes.trans hnil) hg (h₀.trans g₁) (g₃.trans h₁)
    rw [hscope, hcode] at i₂
    exact .blockMk (hblock hg h₁) i₂
  · obtain ⟨limits, hlimits, hls⟩ := (s₂.loops (htypes.trans hnil) hscope).within g₁ g₃
    exact ⟨limits, hlimits, fun hg h₀ h₁ _ => hls hg h₀ h₁ (hblock hg h₁)⟩

theorem spec_block {body : Block} {u : Unit} (hb : BlockOk c body) (hs : t.Sound c.source)
    (h : compileNode c (.block body) t = .ok (u, t')) : NodeSpec c (.block body) t t' := by
  rw [compileNode] at h
  have s₁ := hb hs h
  refine .of_stmt rfl s₁.grows s₁.scope s₁.bound
    (fun hnil _ _ _ hg h₀ h₁ => .inner (s₁.code hnil hg h₀ h₁)) fun hnil => ?_
  rw [Node.loops]
  exact s₁.loops hnil rfl

theorem stmts_nil : StmtsOk c [] := by
  intro t t' u hs h
  rw [compileStatements] at h
  obtain ⟨-, rfl⟩ := pure_ok h
  exact ⟨.refl hs, rfl, Nat.le_refl _, fun _ _ _ _ _ _ _ => .stmtsNil,
    fun _ _ _ => .none (.refl hs) fun _ _ _ => rfl⟩

theorem stmts_cons {statement : Node} {statements : List Node} (hn : NodeOk c statement)
    (hns : StmtsOk c statements) : StmtsOk c (statement :: statements) := by
  intro t t' u hs h
  rw [compileStatements] at h
  obtain ⟨_, _, hget, h⟩ := bind_ok h
  cases hget
  obtain ⟨_, t₁, hn', h⟩ := bind_ok h
  have s₁ := hn hs hn'
  obtain ⟨_, _, hget, h⟩ := bind_ok h
  cases hget
  obtain ⟨_, _, hd, h⟩ := bind_ok h
  obtain ⟨c₂, h₂, rfl⟩ := dropValues_ok s₁.grows.after.code hd
  have hgrows := Compilation.Grows.of_code s₁.grows.after h₂.grows
    (t₁.types.drop (t₁.types.length - t.types.length)) t₁.scope
  have s₃ := hns hgrows.after h
  have b₃ := s₃.bound
  simp only [List.length_drop] at b₃
  refine ⟨s₁.grows.trans (hgrows.trans s₃.grows), s₃.scope.trans s₁.scope, by omega,
    fun hnil => ?_, fun hnil sc hsc => ?_⟩
  · intro g t₀ t₃ hg h₀ h₁
    have i₂ := h₂.line (s₃.grows.trans h₁).code
    rw [← hg.code, hnil, List.length_nil, Nat.sub_zero, List.take_length] at i₂
    have i₃ := s₃.code (by simp [hnil]) hg (h₀.trans (s₁.grows.trans hgrows)) h₁
    dsimp only at i₃
    rw [s₁.scope] at i₃
    refine .stmtsCons ?_ i₃
    have h₁' := hgrows.trans (s₃.grows.trans h₁)
    cases hexpr : statement.isExpr with
    | true =>
      obtain ⟨ty, hty, e₁⟩ := s₁.expr_of_nil hexpr hnil
      rw [hty] at i₂
      simp only [List.flatMap_cons, List.flatMap_nil, List.append_nil] at i₂
      exact .drop (e₁ hg h₀ h₁') i₂
    | false =>
      have b₁ := s₁.bound
      rw [hnil, List.length_nil, Nat.zero_add] at b₁
      simp only [Node.gain, hexpr, Bool.false_eq_true, if_false] at b₁
      rw [List.eq_nil_of_length_eq_zero (Nat.le_zero.mp b₁)] at i₂
      have hpos : t₁.code.position = c₂.position := i₂
      rw [← hpos]
      exact s₁.stmt hexpr hnil hg h₀ h₁'
  · subst hsc
    have hhead : MakesLoops c t.scope (statement.loops t.scope) t t₁ := by
      cases hexpr : statement.isExpr with
      | true =>
        obtain ⟨_, -, e₁⟩ := s₁.expr_of_nil hexpr hnil
        exact .of_operands s₁.grows e₁ rfl
      | false => exact s₁.loops hexpr hnil
    have htail := s₃.loops (by simp [hnil]) s₁.scope
    rw [Phrase.loops, Node.allLoops]
    exact hhead.append (htail.within hgrows (.refl s₃.grows.after)) s₁.grows
      (hgrows.trans s₃.grows)

/-! ## Conditions and loops -/

/-- A condition is an int. -/
theorem condition_ok {condition : Node} {α : Type} {rest : CompileM α} {a : α}
    (hcond : NodeOk c condition) (hs : t.Sound c.source)
    (h : (compileNode c condition >>= fun _ => popType >>= fun ty => requireInt ty >>= fun _ =>
      rest) t = .ok (a, t')) :
    ∃ t₁ types, NodeSpec c condition t t₁ ∧ t₁.types = .int :: types ∧
      rest { t₁ with types } = .ok (a, t') := by
  obtain ⟨_, t₁, hc, h⟩ := bind_ok h
  have s₁ := hcond hs hc
  obtain ⟨ty, _, hp, h⟩ := bind_ok h
  obtain ⟨types, htypes, rfl⟩ := popType_ok hp
  obtain ⟨_, _, hi, h⟩ := bind_ok h
  obtain ⟨rfl, rfl⟩ := requireInt_ok hi
  exact ⟨t₁, types, s₁, htypes, h⟩

theorem spec_ifThen {condition : Node} {thenBlock : Block} {u : Unit} (hc : NodeOk c condition)
    (hb : BlockOk c thenBlock) (hs : t.Sound c.source)
    (h : compileNode c (.ifElse condition thenBlock none) t = .ok (u, t')) :
    NodeSpec c (.ifElse condition thenBlock none) t t' := by
  rw [compileNode] at h
  obtain ⟨t₁, types, s₁, htypes, h⟩ := condition_ok hc hs h
  have hs₁ := s₁.grows.after.code
  obtain ⟨no, _, he, h⟩ := bind_ok h
  obtain ⟨c₂, h₂, rfl, p₂⟩ := newLabel_ok (t := { t₁ with types }) hs₁ he
  obtain ⟨_, _, he, h⟩ := bind_ok h
  obtain ⟨c₃, h₃, rfl⟩ := emit_ok (t := { t₁ with types, code := c₂ }) h₂.after rfl he
  obtain ⟨_, _, he, h⟩ := bind_ok h
  obtain ⟨c₄, h₄, rfl, p₄, at₄⟩ :=
    emitBranch_ok (t := { t₁ with types, code := c₃ }) h₃.grows.after he
  have g₄ : t₁.Grows c.source { t₁ with types, code := c₄ } :=
    .of_code s₁.grows.after (h₂.trans (h₃.grows.trans h₄)) _ _
  obtain ⟨_, t₅, hb', h⟩ := bind_ok h
  have s₅ := hb g₄.after hb'
  obtain ⟨c₆, h₆, rfl, p₆, l₆⟩ := bindLabel_ok s₅.grows.after.code h
  have g₆ : t₅.Grows c.source { t₅ with code := c₆ } := .of_code s₅.grows.after h₆ _ _
  have hlen : t₁.types.length = types.length + 1 := by rw [htypes]; rfl
  have := s₁.length_le
  have b₅ := s₅.bound
  refine .of_stmt rfl (s₁.grows.trans (g₄.trans (s₅.grows.trans g₆))) (s₅.scope.trans s₁.scope)
    (by dsimp only at b₅ ⊢; omega) (fun hnil => ?_) fun hnil => ?_ <;>
    obtain ⟨rfl, e₁⟩ := s₁.operand_of_nil hnil htypes
  · intro g t₀ t₇ hg h₀ h₁
    have i₁ := e₁ hg h₀ (g₄.trans (s₅.grows.trans (g₆.trans h₁)))
    have e₄ := (s₅.grows.trans (g₆.trans h₁)).code
    have i₃ := h₃.line (h₄.trans e₄)
    have i₄ := at₄ e₄ hg.complete (h₁.code.bound l₆)
    have i₅ := s₅.code rfl hg (h₀.trans (s₁.grows.trans g₄)) (g₆.trans h₁)
    rw [← hg.code] at i₃ i₄
    dsimp only at i₃ i₄ i₅ p₂ p₄ p₆
    rw [p₂] at i₃
    rw [← p₆] at i₄ i₅
    rw [s₁.scope] at i₅
    have l₄ : g.code.Line c₃.position [(.jumpEq, .target c₆.position)] c₄.position := ⟨i₄, p₄.symm⟩
    exact .ifThen i₁ (i₃.append l₄) i₅
  · rw [Node.loops]
    exact (MakesLoops.of_operands s₁.grows e₁ rfl).append
      ((s₅.loops rfl s₁.scope).within g₄ g₆) s₁.grows (g₄.trans (s₅.grows.trans g₆))

theorem spec_ifElse {condition : Node} {thenBlock elseBlock : Block} {u : Unit}
    (hc : NodeOk c condition) (hb : BlockOk c thenBlock) (hb' : BlockOk c elseBlock)
    (hs : t.Sound c.source)
    (h : compileNode c (.ifElse condition thenBlock (some elseBlock)) t = .ok (u, t')) :
    NodeSpec c (.ifElse condition thenBlock (some elseBlock)) t t' := by
  rw [compileNode] at h
  obtain ⟨t₁, types, s₁, htypes, h⟩ := condition_ok hc hs h
  have hs₁ := s₁.grows.after.code
  obtain ⟨no, _, he, h⟩ := bind_ok h
  obtain ⟨c₂, h₂, rfl, p₂⟩ := newLabel_ok (t := { t₁ with types }) hs₁ he
  obtain ⟨_, _, he, h⟩ := bind_ok h
  obtain ⟨c₃, h₃, rfl⟩ := emit_ok (t := { t₁ with types, code := c₂ }) h₂.after rfl he
  obtain ⟨_, _, he, h⟩ := bind_ok h
  obtain ⟨c₄, h₄, rfl, p₄, at₄⟩ :=
    emitBranch_ok (t := { t₁ with types, code := c₃ }) h₃.grows.after he
  have g₄ : t₁.Grows c.source { t₁ with types, code := c₄ } :=
    .of_code s₁.grows.after (h₂.trans (h₃.grows.trans h₄)) _ _
  obtain ⟨_, t₅, hthen, h⟩ := bind_ok h
  have s₅ := hb g₄.after hthen
  obtain ⟨after, _, he, h⟩ := bind_ok h
  obtain ⟨c₆, h₆, rfl, p₆⟩ := newLabel_ok s₅.grows.after.code he
  obtain ⟨_, _, he, h⟩ := bind_ok h
  obtain ⟨c₇, h₇, rfl, p₇, at₇⟩ := emitBranch_ok (t := { t₅ with code := c₆ }) h₆.after he
  obtain ⟨_, _, he, h⟩ := bind_ok h
  obtain ⟨c₈, h₈, rfl, p₈, l₈⟩ := bindLabel_ok (t := { t₅ with code := c₇ }) h₇.after he
  have g₈ : t₅.Grows c.source { t₅ with code := c₈ } :=
    .of_code s₅.grows.after (h₆.trans (h₇.trans h₈)) _ _
  obtain ⟨_, t₉, helse, h⟩ := bind_ok h
  have s₉ := hb' g₈.after helse
  obtain ⟨c₁₀, h₁₀, rfl, p₁₀, l₁₀⟩ := bindLabel_ok s₉.grows.after.code h
  have g₁₀ : t₉.Grows c.source { t₉ with code := c₁₀ } := .of_code s₉.grows.after h₁₀ _ _
  have hlen : t₁.types.length = types.length + 1 := by rw [htypes]; rfl
  have := s₁.length_le
  have b₅ := s₅.bound
  have b₉ := s₉.bound
  have f₈ := g₈.trans (s₉.grows.trans g₁₀)
  refine .of_stmt rfl (s₁.grows.trans (g₄.trans (s₅.grows.trans f₈)))
    (s₉.scope.trans (s₅.scope.trans s₁.scope)) (by dsimp only at b₅ b₉ ⊢; omega) (fun hnil => ?_)
    fun hnil => ?_ <;> obtain ⟨rfl, e₁⟩ := s₁.operand_of_nil hnil htypes <;>
    have hnil₅ : t₅.types = [] := List.eq_nil_of_length_eq_zero (Nat.le_zero.mp b₅)
  · intro g t₀ t₁₁ hg h₀ h₁
    have i₁ := e₁ hg h₀ (g₄.trans (s₅.grows.trans (f₈.trans h₁)))
    have e₉ := (s₉.grows.trans (g₁₀.trans h₁)).code
    have e₄ := (s₅.grows.trans (f₈.trans h₁)).code
    have i₃ := h₃.line (h₄.trans e₄)
    have i₄ := at₄ e₄ hg.complete (e₉.bound l₈)
    have i₅ := s₅.code rfl hg (h₀.trans (s₁.grows.trans g₄)) (f₈.trans h₁)
    have i₇ := at₇ (h₈.trans e₉) hg.complete (h₁.code.bound l₁₀)
    have i₉ := s₉.code hnil₅ hg (h₀.trans (s₁.grows.trans (g₄.trans (s₅.grows.trans g₈))))
      (g₁₀.trans h₁)
    rw [← hg.code] at i₃ i₄ i₇
    dsimp only at i₃ i₄ i₅ i₇ i₉ p₂ p₄ p₆ p₇ p₈ p₁₀
    rw [p₂] at i₃
    rw [← p₈] at i₄
    rw [s₁.scope, ← p₆] at i₅
    rw [← p₁₀] at i₇ i₉
    rw [s₅.scope] at i₉
    dsimp only at i₉
    rw [s₁.scope] at i₉
    have l₄ : g.code.Line c₃.position [(.jumpEq, .target c₈.position)] c₄.position := ⟨i₄, p₄.symm⟩
    have l₇ : g.code.Line c₆.position [(.jump, .target c₁₀.position)] c₈.position :=
      ⟨i₇, (p₈.trans p₇).symm⟩
    exact .ifElse i₁ (i₃.append l₄) i₅ l₇ i₉
  · have hthen := (MakesLoops.of_operands s₁.grows e₁ rfl).append
      ((s₅.loops rfl s₁.scope).within g₄ (.refl s₅.grows.after)) s₁.grows (g₄.trans s₅.grows)
    rw [Node.loops]
    exact hthen.append ((s₉.loops hnil₅ (s₅.scope.trans s₁.scope)).within g₈ g₁₀)
      (s₁.grows.trans (g₄.trans s₅.grows)) f₈

theorem spec_whileLoop {condition : Node} {body : Block} {u : Unit} (hc : NodeOk c condition)
    (hb : BlockOk c body) (hs : t.Sound c.source)
    (h : compileNode c (.whileLoop condition body) t = .ok (u, t')) :
    NodeSpec c (.whileLoop condition body) t t' := by
  rw [compileNode] at h
  obtain ⟨start, _, he, h⟩ := bind_ok h
  obtain ⟨c₁, h₁, rfl, p₁, l₁⟩ := boundLabel_ok hs.code he
  obtain ⟨after, _, he, h⟩ := bind_ok h
  obtain ⟨c₂, h₂, rfl, p₂⟩ := newLabel_ok (t := { t with code := c₁ }) h₁.after he
  have g₂ : t.Grows c.source { t with code := c₂ } := .of_code hs (h₁.trans h₂) _ _
  obtain ⟨t₃, types, s₃, htypes, h⟩ := condition_ok hc g₂.after h
  obtain ⟨_, _, he, h⟩ := bind_ok h
  obtain ⟨c₄, h₄, rfl⟩ := emit_ok (t := { t₃ with types }) s₃.grows.after.code rfl he
  obtain ⟨_, _, he, h⟩ := bind_ok h
  obtain ⟨c₅, h₅, rfl, p₅, at₅⟩ :=
    emitBranch_ok (t := { t₃ with types, code := c₄ }) h₄.grows.after he
  have g₅ : t₃.Grows c.source { t₃ with types, code := c₅ } :=
    .of_code s₃.grows.after (h₄.grows.trans h₅) _ _
  obtain ⟨_, t₆, hbody, h⟩ := bind_ok h
  have s₆ := hb g₅.after hbody
  obtain ⟨_, _, he, h⟩ := bind_ok h
  obtain ⟨c₇, h₇, rfl, p₇, at₇⟩ := emitBranch_ok s₆.grows.after.code he
  obtain ⟨c₈, h₈, rfl, p₈, l₈⟩ := bindLabel_ok (t := { t₆ with code := c₇ }) h₇.after h
  have g₈ : t₆.Grows c.source { t₆ with code := c₈ } :=
    .of_code s₆.grows.after (h₇.trans h₈) _ _
  have hlen : t₃.types.length = types.length + 1 := by rw [htypes]; rfl
  have b₃ := s₃.length_le
  have b₆ := s₆.bound
  have f₃ := s₃.grows.trans (g₅.trans (s₆.grows.trans g₈))
  refine .of_stmt rfl (g₂.trans f₃) (s₆.scope.trans s₃.scope)
    (by dsimp only at b₃ b₆ ⊢; omega) (fun hnil => ?_) fun hnil => ?_ <;>
    obtain ⟨rfl, e₃⟩ := s₃.operand_of_nil hnil htypes
  · intro g t₀ t₉ hg h₀ h₁'
    have i₃ := e₃ hg (h₀.trans g₂) (g₅.trans (s₆.grows.trans (g₈.trans h₁')))
    have e₅ := (s₆.grows.trans (g₈.trans h₁')).code
    have i₄ := h₄.line (h₅.trans e₅)
    have i₅ := at₅ e₅ hg.complete (h₁'.code.bound l₈)
    have i₆ := s₆.code rfl hg (h₀.trans (g₂.trans (s₃.grows.trans g₅))) (g₈.trans h₁')
    have i₇ := at₇ (h₈.trans h₁'.code) hg.complete ((h₂.trans (f₃.trans h₁').code).bound l₁)
    rw [← hg.code] at i₄ i₅ i₇
    dsimp only at i₃ i₄ i₅ i₆ i₇ p₂ p₅ p₇ p₈
    rw [p₂, p₁] at i₃
    rw [← p₈] at i₅
    rw [s₃.scope] at i₆
    have l₅ : g.code.Line c₄.position [(.jumpNe, .target c₈.position)] c₅.position := ⟨i₅, p₅.symm⟩
    have l₇ : g.code.Line t₆.code.position [(.jump, .target t.code.position)] c₈.position :=
      ⟨i₇, (p₈.trans p₇).symm⟩
    exact .whileLoop i₃ (i₄.append l₅) i₆ l₇
  · rw [Node.loops]
    exact ((MakesLoops.of_operands s₃.grows e₃ rfl).within g₂ (.refl s₃.grows.after)).append
      ((s₆.loops rfl s₃.scope).within g₅ g₈) (g₂.trans s₃.grows) (g₅.trans (s₆.grows.trans g₈))

/-- A hidden slot lies behind the variables of its scope and all slots made before. -/
theorem allocScratch_ok {addr : VarAddr} (hs : t.Sound c.source)
    (h : allocScratch c t = .ok (addr, t')) :
    ∃ symbols scope, t' = { t with symbols } ∧ t.Grows c.source { t with symbols } ∧
      c.source.scope? t.scope = some scope ∧ symbols.scopeId? t.scope = some addr.scope ∧
      scope.vars.size ≤ addr.slot.toNat ∧ t.symbols.scopeSize addr.scope ≤ addr.slot.toNat ∧
      addr.slot.toNat < symbols.scopeSize addr.scope := by
  unfold allocScratch at h
  obtain ⟨_, _, hget, h⟩ := bind_ok h
  cases hget
  obtain ⟨id, _, hn, h⟩ := bind_ok h
  obtain ⟨symbols, rfl, hext, hf, hid, hgrows⟩ := numberScope_ok hs hn
  obtain ⟨symbols', ha, rfl⟩ := onSymbols_ok h
  obtain ⟨hext', rfl, hslot, hsize, hf'⟩ := Symbols.extends_allocScratch hext.after ha
  obtain ⟨scope, hscope, -, -, hle, -⟩ := hext.after.numbered hid
  have hsize' := hext.size addr.scope
  exact ⟨symbols', scope, rfl, hgrows.trans (grows_symbols hgrows.after hext' hf'), hscope,
    hext'.scopeIds hid, by omega, by omega, by omega⟩

/-- The site of a phrase that is compiled from `t` on: its hidden slots are made from there on. -/
def Site.younger (g : Site) (c : FunctionContext) (t : Compilation) : Site :=
  { g with
    var := fun sc name info => ∃ t' : Compilation, t.Grows c.source t' ∧
      t'.symbols.lookupVar? c.source sc name = some info
    hidden := fun _ addr => t.symbols.scopeSize addr.scope ≤ addr.slot.toNat
    block := fun _ => True }

theorem Site.Fits.younger {g : Site} {t₀ t₁ : Compilation} (hg : g.Fits c t₀ t₁)
    (h : t₀.Grows c.source t) : (g.younger c t).Fits c t t₁ where
  code := hg.code
  complete := hg.complete
  result := hg.result
  strict := hg.strict
  params := hg.params
  var h₀ _ hlook := ⟨_, h₀, hlook⟩
  function h₀ hlook hr := hg.function (h.trans h₀) hlook hr
  text := hg.text
  host := hg.host
  hidden _ _ _ hle _ := hle
  block _ _ := trivial

/-- Code never names a hidden slot that was made before it. -/
theorem Emitted.spares {g : Site} {sc sc' : ScopeIndex} {phrase : Phrase} {a b : Nat}
    {types : List Ty} (h : Emitted (g.younger c t) sc' phrase a types b) {limit : VarAddr}
    {scope : Scope} (hscope : c.source.scope? sc = some scope)
    (hid : t.symbols.scopeId? sc = some limit.scope) (hle : scope.vars.size ≤ limit.slot.toNat)
    (hlt : limit.slot.toNat < t.symbols.scopeSize limit.scope) : g.code.Spares limit a b := by
  have hswept : (g.younger c t).Swept (fun _ => true) a b :=
    h.swept (p := c.source) trivial (.inr fun _ => rfl)
  obtain ⟨line, hline, hrefers⟩ := hswept
  refine ⟨line, hline, fun i hi => ⟨fun hlimit => ?_, fun target htarget => ?_⟩⟩
  · have hvar := hrefers i hi
    rw [hlimit] at hvar
    obtain ⟨_, -, hidden | ⟨name, info, ⟨t', hgrows, hlook⟩, rfl⟩⟩ := hvar
    · exact absurd hlt (Nat.not_lt.mpr hidden)
    · obtain ⟨i, -, hi⟩ := List.exists_of_findSome?_eq_some hlook
      obtain ⟨scope', hscope', hid', hslot, -⟩ := hgrows.after.symbols.declared? hi
      obtain rfl := hgrows.after.symbols.injective (hgrows.symbols.scopeIds hid) hid'
      obtain rfl := Option.some.inj (hscope.symm.trans hscope')
      have hlt' := (List.getElem?_eq_some_iff.mp hslot.1).1
      rw [Array.length_toList] at hlt'
      omega
  · have htarget' := hrefers i hi
    rwa [htarget] at htarget'

/-- A bound of a range, and the slot that it is stored to. -/
theorem bound_ok {bound : Node} {addr : VarAddr} {α : Type} {rest : CompileM α} {a : α}
    (hb : NodeOk c bound) (hs : t.Sound c.source)
    (h : (compileNode c bound >>= fun _ => boundToInt >>= fun _ => emitVar .storeIntVar addr >>=
      fun _ => rest) t = .ok (a, t')) :
    ∃ t₁ ty types code, NodeSpec c bound t t₁ ∧ t₁.types = ty :: types ∧ ty.isNumeric = true ∧
      t₁.code.Emits (boundCode ty ++ [(.storeIntVar, .var addr)]) code ∧
      rest { t₁ with code, types } = .ok (a, t') := by
  obtain ⟨_, t₁, hb', h⟩ := bind_ok h
  have s₁ := hb hs hb'
  obtain ⟨_, _, hi, h⟩ := bind_ok h
  obtain ⟨ty, types, c₂, htypes, hty, h₂, rfl⟩ := boundToInt_ok s₁.grows.after.code hi
  obtain ⟨_, _, he, h⟩ := bind_ok h
  obtain ⟨c₃, h₃, rfl⟩ := emitVar_ok (t := { t₁ with code := c₂, types }) h₂.grows.after rfl he
  exact ⟨t₁, ty, types, c₃, s₁, htypes, hty, h₂.append h₃, h⟩

/-- The test of a for loop leads behind the loop. -/
theorem openFor_ok {var limit : VarAddr} {labels : Label × Label} (hs : t.code.Sound)
    (h : openFor var limit t = .ok (labels, t')) :
    ∃ code, t.code.Extends code ∧ t' = { t with code } ∧
      code.position? labels.1 = some t.code.position ∧
      ∀ {b : Builder} {target : Nat}, code.Extends b → b.Complete →
        b.position? labels.2 = some target →
          (⟨b.bytes⟩ : Code).Line t.code.position [(.loadIntVar, .var limit),
            (.loadIntVar, .var var), (.jumpGt, .target target)] code.position := by
  unfold openFor at h
  obtain ⟨_, _, he, h⟩ := bind_ok h
  obtain ⟨c₁, h₁, rfl, p₁, l₁⟩ := boundLabel_ok hs he
  obtain ⟨_, _, he, h⟩ := bind_ok h
  obtain ⟨c₂, h₂, rfl, p₂⟩ := newLabel_ok (t := { t with code := c₁ }) h₁.after he
  obtain ⟨_, _, he, h⟩ := bind_ok h
  obtain ⟨c₃, h₃, rfl⟩ := emitVar_ok (t := { t with code := c₂ }) h₂.after rfl he
  obtain ⟨_, _, he, h⟩ := bind_ok h
  obtain ⟨c₄, h₄, rfl⟩ := emitVar_ok (t := { t with code := c₃ }) h₃.grows.after rfl he
  obtain ⟨_, _, he, h⟩ := bind_ok h
  obtain ⟨c₅, h₅, rfl, p₅, at₅⟩ := emitBranch_ok (t := { t with code := c₄ }) h₄.grows.after he
  cases h
  have e₂ := h₂.trans (h₃.grows.trans (h₄.grows.trans h₅))
  refine ⟨c₅, h₁.trans e₂, rfl, e₂.bound l₁, fun {b target} hb hdone hplace => ?_⟩
  have htest : (⟨b.bytes⟩ : Code).Line c₄.position [(.jumpGt, .target target)] c₅.position :=
    ⟨at₅ hb hdone hplace, p₅.symm⟩
  have hloads := (h₃.append h₄).line (h₅.trans hb)
  rw [p₂, p₁] at hloads
  exact hloads.append htest

/-- The last instructions of a for loop lead back to its test. -/
theorem closeFor_ok {var : VarAddr} {start after : Label} {u : Unit} (hs : t.code.Sound)
    (h : closeFor var start after t = .ok (u, t')) :
    ∃ code, t.code.Extends code ∧ t' = { t with code } ∧
      code.position? after = some code.position ∧
      ∀ {b : Builder} {target : Nat}, code.Extends b → b.Complete →
        b.position? start = some target →
          (⟨b.bytes⟩ : Code).Line t.code.position [(.int1, .none), (.loadIntVar, .var var),
            (.addInt, .none), (.storeIntVar, .var var), (.jump, .target target)] code.position := by
  unfold closeFor at h
  obtain ⟨_, _, he, h⟩ := bind_ok h
  obtain ⟨c₁, h₁, rfl⟩ := emit_ok hs rfl he
  obtain ⟨_, _, he, h⟩ := bind_ok h
  obtain ⟨c₂, h₂, rfl⟩ := emitVar_ok (t := { t with code := c₁ }) h₁.grows.after rfl he
  obtain ⟨_, _, he, h⟩ := bind_ok h
  obtain ⟨c₃, h₃, rfl⟩ := emit_ok (t := { t with code := c₂ }) h₂.grows.after rfl he
  obtain ⟨_, _, he, h⟩ := bind_ok h
  obtain ⟨c₄, h₄, rfl⟩ := emitVar_ok (t := { t with code := c₃ }) h₃.grows.after rfl he
  obtain ⟨_, _, he, h⟩ := bind_ok h
  obtain ⟨c₅, h₅, rfl, p₅, at₅⟩ := emitBranch_ok (t := { t with code := c₄ }) h₄.grows.after he
  obtain ⟨c₆, h₆, rfl, p₆, l₆⟩ := bindLabel_ok (t := { t with code := c₅ }) h₅.after h
  have hstep := h₁.append (h₂.append (h₃.append h₄))
  refine ⟨c₆, hstep.grows.trans (h₅.trans h₆), rfl, l₆.trans (congrArg some p₆.symm),
    fun {b target} hb hdone hplace => ?_⟩
  have hback : (⟨b.bytes⟩ : Code).Line c₄.position [(.jump, .target target)] c₆.position :=
    ⟨at₅ (h₆.trans hb) hdone hplace, (p₆.trans p₅).symm⟩
  exact (hstep.line (h₅.trans (h₆.trans hb))).append hback

theorem spec_forLoop {name : String} {lower upper : Node} {body : Block} {u : Unit}
    (hl : NodeOk c lower) (hu : NodeOk c upper) (hb : BlockOk c body) (hs : t.Sound c.source)
    (h : compileNode c (.forLoop name (.binary .range lower upper) body) t = .ok (u, t')) :
    NodeSpec c (.forLoop name (.binary .range lower upper) body) t t' := by
  rw [compileNode] at h
  obtain ⟨info, _, hr, h⟩ := bind_ok h
  obtain ⟨hlook, rfl⟩ := resolveVar_ok hr
  obtain ⟨_, _, hi, h⟩ := bind_ok h
  obtain ⟨hint, rfl⟩ := requireInt_ok hi
  obtain ⟨limit, _, ha, h⟩ := bind_ok h
  obtain ⟨symbols, scope, rfl, g₁, hscope, hid, hle, hafter, hlt⟩ := allocScratch_ok hs ha
  obtain ⟨t₂, tu, types₂, c₂, s₂, htypes₂, htu, h₂, h⟩ := bound_ok hu g₁.after h
  have g₂ : t₂.Grows c.source { t₂ with code := c₂, types := types₂ } :=
    .of_code s₂.grows.after h₂.grows _ _
  obtain ⟨t₃, tl, types₃, c₃, s₃, htypes₃, htl, h₃, h⟩ := bound_ok hl g₂.after h
  have g₃ : t₃.Grows c.source { t₃ with code := c₃, types := types₃ } :=
    .of_code s₃.grows.after h₃.grows _ _
  obtain ⟨⟨start, after⟩, _, hopen, h⟩ := bind_ok h
  obtain ⟨c₄, h₄, rfl, l₄, k₄⟩ := openFor_ok g₃.after.code hopen
  have g₄ : t₃.Grows c.source { t₃ with code := c₄, types := types₃ } :=
    .of_code s₃.grows.after (h₃.grows.trans h₄) _ _
  dsimp only at h
  obtain ⟨_, t₅, hbody, h⟩ := bind_ok h
  have s₅ := hb g₄.after hbody
  obtain ⟨c₆, h₆, rfl, l₆, k₆⟩ := closeFor_ok s₅.grows.after.code h
  have g₆ : t₅.Grows c.source { t₅ with code := c₆ } := .of_code s₅.grows.after h₆ _ _
  have hlen₂ : t₂.types.length = types₂.length + 1 := by rw [htypes₂]; rfl
  have hlen₃ : t₃.types.length = types₃.length + 1 := by rw [htypes₃]; rfl
  have b₂ := s₂.length_le
  have b₃ := s₃.length_le
  have b₅ := s₅.bound
  dsimp only at b₂ b₃ b₅
  have f₅ := s₅.grows.trans g₆
  have f₃ := s₃.grows.trans (g₄.trans f₅)
  have f₂ := s₂.grows.trans (g₂.trans f₃)
  have hscope₃ : t₃.scope = t.scope := s₃.scope.trans s₂.scope
  have hcode : t.types = [] → ∀ {g : Site} {t₀ t₇ : Compilation}, g.Fits c t₀ t₇ →
      t₀.Grows c.source t → { t₅ with code := c₆ }.Grows c.source t₇ →
        Emitted g t.scope (.stmt (.forLoop name (.binary .range lower upper) body))
          t.code.position [] c₆.position ∧
        (g.block t.scope → ∃ l, ForLoop.CodeAt g ⟨t.scope, name, lower, upper, body⟩ l ∧
          l.limit = limit) := by
    intro hnil g t₀ t₇ hg h₀ h₁
    obtain ⟨rfl, e₂⟩ := s₂.operand_of_nil hnil htypes₂
    obtain ⟨rfl, e₃⟩ := s₃.operand_of_nil rfl htypes₃
    have i₂ := e₂ hg (h₀.trans g₁) (g₂.trans (f₃.trans h₁))
    have j₂ := h₂.line (f₃.trans h₁).code
    have i₃ := e₃ hg (h₀.trans (g₁.trans (s₂.grows.trans g₂))) (g₄.trans (f₅.trans h₁))
    have j₃ := h₃.line (h₄.trans (f₅.trans h₁).code)
    have j₄ := k₄ (f₅.trans h₁).code hg.complete (h₁.code.bound l₆)
    have i₅ := s₅.code rfl hg (h₀.trans (g₁.trans (s₂.grows.trans (g₂.trans (s₃.grows.trans g₄)))))
      (g₆.trans h₁)
    have j₆ := k₆ h₁.code hg.complete ((f₅.trans h₁).code.bound l₄)
    rw [← hg.code] at j₂ j₃ j₄ j₆
    dsimp only at i₂ i₃ i₅ j₂ j₃ j₄ j₆
    rw [s₂.scope] at i₃
    rw [hscope₃] at i₅
    have hvar := hg.var h₀ ((g₁.trans f₂).trans h₁) hlook
    have hhidden : g.hidden t.scope limit :=
      hg.hidden hscope ((f₂.trans h₁).symbols.scopeIds hid) hle
        (Nat.le_trans (h₀.symbols.size _) hafter)
        (Nat.lt_of_lt_of_le hlt ((f₂.trans h₁).symbols.size _))
    -- the code of the lower bound and of the body comes after the slot of the upper bound
    have hyounger := hg.younger (h₀.trans g₁)
    have spares₃ := (e₃ hyounger (s₂.grows.trans g₂) (g₄.trans (f₅.trans h₁))).spares hscope hid
      hle hlt
    have spares₅ := (s₅.code rfl hyounger (s₂.grows.trans (g₂.trans (s₃.grows.trans g₄)))
      (g₆.trans h₁)).spares hscope hid hle hlt
    exact ⟨.forLoop hvar hint hhidden i₂ htu j₂ i₃ htl j₃ j₄ i₅ j₆ spares₃ spares₅, fun hblock =>
      ⟨⟨_, _, _, _, _, _, _, _, tu, tl, info.addr, limit⟩, ⟨hblock, ⟨info, hvar, hint, rfl⟩, hhidden,
        i₂, j₂, i₃, j₃, j₄, i₅, j₆, spares₃, spares₅⟩, rfl⟩⟩
  refine .of_stmt rfl (g₁.trans f₂) (s₅.scope.trans hscope₃) (by dsimp only; omega)
    (fun hnil _ _ _ hg h₀ h₁ => (hcode hnil hg h₀ h₁).1) fun hnil => ?_
  have hlimit : t.symbols.AddsSlots [limit] symbols :=
    ⟨g₁.symbols.size, List.forall_mem_singleton.mpr ⟨hafter, hlt⟩, List.nodup_singleton _⟩
  obtain ⟨rfl, e₂⟩ := s₂.operand_of_nil hnil htypes₂
  obtain ⟨rfl, e₃⟩ := s₃.operand_of_nil rfl htypes₃
  have hbounds : MakesLoops c t.scope (lower.loops t.scope ++ upper.loops t.scope) _ _ :=
    .none (s₂.grows.trans (g₂.trans (s₃.grows.trans g₄))) fun hg h₀ h₁ => by
      have hupper := (e₂ hg h₀ (g₂.trans (s₃.grows.trans (g₄.trans h₁)))).loops_eq_nil rfl
      have hlower := (e₃ hg (h₀.trans (s₂.grows.trans g₂)) (g₄.trans h₁)).loops_eq_nil rfl
      dsimp only [Phrase.loops] at hupper hlower
      rw [s₂.scope] at hlower
      exact List.append_eq_nil_iff.mpr ⟨hlower, hupper⟩
  rw [Node.loops]
  exact .cons hlimit (fun hg h₀ h₁ => (hcode hnil hg h₀ h₁).2)
    (hbounds.append ((s₅.loops rfl hscope₃).within (.refl g₄.after) g₆)
      (s₂.grows.trans (g₂.trans (s₃.grows.trans g₄))) f₅) g₁

/-! ## Any node -/

mutual

/-- **A node that compiles has the code that `Emitted` says.** -/
theorem compileNode_spec : (n : Node) → NodeOk c n
  | .int _, _, _, _, hs, h => spec_int hs h
  | .double _, _, _, _, hs, h => spec_double hs h
  | .string _, _, _, _, hs, h => spec_string hs h
  | .load _, _, _, _, hs, h => spec_load hs h
  | .store _ _ value, _, _, _, hs, h => spec_store (compileNode_spec value) hs h
  | .binary _ left right, _, _, _, hs, h =>
    spec_binary (compileNode_spec left) (compileNode_spec right) hs h
  | .unary _ operand, _, _, _, hs, h => spec_unary (compileNode_spec operand) hs h
  | .call _ args, _, _, _, hs, h => spec_call (compileArgs_spec args) hs h
  | .block body, _, _, _, hs, h => spec_block (compileBlock_spec body) hs h
  | .ifElse condition thenBlock none, _, _, _, hs, h =>
    spec_ifThen (compileNode_spec condition) (compileBlock_spec thenBlock) hs h
  | .ifElse condition thenBlock (some elseBlock), _, _, _, hs, h =>
    spec_ifElse (compileNode_spec condition) (compileBlock_spec thenBlock)
      (compileBlock_spec elseBlock) hs h
  | .whileLoop condition body, _, _, _, hs, h =>
    spec_whileLoop (compileNode_spec condition) (compileBlock_spec body) hs h
  | .forLoop _ (.binary .range lower upper) body, _, _, _, hs, h =>
    spec_forLoop (compileNode_spec lower) (compileNode_spec upper)
      (compileBlock_spec body) hs h
  | .ret none, _, _, _, hs, h => spec_ret hs h
  | .ret (some value), _, _, _, hs, h => spec_retValue (compileNode_spec value) hs h
  | .print operands, _, _, _, hs, h => spec_print (compileOperands_spec operands) hs h
  | .native _, _, _, _, hs, h => spec_native hs h
termination_by structural n => n

theorem compileArgs_spec : (args : List Node) → ArgsOk c args
  | [] => args_nil
  | arg :: args => args_cons (compileNode_spec arg) (compileArgs_spec args)
termination_by structural args => args

theorem compileOperands_spec : (operands : List Node) → OperandsOk c operands
  | [] => operands_nil
  | operand :: operands =>
    operands_cons (compileNode_spec operand) (compileOperands_spec operands)
termination_by structural operands => operands

theorem compileBlock_spec : (b : Block) → BlockOk c b
  | .mk _ statements => block_mk (compileStatements_spec statements)
termination_by structural b => b

theorem compileStatements_spec : (ns : List Node) → StmtsOk c ns
  | [] => stmts_nil
  | n :: ns => stmts_cons (compileNode_spec n) (compileStatements_spec ns)
termination_by structural ns => ns

end

end StackLang
