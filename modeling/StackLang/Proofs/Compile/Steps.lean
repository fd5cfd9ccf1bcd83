import StackLang.Compile.Basic
import StackLang.Proofs.Code.Builder
import StackLang.Proofs.Compile.Symbols
import StackLang.Proofs.Executable.StringPool

/-!
# Steps of a compilation

Inside one function a compilation only ever adds: code, constants, host functions, numbers of
scopes and slots (`Compilation.Grows`). For each primitive step there is one lemma that says what a
step that succeeds has done.
-/

namespace StackLang

/-- The tables of a compilation under way, and its code, fit together. -/
structure Compilation.Sound (p : Program) (t : Compilation) : Prop where
  code : t.code.Sound
  strings : t.exe.strings.Faithful
  symbols : t.symbols.Sound p
  owned_lt : ∀ id ∈ t.owned, id.toNat < t.symbols.scopeCount

/-- `t'` is `t` after some more of the same function has been compiled. -/
structure Compilation.Grows (p : Program) (t t' : Compilation) : Prop where
  before : t.Sound p
  after : t'.Sound p
  code : t.code.Extends t'.code
  strings : t.exe.strings.Extends t'.exe.strings
  natives : ∀ {id n}, t.exe.native? id = some n → t'.exe.native? id = some n
  routines : t'.exe.routines = t.exe.routines
  byName : t'.exe.byName = t.exe.byName
  functions : t'.symbols.functions = t.symbols.functions
  symbols : t.symbols.Extends p t'.symbols
  owned : ∀ id ∈ t.owned, id ∈ t'.owned
  nodup : t.owned.Nodup → t'.owned.Nodup

namespace Compilation

variable {p : Program} {t t' t'' : Compilation}

theorem Grows.refl (h : t.Sound p) : t.Grows p t :=
  ⟨h, h, .refl h.code, .refl _, id, rfl, rfl, rfl, .refl h.symbols, fun _ => id, id⟩

theorem Grows.trans (h : t.Grows p t') (h' : t'.Grows p t'') : t.Grows p t'' where
  before := h.before
  after := h'.after
  code := h.code.trans h'.code
  strings := h.strings.trans h'.strings
  natives hn := h'.natives (h.natives hn)
  routines := h'.routines.trans h.routines
  byName := h'.byName.trans h.byName
  functions := h'.functions.trans h.functions
  symbols := h.symbols.trans h'.symbols
  owned id hid := h'.owned id (h.owned id hid)
  nodup hn := h'.nodup (h.nodup hn)

/-- More code, and another view of the stack and of the names. -/
theorem Grows.of_code (h : t.Sound p) {code : Builder} (hcode : t.code.Extends code)
    (types : List Ty) (scope : ScopeIndex) : t.Grows p { t with code, types, scope } :=
  ⟨h, ⟨hcode.after, h.strings, h.symbols, h.owned_lt⟩, hcode, .refl _, id, rfl, rfl, rfl,
    .refl h.symbols, fun _ => id, id⟩

end Compilation

open Compilation

namespace CompileM

variable {α β : Type} {t t' : Compilation}

/-! ## Taking steps apart -/

/-- One step before another. -/
theorem bind_ok {m : CompileM β} {f : β → CompileM α} {a : α} (h : (m >>= f) t = .ok (a, t')) :
    ∃ b t₁, m t = .ok (b, t₁) ∧ f b t₁ = .ok (a, t') := by
  change (m t >>= fun (b, t₁) => f b t₁) = _ at h
  cases hm : m t with
  | error e => rw [hm] at h; cases h
  | ok r =>
    rw [hm] at h
    exact ⟨r.1, r.2, rfl, h⟩

theorem pure_ok {a b : α} (h : (pure a : CompileM α) t = .ok (b, t')) : a = b ∧ t = t' := by
  cases h
  exact ⟨rfl, rfl⟩

theorem write_ok {step : Builder.Step α} {a : α} (h : write step t = .ok (a, t')) :
    ∃ code, step t.code = .ok a code ∧ t' = { t with code } := by
  unfold write at h
  dsimp only at h
  cases hs : step.run t.code with
  | error e s => rw [hs] at h; cases h
  | ok b code =>
    rw [hs] at h
    cases h
    exact ⟨code, hs, rfl⟩

theorem onSymbols_ok {f : Symbols → Except Cause (α × Symbols)} {a : α}
    (h : onSymbols f t = .ok (a, t')) :
    ∃ symbols, f t.symbols = .ok (a, symbols) ∧ t' = { t with symbols } := by
  unfold onSymbols at h
  dsimp only at h
  split at h
  · rename_i b symbols hf
    cases h
    exact ⟨symbols, hf, rfl⟩
  · cases h

/-! ## Code -/

theorem emit_appends {op : Opcode} {u : Unit} (h : emit op t = .ok (u, t')) :
    ∃ code, t.code.Appends [op.toByte] code ∧ t' = { t with code } := by
  obtain ⟨code, hc, rfl⟩ := write_ok h
  exact ⟨code, Builder.appends_addOp hc, rfl⟩

/-- An opcode without an operand. -/
theorem emit_ok {op : Opcode} {u : Unit} (hs : t.code.Sound) (hkind : op.operandKind = .none)
    (h : emit op t = .ok (u, t')) :
    ∃ code, t.code.Emits [(op, .none)] code ∧ t' = { t with code } := by
  obtain ⟨code, hc, rfl⟩ := emit_appends h
  exact ⟨code, hc.emits hs hkind.symm (encodes_none _), rfl⟩

/-- An opcode and its operand, each written on its own. -/
theorem emit_write_ok {op : Opcode} {x : Operand} {step : Builder.Step Unit} {bytes : List UInt8}
    {u : Unit} (hs : t.code.Sound) (hkind : x.kind = op.operandKind)
    (hstep : ∀ {b b' : Builder}, step b = .ok () b' → b.Appends bytes b')
    (hx : ∀ start, Encodes start bytes x)
    (h : (emit op >>= fun _ => write step) t = .ok (u, t')) :
    ∃ code, t.code.Emits [(op, x)] code ∧ t' = { t with code } := by
  obtain ⟨_, t₁, hop, h⟩ := bind_ok h
  obtain ⟨code₁, h₁, rfl⟩ := emit_appends hop
  obtain ⟨code, h₂, rfl⟩ := write_ok h
  exact ⟨code, (h₁.trans (hstep h₂)).emits hs hkind (hx _), rfl⟩

theorem emitVar_ok {op : Opcode} {addr : VarAddr} {u : Unit} (hs : t.code.Sound)
    (hkind : op.operandKind = .var) (h : emitVar op addr t = .ok (u, t')) :
    ∃ code, t.code.Emits [(op, .var addr)] code ∧ t' = { t with code } :=
  emit_write_ok hs hkind.symm Builder.appends_addAddr (fun start => encodes_var start addr) h

/-- A branch leads to where its label turns out to be. -/
theorem emitBranch_ok {op : Opcode} {l : Label} {u : Unit} (hs : t.code.Sound)
    (h : emitBranch op l t = .ok (u, t')) :
    ∃ code, t.code.Extends code ∧ t' = { t with code } ∧ code.position = t.code.position + op.width ∧
      ∀ {b : Builder} {target : Nat}, code.Extends b → b.Complete → b.position? l = some target →
        (⟨b.bytes⟩ : Code).At t.code.position op (.target target) := by
  obtain ⟨code, hc, rfl⟩ := write_ok h
  obtain ⟨hext, hpos⟩ := Builder.extends_addBranch hs hc
  refine ⟨code, hext, rfl, ?_, fun hb hdone => Builder.at_of_addBranch hs hc hb hdone⟩
  rw [hpos, Opcode.width, (Builder.addBranch_cases hc).1]
  rfl

theorem newLabel_ok {l : Label} (hs : t.code.Sound) (h : newLabel t = .ok (l, t')) :
    ∃ code, t.code.Extends code ∧ t' = { t with code } ∧ code.position = t.code.position := by
  obtain ⟨code, hc, rfl⟩ := write_ok h
  obtain ⟨hext, hpos⟩ := Builder.extends_newLabel hs hc
  exact ⟨code, hext, rfl, hpos⟩

theorem bindLabel_ok {l : Label} {u : Unit} (hs : t.code.Sound)
    (h : bindLabel l t = .ok (u, t')) :
    ∃ code, t.code.Extends code ∧ t' = { t with code } ∧ code.position = t.code.position ∧
      code.position? l = some t.code.position := by
  obtain ⟨code, hc, rfl⟩ := write_ok h
  obtain ⟨hext, hpos, hplace⟩ := Builder.extends_bind hs hc
  exact ⟨code, hext, rfl, hpos, hplace⟩

theorem boundLabel_ok {l : Label} (hs : t.code.Sound) (h : boundLabel t = .ok (l, t')) :
    ∃ code, t.code.Extends code ∧ t' = { t with code } ∧ code.position = t.code.position ∧
      code.position? l = some t.code.position := by
  obtain ⟨code, hc, rfl⟩ := write_ok h
  obtain ⟨hext, hpos, hplace⟩ := Builder.extends_boundLabel hs hc
  exact ⟨code, hext, rfl, hpos, hplace⟩

/-! ## Types -/

theorem pushType_ok {ty : Ty} {u : Unit} (h : pushType ty t = .ok (u, t')) :
    t' = { t with types := ty :: t.types } := by
  cases h
  rfl

theorem popType_ok {ty : Ty} (h : popType t = .ok (ty, t')) :
    ∃ types, t.types = ty :: types ∧ t' = { t with types } := by
  unfold popType at h
  obtain ⟨_, _, hg, h⟩ := bind_ok h
  cases hg
  cases htypes : t.types with
  | nil => rw [htypes] at h; cases h
  | cons ty' types =>
    rw [htypes] at h
    cases h
    exact ⟨types, rfl, rfl⟩

theorem topType_ok {ty : Ty} (h : topType t = .ok (ty, t')) :
    ∃ types, t.types = ty :: types ∧ t = t' := by
  unfold topType at h
  obtain ⟨_, _, hg, h⟩ := bind_ok h
  cases hg
  cases htypes : t.types with
  | nil => rw [htypes] at h; cases h
  | cons ty' types =>
    rw [htypes] at h
    cases h
    exact ⟨types, rfl, rfl⟩

theorem popTypes_ok {count : Nat} {u : Unit} (h : popTypes count t = .ok (u, t')) :
    count ≤ t.types.length ∧ t' = { t with types := t.types.drop count } := by
  induction count generalizing t with
  | zero =>
    cases h
    exact ⟨Nat.zero_le _, rfl⟩
  | succ count ih =>
    rw [popTypes] at h
    obtain ⟨ty, _, hp, h⟩ := bind_ok h
    obtain ⟨types, htypes, rfl⟩ := popType_ok hp
    obtain ⟨hle, rfl⟩ := ih h
    rw [htypes]
    exact ⟨Nat.succ_le_succ hle, rfl⟩

theorem requireNumeric_ok {ty : Ty} {u : Unit} (h : requireNumeric ty t = .ok (u, t')) :
    ty.isNumeric = true ∧ t = t' := by
  unfold requireNumeric at h
  by_cases hn : ty.isNumeric = true
  · rw [if_pos hn] at h
    exact ⟨hn, (pure_ok h).2⟩
  · rw [if_neg hn] at h
    cases h

theorem requireInt_ok {ty : Ty} {u : Unit} (h : requireInt ty t = .ok (u, t')) :
    ty = .int ∧ t = t' := by
  unfold requireInt at h
  by_cases hn : ty = .int
  · rw [if_pos hn] at h
    exact ⟨hn, (pure_ok h).2⟩
  · rw [if_neg hn] at h
    cases h

/-! ## Names and tables -/

section Tables

variable {p : Program}

theorem resolveVar_ok {name : String} {info : VarInfo} (h : resolveVar p name t = .ok (info, t')) :
    t.symbols.lookupVar? p t.scope name = some info ∧ t = t' := by
  unfold resolveVar at h
  obtain ⟨_, _, hg, h⟩ := bind_ok h
  cases hg
  cases hl : t.symbols.lookupVar? p t.scope name with
  | none => rw [hl] at h; cases h
  | some info' =>
    rw [hl] at h
    cases h
    exact ⟨rfl, rfl⟩

/-- Other symbols that go on from the present ones. -/
theorem grows_symbols (hs : t.Sound p) {symbols : Symbols} (h : t.symbols.Extends p symbols)
    (hf : symbols.functions = t.symbols.functions) : t.Grows p { t with symbols } :=
  ⟨hs, ⟨hs.code, hs.strings, h.after, fun id hid =>
    Nat.lt_of_lt_of_le (hs.owned_lt id hid) h.count⟩, .refl hs.code, .refl _, id, rfl, rfl, hf, h,
    fun _ => id, id⟩

/-- Numbering needs nothing but the symbols. -/
theorem extends_numberScope {i : ScopeIndex} {id : UInt16} (hs : t.symbols.Sound p)
    (h : numberScope p i t = .ok (id, t')) :
    ∃ symbols, t' = { t with symbols } ∧ t.symbols.Extends p symbols ∧
      symbols.functions = t.symbols.functions ∧ symbols.scopeId? i = some id := by
  unfold numberScope at h
  obtain ⟨_, _, hg, h⟩ := bind_ok h
  cases hg
  cases hi : t.symbols.scopeId? i with
  | some id' =>
    rw [hi] at h
    cases h
    exact ⟨t.symbols, rfl, .refl hs, rfl, hi⟩
  | none =>
    rw [hi] at h
    dsimp only at h
    cases hscope : p.scope? i with
    | none => rw [hscope] at h; cases h
    | some scope =>
      rw [hscope] at h
      obtain ⟨symbols, he, rfl⟩ := onSymbols_ok h
      obtain ⟨hext, hid, hf⟩ := Symbols.extends_enterScope hs hscope he
      exact ⟨symbols, rfl, hext, hf, hid⟩

/-- A scope that has a number keeps it. -/
theorem numberScope_eq {i : ScopeIndex} {id : UInt16} (h : t.symbols.scopeId? i = some id) :
    numberScope p i t = .ok (id, t) := by
  unfold numberScope
  simp only [bind, StateT.bind, get, getThe, MonadStateOf.get, StateT.get, pure, Except.pure,
    Except.bind, h]
  rfl

theorem numberScope_ok {i : ScopeIndex} {id : UInt16} (hs : t.Sound p)
    (h : numberScope p i t = .ok (id, t')) :
    ∃ symbols, t' = { t with symbols } ∧ t.symbols.Extends p symbols ∧
      symbols.functions = t.symbols.functions ∧ symbols.scopeId? i = some id ∧
      t.Grows p { t with symbols } := by
  obtain ⟨symbols, ht, hext, hf, hid⟩ := extends_numberScope hs.symbols h
  exact ⟨symbols, ht, hext, hf, hid, grows_symbols hs hext hf⟩

theorem intern_ok {text : String} {id : UInt16} (hs : t.Sound p)
    (h : intern text t = .ok (id, t')) :
    ∃ strings, t' = { t with exe := { t.exe with strings } } ∧
      strings.get? id = some text ∧ t.Grows p { t with exe := { t.exe with strings } } := by
  unfold intern Executable.intern at h
  dsimp only at h
  cases hi : t.exe.strings.intern text with
  | mk id? strings =>
    rw [hi] at h
    dsimp only at h
    cases id? with
    | none => cases h
    | some id' =>
      cases h
      obtain ⟨hf, hext, hget⟩ := hs.strings.intern hi
      exact ⟨strings, rfl, hget, hs, ⟨hs.code, hf, hs.symbols, hs.owned_lt⟩,
        .refl hs.code, hext, fun h => h, rfl, rfl, rfl, .refl hs.symbols, fun _ h => h, fun h => h⟩

theorem internNative_ok {n : NativeDecl} {id : UInt16} (hs : t.Sound p)
    (h : internNative n t = .ok (id, t')) :
    ∃ natives, t' = { t with exe := { t.exe with natives } } ∧ natives[id.toNat]? = some n ∧
      t.Grows p { t with exe := { t.exe with natives } } := by
  unfold internNative at h
  obtain ⟨_, _, hg, h⟩ := bind_ok h
  cases hg
  unfold Executable.addNative at h
  dsimp only at h
  by_cases hroom : t.exe.natives.findIdx (· = n) < UInt16.size
  · simp only [hroom, if_true] at h
    have hid : (t.exe.natives.findIdx (· = n)).toUInt16.toNat = t.exe.natives.findIdx (· = n) :=
      toNat_toUInt16 hroom
    by_cases hlt : t.exe.natives.findIdx (· = n) < t.exe.natives.size
    · simp only [hlt, if_true] at h
      cases h
      refine ⟨t.exe.natives, rfl, ?_, .refl hs⟩
      rw [hid, Array.getElem?_eq_getElem hlt]
      simpa using Array.findIdx_getElem (w := hlt)
    · simp only [hlt, if_false] at h
      cases h
      have hsize : t.exe.natives.findIdx (· = n) = t.exe.natives.size := by
        have : t.exe.natives.findIdx (· = n) ≤ t.exe.natives.size := Array.findIdx_le_size
        omega
      refine ⟨t.exe.natives.push n, rfl, ?_, hs, ⟨hs.code, hs.strings, hs.symbols, hs.owned_lt⟩,
        .refl hs.code, .refl _, fun {id m} hm => ?_, rfl, rfl, rfl, .refl hs.symbols,
        fun _ h => h, fun h => h⟩
      · rw [hid, hsize, Array.getElem?_push_size]
      · have hlt' := (Array.getElem?_eq_some_iff.mp hm).1
        rw [Executable.native?, Array.getElem?_push, if_neg (by omega)]
        exact hm
  · simp only [hroom, if_false] at h
    cases h

end Tables

end CompileM

end StackLang
