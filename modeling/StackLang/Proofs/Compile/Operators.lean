import StackLang.Proofs.Compile.Emitted
import StackLang.Proofs.Compile.Steps

/-!
# The code of conversions, operators and variables

For each step of a compilation that writes a few instructions, what they are and what becomes of
the types.
-/

namespace StackLang

open CompileM

variable {t t' : Compilation}

/-! ## Conversions -/

theorem coerceTop_ok {target : Ty} {u : Unit} (hs : t.code.Sound)
    (h : coerceTop target t = .ok (u, t')) :
    ∃ ty types code, t.types = ty :: types ∧ t.code.Emits (coercion ty target) code ∧
      t' = { t with code, types := coerced ty target :: types } := by
  unfold coerceTop at h
  obtain ⟨ty, _, htop, h⟩ := bind_ok h
  obtain ⟨types, htypes, rfl⟩ := topType_ok htop
  have hsame : t = { t with types := ty :: types } := by rw [← htypes]
  have hconvert : ∀ {op : Opcode}, op.operandKind = .none → coercion ty target = [(op, .none)] →
      coerced ty target = target →
      (emit op >>= fun _ => popType >>= fun _ => pushType target) t = .ok (u, t') →
      ∃ ty types code, t.types = ty :: types ∧ t.code.Emits (coercion ty target) code ∧
        t' = { t with code, types := coerced ty target :: types } := by
    intro op hkind hcode hty h
    obtain ⟨_, _, he, h⟩ := bind_ok h
    obtain ⟨code, hemits, rfl⟩ := emit_ok hs hkind he
    obtain ⟨ty', _, hp, h⟩ := bind_ok h
    obtain ⟨types', htypes', rfl⟩ := popType_ok hp
    have := pushType_ok h
    rw [htypes] at htypes'
    cases htypes'
    exact ⟨ty, types, code, htypes, hcode ▸ hemits, by rw [this, hty]⟩
  have hkeep : coercion ty target = [] → coerced ty target = ty → t = t' →
      ∃ ty types code, t.types = ty :: types ∧ t.code.Emits (coercion ty target) code ∧
        t' = { t with code, types := coerced ty target :: types } := by
    rintro hcode hty rfl
    exact ⟨ty, types, t.code, htypes, hcode ▸ .nil hs, by rw [hty]; exact hsame⟩
  cases ty <;> cases target <;>
    first
    | exact hconvert rfl rfl rfl h
    | exact hkeep rfl rfl (pure_ok h).2

theorem convertTop_ok {target : Ty} {u : Unit} (hs : t.code.Sound)
    (h : convertTop target t = .ok (u, t')) :
    ∃ ty types code, t.types = ty :: types ∧ coerced ty target = target ∧
      t.code.Emits (coercion ty target) code ∧ t' = { t with code, types := target :: types } := by
  unfold convertTop at h
  obtain ⟨_, _, hc, h⟩ := bind_ok h
  obtain ⟨ty, types, code, htypes, hemits, rfl⟩ := coerceTop_ok hs hc
  obtain ⟨found, _, htop, h⟩ := bind_ok h
  obtain ⟨types', htypes', rfl⟩ := topType_ok htop
  cases htypes'
  by_cases hty : coerced ty target = target
  · rw [if_neg (by simp [hty])] at h
    obtain ⟨-, rfl⟩ := pure_ok h
    exact ⟨ty, types, code, htypes, hty, hemits, by rw [hty]⟩
  · rw [if_pos hty] at h
    cases h

theorem boundToInt_ok {u : Unit} (hs : t.code.Sound) (h : boundToInt t = .ok (u, t')) :
    ∃ ty types code, t.types = ty :: types ∧ ty.isNumeric = true ∧
      t.code.Emits (boundCode ty) code ∧ t' = { t with code, types } := by
  unfold boundToInt at h
  obtain ⟨ty, _, hp, h⟩ := bind_ok h
  obtain ⟨types, htypes, rfl⟩ := popType_ok hp
  cases ty with
  | int =>
    obtain ⟨-, rfl⟩ := pure_ok h
    exact ⟨.int, types, t.code, htypes, rfl, .nil hs, rfl⟩
  | double =>
    obtain ⟨code, hemits, rfl⟩ := emit_ok (t := { t with types }) hs rfl h
    exact ⟨.double, types, code, htypes, rfl, hemits, rfl⟩
  | _ => cases h

/-! ## Arithmetic and comparisons -/

theorem promote_ok {left right ty : Ty} (hs : t.code.Sound)
    (h : promote left right t = .ok (ty, t')) :
    left.isNumeric = true ∧ right.isNumeric = true ∧ ty = promoted left right ∧
      ∃ code, t.code.Emits (promotion left right) code ∧ t' = { t with code } := by
  unfold promote at h
  obtain ⟨_, _, hn, h⟩ := bind_ok h
  obtain ⟨hl, rfl⟩ := requireNumeric_ok hn
  obtain ⟨_, _, hn, h⟩ := bind_ok h
  obtain ⟨hr, rfl⟩ := requireNumeric_ok hn
  refine ⟨hl, hr, ?_⟩
  cases left <;> cases hl <;> cases right <;> cases hr
  · obtain ⟨rfl, rfl⟩ := pure_ok h
    exact ⟨rfl, t.code, .nil hs, rfl⟩
  · obtain ⟨_, _, he, h⟩ := bind_ok h
    obtain ⟨code, hemits, rfl⟩ := emit_ok hs rfl he
    obtain ⟨rfl, rfl⟩ := pure_ok h
    exact ⟨rfl, code, hemits, rfl⟩
  · obtain ⟨_, _, he, h⟩ := bind_ok h
    obtain ⟨code₁, hemits₁, rfl⟩ := emit_ok hs rfl he
    obtain ⟨_, _, he, h⟩ := bind_ok h
    obtain ⟨code₂, hemits₂, rfl⟩ := emit_ok (t := { t with code := code₁ }) hemits₁.grows.after
      rfl he
    obtain ⟨_, _, he, h⟩ := bind_ok h
    obtain ⟨code₃, hemits₃, rfl⟩ := emit_ok (t := { t with code := code₂ }) hemits₂.grows.after
      rfl he
    obtain ⟨rfl, rfl⟩ := pure_ok h
    exact ⟨rfl, code₃, (hemits₁.append hemits₂).append hemits₃, rfl⟩
  · obtain ⟨rfl, rfl⟩ := pure_ok h
    exact ⟨rfl, t.code, .nil hs, rfl⟩

theorem compareOp_kind (ty : Ty) : (compareOp ty).operandKind = .none := by
  unfold compareOp
  split <;> rfl

theorem compileComparison_ok {op : BinaryOp} {ty : Ty} {u : Unit} (hs : t.code.Sound)
    (h : compileComparison op ty t = .ok (u, t')) :
    ∃ negated code, op.negatedJump = some negated ∧ t' = { t with code } ∧ t.code.Extends code ∧
      ∀ {b : Builder}, code.Extends b → b.Complete → ∃ no,
        (⟨b.bytes⟩ : Code).Line t.code.position [(compareOp ty, .none), (.int0, .none),
          (negated, .target no), (.int1, .none), (.jump, .target code.position)] no ∧
        (⟨b.bytes⟩ : Code).Line no [(.int0, .none)] code.position := by
  unfold compileComparison at h
  obtain ⟨_, _, he, h⟩ := bind_ok h
  obtain ⟨c₁, h₁, rfl⟩ := emit_ok hs (compareOp_kind ty) he
  cases hop : op.negatedJump with
  | none => rw [hop] at h; cases h
  | some negated =>
    rw [hop] at h
    dsimp only at h
    obtain ⟨no, _, he, h⟩ := bind_ok h
    obtain ⟨c₂, h₂, rfl, p₂⟩ := newLabel_ok (t := { t with code := c₁ }) h₁.grows.after he
    obtain ⟨after, _, he, h⟩ := bind_ok h
    obtain ⟨c₃, h₃, rfl, p₃⟩ := newLabel_ok (t := { t with code := c₂ }) h₂.after he
    obtain ⟨_, _, he, h⟩ := bind_ok h
    obtain ⟨c₄, h₄, rfl⟩ := emit_ok (t := { t with code := c₃ }) h₃.after rfl he
    obtain ⟨_, _, he, h⟩ := bind_ok h
    obtain ⟨c₅, h₅, rfl, p₅, at₅⟩ := emitBranch_ok (t := { t with code := c₄ }) h₄.grows.after he
    obtain ⟨_, _, he, h⟩ := bind_ok h
    obtain ⟨c₆, h₆, rfl⟩ := emit_ok (t := { t with code := c₅ }) h₅.after rfl he
    obtain ⟨_, _, he, h⟩ := bind_ok h
    obtain ⟨c₇, h₇, rfl, p₇, at₇⟩ := emitBranch_ok (t := { t with code := c₆ }) h₆.grows.after he
    obtain ⟨_, _, he, h⟩ := bind_ok h
    obtain ⟨c₈, h₈, rfl, p₈, l₈⟩ := bindLabel_ok (t := { t with code := c₇ }) h₇.after he
    obtain ⟨_, _, he, h⟩ := bind_ok h
    obtain ⟨c₉, h₉, rfl⟩ := emit_ok (t := { t with code := c₈ }) h₈.after rfl he
    obtain ⟨c₁₀, h₁₀, rfl, p₁₀, l₁₀⟩ := bindLabel_ok (t := { t with code := c₉ }) h₉.grows.after h
    have e₈ := h₉.grows.trans h₁₀
    have e₆ := (h₇.trans h₈).trans e₈
    have e₃ := (h₄.grows.trans h₅).trans (h₆.grows.trans e₆)
    refine ⟨negated, c₁₀, rfl, rfl, (h₁.grows.trans h₂).trans (h₃.trans e₃),
      fun {b} hb hdone => ⟨c₈.position, ?_, ?_⟩⟩
    · have i₁ := h₁.line (h₂.trans (h₃.trans (e₃.trans hb)))
      have i₄ := h₄.line (h₅.trans (h₆.grows.trans (e₆.trans hb)))
      have i₅ := at₅ (h₆.grows.trans (e₆.trans hb)) hdone ((e₈.trans hb).bound l₈)
      have i₆ := h₆.line (e₆.trans hb)
      have i₇ := at₇ (h₈.trans (e₈.trans hb)) hdone (hb.bound l₁₀)
      dsimp only at p₂ p₃ p₅ p₇ p₈ p₁₀ i₄ i₅ i₆ i₇
      rw [p₃, p₂] at i₄
      rw [p₅] at i₆
      rw [← p₈] at i₅
      rw [← p₁₀] at i₇
      have l₅ : (⟨b.bytes⟩ : Code).Line c₄.position [(negated, .target c₈.position)] c₅.position :=
        ⟨i₅, p₅.symm⟩
      have l₇ : (⟨b.bytes⟩ : Code).Line c₆.position [(.jump, .target c₁₀.position)] c₈.position :=
        ⟨i₇, (p₈.trans p₇).symm⟩
      rw [← p₅] at i₆
      exact i₁.append (i₄.append (l₅.append (i₆.append l₇)))
    · have i₉ := h₉.line (h₁₀.trans hb)
      dsimp only at p₁₀ i₉
      rw [← p₁₀] at i₉
      exact i₉

theorem arithmeticOp_kind (op : BinaryOp) (ty : Ty) : (arithmeticOp op ty).operandKind = .none := by
  cases op <;> cases ty <;> rfl

theorem intOp_kind {op : BinaryOp} {opcode : Opcode} (h : intOp op = some opcode) :
    opcode.operandKind = .none := by
  cases op <;> cases h <;> rfl

theorem compileBinary_ok {op : BinaryOp} {ty : Ty} (hs : t.code.Sound)
    (h : compileBinary op t = .ok (ty, t')) :
    ∃ left right types code, t.types = left :: right :: types ∧ t' = { t with code, types } ∧
      t.code.Extends code ∧ ∀ {b : Builder}, code.Extends b → b.Complete →
        BinaryCode ⟨b.bytes⟩ op left right t.code.position ty code.position := by
  unfold compileBinary at h
  obtain ⟨left, _, hp, h⟩ := bind_ok h
  obtain ⟨types₁, htypes₁, rfl⟩ := popType_ok hp
  obtain ⟨right, _, hp, h⟩ := bind_ok h
  obtain ⟨types, htypes, rfl⟩ := popType_ok hp
  dsimp only at htypes h
  subst htypes
  have harithmetic : op.isArithmetic = true →
      (promote left right >>= fun ty => emit (arithmeticOp op ty) >>= fun _ => pure ty)
        { t with types } = .ok (ty, t') →
      ∃ left right types code, t.types = left :: right :: types ∧ t' = { t with code, types } ∧
        t.code.Extends code ∧ ∀ {b : Builder}, code.Extends b → b.Complete →
          BinaryCode ⟨b.bytes⟩ op left right t.code.position ty code.position := by
    intro hop h
    obtain ⟨_, _, hpr, h⟩ := bind_ok h
    obtain ⟨hl, hr, rfl, c₁, h₁, rfl⟩ := promote_ok (t := { t with types }) hs hpr
    obtain ⟨_, _, he, h⟩ := bind_ok h
    obtain ⟨c₂, h₂, rfl⟩ := emit_ok (t := { t with types, code := c₁ }) h₁.grows.after
      (arithmeticOp_kind _ _) he
    obtain ⟨rfl, rfl⟩ := pure_ok h
    exact ⟨left, right, types, c₂, htypes₁, rfl, h₁.grows.trans h₂.grows,
      fun hb _ => .arithmetic hop hl hr ((h₁.append h₂).line hb)⟩
  have hints : ∀ {opcode : Opcode}, intOp op = some opcode →
      (requireInt left >>= fun _ => requireInt right >>= fun _ => emit opcode >>= fun _ =>
        pure Ty.int) { t with types } = .ok (ty, t') →
      ∃ left right types code, t.types = left :: right :: types ∧ t' = { t with code, types } ∧
        t.code.Extends code ∧ ∀ {b : Builder}, code.Extends b → b.Complete →
          BinaryCode ⟨b.bytes⟩ op left right t.code.position ty code.position := by
    intro opcode hop h
    obtain ⟨_, _, hi, h⟩ := bind_ok h
    obtain ⟨rfl, rfl⟩ := requireInt_ok hi
    obtain ⟨_, _, hi, h⟩ := bind_ok h
    obtain ⟨rfl, rfl⟩ := requireInt_ok hi
    obtain ⟨_, _, he, h⟩ := bind_ok h
    obtain ⟨c₁, h₁, rfl⟩ := emit_ok (t := { t with types }) hs (intOp_kind hop) he
    obtain ⟨rfl, rfl⟩ := pure_ok h
    exact ⟨.int, .int, types, c₁, htypes₁, rfl, h₁.grows, fun hb _ => .ints hop (h₁.line hb)⟩
  have hcomparison : (promote left right >>= fun ty => compileComparison op ty >>= fun _ =>
        pure Ty.int) { t with types } = .ok (ty, t') →
      ∃ left right types code, t.types = left :: right :: types ∧ t' = { t with code, types } ∧
        t.code.Extends code ∧ ∀ {b : Builder}, code.Extends b → b.Complete →
          BinaryCode ⟨b.bytes⟩ op left right t.code.position ty code.position := by
    intro h
    obtain ⟨_, _, hpr, h⟩ := bind_ok h
    obtain ⟨hl, hr, rfl, c₁, h₁, rfl⟩ := promote_ok (t := { t with types }) hs hpr
    obtain ⟨_, _, hc, h⟩ := bind_ok h
    obtain ⟨negated, c₂, hop, rfl, h₂, hline⟩ :=
      compileComparison_ok (t := { t with types, code := c₁ }) h₁.grows.after hc
    obtain ⟨rfl, rfl⟩ := pure_ok h
    refine ⟨left, right, types, c₂, htypes₁, rfl, h₁.grows.trans h₂, fun hb hdone => ?_⟩
    obtain ⟨no, hno, hstop⟩ := hline hb hdone
    exact .comparison hop hl hr ((h₁.line (h₂.trans hb)).append hno) hstop
  cases op with
  | add | sub | mul | div => exact harithmetic rfl h
  | mod | and | or | bitAnd | bitOr | bitXor => exact hints rfl h
  | lt | le | gt | ge | eq | ne => exact hcomparison h
  | range => cases h

theorem compileUnary_ok {op : UnaryOp} {ty : Ty} (hs : t.code.Sound)
    (h : compileUnary op t = .ok (ty, t')) :
    ∃ types code, t.types = ty :: types ∧ op.takes ty = true ∧
      t.code.Emits (unaryCode op ty) code ∧ t' = { t with code, types } := by
  unfold compileUnary at h
  obtain ⟨found, _, hp, h⟩ := bind_ok h
  obtain ⟨types, htypes, rfl⟩ := popType_ok hp
  cases op with
  | plus =>
    obtain ⟨_, _, hn, h⟩ := bind_ok h
    obtain ⟨hnum, rfl⟩ := requireNumeric_ok hn
    obtain ⟨rfl, rfl⟩ := pure_ok h
    exact ⟨types, t.code, htypes, hnum, .nil hs, rfl⟩
  | minus =>
    obtain ⟨_, _, hn, h⟩ := bind_ok h
    obtain ⟨hnum, rfl⟩ := requireNumeric_ok hn
    obtain ⟨_, _, he, h⟩ := bind_ok h
    obtain ⟨c₁, h₁, rfl⟩ := emit_ok (t := { t with types }) hs (by split <;> rfl) he
    obtain ⟨rfl, rfl⟩ := pure_ok h
    exact ⟨types, c₁, htypes, hnum, h₁, rfl⟩
  | not =>
    obtain ⟨_, _, hn, h⟩ := bind_ok h
    obtain ⟨rfl, rfl⟩ := requireInt_ok hn
    obtain ⟨_, _, he, h⟩ := bind_ok h
    obtain ⟨c₁, h₁, rfl⟩ := emit_ok (t := { t with types }) hs rfl he
    obtain ⟨_, _, he, h⟩ := bind_ok h
    obtain ⟨c₂, h₂, rfl⟩ := emit_ok (t := { t with types, code := c₁ }) h₁.grows.after rfl he
    obtain ⟨rfl, rfl⟩ := pure_ok h
    exact ⟨types, c₂, htypes, rfl, h₁.append h₂, rfl⟩

/-! ## Variables -/

theorem loadVar_ok {var : VarInfo} {u : Unit} (hs : t.code.Sound)
    (h : loadVar var t = .ok (u, t')) :
    ∃ code, t.code.Emits [loadInstr var] code ∧ t' = { t with code, types := var.ty :: t.types } := by
  have hload : ∀ {step : CompileM Unit} {instr : Opcode × Operand},
      (∀ {u₁ : Unit} {t₁ : Compilation}, step t = .ok (u₁, t₁) →
        ∃ code, t.code.Emits [instr] code ∧ t₁ = { t with code }) →
      (step >>= fun _ => pushType var.ty) t = .ok (u, t') →
      ∃ code, t.code.Emits [instr] code ∧ t' = { t with code, types := var.ty :: t.types } := by
    intro step instr hstep h
    obtain ⟨_, _, he, h⟩ := bind_ok h
    obtain ⟨c₁, h₁, rfl⟩ := hstep he
    exact ⟨c₁, h₁, pushType_ok h⟩
  unfold loadVar at h
  unfold loadInstr
  cases hty : var.ty with
  | int | double | string =>
    rw [hty] at h hload
    exact hload (emitVar_ok hs rfl) h
  | void | invalid =>
    rw [hty] at h hload
    exact hload (emit_ok hs rfl) h

theorem storeVar_ok {var : VarInfo} {u : Unit} (hs : t.code.Sound)
    (h : storeVar var t = .ok (u, t')) :
    ∃ code, t.code.Emits [storeInstr var] code ∧ t' = { t with code } := by
  unfold storeVar at h
  unfold storeInstr
  cases hty : var.ty with
  | int | double | string =>
    rw [hty] at h
    exact emitVar_ok hs rfl h
  | void | invalid =>
    rw [hty] at h
    exact emit_ok hs rfl h

/-! ## Values that are dropped, printed or returned -/

theorem dropValues_ok {count : Nat} {u : Unit} (hs : t.code.Sound)
    (h : dropValues count t = .ok (u, t')) :
    ∃ code, t.code.Emits ((t.types.take count).flatMap dropCode) code ∧
      t' = { t with code, types := t.types.drop count } := by
  induction count generalizing t with
  | zero =>
    obtain ⟨-, rfl⟩ := pure_ok h
    exact ⟨t.code, .nil hs, rfl⟩
  | succ count ih =>
    rw [dropValues] at h
    obtain ⟨ty, _, hp, h⟩ := bind_ok h
    obtain ⟨types, htypes, rfl⟩ := popType_ok hp
    simp only [htypes, List.take_succ_cons, List.flatMap_cons, List.drop_succ_cons]
    by_cases hty : ty = .void
    · rw [if_neg (by simp [hty])] at h
      obtain ⟨code, hemits, rfl⟩ := ih (t := { t with types }) hs h
      exact ⟨code, hty ▸ hemits, rfl⟩
    · rw [if_pos hty] at h
      obtain ⟨_, _, he, h⟩ := bind_ok h
      obtain ⟨c₁, h₁, rfl⟩ := emit_ok (t := { t with types }) hs rfl he
      obtain ⟨code, hemits, rfl⟩ := ih (t := { t with types, code := c₁ }) h₁.grows.after h
      have hcode : dropCode ty = [(.pop, .none)] := by
        unfold dropCode
        split
        · exact absurd rfl hty
        · rfl
      exact ⟨code, hcode ▸ h₁.append hemits, rfl⟩

theorem printOp_kind (ty : Ty) : (printOp ty).operandKind = .none := by
  cases ty <;> rfl

theorem compileReturnValue_ok {c : FunctionContext} {u : Unit} (hs : t.code.Sound)
    (h : compileReturnValue c t = .ok (u, t')) :
    ∃ found types code, t.types = found :: types ∧
      (c.strict = true → (if c.function.result = .void then found
        else coerced found c.function.result) = c.function.result) ∧
      t.code.Emits ((if c.function.result = .void then [] else coercion found c.function.result) ++
        [(.ret, .none)]) code ∧ t' = { t with code, types } := by
  unfold compileReturnValue at h
  obtain ⟨found, _, htop, h⟩ := bind_ok h
  obtain ⟨types, htypes, rfl⟩ := topType_ok htop
  -- What is left to do once the value has been converted.
  have hreturn : ∀ {t₁ : Compilation} {converted : Ty}, t₁.types = converted :: types →
      t₁.code.Sound →
      (popType >>= fun converted =>
        if c.strict = true ∧ converted ≠ c.function.result then
          throw (.returnTypeMismatch c.function.result found) >>= fun (_ : PUnit) => emit .ret
        else emit .ret) t₁ = .ok (u, t') →
      (c.strict = true → converted = c.function.result) ∧
        ∃ code, t₁.code.Emits [(.ret, .none)] code ∧ t' = { t₁ with code, types } := by
    intro t₁ converted htypes₁ hs₁ h
    obtain ⟨converted', _, hp, h⟩ := bind_ok h
    obtain ⟨types', htypes', rfl⟩ := popType_ok hp
    rw [htypes₁] at htypes'
    cases htypes'
    by_cases hc : c.strict = true ∧ converted ≠ c.function.result
    · rw [if_pos hc] at h
      obtain ⟨_, _, ht, -⟩ := bind_ok h
      cases ht
    · rw [if_neg hc] at h
      obtain ⟨code, hemits, rfl⟩ := emit_ok (t := { t₁ with types }) hs₁ rfl h
      exact ⟨fun hstrict => Classical.not_not.mp fun hne => hc ⟨hstrict, hne⟩, code, hemits, rfl⟩
  by_cases hvoid : c.function.result = .void
  · simp only [hvoid, ne_eq, not_true, if_false, if_true, List.nil_append] at h hreturn ⊢
    obtain ⟨hstrict, code, hemits, rfl⟩ := hreturn htypes hs h
    exact ⟨found, types, code, htypes, hstrict, hemits, rfl⟩
  · rw [if_pos hvoid] at h
    obtain ⟨_, _, hc, h⟩ := bind_ok h
    obtain ⟨found', types', c₁, htypes', h₁, rfl⟩ := coerceTop_ok hs hc
    rw [htypes] at htypes'
    cases htypes'
    obtain ⟨hstrict, code, hemits, rfl⟩ := hreturn rfl h₁.grows.after h
    simp only [hvoid, if_false]
    exact ⟨found, types, code, htypes, hstrict, h₁.append hemits, rfl⟩

end StackLang
