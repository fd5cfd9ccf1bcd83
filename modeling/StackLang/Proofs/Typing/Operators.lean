import StackLang.Proofs.Typing.Outcomes

/-!
# Outcomes of conversions and operators

When the steps that convert, combine and take values succeed, by the types on the stack. `Takes`
is the form of those that take one value away, such as the test of a condition or a return.
-/

namespace StackLang

open Compilation
open CompileM

namespace CompileM

variable {α : Type} {P : Prop} {p : Program} {t : Compilation} {Q : Unit → Compilation → Prop}

/-! ## Conversions -/

theorem wp_coerceTop {target : Ty} (hs : t.Sound p) (hnil : t.types = [] → ¬ P)
    (hQ : ∀ ty types t', t.types = ty :: types → t.Moves p t.code.openLabels t' →
      t'.types = coerced ty target :: types → Q () t') : wp P (coerceTop target) Q t := by
  unfold coerceTop
  refine wp_bind (wp_topType hnil fun ty types htypes => ?_)
  have hkeep : coerced ty target = ty → Q () t := fun h =>
    hQ ty types t htypes (.of_types hs t.types) (by rw [h]; exact htypes)
  have hconvert : ∀ {op : Opcode}, coerced ty target = target →
      wp P (emit op >>= fun _ => popType >>= fun _ => pushType target) Q t := by
    intro op h
    refine wp_bind (wp_emit hs fun t₁ m₁ h₁ => ?_)
    rw [htypes] at h₁
    refine wp_bind (wp_popType m₁.grows.after (by simp [h₁]) fun ty' types' t₂ h₂ m₂ h₂' => ?_)
    obtain ⟨rfl, rfl⟩ : ty = ty' ∧ types = types' := by simpa [h₁] using h₂
    refine wp_pushType m₂.grows.after fun t₃ m₃ h₃ => ?_
    have m := (m₁.trans m₂).trans m₃
    rw [m₂.labels, m₁.labels] at m
    exact hQ ty types t₃ htypes m (by rw [h₃, h₂', h])
  cases ty <;> cases target <;> first
    | exact hkeep rfl
    | exact hconvert rfl

theorem wp_convertTop {target : Ty} (hs : t.Sound p) (hnil : t.types = [] → ¬ P)
    (hbad : ∀ ty types, t.types = ty :: types → ty.converts target = false → ¬ P)
    (hQ : ∀ ty types t', t.types = ty :: types → ty.converts target = true →
      t.Moves p t.code.openLabels t' → t'.types = target :: types → Q () t') :
    wp P (convertTop target) Q t := by
  unfold convertTop
  refine wp_bind (wp_coerceTop hs hnil fun ty types t₁ htypes m₁ h₁ => ?_)
  refine wp_bind (wp_topType (by simp [h₁]) fun found types' h₁' => ?_)
  obtain ⟨rfl, rfl⟩ : coerced ty target = found ∧ types = types' := by simpa [h₁] using h₁'
  split_ifs with hne
  · exact wp_throw (hbad ty types htypes (Bool.eq_false_iff.mpr fun h =>
      hne (Ty.converts_iff.mp h)))
  · have heq : coerced ty target = target := Classical.not_not.mp hne
    exact hQ ty types t₁ htypes (Ty.converts_iff.mpr heq) m₁ (heq ▸ h₁)

/-- Two numbers are promoted without a change of the stack. -/
theorem wp_promote {Q : Ty → Compilation → Prop} {left right : Ty} (hs : t.Sound p)
    (hbad : ¬ (left.isNumeric = true ∧ right.isNumeric = true) → ¬ P)
    (hQ : ∀ t', left.isNumeric = true → right.isNumeric = true →
      t.Moves p t.code.openLabels t' → t'.types = t.types → Q (promoted left right) t') :
    wp P (promote left right) Q t := by
  unfold promote
  refine wp_bind (wp_requireNumeric (fun h => hbad (by simp [h])) fun hl => ?_)
  refine wp_bind (wp_requireNumeric (fun h => hbad (by simp [h])) fun hr => ?_)
  cases left <;> cases hl <;> cases right <;> cases hr
  · exact hQ t rfl rfl (.of_types hs t.types) rfl
  · exact wp_bind (wp_emit hs fun t₁ m₁ h₁ => hQ t₁ rfl rfl m₁ h₁)
  · refine wp_bind (wp_emit hs fun t₁ m₁ h₁ => ?_)
    refine wp_bind (wp_emit m₁.grows.after fun t₂ m₂ h₂ => ?_)
    refine wp_bind (wp_emit m₂.grows.after fun t₃ m₃ h₃ => ?_)
    have m := (m₁.trans m₂).trans m₃
    rw [m₂.labels, m₁.labels] at m
    exact hQ t₃ rfl rfl m (h₃.trans (h₂.trans h₁))
  · exact hQ t rfl rfl (.of_types hs t.types) rfl

/-! ## Operators -/

theorem wp_compileComparison {op : BinaryOp} {ty : Ty} (hs : t.Sound p)
    (hop : op.isComparison = true)
    (hQ : ∀ t', t.Moves p t.code.openLabels t' → t'.types = t.types → Q () t') :
    wp P (compileComparison op ty) Q t := by
  unfold compileComparison
  refine wp_bind (wp_emit hs fun t₁ m₁ h₁ => ?_)
  have hjump : ∃ negated, op.negatedJump = some negated ∧ negated.isBranch = true := by
    cases op <;> first | exact ⟨_, rfl, rfl⟩ | cases hop
  obtain ⟨negated, hneg, hbranch⟩ := hjump
  rw [hneg]
  refine wp_bind (wp_newLabel m₁.grows.after fun no t₂ hno m₂ h₂ => ?_)
  refine wp_bind (wp_newLabel m₂.grows.after fun after t₃ hafter m₃ h₃ => ?_)
  refine wp_bind (wp_emit m₃.grows.after fun t₄ m₄ h₄ => ?_)
  have l₄ := m₄.labels.trans m₃.labels
  rw [m₂.labels] at hafter l₄
  refine wp_bind (wp_emitBranch m₄.grows.after hbranch (.inl (by simp [l₄])) fun t₅ m₅ h₅ => ?_)
  refine wp_bind (wp_emit m₅.grows.after fun t₆ m₆ h₆ => ?_)
  have l₆ := m₆.labels.trans (m₅.labels.trans l₄)
  refine wp_bind (wp_emitBranch m₆.grows.after rfl (.inl (by simp [l₆])) fun t₇ m₇ h₇ => ?_)
  have l₇ := m₇.labels.trans l₆
  refine wp_bind (wp_bindLabel m₇.grows.after (by simp [l₇]) fun t₈ m₈ h₈ => ?_)
  refine wp_bind (wp_emit m₈.grows.after fun t₉ m₉ h₉ => ?_)
  have hne : no.index ≠ after.index := fun h => hafter (by simp [h])
  have l₉ : t₉.code.openLabels = insert after.index t₁.code.openLabels := by
    rw [m₉.labels, m₈.labels, l₇, Set.insert_comm]
    refine Set.insert_sdiff_self_of_notMem ?_
    simp only [Set.mem_insert_iff, not_or]
    exact ⟨hne, hno⟩
  refine wp_bindLabel m₉.grows.after (by simp [l₉]) fun t₁₀ m₁₀ h₁₀ => ?_
  have l₁₀ : t₁₀.code.openLabels = t.code.openLabels := by
    rw [m₁₀.labels, l₉, ← m₁.labels]
    exact Set.insert_sdiff_self_of_notMem fun h => hafter (by simp [h])
  have m := m₁.trans (m₂.trans (m₃.trans (m₄.trans (m₅.trans (m₆.trans (m₇.trans
    (m₈.trans (m₉.trans m₁₀))))))))
  refine hQ t₁₀ ⟨m.grows, m.scope, l₁₀⟩ ?_
  rw [h₁₀, h₉, h₈, h₇, h₆, h₅, h₄, h₃, h₂, h₁]

/-- An operator combines the two values on top. -/
theorem wp_compileBinary {Q : Ty → Compilation → Prop} {op : BinaryOp} (hs : t.Sound p)
    (hshort : t.types.length < 2 → ¬ P)
    (hbad : ∀ tl tr types, t.types = tl :: tr :: types → (∀ ty, ¬ op.Combines tl tr ty) → ¬ P)
    (hQ : ∀ tl tr ty types t', t.types = tl :: tr :: types → op.Combines tl tr ty →
      t.Moves p t.code.openLabels t' → t'.types = types → Q ty t') :
    wp P (compileBinary op) Q t := by
  unfold compileBinary
  refine wp_bind (wp_popType hs (fun h => hshort (by simp [h])) fun tl rest t₁ htypes m₁ h₁ => ?_)
  refine wp_bind (wp_popType m₁.grows.after (fun h => hshort ?_) fun tr types t₂ h₁' m₂ h₂ => ?_)
  · rw [htypes, ← h₁, h]
    simp
  rw [h₁] at h₁'
  rw [h₁'] at htypes
  have m := m₁.trans m₂
  rw [m₁.labels] at m
  have hdone : ∀ {ty : Ty} {t₃ : Compilation}, op.Combines tl tr ty →
      t₂.Moves p t₂.code.openLabels t₃ → t₃.types = t₂.types → Q ty t₃ := by
    intro ty t₃ hop m₃ h₃
    refine hQ tl tr ty types t₃ htypes hop ?_ (h₃.trans h₂)
    rw [← m.labels]
    exact m.trans m₃
  have harithmetic : op.isArithmetic = true → wp P (promote tl tr >>= fun ty =>
      emit (arithmeticOp op ty) >>= fun _ => pure ty) Q t₂ := by
    intro hop
    refine wp_bind (wp_promote m₂.grows.after (fun hnum => hbad tl tr types htypes ?_)
      fun t₃ hl hr m₃ h₃ => ?_)
    · rintro ty (⟨-, hl, hr⟩ | ⟨-, hl, hr⟩ | -)
      · exact hnum ⟨hl, hr⟩
      · exact hnum ⟨hl, hr⟩
      · exact hnum ⟨rfl, rfl⟩
    · refine wp_bind (wp_emit m₃.grows.after fun t₄ m₄ h₄ => ?_)
      exact hdone (.arithmetic hop hl hr) (m₃.labels ▸ m₃.trans m₄) (h₄.trans h₃)
  have hcomparison : op.isComparison = true → wp P (promote tl tr >>= fun ty =>
      compileComparison op ty >>= fun _ => pure .int) Q t₂ := by
    intro hop
    refine wp_bind (wp_promote m₂.grows.after (fun hnum => hbad tl tr types htypes ?_)
      fun t₃ hl hr m₃ h₃ => ?_)
    · rintro ty (⟨-, hl, hr⟩ | ⟨-, hl, hr⟩ | -)
      · exact hnum ⟨hl, hr⟩
      · exact hnum ⟨hl, hr⟩
      · exact hnum ⟨rfl, rfl⟩
    · refine wp_bind (wp_compileComparison m₃.grows.after hop fun t₄ m₄ h₄ => ?_)
      exact hdone (.comparison hop hl hr) (m₃.labels ▸ m₃.trans m₄) (h₄.trans h₃)
  have hintegral : ∀ {opcode : Opcode}, op.isIntegral = true → wp P (requireInt tl >>= fun _ =>
      requireInt tr >>= fun _ => emit opcode >>= fun _ => pure .int) Q t₂ := by
    intro opcode hop
    have hints : ¬ (tl = .int ∧ tr = .int) → ¬ P := by
      refine fun hne => hbad tl tr types htypes ?_
      rintro ty (⟨hop', -, -⟩ | ⟨hop', -, -⟩ | -)
      · cases op <;> cases hop <;> cases hop'
      · cases op <;> cases hop <;> cases hop'
      · exact hne ⟨rfl, rfl⟩
    refine wp_bind (wp_requireInt (fun hne => hints fun h => hne h.1) fun hl => ?_)
    refine wp_bind (wp_requireInt (fun hne => hints fun h => hne h.2) fun hr => ?_)
    refine wp_bind (wp_emit m₂.grows.after fun t₃ m₃ h₃ => ?_)
    subst hl hr
    exact hdone (.integral hop) m₃ h₃
  cases op with
  | add | sub | mul | div => exact harithmetic rfl
  | lt | le | gt | ge | eq | ne => exact hcomparison rfl
  | mod | and | or | bitAnd | bitOr | bitXor => exact hintegral rfl
  | range =>
    refine wp_throw (hbad tl tr types htypes ?_)
    rintro ty (⟨hop, -, -⟩ | ⟨hop, -, -⟩ | hop) <;> cases hop

theorem wp_compileUnary {Q : Ty → Compilation → Prop} {op : UnaryOp} (hs : t.Sound p)
    (hnil : t.types = [] → ¬ P)
    (hbad : ∀ ty types, t.types = ty :: types → op.takes ty = false → ¬ P)
    (hQ : ∀ ty types t', t.types = ty :: types → op.takes ty = true →
      t.Moves p t.code.openLabels t' → t'.types = types → Q ty t') :
    wp P (compileUnary op) Q t := by
  unfold compileUnary
  refine wp_bind (wp_popType hs hnil fun ty types t₁ htypes m₁ h₁ => ?_)
  cases op with
  | plus =>
    refine wp_bind (wp_requireNumeric (hbad ty types htypes) fun hty => ?_)
    exact hQ ty types t₁ htypes hty m₁ h₁
  | minus =>
    refine wp_bind (wp_requireNumeric (hbad ty types htypes) fun hty => ?_)
    refine wp_bind (wp_emit m₁.grows.after fun t₂ m₂ h₂ => ?_)
    exact hQ ty types t₂ htypes hty (m₁.labels ▸ m₁.trans m₂) (h₂.trans h₁)
  | not =>
    refine wp_bind (wp_requireInt (fun hne => hbad ty types htypes (decide_eq_false hne))
      fun hty => ?_)
    refine wp_bind (wp_emit m₁.grows.after fun t₂ m₂ h₂ => ?_)
    refine wp_bind (wp_emit m₂.grows.after fun t₃ m₃ h₃ => ?_)
    have m := (m₁.trans m₂).trans m₃
    rw [m₂.labels, m₁.labels] at m
    subst hty
    exact hQ .int types t₃ htypes rfl m (h₃.trans (h₂.trans h₁))

/-! ## Variables -/

theorem wp_loadVar {var : VarInfo} (hs : t.Sound p)
    (hQ : ∀ t', t.Moves p t.code.openLabels t' → t'.types = var.ty :: t.types → Q () t') :
    wp P (loadVar var) Q t := by
  have hpush : ∀ t₁, t.Moves p t.code.openLabels t₁ → t₁.types = t.types →
      wp P (pushType var.ty) Q t₁ := by
    refine fun t₁ m₁ h₁ => wp_pushType m₁.grows.after fun t₂ m₂ h₂ => ?_
    exact hQ t₂ (m₁.labels ▸ m₁.trans m₂) (by rw [h₂, h₁])
  unfold loadVar
  split
  · exact wp_bind (wp_emitVar hs hpush)
  · exact wp_bind (wp_emitVar hs hpush)
  · exact wp_bind (wp_emitVar hs hpush)
  · exact wp_bind (wp_emit hs hpush)

theorem wp_storeVar {var : VarInfo} (hs : t.Sound p)
    (hQ : ∀ t', t.Moves p t.code.openLabels t' → t'.types = t.types → Q () t') :
    wp P (storeVar var) Q t := by
  unfold storeVar
  split
  · exact wp_emitVar hs hQ
  · exact wp_emitVar hs hQ
  · exact wp_emitVar hs hQ
  · exact wp_emit hs hQ

end CompileM

/-! ## Taking a value -/

/-- A step that takes a value of an accepted type from the stack, and fails on any other. -/
def Takes {α : Type} (p : Program) (m : CompileM α) (accepts : Ty → Prop) : Prop :=
  ∀ {P : Prop} {Q : α → Compilation → Prop} {t : Compilation}, t.Sound p →
    (t.types = [] → ¬ P) → (∀ ty types, t.types = ty :: types → ¬ accepts ty → ¬ P) →
    (∀ a ty types t', t.types = ty :: types → accepts ty → t.Moves p t.code.openLabels t' →
      t'.types = types → Q a t') → wp P m Q t

section Takes

variable {p : Program}

theorem takes_condition : Takes p (do requireInt (← popType)) (· = .int) := by
  intro P Q t hs hnil hbad hQ
  refine wp_bind (wp_popType hs hnil fun ty types t₁ htypes m₁ h₁ => ?_)
  exact wp_requireInt (hbad ty types htypes) fun hty => hQ () ty types t₁ htypes hty m₁ h₁

theorem takes_bound (addr : VarAddr) :
    Takes p (do boundToInt; emitVar .storeIntVar addr) (·.isNumeric = true) := by
  intro P Q t hs hnil hbad hQ
  refine wp_bind ?_
  unfold boundToInt
  refine wp_bind (wp_popType hs hnil fun ty types t₁ htypes m₁ h₁ => ?_)
  have hstore : ∀ {t₂ : Compilation}, ty.isNumeric = true → t.Moves p t.code.openLabels t₂ →
      t₂.types = types → wp P (emitVar .storeIntVar addr) Q t₂ := by
    intro t₂ hty m₂ h₂
    refine wp_emitVar m₂.grows.after fun t₃ m₃ h₃ => ?_
    exact hQ () ty types t₃ htypes hty (m₂.labels ▸ m₂.trans m₃) (h₃.trans h₂)
  cases ty with
  | int => exact wp_pure (hstore rfl m₁ h₁)
  | double =>
    exact wp_emit m₁.grows.after fun t₂ m₂ h₂ =>
      hstore rfl (m₁.labels ▸ m₁.trans m₂) (h₂.trans h₁)
  | _ => exact wp_throw (hbad _ types htypes (by decide))

theorem takes_print : Takes p (do emit (printOp (← popType))) fun _ => True := by
  intro P Q t hs hnil hbad hQ
  refine wp_bind (wp_popType hs hnil fun ty types t₁ htypes m₁ h₁ => ?_)
  refine wp_emit m₁.grows.after fun t₂ m₂ h₂ => ?_
  exact hQ () ty types t₂ htypes trivial (m₁.labels ▸ m₁.trans m₂) (h₂.trans h₁)

theorem takes_assign (var : VarInfo) :
    Takes p (do convertTop var.ty; let _ ← popType; storeVar var)
      (·.converts var.ty = true) := by
  intro P Q t hs hnil hbad hQ
  refine wp_bind (wp_convertTop hs hnil
    (fun ty types htypes hty => hbad ty types htypes (by simp [hty]))
    fun ty types t₁ htypes hty m₁ h₁ => ?_)
  refine wp_bind (wp_popType m₁.grows.after (by simp [h₁]) fun ty' types' t₂ h₁' m₂ h₂ => ?_)
  obtain ⟨rfl, rfl⟩ : var.ty = ty' ∧ types = types' := by simpa [h₁] using h₁'
  refine wp_storeVar m₂.grows.after fun t₃ m₃ h₃ => ?_
  have m := (m₁.trans m₂).trans m₃
  rw [m₂.labels, m₁.labels] at m
  exact hQ () ty types t₃ htypes hty m (h₃.trans h₂)

/-- The rest of a compound assignment. -/
theorem takes_update (var : VarInfo) (op : BinaryOp) (e : Ty → Cause) :
    Takes p (do
        loadVar var
        let result ← compileBinary op
        if result ≠ var.ty then
          throw (e result)
        pushType result
        let _ ← popType
        storeVar var)
      (fun ty => op.Combines var.ty ty var.ty) := by
  intro P Q t hs hnil hbad hQ
  refine wp_bind (wp_loadVar hs fun t₁ m₁ h₁ => ?_)
  refine wp_bind (wp_compileBinary m₁.grows.after (fun hlt => hnil ?_) (fun tl tr types h₁' hop => ?_)
    fun tl tr ty types t₂ h₁' hop m₂ h₂ => ?_)
  · rw [h₁, List.length_cons] at hlt
    exact List.eq_nil_of_length_eq_zero (by omega)
  · rw [h₁] at h₁'
    obtain ⟨rfl, htypes⟩ : var.ty = tl ∧ t.types = tr :: types := by simpa using h₁'
    exact hbad tr types htypes (hop _)
  · rw [h₁] at h₁'
    obtain ⟨rfl, htypes⟩ : var.ty = tl ∧ t.types = tr :: types := by simpa using h₁'
    split_ifs with hne
    · exact wp_bind (wp_throw (hbad tr types htypes fun h => hne (hop.unique h)))
    · obtain rfl : ty = var.ty := Classical.not_not.mp hne
      refine wp_bind (wp_pushType m₂.grows.after fun t₃ m₃ h₃ => ?_)
      refine wp_bind (wp_popType m₃.grows.after (by simp [h₃]) fun ty' types' t₄ h₃' m₄ h₄ => ?_)
      rw [h₃, h₂] at h₃'
      obtain ⟨-, rfl⟩ : var.ty = ty' ∧ types = types' := by simpa using h₃'
      refine wp_storeVar m₄.grows.after fun t₅ m₅ h₅ => ?_
      have m := m₁.trans (m₂.trans (m₃.trans (m₄.trans m₅)))
      rw [m₄.labels, m₃.labels, m₂.labels, m₁.labels] at m
      exact hQ () tr types t₅ htypes hop m (h₅.trans h₄)

/-- Under strict returns the value must convert to the declared result. -/
theorem takes_return (c : FunctionContext) : Takes p (compileReturnValue c) fun ty =>
    c.strict = true → ty.converts c.function.result = true := by
  intro P Q t hs hnil hbad hQ
  unfold compileReturnValue
  refine wp_bind (wp_topType hnil fun found types htypes => ?_)
  -- What is left to do once the value has been converted.
  have hrest : ∀ {t₁ : Compilation}, t.Moves p t.code.openLabels t₁ →
      t₁.types = coerced found c.function.result :: types →
      wp P (popType >>= fun converted =>
        if c.strict = true ∧ converted ≠ c.function.result then
          throw (.returnTypeMismatch c.function.result found) >>= fun (_ : PUnit) => emit .ret
        else emit .ret) Q t₁ := by
    intro t₁ m₁ h₁
    refine wp_bind (wp_popType m₁.grows.after (by simp [h₁]) fun ty types' t₂ h₁' m₂ h₂ => ?_)
    obtain ⟨rfl, rfl⟩ : coerced found c.function.result = ty ∧ types = types' := by
      simpa [h₁] using h₁'
    split_ifs with hstrict
    · refine wp_bind (wp_throw (hbad found types htypes fun h => hstrict.2 ?_))
      exact Ty.converts_iff.mp (h hstrict.1)
    · refine wp_emit m₂.grows.after fun t₃ m₃ h₃ => ?_
      have m := (m₁.trans m₂).trans m₃
      rw [m₂.labels, m₁.labels] at m
      refine hQ () found types t₃ htypes (fun hs => Ty.converts_iff.mpr ?_) m (h₃.trans h₂)
      exact Classical.not_not.mp fun hne => hstrict ⟨hs, hne⟩
  dsimp only
  split_ifs with hvoid
  · refine wp_bind (wp_coerceTop hs hnil fun ty types' t₁ htypes' m₁ h₁ => ?_)
    obtain ⟨rfl, rfl⟩ : found = ty ∧ types = types' := by simpa [htypes] using htypes'
    exact hrest m₁ h₁
  · have hkeep : coerced found c.function.result = found := by
      rw [Classical.not_not.mp hvoid]
      cases found <;> rfl
    exact hrest (.of_types hs t.types) (by rw [hkeep]; exact htypes)

end Takes

end StackLang
