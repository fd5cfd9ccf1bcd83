import StackLang.Proofs.Compile.Scopes
import StackLang.Proofs.Typing.Operators

/-!
# Outcomes of nodes

`compileNode_outcome`: where names mean what the tree says, a well-typed phrase compiles unless a
limit is reached, and a phrase that compiles is well typed or has used up types that were there
before. The second half is the whole argument for programs: a statement where a value is needed
leaves one type too few, so something takes a type of those around it (`Balances`), and the
statements of a body start with none.
-/

namespace StackLang

open Compilation
open CompileM

/-! ## Where code begins -/

/-- What is known where the code of a function begins: all scopes inside its body have numbers, and
names looked up there mean what the tree says. -/
structure Begun (c : FunctionContext) (t₀ : Compilation) : Prop where
  numbered : ∀ {sc}, c.source.Below c.function.body.scope sc →
    ∃ id, t₀.symbols.scopeId? sc = some id
  var : ∀ {sc t}, c.source.Below c.function.body.scope sc → t₀.Grows c.source t → ∀ name,
    (t.symbols.lookupVar? c.source sc name).map (·.ty) = (c.source.var? sc name).map (·.2)
  unnamed : ∀ {sc t name}, c.source.Below c.function.body.scope sc → t₀.Grows c.source t →
    t.symbols.lookupFunction? c.source sc name = none → c.source.function? sc name = none
  named : ∀ {sc t name id}, c.source.Below c.function.body.scope sc → t₀.Grows c.source t →
    t.symbols.lookupFunction? c.source sc name = some id →
      ∃ f r, c.source.function? sc name = some f ∧ t.exe.routine? id = some r ∧ r.Declares f
  params : ∀ {sc}, c.source.Below c.function.body.scope sc → ∀ param ∈ c.function.params,
    (c.source.var? sc param.name).isSome = true

/-- A place in the code of a function. -/
structure Inside (c : FunctionContext) (t₀ t : Compilation) : Prop where
  grows : t₀.Grows c.source t
  below : c.source.Below c.function.body.scope t.scope

variable {c : FunctionContext} {t₀ t t' : Compilation}

theorem Inside.sound (h : Inside c t₀ t) : t.Sound c.source := h.grows.after

theorem Inside.moves (h : Inside c t₀ t) {labels : Set Nat} (m : t.Moves c.source labels t') :
    Inside c t₀ t' :=
  ⟨h.grows.trans m.grows, m.scope ▸ h.below⟩

theorem Begun.var?_eq_none (hb : Begun c t₀) (hi : Inside c t₀ t) {name : String}
    (h : t.symbols.lookupVar? c.source t.scope name = none) :
    c.source.var? t.scope name = none := by
  have heq := hb.var hi.below hi.grows name
  rw [h] at heq
  simpa using heq.symm

theorem Begun.exists_var? (hb : Begun c t₀) (hi : Inside c t₀ t) {name : String} {info : VarInfo}
    (h : t.symbols.lookupVar? c.source t.scope name = some info) :
    ∃ x, c.source.var? t.scope name = some (x, info.ty) := by
  have heq := hb.var hi.below hi.grows name
  rw [h, Option.map_some] at heq
  obtain ⟨⟨x, ty⟩, hvar, hty⟩ := Option.map_eq_some_iff.mp heq.symm
  exact ⟨x, hvar.trans (by rw [← hty])⟩

/-! ## What phrases leave -/

/-- The node has a type. -/
def Typable (c : FunctionContext) (sc : ScopeIndex) (n : Node) : Prop :=
  ∃ ty, HasType c sc (.expr n) [ty]

/-- Either `D` holds and the types are as before, or it does not and some of them are used up. -/
def Balances (D : Prop) (types types' : List Ty) : Prop :=
  (D ∧ types' = types) ∨ (¬ D ∧ types ≠ [] ∧ types'.length ≤ types.length)

namespace Balances

variable {D D' : Prop} {types types' types'' : List Ty}

theorem refl (h : D) (types : List Ty) : Balances D types types := .inl ⟨h, rfl⟩

theorem congr (h : Balances D types types') (hD : D ↔ D') : Balances D' types types' := by
  unfold Balances at *
  rwa [← hD]

theorem length_le (h : Balances D types types') : types'.length ≤ types.length := by
  rcases h with ⟨-, rfl⟩ | ⟨-, -, hle⟩
  · exact Nat.le_refl _
  · exact hle

/-- One phrase before another. -/
theorem and (h : Balances D types types') (h' : Balances D' types' types'') :
    Balances (D ∧ D') types types'' := by
  have hle := Nat.le_trans h'.length_le h.length_le
  rcases h with ⟨hd, rfl⟩ | ⟨hd, hne, -⟩
  · rcases h' with ⟨hd', rfl⟩ | ⟨hd', hne, -⟩
    · exact .inl ⟨⟨hd, hd'⟩, rfl⟩
    · exact .inr ⟨fun h => hd' h.2, hne, hle⟩
  · exact .inr ⟨fun h => hd h.1, hne, hle⟩

/-- Nothing can be used up where there is nothing. -/
theorem of_nil (h : Balances D [] types') : D := by
  rcases h with ⟨hd, -⟩ | ⟨-, hne, -⟩
  · exact hd
  · exact absurd rfl hne

end Balances

/-- An expression leaves its type, or it has none and some of those before are used up. -/
def Valued (c : FunctionContext) (sc : ScopeIndex) (n : Node) (types types' : List Ty) : Prop :=
  (∃ ty, HasType c sc (.expr n) [ty] ∧ types' = ty :: types) ∨
    (¬ Typable c sc n ∧ types ≠ [] ∧ types'.length ≤ types.length)

/-- What compiling a node leads to. -/
structure NodeOutcome (c : FunctionContext) (t₀ : Compilation) (n : Node) : Prop where
  expr : n.isExpr = true → ∀ {t : Compilation}, Inside c t₀ t →
    n.wellFormed c.source (fun _ => true) t.scope = true →
      wp (Typable c t.scope n) (compileNode c n) (fun _ t' =>
        t.Moves c.source t.code.openLabels t' ∧ Valued c t.scope n t.types t'.types) t
  stmt : n.isExpr = false → ∀ {t : Compilation}, Inside c t₀ t →
    n.wellFormed c.source (fun _ => true) t.scope = true →
      wp (HasType c t.scope (.stmt n) []) (compileNode c n) (fun _ t' =>
        t.Moves c.source t.code.openLabels t' ∧
          Balances (HasType c t.scope (.stmt n) []) t.types t'.types) t

/-- Only expressions have types. -/
theorem HasType.isExpr {sc : ScopeIndex} {n : Node} {ty : Ty} (h : HasType c sc (.expr n) [ty]) :
    n.isExpr = true := by
  cases h <;> rfl

/-- An expression is a statement if it has a type. -/
theorem hasType_stmt_iff {sc : ScopeIndex} {n : Node} (hn : n.isExpr = true) :
    HasType c sc (.stmt n) [] ↔ Typable c sc n := by
  constructor
  · intro h
    cases h with
    | value h => exact ⟨_, h⟩
    | _ => cases hn
  · rintro ⟨ty, h⟩
    exact .value h

theorem NodeOutcome.of_expr {n : Node} (hn : n.isExpr = true)
    (h : ∀ {t : Compilation}, Inside c t₀ t →
      n.wellFormed c.source (fun _ => true) t.scope = true →
        wp (Typable c t.scope n) (compileNode c n) (fun _ t' =>
          t.Moves c.source t.code.openLabels t' ∧ Valued c t.scope n t.types t'.types) t) :
    NodeOutcome c t₀ n :=
  ⟨fun _ => h, fun hf => absurd (hn.symm.trans hf) (by simp)⟩

theorem NodeOutcome.of_stmt {n : Node} (hn : n.isExpr = false)
    (h : ∀ {t : Compilation}, Inside c t₀ t →
      n.wellFormed c.source (fun _ => true) t.scope = true →
        wp (HasType c t.scope (.stmt n) []) (compileNode c n) (fun _ t' =>
          t.Moves c.source t.code.openLabels t' ∧
            Balances (HasType c t.scope (.stmt n) []) t.types t'.types) t) :
    NodeOutcome c t₀ n :=
  ⟨fun ht => absurd (hn.symm.trans ht) (by simp), fun _ => h⟩

/-! ## Operands -/

section Operands

variable {P : Prop} {n : Node}

/-- A node where a value is needed leaves its type, or it has none and leaves no more types. -/
theorem NodeOutcome.operand (h : NodeOutcome c t₀ n) (hi : Inside c t₀ t)
    (hn : n.wellFormed c.source (fun _ => true) t.scope = true) {Q : Unit → Compilation → Prop}
    (hP : P → Typable c t.scope n)
    (hgood : ∀ ty t', HasType c t.scope (.expr n) [ty] → t.Moves c.source t.code.openLabels t' →
      t'.types = ty :: t.types → Q () t')
    (hbad : ∀ t', ¬ Typable c t.scope n → t.Moves c.source t.code.openLabels t' →
      t'.types.length ≤ t.types.length → Q () t') : wp P (compileNode c n) Q t := by
  cases hexpr : n.isExpr with
  | true =>
    refine wp_mono (h.expr hexpr hi hn) hP fun _ t' hleft => ?_
    obtain ⟨m, ⟨ty, hty, htypes⟩ | ⟨hnone, -, hle⟩⟩ := hleft
    · exact hgood ty t' hty m htypes
    · exact hbad t' hnone m hle
  | false =>
    have hnone : ¬ Typable c t.scope n := by
      rintro ⟨ty, hty⟩
      exact absurd (hexpr.symm.trans hty.isExpr) (by simp)
    refine wp_mono (h.stmt hexpr hi hn) (fun hp => absurd (hP hp) hnone) fun _ t' hleft => ?_
    exact hbad t' hnone hleft.1 hleft.2.length_le

/-- A value that is taken at once. -/
theorem NodeOutcome.taken {α : Type} {m : CompileM α} {accepts : Ty → Prop}
    (h : NodeOutcome c t₀ n) (hm : Takes c.source m accepts) (hi : Inside c t₀ t)
    (hn : n.wellFormed c.source (fun _ => true) t.scope = true) {Q : α → Compilation → Prop}
    (hP : P → ∃ ty, HasType c t.scope (.expr n) [ty] ∧ accepts ty)
    (hQ : ∀ a t', t.Moves c.source t.code.openLabels t' →
      Balances (∃ ty, HasType c t.scope (.expr n) [ty] ∧ accepts ty) t.types t'.types → Q a t') :
    wp P (compileNode c n >>= fun _ => m) Q t := by
  refine wp_bind (h.operand hi hn (fun hp => (hP hp).imp fun _ => And.left)
    (fun ty t₁ hty m₁ h₁ => ?_) fun t₁ hnone m₁ hle => ?_)
  · refine hm m₁.grows.after (by simp [h₁]) (fun ty' types h₁' hrefused hp => ?_)
      fun a ty' types t₂ h₁' haccepts m₂ h₂ => ?_
    · obtain ⟨rfl, -⟩ : ty = ty' ∧ t.types = types := by simpa [h₁] using h₁'
      obtain ⟨ty', hty', haccepts⟩ := hP hp
      exact hrefused (hty.expr_unique hty' ▸ haccepts)
    · obtain ⟨rfl, rfl⟩ : ty = ty' ∧ t.types = types := by simpa [h₁] using h₁'
      exact hQ a t₂ (m₁.labels ▸ m₁.trans m₂) (.inl ⟨⟨ty, hty, haccepts⟩, h₂⟩)
  · have hno : ¬ ∃ ty, HasType c t.scope (.expr n) [ty] ∧ accepts ty := by
      rintro ⟨ty, hty, -⟩
      exact hnone ⟨ty, hty⟩
    refine hm m₁.grows.after (fun _ hp => hno (hP hp)) (fun _ _ _ _ hp => hno (hP hp))
      fun a ty types t₂ h₁ _ m₂ h₂ => ?_
    rw [h₁, List.length_cons] at hle
    refine hQ a t₂ (m₁.labels ▸ m₁.trans m₂) (.inr ⟨hno, fun hnil => ?_, by rw [h₂]; omega⟩)
    simp [hnil] at hle

/-- A value that is taken, with more to come. -/
theorem NodeOutcome.taken_then {α β : Type} {m : CompileM α} {f : α → CompileM β}
    {accepts : Ty → Prop} (h : NodeOutcome c t₀ n) (hm : Takes c.source m accepts)
    (hi : Inside c t₀ t) (hn : n.wellFormed c.source (fun _ => true) t.scope = true)
    {Q : β → Compilation → Prop}
    (hP : P → ∃ ty, HasType c t.scope (.expr n) [ty] ∧ accepts ty)
    (hQ : ∀ a t', t.Moves c.source t.code.openLabels t' →
      Balances (∃ ty, HasType c t.scope (.expr n) [ty] ∧ accepts ty) t.types t'.types →
        wp P (f a) Q t') :
    wp P (compileNode c n >>= fun _ => m >>= f) Q t := by
  rw [← bind_assoc]
  exact wp_bind (h.taken hm hi hn hP hQ)

/-- The condition of a branch or a loop. -/
theorem NodeOutcome.condition {β : Type} {rest : CompileM β} (h : NodeOutcome c t₀ n)
    (hi : Inside c t₀ t) (hn : n.wellFormed c.source (fun _ => true) t.scope = true)
    {Q : β → Compilation → Prop} (hP : P → HasType c t.scope (.expr n) [.int])
    (hQ : ∀ t', t.Moves c.source t.code.openLabels t' →
      Balances (HasType c t.scope (.expr n) [.int]) t.types t'.types → wp P rest Q t') :
    wp P (compileNode c n >>= fun _ => popType >>= fun ty => requireInt ty >>= fun _ => rest) Q t := by
  have htake := h.taken_then (f := fun _ => rest) takes_condition hi hn (Q := Q) (P := P)
    (fun hp => ⟨_, hP hp, rfl⟩) fun _ t' m hb => hQ t' m (hb.congr ?_)
  · rwa [bind_assoc] at htake
  · simp

/-- A bound of a range, and the slot that it is stored to. -/
theorem NodeOutcome.bound {β : Type} {rest : CompileM β} (h : NodeOutcome c t₀ n)
    (hi : Inside c t₀ t) (hn : n.wellFormed c.source (fun _ => true) t.scope = true)
    {addr : VarAddr} {Q : β → Compilation → Prop}
    (hP : P → ∃ ty, HasType c t.scope (.expr n) [ty] ∧ ty.isNumeric = true)
    (hQ : ∀ t', t.Moves c.source t.code.openLabels t' →
      Balances (∃ ty, HasType c t.scope (.expr n) [ty] ∧ ty.isNumeric = true) t.types t'.types →
        wp P rest Q t') :
    wp P (compileNode c n >>= fun _ => boundToInt >>= fun _ => emitVar .storeIntVar addr >>=
      fun _ => rest) Q t := by
  have htake := h.taken_then (f := fun _ => rest) (takes_bound addr) hi hn (Q := Q) hP
    fun _ t' m hb => hQ t' m hb
  rwa [bind_assoc] at htake

end Operands

/-! ## Constants, variables and operators -/

theorem outcome_int (n : Int64) : NodeOutcome c t₀ (.int n) := by
  refine .of_expr rfl fun {t} hi _ => ?_
  rw [compileNode]
  refine wp_bind (wp_emit hi.sound fun t₁ m₁ h₁ => ?_)
  refine wp_bind (wp_writeBytes m₁.grows.after fun t₂ m₂ h₂ => ?_)
  refine wp_pushType m₂.grows.after fun t₃ m₃ h₃ => ?_
  have m := (m₁.trans m₂).trans m₃
  rw [m₂.labels, m₁.labels] at m
  exact ⟨m, .inl ⟨.int, .int, by rw [h₃, h₂, h₁]⟩⟩

theorem outcome_double (d : Double) : NodeOutcome c t₀ (.double d) := by
  refine .of_expr rfl fun {t} hi _ => ?_
  rw [compileNode]
  refine wp_bind (wp_emit hi.sound fun t₁ m₁ h₁ => ?_)
  refine wp_bind (wp_writeBytes m₁.grows.after fun t₂ m₂ h₂ => ?_)
  refine wp_pushType m₂.grows.after fun t₃ m₃ h₃ => ?_
  have m := (m₁.trans m₂).trans m₃
  rw [m₂.labels, m₁.labels] at m
  exact ⟨m, .inl ⟨.double, .double, by rw [h₃, h₂, h₁]⟩⟩

theorem outcome_string (s : String) : NodeOutcome c t₀ (.string s) := by
  refine .of_expr rfl fun {t} hi _ => ?_
  rw [compileNode]
  refine wp_bind (wp_intern hi.sound fun id t₁ m₁ h₁ => ?_)
  refine wp_bind (wp_emit m₁.grows.after fun t₂ m₂ h₂ => ?_)
  refine wp_bind (wp_writeBytes m₂.grows.after fun t₃ m₃ h₃ => ?_)
  refine wp_pushType m₃.grows.after fun t₄ m₄ h₄ => ?_
  have m := ((m₁.trans m₂).trans m₃).trans m₄
  rw [m₃.labels, m₂.labels, m₁.labels] at m
  exact ⟨m, .inl ⟨.string, .string, by rw [h₄, h₃, h₂, h₁]⟩⟩

theorem outcome_load (hb : Begun c t₀) (name : String) : NodeOutcome c t₀ (.load name) := by
  refine .of_expr rfl fun {t} hi _ => ?_
  rw [compileNode]
  refine wp_bind (wp_resolveVar (fun hnone => ?_) fun info hlook => ?_)
  · rintro ⟨ty, hty⟩
    cases hty with
    | load hvar =>
      rw [hb.var?_eq_none hi hnone] at hvar
      cases hvar
  · obtain ⟨x, hvar⟩ := hb.exists_var? hi hlook
    exact wp_loadVar hi.sound fun t₁ m₁ h₁ => ⟨m₁, .inl ⟨info.ty, .load hvar, h₁⟩⟩

theorem outcome_unary {op : UnaryOp} {operand : Node} (ho : NodeOutcome c t₀ operand) :
    NodeOutcome c t₀ (.unary op operand) := by
  refine .of_expr rfl fun {t} hi hn => ?_
  rw [Node.wellFormed] at hn
  rw [compileNode]
  have hinv : ∀ {ty : Ty}, HasType c t.scope (.expr (.unary op operand)) [ty] →
      HasType c t.scope (.expr operand) [ty] ∧ op.takes ty = true := by
    intro ty h
    cases h with
    | unary h hty => exact ⟨h, hty⟩
  refine wp_bind (ho.operand hi hn (fun h => h.imp fun _ h => (hinv h).1)
    (fun ty t₁ hty m₁ h₁ => ?_) fun t₁ hnone m₁ hle => ?_)
  · refine wp_bind (wp_compileUnary m₁.grows.after (by simp [h₁]) (fun ty' types h₁' hbad => ?_)
      fun ty' types t₂ h₁' htakes m₂ h₂ => ?_)
    · obtain ⟨rfl, -⟩ : ty = ty' ∧ t.types = types := by simpa [h₁] using h₁'
      rintro ⟨ty', h⟩
      obtain ⟨h, htakes⟩ := hinv h
      rw [hty.expr_unique h, htakes] at hbad
      cases hbad
    · obtain ⟨rfl, rfl⟩ : ty = ty' ∧ t.types = types := by simpa [h₁] using h₁'
      refine wp_pushType m₂.grows.after fun t₃ m₃ h₃ => ?_
      have m := (m₁.trans m₂).trans m₃
      rw [m₂.labels, m₁.labels] at m
      exact ⟨m, .inl ⟨ty, .unary hty htakes, by rw [h₃, h₂]⟩⟩
  · have hno : ¬ Typable c t.scope (.unary op operand) := by
      rintro ⟨ty, h⟩
      exact hnone ⟨ty, (hinv h).1⟩
    refine wp_bind (wp_compileUnary m₁.grows.after (fun _ => hno) (fun _ _ _ _ => hno)
      fun ty types t₂ h₁ _ m₂ h₂ => ?_)
    refine wp_pushType m₂.grows.after fun t₃ m₃ h₃ => ?_
    have m := (m₁.trans m₂).trans m₃
    rw [m₂.labels, m₁.labels] at m
    rw [h₁, List.length_cons] at hle
    refine ⟨m, .inr ⟨hno, fun hnil => ?_, ?_⟩⟩
    · simp [hnil] at hle
    · rw [h₃, h₂, List.length_cons]
      exact hle

theorem outcome_binary {op : BinaryOp} {left right : Node} (hl : NodeOutcome c t₀ left)
    (hr : NodeOutcome c t₀ right) : NodeOutcome c t₀ (.binary op left right) := by
  refine .of_expr rfl fun {t} hi hn => ?_
  rw [Node.wellFormed, Bool.and_eq_true] at hn
  rw [compileNode]
  have hinv : ∀ {ty : Ty}, HasType c t.scope (.expr (.binary op left right)) [ty] →
      ∃ tl tr, HasType c t.scope (.expr left) [tl] ∧ HasType c t.scope (.expr right) [tr] ∧
        op.Combines tl tr ty := by
    intro ty h
    cases h with
    | binary hl hr hop => exact ⟨_, _, hl, hr, hop⟩
  split_ifs with hrange
  · refine wp_bind (wp_throw ?_)
    rintro ⟨ty, h⟩
    obtain ⟨tl, tr, -, -, hop⟩ := hinv h
    rw [hrange] at hop
    rcases hop with ⟨hop, -, -⟩ | ⟨hop, -, -⟩ | hop <;> cases hop
  -- What is left to do when the operands have been compiled.
  have hrest : ∀ {t₂ : Compilation}, t.Moves c.source t.code.openLabels t₂ →
      (∃ tl tr, HasType c t.scope (.expr left) [tl] ∧ HasType c t.scope (.expr right) [tr] ∧
          t₂.types = tl :: tr :: t.types) ∨
        (¬ Typable c t.scope (.binary op left right) ∧ t₂.types.length ≤ t.types.length + 1) →
      wp (Typable c t.scope (.binary op left right))
        (compileBinary op >>= fun ty => pushType ty) (fun _ t' =>
          t.Moves c.source t.code.openLabels t' ∧
            Valued c t.scope (.binary op left right) t.types t'.types) t₂ := by
    rintro t₂ m₂ (⟨tl, tr, htl, htr, h₂⟩ | ⟨hno, hle⟩)
    · refine wp_bind (wp_compileBinary m₂.grows.after (by simp [h₂])
        (fun tl' tr' types h₂' hbad => ?_) fun tl' tr' ty types t₃ h₂' hop m₃ h₃ => ?_)
      · rw [h₂] at h₂'
        cases h₂'
        rintro ⟨ty, h⟩
        obtain ⟨tl', tr', htl', htr', hop⟩ := hinv h
        rw [← htl.expr_unique htl', ← htr.expr_unique htr'] at hop
        exact hbad ty hop
      · obtain ⟨rfl, rfl, rfl⟩ : tl = tl' ∧ tr = tr' ∧ t.types = types := by simpa [h₂] using h₂'
        refine wp_pushType m₃.grows.after fun t₄ m₄ h₄ => ?_
        have m := (m₂.trans m₃).trans m₄
        rw [m₃.labels, m₂.labels] at m
        exact ⟨m, .inl ⟨ty, .binary htl htr hop, by rw [h₄, h₃]⟩⟩
    · refine wp_bind (wp_compileBinary m₂.grows.after (fun _ => hno) (fun _ _ _ _ _ => hno)
        fun tl tr ty types t₃ h₂ _ m₃ h₃ => ?_)
      refine wp_pushType m₃.grows.after fun t₄ m₄ h₄ => ?_
      have m := (m₂.trans m₃).trans m₄
      rw [m₃.labels, m₂.labels] at m
      rw [h₂, List.length_cons, List.length_cons] at hle
      refine ⟨m, .inr ⟨hno, fun hnil => ?_, ?_⟩⟩
      · simp [hnil] at hle
      · rw [h₄, h₃, List.length_cons]
        omega
  have hright : Typable c t.scope (.binary op left right) → Typable c t.scope right := by
    rintro ⟨ty, h⟩
    obtain ⟨tl, tr, -, htr, -⟩ := hinv h
    exact ⟨tr, htr⟩
  have hleft : Typable c t.scope (.binary op left right) → Typable c t.scope left := by
    rintro ⟨ty, h⟩
    obtain ⟨tl, tr, htl, -, -⟩ := hinv h
    exact ⟨tl, htl⟩
  refine wp_bind (hr.operand hi hn.2 hright (fun tr t₁ htr m₁ h₁ => ?_) fun t₁ hnone m₁ hle => ?_)
  · refine wp_bind (hl.operand (hi.moves m₁) (m₁.scope ▸ hn.1) (m₁.scope ▸ hleft)
      (fun tl t₂ htl m₂ h₂ => ?_) fun t₂ hnone m₂ hle => ?_)
    · rw [m₁.scope] at htl
      exact hrest (m₁.labels ▸ m₁.trans m₂) (.inl ⟨tl, tr, htl, htr, by rw [h₂, h₁]⟩)
    · rw [m₁.scope] at hnone
      rw [h₁, List.length_cons] at hle
      exact hrest (m₁.labels ▸ m₁.trans m₂) (.inr ⟨fun h => hnone (hleft h), hle⟩)
  · have hno : ¬ Typable c t.scope (.binary op left right) := fun h => hnone (hright h)
    refine wp_bind (hl.operand (hi.moves m₁) (m₁.scope ▸ hn.1) (m₁.scope ▸ hleft)
      (fun tl t₂ htl m₂ h₂ => ?_) fun t₂ _ m₂ hle' => ?_)
    · exact hrest (m₁.labels ▸ m₁.trans m₂) (.inr ⟨hno, by rw [h₂, List.length_cons]; omega⟩)
    · exact hrest (m₁.labels ▸ m₁.trans m₂) (.inr ⟨hno, by omega⟩)

/-! ## Calls -/

/-- What compiling the arguments of a call leads to. -/
def ArgsOutcome (c : FunctionContext) (t₀ : Compilation) (args : List Node) : Prop :=
  ∀ {tys : List Ty} {t : Compilation}, args.length = tys.length → Inside c t₀ t →
    Node.allWellFormed c.source (fun _ => true) t.scope args = true →
      wp (HasType c t.scope (.args args) tys) (compileArgs c args tys) (fun _ t' =>
        t.Moves c.source t.code.openLabels t' ∧
          ((HasType c t.scope (.args args) tys ∧ t'.types = tys ++ t.types) ∨
            (¬ HasType c t.scope (.args args) tys ∧
              t'.types.length < t.types.length + args.length))) t

theorem outcome_argsNil : ArgsOutcome c t₀ [] := by
  intro tys t hlen hi _
  obtain rfl := List.eq_nil_of_length_eq_zero hlen.symm
  rw [compileArgs]
  · exact ⟨.of_types hi.sound t.types, .inl ⟨.argsNil, rfl⟩⟩
  · simp

theorem outcome_argsCons {arg : Node} {args : List Node} (ha : NodeOutcome c t₀ arg)
    (has : ArgsOutcome c t₀ args) : ArgsOutcome c t₀ (arg :: args) := by
  intro tys t hlen hi hn
  rw [Node.allWellFormed, Bool.and_eq_true] at hn
  cases tys with
  | nil => simp at hlen
  | cons ty tys =>
    rw [compileArgs]
    have hinv : HasType c t.scope (.args (arg :: args)) (ty :: tys) →
        (∃ found, HasType c t.scope (.expr arg) [found] ∧ found.converts ty = true) ∧
          HasType c t.scope (.args args) tys := by
      intro h
      cases h with
      | argsCons harg hty hargs => exact ⟨⟨_, harg, hty⟩, hargs⟩
    refine wp_bind (wp_mono (has (Nat.succ.inj hlen) hi hn.2) (fun h => (hinv h).2)
      fun _ t₁ hleft => ?_)
    obtain ⟨m₁, h₁⟩ := hleft
    have hlen₁ : t₁.types.length ≤ t.types.length + args.length := by
      rcases h₁ with ⟨-, h₁⟩ | ⟨-, hlt⟩
      · rw [h₁, List.length_append, ← Nat.succ.inj hlen]
        omega
      · omega
    have hconverted : HasType c t.scope (.args (arg :: args)) (ty :: tys) →
        Typable c t.scope arg := by
      intro h
      obtain ⟨⟨found, harg, -⟩, -⟩ := hinv h
      exact ⟨found, harg⟩
    refine wp_bind (ha.operand (hi.moves m₁) (m₁.scope ▸ hn.1) (m₁.scope ▸ hconverted)
      (fun found t₂ hfound m₂ h₂ => ?_) fun t₂ hnone m₂ hle => ?_)
    · rw [m₁.scope] at hfound
      refine wp_convertTop m₂.grows.after (by simp [h₂]) (fun found' types h₂' hbad h => ?_)
        fun found' types t₃ h₂' hty m₃ h₃ => ?_
      · obtain ⟨rfl, -⟩ : found = found' ∧ t₁.types = types := by simpa [h₂] using h₂'
        obtain ⟨⟨found', hfound', hty⟩, -⟩ := hinv h
        rw [hfound.expr_unique hfound', hty] at hbad
        cases hbad
      · obtain ⟨rfl, rfl⟩ : found = found' ∧ t₁.types = types := by simpa [h₂] using h₂'
        have m := (m₁.trans m₂).trans m₃
        rw [m₂.labels, m₁.labels] at m
        refine ⟨m, ?_⟩
        rcases h₁ with ⟨hargs, h₁⟩ | ⟨hargs, hlt⟩
        · exact .inl ⟨.argsCons hfound hty hargs, by rw [h₃, h₁, List.cons_append]⟩
        · refine .inr ⟨fun h => hargs (hinv h).2, ?_⟩
          rw [h₃, List.length_cons, List.length_cons]
          omega
    · rw [m₁.scope] at hnone
      have hno : ¬ HasType c t.scope (.args (arg :: args)) (ty :: tys) := fun h =>
        hnone (hconverted h)
      refine wp_convertTop m₂.grows.after (fun _ => hno) (fun _ _ _ _ => hno)
        fun found types t₃ h₂ _ m₃ h₃ => ?_
      have m := (m₁.trans m₂).trans m₃
      rw [m₂.labels, m₁.labels] at m
      refine ⟨m, .inr ⟨hno, ?_⟩⟩
      rw [h₂, List.length_cons] at hle
      rw [h₃, List.length_cons, List.length_cons]
      omega

theorem HasType.length_args {sc : ScopeIndex} {args : List Node} {tys : List Ty}
    (h : HasType c sc (.args args) tys) : args.length = tys.length := by
  induction args generalizing tys with
  | nil =>
    cases h
    rfl
  | cons arg args ih =>
    cases h with
    | argsCons _ _ hargs => rw [List.length_cons, List.length_cons, ih hargs]

theorem outcome_call (hb : Begun c t₀) (name : String) {args : List Node}
    (has : ArgsOutcome c t₀ args) : NodeOutcome c t₀ (.call name args) := by
  refine .of_expr rfl fun {t} hi hn => ?_
  rw [Node.wellFormed, Bool.and_eq_true] at hn
  rw [compileNode]
  have hinv : ∀ {f : FunctionDecl}, c.source.function? t.scope name = some f →
      Typable c t.scope (.call name args) →
        HasType c t.scope (.args args) (f.params.map (·.ty)) := by
    rintro f hfun ⟨ty, h⟩
    cases h with
    | call hfun' hargs =>
      rw [hfun] at hfun'
      cases hfun'
      exact hargs
  refine wp_bind ?_
  unfold resolveFunction
  refine wp_bind (wp_get ?_)
  cases hlook : t.symbols.lookupFunction? c.source t.scope name with
  | none =>
    refine wp_throw ?_
    rintro ⟨ty, h⟩
    cases h with
    | call hfun _ =>
      rw [hb.unnamed hi.below hi.grows hlook] at hfun
      cases hfun
  | some id =>
    obtain ⟨f, callee, hfun, hcallee, hdecl⟩ := hb.named hi.below hi.grows hlook
    dsimp only
    rw [hcallee]
    refine wp_pure ?_
    dsimp only
    have harity : callee.arity = (f.params.map (·.ty)).length := by rw [Routine.arity, hdecl.params]
    split_ifs with hcount
    · refine wp_bind (wp_throw fun h => hcount ?_)
      rw [harity, (hinv hfun h).length_args]
    · have hlen : args.length = callee.params.length := (Classical.not_not.mp hcount).symm
      refine wp_bind (wp_mono (has hlen hi hn.2) (fun h => hdecl.params ▸ hinv hfun h)
        fun _ t₁ hleft => ?_)
      obtain ⟨m₁, h₁⟩ := hleft
      refine wp_bind (wp_emit m₁.grows.after fun t₂ m₂ h₂ => ?_)
      refine wp_bind (wp_writeBytes m₂.grows.after fun t₃ m₃ h₃ => ?_)
      have htypes : t₃.types = t₁.types := h₃.trans h₂
      have hno : ¬ HasType c t.scope (.args args) callee.params →
          ¬ Typable c t.scope (.call name args) := fun hargs h =>
        hargs (hdecl.params ▸ hinv hfun h)
      refine wp_bind (wp_popTypes m₃.grows.after (fun hlt => ?_) fun t₄ hle m₄ h₄ => ?_)
      · rcases h₁ with ⟨-, h₁⟩ | ⟨hargs, -⟩
        · rw [htypes, h₁, List.length_append, Routine.arity] at hlt
          omega
        · exact hno hargs
      · refine wp_pushType m₄.grows.after fun t₅ m₅ h₅ => ?_
        have m := m₁.trans (m₂.trans (m₃.trans (m₄.trans m₅)))
        rw [m₄.labels, m₃.labels, m₂.labels, m₁.labels] at m
        refine ⟨m, ?_⟩
        rw [htypes] at hle h₄
        rcases h₁ with ⟨hargs, h₁⟩ | ⟨hargs, hlt⟩
        · refine .inl ⟨f.result, .call hfun (hdecl.params ▸ hargs), ?_⟩
          rw [h₅, h₄, h₁, hdecl.result, Routine.arity, List.drop_left]
        · rw [hlen] at hlt
          rw [Routine.arity] at hle h₄
          refine .inr ⟨hno hargs, fun hnil => ?_, ?_⟩
          · rw [hnil, List.length_nil] at hlt
            omega
          · rw [h₅, h₄, List.length_cons, List.length_drop]
            omega

/-! ## Assignments and returns -/

theorem outcome_store (hb : Begun c t₀) (name : String) (op : AssignOp) {value : Node}
    (hv : NodeOutcome c t₀ value) : NodeOutcome c t₀ (.store name op value) := by
  refine .of_stmt rfl fun {t} hi hn => ?_
  rw [Node.wellFormed] at hn
  rw [compileNode]
  refine wp_bind (wp_resolveVar (fun hnone h => ?_) fun info hlook => ?_)
  · have hvar := hb.var?_eq_none hi hnone
    cases h with
    | value h => cases h
    | assign hvar' _ _ => simp [hvar] at hvar'
    | update _ hvar' _ _ => simp [hvar] at hvar'
  obtain ⟨x, hvar⟩ := hb.exists_var? hi hlook
  have hassign : HasType c t.scope (.stmt (.store name .assign value)) [] ↔
      ∃ ty, HasType c t.scope (.expr value) [ty] ∧ ty.converts info.ty = true := by
    refine ⟨fun h => ?_, fun h => h.elim fun _ h => .assign hvar h.1 h.2⟩
    cases h with
    | value h => cases h
    | assign hvar' h hty =>
      rw [hvar] at hvar'
      cases hvar'
      exact ⟨_, h, hty⟩
    | update hop _ _ _ => cases hop
  have hupdate : ∀ {op : AssignOp} {binary : BinaryOp}, op.binary = some binary →
      (HasType c t.scope (.stmt (.store name op value)) [] ↔
        ∃ ty, HasType c t.scope (.expr value) [ty] ∧ binary.Combines info.ty ty info.ty) := by
    intro op binary hop
    refine ⟨fun h => ?_, fun h => h.elim fun _ h => .update hop hvar h.1 h.2⟩
    cases h with
    | value h => cases h
    | assign _ _ _ => cases hop
    | update hop' hvar' h hty =>
      rw [hvar] at hvar'
      cases hvar'
      rw [hop] at hop'
      cases hop'
      exact ⟨_, h, hty⟩
  cases op with
  | assign =>
    exact hv.taken (takes_assign info) hi hn hassign.mp fun _ t' m b => ⟨m, b.congr hassign.symm⟩
  | addAssign =>
    exact hv.taken (takes_update info .add _) hi hn (hupdate rfl).mp fun _ t' m b =>
      ⟨m, b.congr (hupdate rfl).symm⟩
  | subAssign =>
    exact hv.taken (takes_update info .sub _) hi hn (hupdate rfl).mp fun _ t' m b =>
      ⟨m, b.congr (hupdate rfl).symm⟩

theorem outcome_ret : NodeOutcome c t₀ (.ret none) := by
  refine .of_stmt rfl fun {t} hi _ => ?_
  rw [compileNode]
  split_ifs with hstrict
  · refine wp_bind (wp_throw fun h => ?_)
    cases h with
    | value h => cases h
    | ret h => exact hstrict.2 (h hstrict.1)
  · refine wp_emit hi.sound fun t₁ m₁ h₁ => ⟨m₁, .inl ⟨.ret fun hs => ?_, h₁⟩⟩
    exact Classical.not_not.mp fun hne => hstrict ⟨hs, hne⟩

theorem outcome_retValue {value : Node} (hv : NodeOutcome c t₀ value) :
    NodeOutcome c t₀ (.ret (some value)) := by
  refine .of_stmt rfl fun {t} hi hn => ?_
  rw [Node.wellFormed] at hn
  rw [compileNode]
  have hiff : HasType c t.scope (.stmt (.ret (some value))) [] ↔ ∃ ty,
      HasType c t.scope (.expr value) [ty] ∧
        (c.strict = true → ty.converts c.function.result = true) := by
    refine ⟨fun h => ?_, fun h => h.elim fun _ h => .retValue h.1 h.2⟩
    cases h with
    | value h => cases h
    | retValue h hty => exact ⟨_, h, hty⟩
  exact hv.taken (takes_return c) hi hn hiff.mp fun _ t' m b => ⟨m, b.congr hiff.symm⟩

/-! ## Statements, blocks and lists of operands -/

/-- What compiling a phrase that leaves nothing leads to. -/
def BodyOutcome (c : FunctionContext) (t₀ : Compilation) (phrase : Phrase)
    (nested : ScopeIndex → Bool) (m : CompileM Unit) : Prop :=
  ∀ {t : Compilation}, Inside c t₀ t → nested t.scope = true →
    wp (HasType c t.scope phrase []) m (fun _ t' => t.Moves c.source t.code.openLabels t' ∧
      Balances (HasType c t.scope phrase []) t.types t'.types) t

abbrev OperandsOutcome (c : FunctionContext) (t₀ : Compilation) (operands : List Node) : Prop :=
  BodyOutcome c t₀ (.operands operands)
    (fun sc => Node.allWellFormed c.source (fun _ => true) sc operands) (compileOperands c operands)

abbrev StmtsOutcome (c : FunctionContext) (t₀ : Compilation) (statements : List Node) : Prop :=
  BodyOutcome c t₀ (.stmts statements)
    (fun sc => Node.allWellFormed c.source (fun _ => true) sc statements)
    (compileStatements c statements)

abbrev BlockOutcome (c : FunctionContext) (t₀ : Compilation) (b : Block) : Prop :=
  BodyOutcome c t₀ (.block b) (fun sc => b.wellFormed c.source (fun _ => true) sc)
    (compileBlock c b)

theorem outcome_operandsNil : OperandsOutcome c t₀ [] := by
  intro t hi _
  rw [compileOperands]
  exact ⟨.of_types hi.sound t.types, .refl .operandsNil _⟩

theorem outcome_operandsCons {operand : Node} {operands : List Node}
    (ho : NodeOutcome c t₀ operand) (hos : OperandsOutcome c t₀ operands) :
    OperandsOutcome c t₀ (operand :: operands) := by
  intro t hi hn
  dsimp only at hn
  rw [Node.allWellFormed, Bool.and_eq_true] at hn
  rw [compileOperands]
  have hiff : ((∃ ty, HasType c t.scope (.expr operand) [ty] ∧ True) ∧
      HasType c t.scope (.operands operands) []) ↔
        HasType c t.scope (.operands (operand :: operands)) [] := by
    refine ⟨fun h => h.1.elim fun _ h' => .operandsCons h'.1 h.2, fun h => ?_⟩
    cases h with
    | operandsCons h h' => exact ⟨⟨_, h, trivial⟩, h'⟩
  have htake := ho.taken_then (f := fun _ => compileOperands c operands) takes_print hi hn.1
    (P := HasType c t.scope (.operands (operand :: operands)) [])
    (Q := fun _ t' => t.Moves c.source t.code.openLabels t' ∧
      Balances (HasType c t.scope (.operands (operand :: operands)) []) t.types t'.types)
    (fun h => (hiff.mpr h).1) fun _ t₁ m₁ b₁ => ?_
  · rwa [bind_assoc] at htake
  · have hrest := hos (hi.moves m₁) (m₁.scope ▸ hn.2)
    rw [m₁.scope] at hrest
    refine wp_mono hrest (fun h => (hiff.mpr h).2) fun _ t₂ hleft => ?_
    exact ⟨m₁.labels ▸ m₁.trans hleft.1, (b₁.and hleft.2).congr hiff⟩

theorem outcome_print {operands : List Node} (hos : OperandsOutcome c t₀ operands) :
    NodeOutcome c t₀ (.print operands) := by
  refine .of_stmt rfl fun {t} hi hn => ?_
  rw [Node.wellFormed] at hn
  rw [compileNode]
  have hiff : HasType c t.scope (.operands operands) [] ↔
      HasType c t.scope (.stmt (.print operands)) [] := by
    refine ⟨.print, fun h => ?_⟩
    cases h with
    | value h => cases h
    | print h => exact h
  exact wp_mono (hos hi hn) hiff.mpr fun _ t' h => ⟨h.1, h.2.congr hiff⟩

theorem outcome_blockMk (hb : Begun c t₀) {inner : ScopeIndex} {statements : List Node}
    (hs : StmtsOutcome c t₀ statements) : BlockOutcome c t₀ (.mk inner statements) := by
  intro t hi hn
  obtain ⟨⟨s, hscope, hmem⟩, hn⟩ := Block.scope_of_wellFormed hn
  have hbelow : c.source.Below c.function.body.scope inner := .child hi.below hscope hmem
  rw [compileBlock]
  have hiff : HasType c inner (.stmts statements) [] ↔
      HasType c t.scope (.block (.mk inner statements)) [] := by
    refine ⟨.blockMk, fun h => ?_⟩
    cases h with
    | blockMk h => exact h
  refine wp_bind (wp_intro (fun outer t₁ he => ?_) fun e he _ => ?_)
  · obtain ⟨rfl, hinner, htypes, hcode, hgrows, -⟩ := enterBlock_ok hi.sound he
    have hrest := hs (t := t₁) ⟨hi.grows.trans hgrows, hinner ▸ hbelow⟩ (by dsimp only; rwa [hinner])
    rw [hinner, hcode, htypes] at hrest
    refine wp_bind (wp_mono hrest hiff.mpr fun _ t₂ hleft => ?_)
    obtain ⟨m₂, b₂⟩ := hleft
    refine ⟨⟨hgrows.trans (m₂.grows.trans ?_), rfl, m₂.labels⟩, b₂.congr hiff⟩
    exact .of_code m₂.grows.after (.refl m₂.grows.after.code) t₂.types t.scope
  · obtain ⟨id, hid⟩ := hb.numbered hbelow
    have henter : wp True (enterBlock c inner) (fun _ _ => True) t := by
      unfold enterBlock
      exact wp_bind (wp_numberScope (hi.grows.symbols.scopeIds hid) trivial)
    exact wp_of_error henter he trivial

theorem outcome_block {body : Block} (hb : BlockOutcome c t₀ body) :
    NodeOutcome c t₀ (.block body) := by
  refine .of_stmt rfl fun {t} hi hn => ?_
  rw [Node.wellFormed] at hn
  rw [compileNode]
  have hiff : HasType c t.scope (.block body) [] ↔ HasType c t.scope (.stmt (.block body)) [] := by
    refine ⟨.inner, fun h => ?_⟩
    cases h with
    | value h => cases h
    | inner h => exact h
  exact wp_mono (hb hi hn) hiff.mpr fun _ t' h => ⟨h.1, h.2.congr hiff⟩

theorem outcome_stmtsNil : StmtsOutcome c t₀ [] := by
  intro t hi _
  rw [compileStatements]
  exact ⟨.of_types hi.sound t.types, .refl .stmtsNil _⟩

/-- A node in statement position. What an expression leaves is dropped. -/
theorem NodeOutcome.statement {n : Node} (h : NodeOutcome c t₀ n) (hi : Inside c t₀ t)
    (hn : n.wellFormed c.source (fun _ => true) t.scope = true) {P : Prop} {rest : CompileM Unit}
    {Q : Unit → Compilation → Prop} (hP : P → HasType c t.scope (.stmt n) [])
    (hQ : ∀ t', t.Moves c.source t.code.openLabels t' →
      Balances (HasType c t.scope (.stmt n) []) t.types t'.types → wp P rest Q t') :
    wp P (compileNode c n >>= fun _ => get >>= fun t' =>
      dropValues (t'.types.length - t.types.length) >>= fun _ => rest) Q t := by
  refine wp_bind ?_
  cases hexpr : n.isExpr with
  | true =>
    have hiff : HasType c t.scope (.stmt n) [] ↔ Typable c t.scope n := hasType_stmt_iff hexpr
    refine wp_mono (h.expr hexpr hi hn) (fun hp => hiff.mp (hP hp)) fun _ t₁ hleft => ?_
    obtain ⟨m₁, h₁⟩ := hleft
    refine wp_bind (wp_get (wp_bind (wp_dropValues m₁.grows.after (Nat.sub_le _ _)
      fun t₂ m₂ h₂ => hQ t₂ (m₁.labels ▸ m₁.trans m₂) ?_)))
    rcases h₁ with ⟨ty, hty, h₁⟩ | ⟨hnone, hne, hle⟩
    · refine .inl ⟨.value hty, ?_⟩
      rw [h₂, h₁, List.length_cons, Nat.add_sub_cancel_left]
      rfl
    · refine .inr ⟨fun hstmt => hnone (hiff.mp hstmt), hne, ?_⟩
      rw [h₂, List.length_drop]
      omega
  | false =>
    refine wp_mono (h.stmt hexpr hi hn) hP fun _ t₁ hleft => ?_
    obtain ⟨m₁, b₁⟩ := hleft
    refine wp_bind (wp_get (wp_bind (wp_dropValues m₁.grows.after (Nat.sub_le _ _)
      fun t₂ m₂ h₂ => hQ t₂ (m₁.labels ▸ m₁.trans m₂) ?_)))
    rw [Nat.sub_eq_zero_of_le b₁.length_le, List.drop_zero] at h₂
    rwa [h₂]

theorem outcome_stmtsCons {statement : Node} {statements : List Node}
    (hn : NodeOutcome c t₀ statement) (hns : StmtsOutcome c t₀ statements) :
    StmtsOutcome c t₀ (statement :: statements) := by
  intro t hi hw
  dsimp only at hw
  rw [Node.allWellFormed, Bool.and_eq_true] at hw
  rw [compileStatements]
  have hiff : (HasType c t.scope (.stmt statement) [] ∧
      HasType c t.scope (.stmts statements) []) ↔
        HasType c t.scope (.stmts (statement :: statements)) [] := by
    refine ⟨fun h => .stmtsCons h.1 h.2, fun h => ?_⟩
    cases h with
    | stmtsCons h h' => exact ⟨h, h'⟩
  refine wp_bind (wp_get ?_)
  refine hn.statement hi hw.1 (fun h => (hiff.mpr h).1) fun t₁ m₁ b₁ => ?_
  have hrest := hns (hi.moves m₁) (m₁.scope ▸ hw.2)
  rw [m₁.scope] at hrest
  refine wp_mono hrest (fun h => (hiff.mpr h).2) fun _ t₂ hleft => ?_
  exact ⟨m₁.labels ▸ m₁.trans hleft.1, (b₁.and hleft.2).congr hiff⟩

/-! ## Branches and loops -/

/-- A block stands anywhere in the code of the function. -/
theorem BodyOutcome.at {phrase : Phrase} {nested : ScopeIndex → Bool} {m : CompileM Unit}
    {sc : ScopeIndex} (h : BodyOutcome c t₀ phrase nested m) (hi : Inside c t₀ t)
    (hscope : t.scope = sc) (hn : nested sc = true) {P : Prop} {Q : Unit → Compilation → Prop}
    (hP : P → HasType c sc phrase [])
    (hQ : ∀ t', t.Moves c.source t.code.openLabels t' →
      Balances (HasType c sc phrase []) t.types t'.types → Q () t') : wp P m Q t := by
  subst hscope
  exact wp_mono (h hi hn) hP fun _ t' hleft => hQ t' hleft.1 hleft.2

theorem outcome_ifThen {condition : Node} {thenBlock : Block} (hc : NodeOutcome c t₀ condition)
    (hb : BlockOutcome c t₀ thenBlock) : NodeOutcome c t₀ (.ifElse condition thenBlock none) := by
  refine .of_stmt rfl fun {t} hi hn => ?_
  rw [Node.wellFormed, Bool.and_eq_true] at hn
  rw [compileNode]
  have hiff : (HasType c t.scope (.expr condition) [.int] ∧
      HasType c t.scope (.block thenBlock) []) ↔
        HasType c t.scope (.stmt (.ifElse condition thenBlock none)) [] := by
    refine ⟨fun h => .ifThen h.1 h.2, fun h => ?_⟩
    cases h with
    | value h => cases h
    | ifThen h h' => exact ⟨h, h'⟩
  refine hc.condition hi hn.1 (fun h => (hiff.mpr h).1) fun t₁ m₁ b₁ => ?_
  refine wp_bind (wp_newLabel m₁.grows.after fun no t₂ hno m₂ h₂ => ?_)
  refine wp_bind (wp_emit m₂.grows.after fun t₃ m₃ h₃ => ?_)
  have l₃ := m₃.labels.trans m₂.labels
  refine wp_bind (wp_emitBranch m₃.grows.after rfl (.inl (by simp [l₃])) fun t₄ m₄ h₄ => ?_)
  have m₁₄ := m₁.trans (m₂.trans (m₃.trans m₄))
  refine wp_bind (hb.at (hi.moves m₁₄) m₁₄.scope hn.2 (fun h => (hiff.mpr h).2)
    fun t₅ m₅ b₅ => ?_)
  have l₅ := m₅.labels.trans (m₄.labels.trans l₃)
  refine wp_bindLabel m₅.grows.after (by simp [l₅]) fun t₆ m₆ h₆ => ?_
  have m := m₁₄.trans (m₅.trans m₆)
  refine ⟨⟨m.grows, m.scope, ?_⟩, ?_⟩
  · rw [m₆.labels, l₅, Set.insert_sdiff_self_of_notMem hno, m₁.labels]
  · rw [h₆]
    rw [h₄, h₃, h₂] at b₅
    exact (b₁.and b₅).congr hiff

theorem outcome_ifElse {condition : Node} {thenBlock elseBlock : Block}
    (hc : NodeOutcome c t₀ condition) (hb : BlockOutcome c t₀ thenBlock)
    (hb' : BlockOutcome c t₀ elseBlock) :
    NodeOutcome c t₀ (.ifElse condition thenBlock (some elseBlock)) := by
  refine .of_stmt rfl fun {t} hi hn => ?_
  rw [Node.wellFormed, Bool.and_eq_true, Bool.and_eq_true] at hn
  rw [compileNode]
  have hiff : (HasType c t.scope (.expr condition) [.int] ∧
      HasType c t.scope (.block thenBlock) [] ∧ HasType c t.scope (.block elseBlock) []) ↔
        HasType c t.scope (.stmt (.ifElse condition thenBlock (some elseBlock))) [] := by
    refine ⟨fun h => .ifElse h.1 h.2.1 h.2.2, fun h => ?_⟩
    cases h with
    | value h => cases h
    | ifElse h h' h'' => exact ⟨h, h', h''⟩
  refine hc.condition hi hn.1.1 (fun h => (hiff.mpr h).1) fun t₁ m₁ b₁ => ?_
  refine wp_bind (wp_newLabel m₁.grows.after fun no t₂ hno m₂ h₂ => ?_)
  refine wp_bind (wp_emit m₂.grows.after fun t₃ m₃ h₃ => ?_)
  have l₃ := m₃.labels.trans m₂.labels
  refine wp_bind (wp_emitBranch m₃.grows.after rfl (.inl (by simp [l₃])) fun t₄ m₄ h₄ => ?_)
  have m₁₄ := m₁.trans (m₂.trans (m₃.trans m₄))
  refine wp_bind (hb.at (hi.moves m₁₄) m₁₄.scope hn.1.2 (fun h => (hiff.mpr h).2.1)
    fun t₅ m₅ b₅ => ?_)
  refine wp_bind (wp_newLabel m₅.grows.after fun after t₆ hafter m₆ h₆ => ?_)
  have l₅ := m₅.labels.trans (m₄.labels.trans l₃)
  have l₆ := m₆.labels
  rw [l₅] at hafter l₆
  refine wp_bind (wp_emitBranch m₆.grows.after rfl (.inl (by simp [l₆])) fun t₇ m₇ h₇ => ?_)
  have l₇ := m₇.labels.trans l₆
  refine wp_bind (wp_bindLabel m₇.grows.after (by simp [l₇]) fun t₈ m₈ h₈ => ?_)
  have hne : no.index ≠ after.index := fun h => hafter (by simp [h])
  have l₈ : t₈.code.openLabels = insert after.index t₁.code.openLabels := by
    rw [m₈.labels, l₇, Set.insert_comm]
    refine Set.insert_sdiff_self_of_notMem ?_
    simp only [Set.mem_insert_iff, not_or]
    exact ⟨hne, hno⟩
  have m₁₈ := m₁₄.trans (m₅.trans (m₆.trans (m₇.trans m₈)))
  refine wp_bind (hb'.at (hi.moves m₁₈) m₁₈.scope hn.2 (fun h => (hiff.mpr h).2.2)
    fun t₉ m₉ b₉ => ?_)
  have l₉ := m₉.labels.trans l₈
  refine wp_bindLabel m₉.grows.after (by simp [l₉]) fun t₁₀ m₁₀ h₁₀ => ?_
  have m := m₁₈.trans (m₉.trans m₁₀)
  refine ⟨⟨m.grows, m.scope, ?_⟩, ?_⟩
  · rw [m₁₀.labels, l₉, ← m₁.labels]
    exact Set.insert_sdiff_self_of_notMem fun h => hafter (by simp [h])
  · rw [h₁₀]
    rw [h₄, h₃, h₂] at b₅
    rw [h₈, h₇, h₆] at b₉
    exact (b₁.and (b₅.and b₉)).congr hiff

theorem outcome_whileLoop {condition : Node} {body : Block} (hc : NodeOutcome c t₀ condition)
    (hb : BlockOutcome c t₀ body) : NodeOutcome c t₀ (.whileLoop condition body) := by
  refine .of_stmt rfl fun {t} hi hn => ?_
  rw [Node.wellFormed, Bool.and_eq_true] at hn
  rw [compileNode]
  have hiff : (HasType c t.scope (.expr condition) [.int] ∧ HasType c t.scope (.block body) []) ↔
      HasType c t.scope (.stmt (.whileLoop condition body)) [] := by
    refine ⟨fun h => .whileLoop h.1 h.2, fun h => ?_⟩
    cases h with
    | value h => cases h
    | whileLoop h h' => exact ⟨h, h'⟩
  refine wp_bind (wp_boundLabel hi.sound fun start t₁ m₁ h₁ hstart => ?_)
  refine wp_bind (wp_newLabel m₁.grows.after fun after t₂ hafter m₂ h₂ => ?_)
  have m₁₂ := m₁.trans m₂
  have htest : HasType c t.scope (.stmt (.whileLoop condition body)) [] →
      HasType c t₂.scope (.expr condition) [.int] := by
    rw [m₁₂.scope]
    exact fun h => (hiff.mpr h).1
  refine hc.condition (hi.moves m₁₂) (m₁₂.scope ▸ hn.1) htest fun t₃ m₃ b₃ => ?_
  rw [m₁₂.scope, h₂, h₁] at b₃
  refine wp_bind (wp_emit m₃.grows.after fun t₄ m₄ h₄ => ?_)
  have l₄ := m₄.labels.trans (m₃.labels.trans m₂.labels)
  refine wp_bind (wp_emitBranch m₄.grows.after rfl (.inl (by simp [l₄])) fun t₅ m₅ h₅ => ?_)
  have m₁₅ := m₁₂.trans (m₃.trans (m₄.trans m₅))
  refine wp_bind (hb.at (hi.moves m₁₅) m₁₅.scope hn.2 (fun h => (hiff.mpr h).2) fun t₆ m₆ b₆ => ?_)
  have hplaced := (m₂.trans (m₃.trans (m₄.trans (m₅.trans m₆)))).placed hstart
  refine wp_bind (wp_emitBranch m₆.grows.after rfl (.inr hplaced) fun t₇ m₇ h₇ => ?_)
  have l₇ := m₇.labels.trans (m₆.labels.trans (m₅.labels.trans l₄))
  refine wp_bindLabel m₇.grows.after (by simp [l₇]) fun t₈ m₈ h₈ => ?_
  have m := m₁₅.trans (m₆.trans (m₇.trans m₈))
  refine ⟨⟨m.grows, m.scope, ?_⟩, ?_⟩
  · rw [m₈.labels, l₇, Set.insert_sdiff_self_of_notMem hafter, m₁.labels]
  · rw [h₈, h₇]
    rw [h₅, h₄] at b₆
    exact (b₃.and b₆).congr hiff

/-- A numbered scope can have hidden slots, up to the limit. -/
theorem wp_allocScratch {P : Prop} {Q : VarAddr → Compilation → Prop} (hs : t.Sound c.source)
    {id : UInt16} (hid : t.symbols.scopeId? t.scope = some id)
    (hQ : ∀ addr t', t.Moves c.source t.code.openLabels t' → t'.types = t.types → Q addr t') :
    wp P (allocScratch c) Q t := by
  refine wp_intro (fun addr t' h => ?_) fun e h hP => ?_
  · obtain ⟨symbols, scope, rfl, hgrows, -⟩ := allocScratch_ok hs h
    exact hQ addr _ ⟨hgrows, rfl, rfl⟩ rfl
  · have hfull : wp True (allocScratch c) (fun _ _ => True) t := by
      unfold allocScratch
      refine wp_bind (wp_get (wp_bind (wp_numberScope hid ?_)))
      obtain ⟨-, -, hlt, -⟩ := hs.symbols.numbered hid
      have hsize : t.symbols.sizes[id.toNat]? = some t.symbols.sizes[id.toNat] :=
        Array.getElem?_eq_getElem hlt
      unfold wp onSymbols Symbols.allocScratch
      dsimp only
      rw [hsize]
      dsimp only
      by_cases hmax : t.symbols.sizes[id.toNat] > Symbols.maxId
      · rw [if_pos hmax]
        exact fun _ => rfl
      · rw [if_neg hmax]
        trivial
    exact wp_of_error hfull h trivial

/-- The test at the start of a for loop leaves the label behind the loop open. -/
theorem wp_openFor {P : Prop} {var limit : VarAddr} {Q : Label × Label → Compilation → Prop}
    (hs : t.Sound c.source)
    (hQ : ∀ start after t', after.index ∉ t.code.openLabels →
      t.Moves c.source (insert after.index t.code.openLabels) t' → t'.types = t.types →
      (∃ target, t'.code.position? start = some target) → Q (start, after) t') :
    wp P (openFor var limit) Q t := by
  unfold openFor
  refine wp_bind (wp_boundLabel hs fun start t₁ m₁ h₁ hstart => ?_)
  refine wp_bind (wp_newLabel m₁.grows.after fun after t₂ hafter m₂ h₂ => ?_)
  refine wp_bind (wp_emitVar m₂.grows.after fun t₃ m₃ h₃ => ?_)
  refine wp_bind (wp_emitVar m₃.grows.after fun t₄ m₄ h₄ => ?_)
  have l₄ := m₄.labels.trans (m₃.labels.trans m₂.labels)
  refine wp_bind (wp_emitBranch m₄.grows.after rfl (.inl (by simp [l₄])) fun t₅ m₅ h₅ => ?_)
  have m₂₅ := m₂.trans (m₃.trans (m₄.trans m₅))
  have m := m₁.trans m₂₅
  rw [m₁.labels] at hafter
  refine wp_pure (hQ start after t₅ hafter ⟨m.grows, m.scope, ?_⟩ ?_ (m₂₅.placed hstart))
  · rw [m₅.labels, l₄, m₁.labels]
  · rw [h₅, h₄, h₃, h₂, h₁]

/-- The way back at the end of a for loop binds the label behind the loop. -/
theorem wp_closeFor {P : Prop} {var : VarAddr} {start after : Label} {Q : Unit → Compilation → Prop}
    (hs : t.Sound c.source) (hstart : ∃ target, t.code.position? start = some target)
    (hafter : after.index ∈ t.code.openLabels)
    (hQ : ∀ t', t.Moves c.source (t.code.openLabels \ {after.index}) t' → t'.types = t.types →
      Q () t') : wp P (closeFor var start after) Q t := by
  unfold closeFor
  refine wp_bind (wp_emit hs fun t₁ m₁ h₁ => ?_)
  refine wp_bind (wp_emitVar m₁.grows.after fun t₂ m₂ h₂ => ?_)
  refine wp_bind (wp_emit m₂.grows.after fun t₃ m₃ h₃ => ?_)
  refine wp_bind (wp_emitVar m₃.grows.after fun t₄ m₄ h₄ => ?_)
  have m₁₄ := m₁.trans (m₂.trans (m₃.trans m₄))
  refine wp_bind (wp_emitBranch m₄.grows.after rfl (.inr (m₁₄.placed hstart))
    fun t₅ m₅ h₅ => ?_)
  have l₅ : t₅.code.openLabels = t.code.openLabels := by
    rw [m₅.labels, m₄.labels, m₃.labels, m₂.labels, m₁.labels]
  refine wp_bindLabel m₅.grows.after (l₅ ▸ hafter) fun t₆ m₆ h₆ => ?_
  refine hQ t₆ (l₅ ▸ m₁₄.trans (m₅.trans m₆)) ?_
  rw [h₆, h₅, h₄, h₃, h₂, h₁]

/-- The typing rule of a for loop, where the type of its variable is known. -/
theorem hasType_forLoop_iff {sc x : ScopeIndex} {name : String} {ty : Ty}
    (hvar : c.source.var? sc name = some (x, ty)) (lower upper : Node) (body : Block) :
    (ty = .int ∧ (∃ ty, HasType c sc (.expr upper) [ty] ∧ ty.isNumeric = true) ∧
      (∃ ty, HasType c sc (.expr lower) [ty] ∧ ty.isNumeric = true) ∧
      HasType c sc (.block body) []) ↔
        HasType c sc (.stmt (.forLoop name (.binary .range lower upper) body)) [] := by
  constructor
  · rintro ⟨rfl, ⟨tu, hu, htu⟩, ⟨tl, hl, htl⟩, h⟩
    exact .forLoop hvar hu htu hl htl h
  · intro h
    cases h with
    | value h => cases h
    | forLoop hvar' hu htu hl htl h =>
      rw [hvar] at hvar'
      exact ⟨congrArg Prod.snd (Option.some.inj hvar'), ⟨_, hu, htu⟩, ⟨_, hl, htl⟩, h⟩

theorem outcome_forLoop (hb : Begun c t₀) (name : String) {lower upper : Node} {body : Block}
    (hl : NodeOutcome c t₀ lower) (hu : NodeOutcome c t₀ upper) (hbody : BlockOutcome c t₀ body) :
    NodeOutcome c t₀ (.forLoop name (.binary .range lower upper) body) := by
  refine .of_stmt rfl fun {t} hi hn => ?_
  rw [Node.wellFormed, Node.wellFormed, Bool.and_eq_true, Bool.and_eq_true] at hn
  rw [compileNode]
  refine wp_bind (wp_resolveVar (fun hnone h => ?_) fun info hlook => ?_)
  · have hvar := hb.var?_eq_none hi hnone
    cases h with
    | value h => cases h
    | forLoop hvar' _ _ _ _ _ => simp [hvar] at hvar'
  obtain ⟨x, hvar⟩ := hb.exists_var? hi hlook
  have hiff := hasType_forLoop_iff hvar lower upper body
  refine wp_bind (wp_requireInt (fun hne h => hne (hiff.mpr h).1) fun hint => ?_)
  obtain ⟨id, hid⟩ := hb.numbered hi.below
  refine wp_bind (wp_allocScratch hi.sound (hi.grows.symbols.scopeIds hid) fun limit t₁ m₁ h₁ => ?_)
  have hupper : HasType c t.scope (.stmt (.forLoop name (.binary .range lower upper) body)) [] →
      ∃ ty, HasType c t₁.scope (.expr upper) [ty] ∧ ty.isNumeric = true := by
    rw [m₁.scope]
    exact fun h => (hiff.mpr h).2.1
  refine hu.bound (hi.moves m₁) (m₁.scope ▸ hn.1.2) hupper fun t₂ m₂ b₂ => ?_
  rw [m₁.scope, h₁] at b₂
  have m₁₂ := m₁.trans m₂
  have hlower : HasType c t.scope (.stmt (.forLoop name (.binary .range lower upper) body)) [] →
      ∃ ty, HasType c t₂.scope (.expr lower) [ty] ∧ ty.isNumeric = true := by
    rw [m₁₂.scope]
    exact fun h => (hiff.mpr h).2.2.1
  refine hl.bound (hi.moves m₁₂) (m₁₂.scope ▸ hn.1.1) hlower fun t₃ m₃ b₃ => ?_
  rw [m₁₂.scope] at b₃
  refine wp_bind (wp_openFor m₃.grows.after fun start after t₄ hafter m₄ h₄ hstart => ?_)
  have m₁₄ := m₁₂.trans (m₃.trans m₄)
  refine wp_bind (hbody.at (hi.moves m₁₄) m₁₄.scope hn.2 (fun h => (hiff.mpr h).2.2.2)
    fun t₅ m₅ b₅ => ?_)
  rw [h₄] at b₅
  have l₅ := m₅.labels.trans m₄.labels
  refine wp_closeFor m₅.grows.after (m₅.placed hstart) (by simp [l₅]) fun t₆ m₆ h₆ => ?_
  have m := m₁₄.trans (m₅.trans m₆)
  refine ⟨⟨m.grows, m.scope, ?_⟩, ?_⟩
  · rw [m₆.labels, l₅, Set.insert_sdiff_self_of_notMem hafter, m₃.labels, m₂.labels, m₁.labels]
  · rw [h₆]
    exact ((Balances.refl hint t.types).and (b₂.and (b₃.and b₅))).congr hiff

/-- Only a range can be looped over. -/
theorem outcome_malformedRange (name : String) {range : Node} {body : Block}
    (hrange : ∀ lower upper, range ≠ .binary .range lower upper) :
    NodeOutcome c t₀ (.forLoop name range body) := by
  refine .of_stmt rfl fun {t} hi hn => ?_
  rw [compileNode]
  · refine wp_throw fun h => ?_
    cases h with
    | value h => cases h
    | forLoop _ _ _ _ _ _ => exact hrange _ _ rfl
  · exact fun lower upper h => hrange lower upper h

/-! ## Calls to the host -/

theorem wp_loadParams {P : Prop} (hb : Begun c t₀) {params : List VarDecl} (hi : Inside c t₀ t)
    (hparams : ∀ param ∈ params, param ∈ c.function.params) {Q : Unit → Compilation → Prop}
    (hQ : ∀ tys t', tys.length = params.length → t.Moves c.source t.code.openLabels t' →
      t'.types = tys ++ t.types → Q () t') :
    wp P (params.forM fun param => resolveVar c.source param.name >>= fun info => loadVar info)
      Q t := by
  induction params generalizing t with
  | nil => exact hQ [] t rfl (.of_types hi.sound t.types) rfl
  | cons param params ih =>
    refine wp_bind (wp_bind (wp_resolveVar (fun hnone _ => ?_) fun info _ => ?_))
    · have hsome := hb.params hi.below param (hparams param List.mem_cons_self)
      rw [hb.var?_eq_none hi hnone] at hsome
      cases hsome
    · refine wp_loadVar hi.sound fun t₁ m₁ h₁ => ?_
      refine ih (hi.moves m₁) (fun param h => hparams param (List.mem_cons_of_mem _ h))
        fun tys t₂ hlen m₂ h₂ => ?_
      refine hQ (tys ++ [info.ty]) t₂ (by simp [hlen]) (m₁.labels ▸ m₁.trans m₂) ?_
      rw [h₂, h₁, List.append_assoc]
      rfl

theorem outcome_native (hb : Begun c t₀) (symbol : String) : NodeOutcome c t₀ (.native symbol) := by
  refine .of_stmt rfl fun {t} hi _ => ?_
  rw [compileNode]
  unfold compileNative loadParams
  refine wp_bind (wp_loadParams hb hi (fun _ h => List.mem_reverse.mp h)
    fun tys t₁ hlen m₁ h₁ => ?_)
  rw [List.length_reverse] at hlen
  refine wp_bind (wp_internNative m₁.grows.after fun id t₂ m₂ h₂ => ?_)
  refine wp_bind (wp_emit m₂.grows.after fun t₃ m₃ h₃ => ?_)
  refine wp_bind (wp_writeBytes m₃.grows.after fun t₄ m₄ h₄ => ?_)
  have htypes : t₄.types = tys ++ t.types := by rw [h₄, h₃, h₂, h₁]
  refine wp_bind (wp_popTypes m₄.grows.after (fun hlt => ?_) fun t₅ _ m₅ h₅ => ?_)
  · rw [htypes, List.length_append] at hlt
    omega
  · refine wp_emit m₅.grows.after fun t₆ m₆ h₆ => ?_
    have m := m₁.trans (m₂.trans (m₃.trans (m₄.trans (m₅.trans m₆))))
    rw [m₅.labels, m₄.labels, m₃.labels, m₂.labels, m₁.labels] at m
    refine ⟨m, .inl ⟨.native, ?_⟩⟩
    rw [h₆, h₅, htypes, ← hlen, List.drop_left]

/-! ## Any node -/

mutual

/-- **What compiling a node leads to**, by the typing rules. -/
theorem compileNode_outcome (hb : Begun c t₀) : (n : Node) → NodeOutcome c t₀ n
  | .int n => outcome_int n
  | .double d => outcome_double d
  | .string s => outcome_string s
  | .load name => outcome_load hb name
  | .store name op value => outcome_store hb name op (compileNode_outcome hb value)
  | .binary _ left right =>
    outcome_binary (compileNode_outcome hb left) (compileNode_outcome hb right)
  | .unary _ operand => outcome_unary (compileNode_outcome hb operand)
  | .call name args => outcome_call hb name (compileArgs_outcome hb args)
  | .block body => outcome_block (compileBlock_outcome hb body)
  | .ifElse condition thenBlock none =>
    outcome_ifThen (compileNode_outcome hb condition) (compileBlock_outcome hb thenBlock)
  | .ifElse condition thenBlock (some elseBlock) =>
    outcome_ifElse (compileNode_outcome hb condition) (compileBlock_outcome hb thenBlock)
      (compileBlock_outcome hb elseBlock)
  | .whileLoop condition body =>
    outcome_whileLoop (compileNode_outcome hb condition) (compileBlock_outcome hb body)
  | .forLoop name range body => by
    cases range with
    | binary op lower upper =>
      by_cases hop : op = .range
      · exact hop ▸ outcome_forLoop hb name (compileNode_outcome hb lower)
          (compileNode_outcome hb upper) (compileBlock_outcome hb body)
      · exact outcome_malformedRange name (by simp [hop])
    | _ => exact outcome_malformedRange name (by simp)
  | .ret none => outcome_ret
  | .ret (some value) => outcome_retValue (compileNode_outcome hb value)
  | .print operands => outcome_print (compileOperands_outcome hb operands)
  | .native symbol => outcome_native hb symbol
termination_by structural n => n

theorem compileArgs_outcome (hb : Begun c t₀) : (args : List Node) → ArgsOutcome c t₀ args
  | [] => outcome_argsNil
  | arg :: args => outcome_argsCons (compileNode_outcome hb arg) (compileArgs_outcome hb args)
termination_by structural args => args

theorem compileOperands_outcome (hb : Begun c t₀) :
    (operands : List Node) → OperandsOutcome c t₀ operands
  | [] => outcome_operandsNil
  | operand :: operands =>
    outcome_operandsCons (compileNode_outcome hb operand) (compileOperands_outcome hb operands)
termination_by structural operands => operands

theorem compileBlock_outcome (hb : Begun c t₀) : (b : Block) → BlockOutcome c t₀ b
  | .mk _ statements => outcome_blockMk hb (compileStatements_outcome hb statements)
termination_by structural b => b

theorem compileStatements_outcome (hb : Begun c t₀) : (ns : List Node) → StmtsOutcome c t₀ ns
  | [] => outcome_stmtsNil
  | n :: ns => outcome_stmtsCons (compileNode_outcome hb n) (compileStatements_outcome hb ns)
termination_by structural ns => ns

end

end StackLang
