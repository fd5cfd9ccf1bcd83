import StackLang.Compile.Node
import StackLang.Proofs.Compile.Steps
import StackLang.Proofs.Typing.Rules

/-!
# Outcomes of a compilation

`CompileM.wp P m Q t` says that the step `m` from `t` either succeeds with `Q` or fails, and if `P`
holds it fails at a limit only. There is one law for each step. `Compilation.Moves` is what all of
them do: they add to the compilation, stay in the scope, and leave these labels without a place.
-/

namespace StackLang

/-- A program that fails in this way is too large, but not wrong. -/
def Cause.isLimit : Cause → Bool
  | .limitExceeded .. | .branchTooFar .. => true
  | _ => false

/-! ## Labels -/

namespace Builder

variable {b b' : Builder} {l : Label}

/-- The labels that have no place yet. -/
def openLabels (b : Builder) : Set Nat :=
  {i | ∃ slot, b.labels[i]? = some slot ∧ slot.position = none}

theorem openLabels_congr (h : b'.labels = b.labels) : b'.openLabels = b.openLabels := by
  unfold openLabels
  rw [h]

theorem newLabel_eq (b : Builder) :
    newLabel b = .ok ⟨b.labels.size⟩ { b with labels := b.labels.push {} } := rfl

theorem not_mem_openLabels (b : Builder) : b.labels.size ∉ b.openLabels := by
  rintro ⟨slot, hslot, -⟩
  simp at hslot

theorem openLabels_push (b : Builder) :
    openLabels { b with labels := b.labels.push {} } = insert b.labels.size b.openLabels := by
  ext i
  simp only [openLabels, Set.mem_ofPred_eq, Set.mem_insert_iff, Array.getElem?_push]
  by_cases hi : i = b.labels.size
  · simp [hi]
  · simp [hi]

/-- Filling in distances leaves the labels alone, and fails only if one does not fit. -/
theorem forM_resolve_cases (target : Nat) (uses : List Nat) (b : Builder) :
    (∃ b', uses.forM (resolve target) b = .ok () b' ∧ b'.labels = b.labels) ∨
      ∃ source b', uses.forM (resolve target) b = .error (.branchTooFar source target) b' := by
  induction uses generalizing b with
  | nil => exact .inl ⟨b, rfl, rfl⟩
  | cons source uses ih =>
    change (∃ b', (resolve target source >>= fun _ => uses.forM (resolve target)) b = .ok () b' ∧
        b'.labels = b.labels) ∨ ∃ source' b',
      (resolve target source >>= fun _ => uses.forM (resolve target)) b =
        .error (.branchTooFar source' target) b'
    simp only [Bind.bind, EStateM.bind]
    unfold resolve distance
    dsimp only
    split_ifs with hfit
    · exact ih _
    · exact .inr ⟨source, b, rfl⟩

/-- An open label can be given a place, unless a branch to it is too long. -/
theorem bind_cases (hl : l.index ∈ b.openLabels) :
    (∃ b', bind l b = .ok () b' ∧ b'.openLabels = b.openLabels \ {l.index}) ∨
      ∃ source target b', bind l b = .error (.branchTooFar source target) b' := by
  obtain ⟨slot, hslot, hnone⟩ := hl
  rw [bind_of_open hslot hnone]
  rcases forM_resolve_cases b.position slot.uses _ with ⟨b', hb', hlabels⟩ | ⟨source, b', hb'⟩
  · refine .inl ⟨b', hb', ?_⟩
    rw [openLabels_congr hlabels]
    ext i
    simp only [openLabels, Set.mem_ofPred_eq, Set.mem_sdiff, Set.mem_singleton_iff,
      getElem?_placing hslot]
    by_cases hi : l.index = i
    · simp [hi]
    · simp [hi, Ne.symm hi]
  · exact .inr ⟨source, _, b', hb'⟩

/-- A branch can be written to a label that there is, unless it is too long. -/
theorem addBranch_cases_of_label {op : Opcode} (hop : op.isBranch = true)
    (hl : l.index ∈ b.openLabels ∨ ∃ target, b.position? l = some target) :
    (∃ b', addBranch op l b = .ok () b' ∧ b'.openLabels = b.openLabels) ∨
      ∃ source target b', addBranch op l b = .error (.branchTooFar source target) b' := by
  have hslot : ∃ slot, b.labels[l.index]? = some slot := by
    rcases hl with ⟨slot, hslot, -⟩ | ⟨target, htarget⟩
    · exact ⟨slot, hslot⟩
    · obtain ⟨slot, hslot, -⟩ := Option.bind_eq_some_iff.mp htarget
      exact ⟨slot, hslot⟩
  obtain ⟨slot, hslot⟩ := hslot
  rw [addBranch_of_branch hop, hslot]
  dsimp only
  cases hplace : slot.position with
  | none =>
    refine .inl ⟨_, rfl, ?_⟩
    have hlt := (Array.getElem?_eq_some_iff.mp hslot).1
    ext i
    simp only [openLabels, Set.mem_ofPred_eq, postponing, Array.getElem?_setIfInBounds, hlt, if_true]
    by_cases hi : l.index = i
    · subst hi
      simp [hslot, hplace]
    · simp [hi]
  | some target =>
    dsimp only
    unfold distance
    dsimp only
    split_ifs with hfit
    · exact .inl ⟨_, rfl, rfl⟩
    · exact .inr ⟨_, _, _, rfl⟩

/-- Code without open labels can be finished. -/
theorem finish_of_openLabels (h : b.openLabels = ∅) : b.finish = .ok ⟨b.bytes⟩ := by
  unfold finish
  cases hfind : b.labels.findIdx? (·.position.isNone) with
  | none => rfl
  | some i =>
    obtain ⟨hlt, hnone, -⟩ := Array.findIdx?_eq_some_iff_getElem.mp hfind
    have hmem : i ∈ b.openLabels :=
      ⟨b.labels[i], Array.getElem?_eq_getElem hlt, Option.isNone_iff_eq_none.mp hnone⟩
    rw [h] at hmem
    exact hmem.elim

end Builder

/-! ## Steps -/

namespace Compilation

/-- `t'` is `t` after a step in the same scope that has left these labels open. -/
structure Moves (p : Program) (labels : Set Nat) (t t' : Compilation) : Prop where
  grows : t.Grows p t'
  scope : t'.scope = t.scope
  labels : t'.code.openLabels = labels

variable {p : Program} {labels labels' : Set Nat} {t t' t'' : Compilation}

theorem Moves.trans (h : t.Moves p labels t') (h' : t'.Moves p labels' t'') :
    t.Moves p labels' t'' :=
  ⟨h.grows.trans h'.grows, h'.scope.trans h.scope, h'.labels⟩

/-- More code, and another view of the stack. -/
theorem Moves.of_code (hs : t.Sound p) {code : Builder} (h : t.code.Extends code)
    (hlabels : code.openLabels = labels) (types : List Ty) :
    t.Moves p labels { t with code, types } :=
  ⟨.of_code hs h types t.scope, rfl, hlabels⟩

theorem Moves.of_types (hs : t.Sound p) (types : List Ty) :
    t.Moves p t.code.openLabels { t with types } :=
  .of_code hs (.refl hs.code) rfl types

/-- A label that is bound stays bound. -/
theorem Moves.placed (h : t.Moves p labels t') {l : Label}
    (hl : ∃ target, t.code.position? l = some target) :
    ∃ target, t'.code.position? l = some target :=
  hl.imp fun _ htarget => h.grows.code.bound htarget

end Compilation

open Compilation

namespace CompileM

variable {α β : Type} {P : Prop} {p : Program} {t : Compilation}

/-- A step succeeds with `Q`, or it fails, at a limit only if `P` holds. -/
def wp (P : Prop) (m : CompileM α) (Q : α → Compilation → Prop) (t : Compilation) : Prop :=
  match m t with
  | .ok (a, t') => Q a t'
  | .error e => P → e.isLimit = true

section Laws

variable {m : CompileM α} {Q R : α → Compilation → Prop}

theorem wp_intro (hok : ∀ a t', m t = .ok (a, t') → Q a t')
    (herror : ∀ e, m t = .error e → P → e.isLimit = true) : wp P m Q t := by
  unfold wp
  cases hm : m t with
  | error e => exact herror e hm
  | ok r => exact hok r.1 r.2 hm

theorem wp_of_error {e : Cause} (h : wp P m Q t) (hm : m t = .error e) : P → e.isLimit = true := by
  rwa [wp, hm] at h

theorem wp_pure {a : α} (h : Q a t) : wp P (pure a) Q t := h

theorem wp_throw {e : Cause} (h : ¬ P) : wp P (throw e : CompileM α) Q t := fun hP => absurd hP h

theorem wp_bind {f : β → CompileM α} {m : CompileM β}
    (h : wp P m (fun b t' => wp P (f b) Q t') t) : wp P (m >>= f) Q t := by
  unfold wp at h ⊢
  change match (m t >>= fun r => f r.1 r.2) with
    | .ok (a, t') => Q a t'
    | .error e => P → e.isLimit = true
  cases hm : m t with
  | error e =>
    rw [hm] at h
    exact h
  | ok r =>
    rw [hm] at h
    exact h

/-- Less is said where `P'` holds less often. -/
theorem wp_mono {P' : Prop} (h : wp P m Q t) (hP : P' → P) (hQ : ∀ a t', Q a t' → R a t') :
    wp P' m R t := by
  unfold wp at *
  cases hm : m t with
  | error e =>
    rw [hm] at h
    exact fun hP' => h (hP hP')
  | ok r =>
    rw [hm] at h
    exact hQ _ _ h

theorem wp_get {Q : Compilation → Compilation → Prop} (h : Q t t) :
    wp P (get : CompileM Compilation) Q t := h

theorem wp_modify {f : Compilation → Compilation} {Q : PUnit → Compilation → Prop}
    (h : Q ⟨⟩ (f t)) : wp P (modify f : CompileM PUnit) Q t := h

end Laws

/-! ## Code -/

section Code

variable {Q : Unit → Compilation → Prop}

/-- Bytes can always be written. -/
theorem wp_write {step : Builder.Step Unit} {bytes : List UInt8} (hs : t.Sound p)
    (hstep : ∃ code, step t.code = .ok () code ∧ t.code.Appends bytes code)
    (hQ : ∀ t', t.Moves p t.code.openLabels t' → t'.types = t.types → Q () t') :
    wp P (write step) Q t := by
  obtain ⟨code, hcode, happ⟩ := hstep
  have hwrite : write step t = .ok ((), { t with code }) := by
    unfold write
    dsimp only
    rw [EStateM.run, hcode]
  unfold wp
  rw [hwrite]
  exact hQ _ (.of_code hs (happ.extends hs.code) (Builder.openLabels_congr happ.labels) t.types) rfl

theorem wp_emit {op : Opcode} (hs : t.Sound p)
    (hQ : ∀ t', t.Moves p t.code.openLabels t' → t'.types = t.types → Q () t') :
    wp P (emit op) Q t :=
  wp_write hs ⟨_, rfl, Builder.appends_addOp rfl⟩ hQ

theorem wp_writeBytes {bytes : List UInt8} (hs : t.Sound p)
    (hQ : ∀ t', t.Moves p t.code.openLabels t' → t'.types = t.types → Q () t') :
    wp P (write (Builder.addBytes bytes)) Q t :=
  wp_write hs ⟨_, rfl, Builder.appends_addBytes rfl⟩ hQ

theorem wp_emitVar {op : Opcode} {addr : VarAddr} (hs : t.Sound p)
    (hQ : ∀ t', t.Moves p t.code.openLabels t' → t'.types = t.types → Q () t') :
    wp P (emitVar op addr) Q t := by
  refine wp_bind (wp_emit hs fun t₁ m₁ h₁ => ?_)
  refine wp_write m₁.grows.after ⟨_, rfl, Builder.appends_addAddr rfl⟩ fun t₂ m₂ h₂ => ?_
  exact hQ t₂ (m₁.labels ▸ m₁.trans m₂) (h₂.trans h₁)

theorem wp_newLabel {Q : Label → Compilation → Prop} (hs : t.Sound p)
    (hQ : ∀ l t', l.index ∉ t.code.openLabels →
      t.Moves p (insert l.index t.code.openLabels) t' → t'.types = t.types → Q l t') :
    wp P newLabel Q t :=
  hQ _ _ t.code.not_mem_openLabels
    (.of_code hs (Builder.extends_newLabel hs.code t.code.newLabel_eq).1 t.code.openLabels_push
      t.types) rfl

theorem wp_bindLabel {l : Label} (hs : t.Sound p) (hl : l.index ∈ t.code.openLabels)
    (hQ : ∀ t', t.Moves p (t.code.openLabels \ {l.index}) t' → t'.types = t.types → Q () t') :
    wp P (bindLabel l) Q t := by
  unfold wp bindLabel write
  dsimp only
  rw [EStateM.run]
  rcases Builder.bind_cases hl with ⟨code, hcode, hlabels⟩ | ⟨source, target, code, hcode⟩
  · rw [hcode]
    exact hQ _ (.of_code hs (Builder.extends_bind hs.code hcode).1 hlabels t.types) rfl
  · rw [hcode]
    exact fun _ => rfl

theorem wp_boundLabel {Q : Label → Compilation → Prop} (hs : t.Sound p)
    (hQ : ∀ l t', t.Moves p t.code.openLabels t' → t'.types = t.types →
      (∃ target, t'.code.position? l = some target) → Q l t') : wp P boundLabel Q t := by
  have hmem : t.code.labels.size ∈ insert t.code.labels.size t.code.openLabels :=
    Set.mem_insert _ _
  rw [← Builder.openLabels_push] at hmem
  unfold wp boundLabel write
  dsimp only
  rw [EStateM.run]
  unfold Builder.boundLabel
  simp only [Bind.bind, EStateM.bind, Builder.newLabel_eq]
  rcases Builder.bind_cases (l := ⟨t.code.labels.size⟩) hmem with
    ⟨code, hcode, hlabels⟩ | ⟨source, target, code, hcode⟩
  · have hbound : Builder.boundLabel t.code = .ok ⟨t.code.labels.size⟩ code := by
      unfold Builder.boundLabel
      simp only [Bind.bind, EStateM.bind, Builder.newLabel_eq, hcode]
      rfl
    obtain ⟨hext, -, hplace⟩ := Builder.extends_boundLabel hs.code hbound
    rw [hcode]
    refine hQ _ _ (.of_code hs hext ?_ t.types) rfl ⟨_, hplace⟩
    rw [hlabels, Builder.openLabels_push]
    exact Set.insert_sdiff_self_of_notMem t.code.not_mem_openLabels
  · rw [hcode]
    exact fun _ => rfl

theorem wp_emitBranch {op : Opcode} {l : Label} (hs : t.Sound p) (hop : op.isBranch = true)
    (hl : l.index ∈ t.code.openLabels ∨ ∃ target, t.code.position? l = some target)
    (hQ : ∀ t', t.Moves p t.code.openLabels t' → t'.types = t.types → Q () t') :
    wp P (emitBranch op l) Q t := by
  unfold wp emitBranch write
  dsimp only
  rw [EStateM.run]
  rcases Builder.addBranch_cases_of_label hop hl with
    ⟨code, hcode, hlabels⟩ | ⟨source, target, code, hcode⟩
  · rw [hcode]
    exact hQ _ (.of_code hs (Builder.extends_addBranch hs.code hcode).1 hlabels t.types) rfl
  · rw [hcode]
    exact fun _ => rfl

end Code

/-! ## Types -/

section Types

variable {Q : Unit → Compilation → Prop}

theorem wp_pushType {ty : Ty} (hs : t.Sound p)
    (hQ : ∀ t', t.Moves p t.code.openLabels t' → t'.types = ty :: t.types → Q () t') :
    wp P (pushType ty) Q t :=
  hQ _ (.of_types hs _) rfl

theorem wp_popType {Q : Ty → Compilation → Prop} (hs : t.Sound p) (hnil : t.types = [] → ¬ P)
    (hQ : ∀ ty types t', t.types = ty :: types → t.Moves p t.code.openLabels t' →
      t'.types = types → Q ty t') : wp P popType Q t := by
  unfold popType
  refine wp_bind (wp_get ?_)
  cases htypes : t.types with
  | nil => exact wp_throw (hnil htypes)
  | cons ty types => exact hQ ty types _ htypes (.of_types hs _) rfl

theorem wp_topType {Q : Ty → Compilation → Prop} (hnil : t.types = [] → ¬ P)
    (hQ : ∀ ty types, t.types = ty :: types → Q ty t) : wp P topType Q t := by
  unfold topType
  refine wp_bind (wp_get ?_)
  cases htypes : t.types with
  | nil => exact wp_throw (hnil htypes)
  | cons ty types => exact hQ ty types htypes

theorem wp_popTypes {count : Nat} (hs : t.Sound p) (hshort : t.types.length < count → ¬ P)
    (hQ : ∀ t', count ≤ t.types.length → t.Moves p t.code.openLabels t' →
      t'.types = t.types.drop count → Q () t') : wp P (popTypes count) Q t := by
  induction count generalizing t with
  | zero => exact hQ t (Nat.zero_le _) (.of_types hs t.types) rfl
  | succ count ih =>
    refine wp_bind (wp_popType hs (fun hnil => hshort (by simp [hnil])) fun ty types t₁ h m₁ h₁ => ?_)
    rw [h, List.length_cons] at hshort hQ
    refine ih m₁.grows.after (fun hlt => hshort (by rw [h₁] at hlt; omega)) fun t₂ hle m₂ h₂ => ?_
    rw [h₁] at hle h₂
    exact hQ t₂ (Nat.succ_le_succ hle) (m₁.labels ▸ m₁.trans m₂) h₂

theorem wp_dropValues {count : Nat} (hs : t.Sound p) (hcount : count ≤ t.types.length)
    (hQ : ∀ t', t.Moves p t.code.openLabels t' → t'.types = t.types.drop count → Q () t') :
    wp P (dropValues count) Q t := by
  induction count generalizing t with
  | zero => exact hQ t (.of_types hs t.types) rfl
  | succ count ih =>
    rw [dropValues]
    refine wp_bind (wp_popType hs (fun hnil => by simp [hnil] at hcount) fun ty types t₁ h m₁ h₁ => ?_)
    rw [h, List.length_cons] at hcount
    have hrest : ∀ {t₂ : Compilation}, t.Moves p t.code.openLabels t₂ → t₂.types = types →
        wp P (dropValues count) Q t₂ := by
      intro t₂ m₂ h₂
      refine ih m₂.grows.after (by rw [h₂]; omega) fun t₃ m₃ h₃ => ?_
      refine hQ t₃ (m₂.labels ▸ m₂.trans m₃) ?_
      rw [h₃, h₂, h, List.drop_succ_cons]
    split_ifs with hvoid
    · exact wp_bind (wp_emit m₁.grows.after fun t₂ m₂ h₂ =>
        hrest (m₁.labels ▸ m₁.trans m₂) (h₂.trans h₁))
    · exact hrest m₁ h₁

theorem wp_requireNumeric {ty : Ty} (hbad : ty.isNumeric = false → ¬ P)
    (hQ : ty.isNumeric = true → Q () t) : wp P (requireNumeric ty) Q t := by
  unfold requireNumeric
  split_ifs with hty
  · exact hQ hty
  · exact wp_throw (hbad (Bool.eq_false_iff.mpr hty))

theorem wp_requireInt {ty : Ty} (hbad : ty ≠ .int → ¬ P) (hQ : ty = .int → Q () t) :
    wp P (requireInt ty) Q t := by
  unfold requireInt
  split_ifs with hty
  · exact hQ hty
  · exact wp_throw (hbad hty)

end Types

/-! ## Names and tables -/

section Tables

theorem wp_resolveVar {Q : VarInfo → Compilation → Prop} {name : String}
    (hnone : t.symbols.lookupVar? p t.scope name = none → ¬ P)
    (hQ : ∀ info, t.symbols.lookupVar? p t.scope name = some info → Q info t) :
    wp P (resolveVar p name) Q t := by
  unfold resolveVar
  refine wp_bind (wp_get ?_)
  cases hl : t.symbols.lookupVar? p t.scope name with
  | none => exact wp_throw (hnone hl)
  | some info => exact hQ info hl

/-- A scope that has a number keeps it. -/
theorem wp_numberScope {Q : UInt16 → Compilation → Prop} {i : ScopeIndex} {id : UInt16}
    (hid : t.symbols.scopeId? i = some id) (hQ : Q id t) : wp P (numberScope p i) Q t := by
  unfold numberScope
  refine wp_bind (wp_get ?_)
  rw [hid]
  exact hQ

theorem wp_intern {Q : UInt16 → Compilation → Prop} {text : String} (hs : t.Sound p)
    (hQ : ∀ id t', t.Moves p t.code.openLabels t' → t'.types = t.types → Q id t') :
    wp P (intern text) Q t := by
  refine wp_intro (fun id t' h => ?_) fun e h _ => ?_
  · obtain ⟨strings, rfl, -, hgrows⟩ := intern_ok hs h
    exact hQ id _ ⟨hgrows, rfl, rfl⟩ rfl
  · unfold intern at h
    dsimp only at h
    cases hi : t.exe.intern text with
    | mk id? exe =>
      rw [hi] at h
      cases id? with
      | some id => cases h
      | none =>
        cases h
        rfl

theorem wp_internNative {Q : UInt16 → Compilation → Prop} {n : NativeDecl} (hs : t.Sound p)
    (hQ : ∀ id t', t.Moves p t.code.openLabels t' → t'.types = t.types → Q id t') :
    wp P (internNative n) Q t := by
  refine wp_intro (fun id t' h => ?_) fun e h => ?_
  · obtain ⟨natives, rfl, -, hgrows⟩ := internNative_ok hs h
    exact hQ id _ ⟨hgrows, rfl, rfl⟩ rfl
  · have hfull : wp P (internNative n) (fun _ _ => True) t := by
      unfold internNative
      refine wp_bind (wp_get ?_)
      cases t.exe.addNative n with
      | mk id? exe =>
        cases id? with
        | some id => exact wp_bind (wp_modify trivial)
        | none => exact fun _ => rfl
    exact wp_of_error hfull h

end Tables

end CompileM

end StackLang
