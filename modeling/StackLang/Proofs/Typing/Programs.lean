import StackLang.Proofs.Typing.Functions

/-!
# Compilation accepts the well-typed programs

`compile_typed`: a program that compiles is well typed, and one that is well typed compiles unless
it is too large. The walk through the scopes has seen all that is around and inside a function when
it compiles the function, so what `wp_compileFunction` says of one body holds of all of them
(`wp_compileScope`).
-/

namespace StackLang

open Compilation

variable {p : Program} {strict : Bool} {i : ScopeIndex} {t t' : Compilation}

/-- The bodies of all functions in a scope and inside it are well typed. -/
def Program.TypedBelow (p : Program) (strict : Bool) (i : ScopeIndex) : Prop :=
  ∀ (j : ScopeIndex) (f : FunctionDecl), p.Below i j → p.DeclaredIn j f → p.BodyTyped strict f

/-- They are if the scope's own are and those inside its children. -/
theorem Program.typedBelow_iff {s : Scope} (hs : p.scope? i = some s) :
    p.TypedBelow strict i ↔ (∀ c ∈ s.children.toList, p.TypedBelow strict c) ∧
      ∀ f ∈ s.functions.toList, p.BodyTyped strict f := by
  constructor
  · intro h
    refine ⟨fun c hc j f hj hf => ?_, fun f hf => h i f .refl ⟨s, hs, hf⟩⟩
    exact h j f ((Below.child .refl hs (Array.mem_toList_iff.mp hc)).trans hj) hf
  · rintro ⟨hchildren, hown⟩ j f hj hf
    rcases hj.cases_head with rfl | ⟨s', c, hs', hc, hj⟩
    · obtain ⟨s', hs', hf⟩ := hf
      obtain rfl := Option.some.inj (hs.symm.trans hs')
      exact hown f hf
    · obtain rfl := Option.some.inj (hs.symm.trans hs')
      exact hchildren c (Array.mem_toList_iff.mpr hc) j f hj hf

namespace ProgramM

variable {α β : Type} {P : Prop}

/-- A step succeeds with `Q`, or it fails, at a limit only if `P` holds. -/
def wp (P : Prop) (m : ProgramM α) (Q : α → Compilation → Prop) (t : Compilation) : Prop :=
  match m t with
  | .ok (a, t') => Q a t'
  | .error d => P → d.cause.isLimit = true

theorem wp_intro {m : ProgramM α} {Q : α → Compilation → Prop}
    (hok : ∀ a t', m t = .ok (a, t') → Q a t')
    (herror : ∀ d, m t = .error d → P → d.cause.isLimit = true) : wp P m Q t := by
  unfold wp
  cases hm : m t with
  | error d => exact herror d hm
  | ok r => exact hok r.1 r.2 hm

theorem wp_of_error {m : ProgramM α} {Q : α → Compilation → Prop} {d : Diagnostic}
    (h : wp P m Q t) (hm : m t = .error d) : P → d.cause.isLimit = true := by
  rwa [wp, hm] at h

theorem wp_bind {m : ProgramM β} {f : β → ProgramM α} {Q : α → Compilation → Prop}
    (h : wp P m (fun b t' => wp P (f b) Q t') t) : wp P (m >>= f) Q t := by
  unfold wp at h ⊢
  change match (m t >>= fun r => f r.1 r.2) with
    | .ok (a, t') => Q a t'
    | .error d => P → d.cause.isLimit = true
  cases hm : m t with
  | error d =>
    rw [hm] at h
    exact h
  | ok r =>
    rw [hm] at h
    exact h

theorem wp_mono {P' : Prop} {m : ProgramM α} {Q R : α → Compilation → Prop} (h : wp P m Q t)
    (hP : P' → P) (hQ : ∀ a t', Q a t' → R a t') : wp P' m R t :=
  wp_intro (fun a t' hm => by rw [wp, hm] at h; exact hQ a t' h) fun _ hm hP' =>
    wp_of_error h hm (hP hP')

theorem wp_outside {step : CompileM α} {Q : α → Compilation → Prop}
    (h : CompileM.wp P step Q t) : wp P (outside step) Q t := by
  unfold wp outside
  unfold CompileM.wp at h
  cases hs : step t with
  | error e =>
    rw [hs] at h
    exact h
  | ok r =>
    rw [hs] at h
    exact h

theorem wp_inside {name : String} {step : CompileM α} {Q : α → Compilation → Prop}
    (h : CompileM.wp P step Q t) : wp P (inside name step) Q t := by
  unfold wp inside
  unfold CompileM.wp at h
  cases hs : step t with
  | error e =>
    rw [hs] at h
    exact h
  | ok r =>
    rw [hs] at h
    exact h

/-! ## Numbers and ids -/

theorem wp_enterScope {s : Scope} (hi : t.Indexed p) (hs : p.scope? i = some s)
    {Q : UInt16 → Compilation → Prop}
    (hQ : ∀ number t', t.Continues p t' → t'.Indexed p →
      t'.symbols.scopeId? i = some number → Q number t') :
    wp P (outside (CompileM.onSymbols (·.enterScope i s))) Q t := by
  refine wp_intro (fun number t' h => ?_) fun d h _ => ?_
  · obtain ⟨hc, hi', hnumber, -, -⟩ := enterScope_ok hi hs h
    exact hQ number t' hc hi' hnumber
  · have hlimit : CompileM.wp True (CompileM.onSymbols (·.enterScope i s)) (fun _ _ => True) t := by
      unfold CompileM.wp CompileM.onSymbols Symbols.enterScope
      dsimp only
      cases t.symbols.scopeId? i with
      | some id => trivial
      | none =>
        dsimp only
        by_cases hroom : t.symbols.sizes.size > Symbols.maxId
        · rw [if_pos hroom]
          exact fun _ => rfl
        · rw [if_neg hroom]
          by_cases hvars : s.vars.size > Symbols.maxId
          · rw [if_pos hvars]
            exact fun _ => rfl
          · rw [if_neg hvars]
            trivial
    exact wp_of_error (wp_outside hlimit) h trivial

theorem wp_declareFunction (number : UInt16) (f : FunctionDecl) :
    wp P (outside (declareFunction i number f)) (fun _ _ => True) t := by
  refine wp_outside ?_
  unfold CompileM.wp declareFunction
  dsimp only
  cases t.exe.addRoutine (signature number f) with
  | mk id? exe =>
    cases id? with
    | none => exact fun _ => rfl
    | some id => trivial

theorem wp_declareAll {s : Scope} {number : UInt16} (hi : t.Indexed p) (hs : p.scope? i = some s)
    (hnumber : t.symbols.scopeId? i = some number)
    {Q : List UInt16 → Compilation → Prop}
    (hQ : ∀ ids t', Declared p i s.functions.toList ids t t' → Q ids t') :
    wp P (s.functions.toList.mapM fun f => outside (declareFunction i number f)) Q t := by
  refine wp_intro (fun ids t' h => ?_) fun d h _ => ?_
  · exact hQ ids t' (declared_all hs hi (List.nil_append _).symm (by simp) hnumber h)
  · have hlimit : ∀ (fs : List FunctionDecl) (t : Compilation),
        wp True (fs.mapM fun f => outside (declareFunction i number f)) (fun _ _ => True) t := by
      intro fs
      induction fs with
      | nil => exact fun _ => trivial
      | cons f fs ih =>
        intro t
        rw [List.mapM_cons]
        refine wp_bind (wp_mono (wp_declareFunction number f) (fun h => h) fun _ t₁ _ => ?_)
        exact wp_bind (wp_mono (ih t₁) (fun h => h) fun _ _ _ => trivial)
    exact wp_of_error (hlimit _ t) h trivial

/-! ## Going through the scopes -/

/-- One thing after another from a list. Each fails beyond the limits only without its own `T`, and
leaves its own `U`. -/
theorem wp_each {γ : Type} {f : γ → ProgramM PUnit} {T : γ → Prop} {R : Compilation → Prop}
    {U : γ → Compilation → Prop} {xs : List γ} (ht : t.Indexed p) (hR : R t)
    (hRmono : ∀ {t t' : Compilation}, t.Continues p t' → R t → R t')
    (hUmono : ∀ {x} {t t' : Compilation}, t.Continues p t' → U x t → U x t')
    (hstep : ∀ x ∈ xs, ∀ {t : Compilation}, t.Indexed p → R t →
      wp (T x) (f x) (fun _ t' => t.Continues p t' ∧ t'.Indexed p ∧ U x t') t) :
    wp (∀ x ∈ xs, T x) (xs.forM f)
      (fun _ t' => t.Continues p t' ∧ t'.Indexed p ∧ ∀ x ∈ xs, U x t') t := by
  induction xs generalizing t with
  | nil => exact ⟨.refl ht.toTables, ht, by simp⟩
  | cons x xs ih =>
    refine wp_bind (wp_mono (hstep x List.mem_cons_self ht hR) (fun h => h x List.mem_cons_self)
      fun _ t₁ h => ?_)
    obtain ⟨hc, hi, hU⟩ := h
    refine wp_mono (ih hi (hRmono hc hR) fun y hy => hstep y (List.mem_cons_of_mem _ hy))
      (fun h y hy => h y (List.mem_cons_of_mem _ hy)) fun _ t₂ h => ?_
    obtain ⟨hc', hi', hU'⟩ := h
    refine ⟨hc.trans hc', hi', fun y hy => ?_⟩
    rcases List.mem_cons.mp hy with rfl | hy
    · exact hUmono hc' hU
    · exact hU' y hy

/-- **Going through a scope** and the typing of the functions inside it. -/
theorem wp_compileScope (hl : p.Linked) (hn : p.NestedBlocks) (depth : Nat) (hi : t.Indexed p)
    (hroot : p.Below Program.root i) (hdepth : p.scopeCount ≤ i + depth)
    (hseen : ∀ j, p.Below j i → j ≠ i → Seen p t j) :
    wp (p.TypedBelow strict i) (compileScope p strict depth i)
      (fun _ t' => t.Continues p t' ∧ t'.Indexed p ∧ p.TypedBelow strict i ∧
        ∀ k, p.Below i k → Seen p t' k) t := by
  obtain ⟨s, hs⟩ := hl.exists_scope? hroot
  induction depth generalizing i t s with
  | zero =>
    exact absurd hdepth (Nat.not_le.mpr (Program.scope?_lt hs))
  | succ depth ih =>
    unfold compileScope
    rw [hs]
    dsimp only
    refine wp_bind (wp_enterScope hi hs fun number t₁ hc₁ hi₁ hnumber => ?_)
    refine wp_bind (wp_declareAll hi₁ hs hnumber fun ids t₂ h₂ => ?_)
    have hc₂ := hc₁.trans h₂.continues
    have haround : ∀ j, p.Below j i → Seen p t₂ j := fun _ =>
      h₂.seen_around hs hnumber fun j hj hne => (hseen j hj hne).mono hc₁
    rw [forM_children]
    refine wp_bind (wp_mono (wp_each (T := fun c => p.TypedBelow strict c)
      (R := fun t => ∀ j, p.Below j i → Seen p t j)
      (U := fun c t => p.TypedBelow strict c ∧ ∀ k, p.Below c k → Seen p t k)
      h₂.indexed haround (fun hc hR j hj => (hR j hj).mono hc)
      (fun hc hU => ⟨hU.1, fun k hk => (hU.2 k hk).mono hc⟩) fun c hmem {t} ht hR => ?_)
      (fun h => ((Program.typedBelow_iff hs).mp h).1) fun _ t₃ h => ?_)
    · have hc := Array.mem_toList_iff.mp hmem
      have hdepth' : p.scopeCount ≤ c + depth := by
        rw [← Nat.add_assoc, Nat.add_right_comm] at hdepth
        exact Nat.le_trans hdepth (Nat.add_le_add_right (hl.lt_child hroot hs hc) depth)
      obtain ⟨sc, hsc, -⟩ := hl.child hs hc
      exact ih ht (.child hroot hs hc) hdepth'
        (fun j hj hne => hR j (hl.below_parent hs hc hj hne)) sc hsc
    obtain ⟨hc₃, hi₃, hU⟩ := h
    have hinside : ∀ k, p.Below i k → Seen p t₃ k := by
      intro k hk
      rcases hk.cases_head with rfl | ⟨s', c, hs', hc, hk⟩
      · exact (haround k .refl).mono hc₃
      · obtain rfl := Option.some.inj (hs.symm.trans hs')
        exact (hU c (Array.mem_toList_iff.mpr hc)).2 k hk
    refine wp_mono (wp_each (T := fun x : FunctionDecl × UInt16 => p.BodyTyped strict x.1)
      (R := fun t => ∀ j, p.Below j i ∨ p.Below i j → Seen p t j)
      (U := fun x _ => p.BodyTyped strict x.1)
      hi₃ (fun j hj => hj.elim (fun hj => (haround j hj).mono hc₃) (hinside j))
      (fun hc hR j hj => (hR j hj).mono hc) (fun _ hU => hU) fun x hx {t} ht hR => ?_)
      (fun h x hx => ((Program.typedBelow_iff hs).mp h).2 x.1 (List.of_mem_zip hx).1) fun _ t₄ h => ?_
    · have hd : p.DeclaredIn i x.1 := ⟨s, hs, (List.of_mem_zip hx).1⟩
      exact wp_inside (wp_compileFunction hl ht hroot hd hR (hn i x.1 hroot hd) x.2)
    · obtain ⟨hc₄, hi₄, hfunctions⟩ := h
      refine ⟨(hc₂.trans hc₃).trans hc₄, hi₄, (Program.typedBelow_iff hs).mpr
        ⟨fun c hc => (hU c hc).1, fun f hf => ?_⟩, fun k hk => (hinside k hk).mono hc₄⟩
      obtain ⟨n, hlt, rfl⟩ := List.mem_iff_getElem.mp hf
      have hlen := h₂.length
      have hmem : (s.functions.toList[n], ids[n]) ∈ s.functions.toList.zip ids :=
        List.mem_iff_getElem.mpr ⟨n, by rw [List.length_zip]; omega, by simp⟩
      exact hfunctions _ hmem

end ProgramM

/-! ## Whole programs -/

/-- **Compilation accepts the well-typed programs**, and no others: a program that compiles is well
typed, and one that is well typed compiles or reaches a limit. -/
theorem compile_typed (hb : p.Built) (hn : p.NestedBlocks) (strict : Bool) :
    ((∃ e, p.compile strict = .ok e) → p.WellTyped strict) ∧
      (p.WellTyped strict → (∃ e, p.compile strict = .ok e) ∨
        ∃ d, p.compile strict = .error d ∧ d.cause.isLimit = true) := by
  obtain ⟨hl, s, f, hs, hf, hname, -⟩ := hb.linked
  have hroot : ∀ j, p.Below j Program.root → j = Program.root :=
    fun j hj => hl.encloses_root (hl.encloses_of_below hj)
  have htop : p.top?.isNone = false := by
    rw [Program.top?, hs, Option.bind_some, Option.isNone_eq_false_iff, Array.find?_isSome]
    exact ⟨f, Array.mem_of_getElem? hf, by simpa using hname⟩
  have hscopes : ProgramM.wp (p.TypedBelow strict Program.root)
      (ProgramM.compileScope p strict (p.scopeCount + 1) Program.root) (fun _ t' =>
        Continues p {} t' ∧ t'.Indexed p ∧ p.TypedBelow strict Program.root ∧
          ∀ k, p.Below Program.root k → Seen p t' k) {} :=
    ProgramM.wp_compileScope hl hn _ p.indexed_empty .refl (by omega)
      fun j hj hne => absurd (hroot j hj) hne
  unfold Program.compile
  rw [htop]
  unfold ProgramM.wp at hscopes
  cases hrun : ProgramM.compileScope p strict (p.scopeCount + 1) Program.root {} with
  | error d =>
    rw [hrun] at hscopes
    simp only [StateT.run, hrun]
    refine ⟨fun h => ?_, fun h => .inr ⟨d, rfl, hscopes h⟩⟩
    obtain ⟨e, he⟩ := h
    cases he
  | ok r =>
    rw [hrun] at hscopes
    simp only [StateT.run, hrun]
    exact ⟨fun _ => hscopes.2.2.1, fun _ => .inl ⟨_, rfl⟩⟩

/-- A block where the sum needs its left operand: the 2 is taken for that, and nothing is left for
the right one. -/
def misplacedBlock : Program :=
  let p := (Program.empty.addScope 1).2
  p.defineTop [.print [.binary .add (.block (.mk 2 [])) (.int 2)]]

theorem misplacedBlock_not_wellTyped :
    (doublingProgram.Built ∧ doublingProgram.NestedBlocks ∧ doublingProgram.WellTyped true) ∧
      misplacedBlock.Built ∧ misplacedBlock.NestedBlocks ∧ ¬ misplacedBlock.WellTyped false := by
  have hn : doublingProgram.NestedBlocks := Program.nestedBlocks_of_all (by decide +kernel)
  have hn' : misplacedBlock.NestedBlocks := Program.nestedBlocks_of_all (by decide +kernel)
  have hb' : misplacedBlock.Built := .defineTop (.addScope .empty (by decide)) _
  refine ⟨⟨doublingProgram_built, hn, ?_⟩, hb', hn', fun h => ?_⟩
  · exact (compile_typed doublingProgram_built hn true).1 doublingProgram_compiles
  · have hfails : misplacedBlock.compile false =
        .error { function := some "<top>", cause := .typeStackUnderflow } := by cbv
    rcases (compile_typed hb' hn' false).2 h with ⟨e, he⟩ | ⟨d, hd, hlimit⟩
    · rw [hfails] at he
      cases he
    · rw [hfails] at hd
      cases hd
      cases hlimit

end StackLang
