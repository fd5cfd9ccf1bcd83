import StackLang.Proofs.Compile.Made
import StackLang.Proofs.Typing.Nodes

/-!
# Outcomes of functions

`wp_compileFunction`: once everything around and inside a function has been seen, its compilation
fails at a limit only if its body is well typed, and succeeds only then. Names mean what the tree
says from the first instruction on (`begun_of_seen`), and the body begins with no types that a
misplaced statement could use up.
-/

namespace StackLang

open Compilation
open CompileM

/-- The body of a function is well typed. -/
def Program.BodyTyped (p : Program) (strict : Bool) (f : FunctionDecl) : Prop :=
  HasType ⟨p, f, strict⟩ f.body.scope (.stmts f.body.statements) []

/-! ## Names -/

/-- Two searches of one list that find the same everywhere find the same. -/
theorem findSome?_map_congr {α β γ δ : Type} {l : List α} {g : α → Option β} {g' : α → Option γ}
    {φ : β → δ} {ψ : γ → δ} (h : ∀ a ∈ l, (g a).map φ = (g' a).map ψ) :
    (l.findSome? g).map φ = (l.findSome? g').map ψ := by
  induction l with
  | nil => rfl
  | cons a l ih =>
    have ha := h a List.mem_cons_self
    rw [List.findSome?_cons, List.findSome?_cons]
    cases hg : g a with
    | some b =>
      cases hg' : g' a with
      | some c => rwa [hg, hg'] at ha
      | none => simp [hg, hg'] at ha
    | none =>
      cases hg' : g' a with
      | some c => simp [hg, hg'] at ha
      | none => exact ih fun a' ha' => h a' (List.mem_cons_of_mem _ ha')

variable {p : Program} {strict : Bool} {i : ScopeIndex} {f : FunctionDecl} {t t₀ t' : Compilation}

/-- Parameters can be seen everywhere in the body. -/
theorem Program.var?_isSome_of_param (hl : p.Linked) (hroot : p.Below Program.root i)
    (hd : p.DeclaredIn i f) {sc : ScopeIndex} (hsc : p.Below f.body.scope sc) {param : VarDecl}
    (hparam : param ∈ f.params) : (p.var? sc param.name).isSome = true := by
  have hscroot := (hroot.trans (hl.below_body hd)).trans hsc
  obtain ⟨s, hs, hf⟩ := hd
  obtain ⟨-, body, hbody, hprefix⟩ := hl.body hs (Array.mem_toList_iff.mp hf)
  rw [var?, List.findSome?_isSome_iff]
  refine ⟨f.body.scope, hl.mem_enclosing hscroot (hl.encloses_of_below hsc), ?_⟩
  rw [hbody, Option.bind_some, Option.isSome_map, List.find?_isSome]
  exact ⟨param, hprefix.subset hparam, by simp⟩

/-- **Where code begins, names mean what the tree says**, if all around it has been seen. -/
theorem begun_of_seen (hl : p.Linked) (hroot : p.Below Program.root i) (hd : p.DeclaredIn i f)
    (hi : t₀.Indexed p) (hseen : ∀ j, p.Below j i ∨ p.Below i j → Seen p t₀ j) :
    Begun ⟨p, f, strict⟩ t₀ := by
  have hbody := hl.below_body hd
  have haround : ∀ {sc x}, p.Below f.body.scope sc → x ∈ p.enclosing sc → Seen p t₀ x :=
    fun hsc hx => hseen _ (hl.encloses_cases hroot (hbody.trans hsc)
      (Program.encloses_of_enclosing hx))
  have hsame : ∀ {sc} {t : Compilation}, p.Below f.body.scope sc → t₀.Grows p t →
      ∀ name, ∀ x ∈ p.enclosing sc, (t.symbols.functions.declared? x name).isSome =
        ((p.scope? x).bind fun s => s.functions.toList.find? (·.name = name)).isSome := by
    intro sc t hsc hgrows name x hx
    rw [hgrows.functions]
    exact hi.declared?_isSome (haround hsc hx) name
  refine ⟨fun hsc => (hseen _ (.inr (hbody.trans hsc))).numbered, fun {sc t} hsc hgrows name => ?_,
    fun {sc t name} hsc hgrows hnone => ?_, fun {sc t name id} hsc hgrows hlook => ?_,
    fun hsc param hparam => Program.var?_isSome_of_param hl hroot hd hsc hparam⟩
  · refine findSome?_map_congr fun x hx => ?_
    obtain ⟨id, hid⟩ := (haround hsc hx).numbered
    exact hgrows.after.symbols.map_declared? (hgrows.symbols.scopeIds hid) name
  · cases hfun : p.function? sc name with
    | none => rfl
    | some g =>
      obtain ⟨x, hx, hg, hlook⟩ := exists_findSome?_eq hfun fun x hx =>
        (hsame hsc hgrows name x hx).symm
      have hsome := hsame hsc hgrows name x hx
      rw [← hlook, hg] at hsome
      rw [Symbols.lookupFunction?, NameTable.lookup?] at hnone
      rw [hnone] at hsome
      cases hsome
  · obtain ⟨x, hx, hdecl, hfun⟩ := exists_findSome?_eq hlook (hsame hsc hgrows name)
    rw [hgrows.functions] at hdecl
    obtain ⟨g, r, ⟨s, hs, hfind⟩, hr, hdeclares⟩ := hi.declared hdecl
    refine ⟨g, r, ?_, ?_, hdeclares⟩
    · rw [Program.function?, hfun, hs, Option.bind_some, hfind]
    · rwa [Executable.routine?, hgrows.routines]

/-! ## Compiling a function -/

namespace ProgramM

theorem wp_storeParams {P : Prop} {c : FunctionContext} (hb : Begun c t₀) {params : List VarDecl}
    (hi : Inside c t₀ t) (hparams : ∀ param ∈ params, param ∈ c.function.params)
    {Q : Unit → Compilation → Prop}
    (hQ : ∀ t', t.Moves c.source t.code.openLabels t' → t'.types = t.types → Q () t') :
    CompileM.wp P (storeParams c.source params) Q t := by
  induction params generalizing t with
  | nil => exact hQ t (.of_types hi.sound t.types) rfl
  | cons param params ih =>
    refine wp_bind (wp_bind (wp_resolveVar (fun hnone _ => ?_) fun info _ => ?_))
    · have hsome := hb.params hi.below param (hparams param List.mem_cons_self)
      rw [hb.var?_eq_none hi hnone] at hsome
      cases hsome
    · refine wp_storeVar hi.sound fun t₁ m₁ h₁ => ?_
      refine ih (hi.moves m₁) (fun param h => hparams param (List.mem_cons_of_mem _ h))
        fun t₂ m₂ h₂ => hQ t₂ (m₁.labels ▸ m₁.trans m₂) (h₂.trans h₁)

/-- Code without open labels can be put into the record. -/
theorem wp_closeFunction {P : Prop} {id scope : UInt16} {Q : Unit → Compilation → Prop}
    (hlabels : t.code.openLabels = ∅)
    (hQ : ∀ fill : Routine → Routine, (∀ r : Routine, r.SameSignature (fill r)) →
      Q () { t with exe := t.exe.modifyRoutine id fill }) :
    CompileM.wp P (closeFunction id scope) Q t := by
  unfold closeFunction
  refine wp_bind (wp_get ?_)
  rw [Builder.finish_of_openLabels hlabels]
  exact hQ _ fun r => ⟨rfl, rfl, rfl, rfl, rfl⟩

/-- **The compilation of a function** and the typing of its body. -/
theorem wp_compileFunction (hl : p.Linked) (hi : t.Indexed p) (hroot : p.Below Program.root i)
    (hd : p.DeclaredIn i f) (hseen : ∀ j, p.Below j i ∨ p.Below i j → Seen p t j)
    (hblocks : Node.allWellFormed p (fun _ => true) f.body.scope f.body.statements = true)
    (id : UInt16) :
    CompileM.wp (p.BodyTyped strict f) (compileFunction ⟨p, f, strict⟩ id)
      (fun _ t' => t.Continues p t' ∧ t'.Indexed p ∧ p.BodyTyped strict f) t := by
  have hbody := hl.below_body hd
  obtain ⟨scope, hscope⟩ := (hseen _ (.inr hbody)).numbered
  obtain ⟨root, hrootId⟩ := (hseen _ (.inl hroot)).numbered
  have hopen := openFunction_eq (c := ⟨p, f, strict⟩) hscope hrootId
  obtain ⟨hcode, htypes, hsc, hexe, hsound, hext, hfun, -, -⟩ :=
    openFunction_ok (c := ⟨p, f, strict⟩) hi.toTables hopen
  unfold compileFunction
  refine wp_bind ?_
  unfold CompileM.wp
  rw [hopen]
  dsimp only
  generalize hbegin : ({ t with
      code := {}, types := [], owned := if f.name = Program.topName then [root, scope] else [scope],
      scope := f.body.scope } : Compilation) = t₀ at *
  obtain ⟨hcont₀, hi₀⟩ := hi.of_numbered hexe hext hfun
  have hb : Begun ⟨p, f, strict⟩ t₀ :=
    begun_of_seen hl hroot hd hi₀ fun j hj => (hseen j hj).mono hcont₀
  have hinside : Inside ⟨p, f, strict⟩ t₀ t₀ := ⟨.refl hsound, hsc ▸ .refl⟩
  have hlabels : t₀.code.openLabels = ∅ := by
    rw [hcode]
    ext l
    simp [Builder.openLabels]
  refine wp_bind (wp_storeParams hb hinside (fun _ h => h) fun t₁ m₁ h₁ => ?_)
  have hsc₁ : t₁.scope = f.body.scope := m₁.scope.trans hsc
  have hstatements := compileStatements_outcome hb f.body.statements (hinside.moves m₁)
    (hsc₁ ▸ hblocks)
  rw [hsc₁] at hstatements
  refine wp_bind (wp_mono hstatements (fun h => h) fun _ t₂ h => ?_)
  obtain ⟨m₂, hbalanced⟩ := h
  rw [h₁, htypes] at hbalanced
  have htyped : p.BodyTyped strict f := hbalanced.of_nil
  refine wp_bind (wp_emit m₂.grows.after fun t₃ m₃ _ => ?_)
  have m := m₁.trans (m₂.trans m₃)
  refine wp_closeFunction (by rw [m₃.labels, m₂.labels, m₁.labels, hlabels]) fun fill hfill => ?_
  have hw : Wrote p id fill t t₀ t₃ { t₃ with exe := t₃.exe.modifyRoutine id fill } :=
    ⟨m.grows, hexe, hext, hfun, rfl, rfl, hfill⟩
  exact ⟨hw.continues hi, hw.indexed hi, htyped⟩

end ProgramM

end StackLang
