import StackLang.Proofs.Compile.Names
import StackLang.Proofs.Typing.Functions

/-!
# What names mean when a function is compiled

`ComesTo` follows the walk through the scopes to the compilation of a function, whether the walk
goes on from there or is broken off. By then the scopes around the function and those inside it have
been entered, and the functions they declare have ids and signatures (`ComesTo.ready`); others may
still be missing. `resolution_of_comesTo`: names inside the function mean already what they mean in the
tree, and whatever the tables hold later on, the function would be compiled to the same.
-/

namespace StackLang

open Compilation

variable {p : Program} {strict : Bool} {t t' : Compilation} {i j : ScopeIndex} {f : FunctionDecl}
  {id : UInt16}

/-! ## Meanings -/

/-- Names looked up in the scope `sc` mean what the tree says: the first declaration of the name in the
nearest scope around that has one. -/
structure Compilation.Means (p : Program) (t : Compilation) (sc : ScopeIndex) : Prop where
  /-- A variable has the number of its scope and its place among the variables there. -/
  var : ∀ {name info}, t.symbols.lookupVar? p sc name = some info → ∃ x scope,
    p.var? sc name = some (x, info.ty) ∧ p.scope? x = some scope ∧
      t.symbols.scopeId? x = some info.addr.scope ∧
      Symbols.IsSlot scope.vars.toList name info.addr.slot.toNat info.ty
  noVar : ∀ {name}, t.symbols.lookupVar? p sc name = none ↔ p.var? sc name = none
  /-- A function has its id and its signature. -/
  function : ∀ {name id}, t.symbols.lookupFunction? p sc name = some id → ∃ x g r,
    p.function? sc name = some g ∧ p.FirstNamed x name g ∧
      t.symbols.functions.declared? x name = some id ∧ t.exe.routine? id = some r ∧ r.Declares g
  noFunction : ∀ {name}, t.symbols.lookupFunction? p sc name = none ↔ p.function? sc name = none

/-- Two searches of one list that find the same everywhere find the same. -/
theorem findSome?_congr {α β : Type} {l : List α} {g g' : α → Option β} (h : ∀ a ∈ l, g a = g' a) :
    l.findSome? g = l.findSome? g' := by
  rw [← List.head?_filterMap, List.filterMap_congr h, List.head?_filterMap]

theorem findSome?_eq_none_congr {α β γ : Type} {l : List α} {g : α → Option β} {g' : α → Option γ}
    (h : ∀ a ∈ l, (g a).isSome = (g' a).isSome) :
    l.findSome? g = none ↔ l.findSome? g' = none := by
  rw [List.findSome?_eq_none_iff, List.findSome?_eq_none_iff]
  refine forall₂_congr fun a ha => ?_
  rw [← Option.isNone_iff_eq_none, ← Option.isNone_iff_eq_none, ← Option.not_isSome,
    ← Option.not_isSome, h a ha]

namespace Compilation

/-- Where all scopes around have been seen, names mean what the tree says. -/
theorem Indexed.means (hi : t.Indexed p) {sc : ScopeIndex}
    (hseen : ∀ x ∈ p.enclosing sc, Seen p t x) : t.Means p sc := by
  have hvars : ∀ name, ∀ x ∈ p.enclosing sc, (t.symbols.vars.declared? x name).isSome =
      ((p.scope? x).bind fun s =>
        (s.vars.toList.find? (·.name = name)).map fun var => (x, var.ty)).isSome := by
    intro name x hx
    obtain ⟨id, hid⟩ := (hseen x hx).numbered
    exact hi.symbols.declared?_isSome hid name
  have hfunctions : ∀ name, ∀ x ∈ p.enclosing sc, (t.symbols.functions.declared? x name).isSome =
      ((p.scope? x).bind fun s => s.functions.toList.find? (·.name = name)).isSome :=
    fun name x hx => hi.declared?_isSome (hseen x hx) name
  refine ⟨fun {name info} h => ?_, fun {name} => findSome?_eq_none_congr (hvars name),
    fun {name id} h => ?_, fun {name} => findSome?_eq_none_congr (hfunctions name)⟩
  · obtain ⟨x, hx, hdecl, hfind⟩ := exists_findSome?_eq h (hvars name)
    obtain ⟨scope, hscope, hid, hslot, -, -⟩ := hi.symbols.declared? hdecl
    refine ⟨x, scope, ?_, hscope, hid, hslot⟩
    rw [Program.var?, hfind, hscope, Option.bind_some, Symbols.find?_of_isSlot hslot]
    rfl
  · obtain ⟨x, hx, hdecl, hfind⟩ := exists_findSome?_eq h (hfunctions name)
    obtain ⟨g, r, hfirst, hr, hdeclares⟩ := hi.declared hdecl
    refine ⟨x, g, r, ?_, hfirst, hdecl, hr, hdeclares⟩
    obtain ⟨s, hs, hg⟩ := hfirst
    rw [Program.function?, hfind, hs, Option.bind_some, hg]

/-- What comes later changes nothing where all scopes around have been seen. -/
theorem Continues.lookup?_eq (hc : t.Continues p t') (hi : t.Indexed p) (hi' : t'.Indexed p)
    {sc : ScopeIndex} (hseen : ∀ x ∈ p.enclosing sc, Seen p t x) (name : String) :
    t'.symbols.lookupVar? p sc name = t.symbols.lookupVar? p sc name ∧
      t'.symbols.lookupFunction? p sc name = t.symbols.lookupFunction? p sc name := by
  have hvars : ∀ x ∈ p.enclosing sc,
      t'.symbols.vars.declared? x name = t.symbols.vars.declared? x name := fun x hx =>
    (hseen x hx).numbered.elim fun _ hid => hc.symbols.declared? hid name
  have hfunctions : ∀ x ∈ p.enclosing sc,
      t'.symbols.functions.declared? x name = t.symbols.functions.declared? x name := by
    intro x hx
    cases hdecl : t.symbols.functions.declared? x name with
    | some id => exact hc.functions hdecl
    | none =>
      have hnone := hi.declared?_isSome (hseen x hx) name
      rw [hdecl, ← hi'.declared?_isSome ((hseen x hx).mono hc) name] at hnone
      exact Option.isNone_iff_eq_none.mp (Option.isSome_eq_false_iff.mp hnone.symm)
  exact ⟨findSome?_congr hvars, findSome?_congr hfunctions⟩

end Compilation

/-! ## On the way to a function -/

namespace ProgramM

/-- Between `t` and `t'` the scope `i` has been entered and its functions have got these ids. -/
structure Entered (p : Program) (i : ScopeIndex) (s : Scope) (ids : List UInt16)
    (t t' : Compilation) : Prop where
  scope : p.scope? i = some s
  steps : ∃ number t₁, outside (CompileM.onSymbols (·.enterScope i s)) t = .ok (number, t₁) ∧
    (s.functions.toList.mapM fun f => outside (declareFunction i number f)) t₁ = .ok (ids, t')

/-- Going through the scope `i` from `t` comes in `t'` to the compilation of the function `f`, which the
scope `j` declares and which has the id `id`: all that comes before has succeeded. -/
inductive ComesTo (p : Program) (strict : Bool) : (depth : Nat) → (i : ScopeIndex) →
    (t : Compilation) → (j : ScopeIndex) → (f : FunctionDecl) → (id : UInt16) →
    (t' : Compilation) → Prop
  /-- Inside of one of the children. -/
  | inside {depth : Nat} {i c j : ScopeIndex} {s : Scope} {id : UInt16} {ids : List UInt16}
      {before after : List ScopeIndex} {f : FunctionDecl} {t t₁ t₂ t' : Compilation}
      (henter : Entered p i s ids t t₁) (hchildren : s.children.toList = before ++ c :: after)
      (hbefore : before.forM (compileScope p strict depth) t₁ = .ok (⟨⟩, t₂))
      (h : ComesTo p strict depth c t₂ j f id t') : ComesTo p strict (depth + 1) i t j f id t'
  /-- One of the functions that the scope itself declares. -/
  | own {depth : Nat} {i : ScopeIndex} {s : Scope} {id : UInt16} {ids : List UInt16}
      {before after : List (FunctionDecl × UInt16)} {f : FunctionDecl} {t t₁ t₂ t' : Compilation}
      (henter : Entered p i s ids t t₁)
      (hchildren : s.children.toList.forM (compileScope p strict depth) t₁ = .ok (⟨⟩, t₂))
      (hwork : s.functions.toList.zip ids = before ++ (f, id) :: after)
      (hbefore : (before.forM fun (f, id) =>
        ProgramM.inside f.name (compileFunction { source := p, function := f, strict } id)) t₂ =
          .ok (⟨⟩, t')) : ComesTo p strict (depth + 1) i t i f id t'

/-- What is known when the compilation of a function begins. -/
structure Ready (p : Program) (i : ScopeIndex) (f : FunctionDecl) (id : UInt16)
    (t : Compilation) : Prop where
  reached : p.Below Program.root i
  declared : p.DeclaredIn i f
  indexed : t.Indexed p
  /-- All scopes around the function and inside it have been entered. -/
  seen : ∀ j, p.Below j i ∨ p.Below i j → Seen p t j
  /-- The function has its signature. -/
  registered : ∃ r, t.exe.routine? id = some r ∧ r.Declares f

/-- What is left to do in a scope that has been entered. -/
theorem Entered.compileScope_eq {s : Scope} {ids : List UInt16} (h : Entered p i s ids t t')
    (depth : Nat) : compileScope p strict (depth + 1) i t = (do
      s.children.toList.forM (compileScope p strict depth)
      (s.functions.toList.zip ids).forM fun (f, id) =>
        ProgramM.inside f.name (compileFunction { source := p, function := f, strict } id)) t' := by
  obtain ⟨hs, number, t₁, henter, hdeclare⟩ := h
  unfold compileScope
  rw [hs]
  dsimp only
  rw [bind_of_ok henter, bind_of_ok hdeclare, forM_children]

/-- Going through a scope enters it, goes through its children and compiles its functions. -/
theorem exists_entered {depth : Nat} {s : Scope} {u : PUnit} (hs : p.scope? i = some s)
    (h : compileScope p strict (depth + 1) i t = .ok (u, t')) :
    ∃ ids t₁ t₂, Entered p i s ids t t₁ ∧
      s.children.toList.forM (compileScope p strict depth) t₁ = .ok (⟨⟩, t₂) ∧
      ((s.functions.toList.zip ids).forM fun (f, id) =>
        ProgramM.inside f.name (compileFunction { source := p, function := f, strict } id)) t₂ =
          .ok (u, t') := by
  obtain ⟨ids, t₁, hentered⟩ : ∃ ids t₁, Entered p i s ids t t₁ := by
    unfold compileScope at h
    rw [hs] at h
    obtain ⟨number, t₀, henter, h⟩ := bind_ok h
    obtain ⟨ids, t₁, hdeclare, -⟩ := bind_ok h
    exact ⟨ids, t₁, hs, number, t₀, henter, hdeclare⟩
  rw [hentered.compileScope_eq] at h
  obtain ⟨_, t₂, hchildren, hown⟩ := bind_ok h
  exact ⟨ids, t₁, t₂, hentered, hchildren, hown⟩

/-- A scope that has been entered has been seen, with its functions, and so has all around it. -/
theorem Entered.ok {s : Scope} {ids : List UInt16} (h : Entered p i s ids t t') (hi : t.Indexed p)
    (hseen : ∀ k, p.Below k i → k ≠ i → Seen p t k) :
    ∃ t₁, t.Continues p t₁ ∧ Declared p i s.functions.toList ids t₁ t' ∧
      Seen p t' i ∧ ∀ k, p.Below k i → Seen p t' k := by
  obtain ⟨hs, number, t₁, henter, hdeclare⟩ := h
  obtain ⟨hc₁, hi₁, hnumber, -, -⟩ := enterScope_ok hi hs henter
  have h₂ : Declared p i s.functions.toList ids t₁ t' :=
    declared_all hs hi₁ (List.nil_append _).symm nofun hnumber hdeclare
  exact ⟨t₁, hc₁, h₂, h₂.seen hs hnumber, fun _ =>
    h₂.seen_around hs hnumber fun k hk hne => (hseen k hk hne).mono hc₁⟩

/-- Going through some of the children of a scope. -/
theorem traversed_children {depth : Nat} {s : Scope} {is : List ScopeIndex} {u : PUnit}
    (hl : p.Linked) (hs : p.scope? i = some s) (hroot : p.Below Program.root i)
    (his : ∀ k ∈ is, k ∈ s.children.toList) (hi : t.Indexed p)
    (haround : ∀ k, p.Below k i → Seen p t k)
    (h : is.forM (compileScope p strict depth) t = .ok (u, t')) : Traversed p strict depth is t t' :=
  have hmem : ∀ k ∈ is, k ∈ s.children := fun k hk => Array.mem_toList_iff.mp (his k hk)
  traversed_all (fun k hk _ _ _ hi => compileScope_ok depth hi (.child hroot hs (hmem k hk))) hi
    (fun _ k hk j hj hne => haround j (hl.below_parent hs (hmem k hk) hj hne)) h

/-- What is left of a list of steps when some have been taken. -/
theorem forM_append_ok {α : Type} {f : α → ProgramM PUnit} {before after : List α} {u : PUnit}
    {t₁ : Compilation} (h : (before ++ after).forM f t = .ok (u, t'))
    (hbefore : before.forM f t = .ok (⟨⟩, t₁)) : after.forM f t₁ = .ok (u, t') := by
  rw [List.forM_eq_forM, List.forM_append] at h
  rw [List.forM_eq_forM] at hbefore
  rwa [bind_of_ok hbefore] at h

/-- All around the scope `i` and inside it has been seen, and its functions, which have these ids, can be
compiled. -/
structure Opened (p : Program) (i : ScopeIndex) (s : Scope) (ids : List UInt16)
    (t : Compilation) : Prop where
  scope : p.scope? i = some s
  reached : p.Below Program.root i
  indexed : t.Indexed p
  seen : ∀ k, p.Below k i ∨ p.Below i k → Seen p t k
  registered : ∀ x ∈ s.functions.toList.zip ids, ∃ r, t.exe.routine? x.2 = some r ∧
    r.Declares x.1 ∧ t.symbols.scopeId? i = some r.declaringScope
  nodup : ((s.functions.toList.zip ids).map (·.2)).Nodup

theorem Opened.compiled {s : Scope} {ids : List UInt16} {work : List (FunctionDecl × UInt16)}
    {u : PUnit} (h : Opened p i s ids t) (hwork : work.Sublist (s.functions.toList.zip ids))
    (hok : (work.forM fun (f, id) =>
      ProgramM.inside f.name (compileFunction { source := p, function := f, strict } id)) t =
        .ok (u, t')) : CompiledAll p strict i work t t' :=
  compiled_all h.indexed h.reached
    (fun _ hx => ⟨s, h.scope, (List.of_mem_zip (hwork.subset hx)).1⟩) (fun _ => h.seen)
    (fun x hx => h.registered x (hwork.subset hx)) (h.nodup.sublist (hwork.map _)) hok

theorem Opened.mono {s : Scope} {ids : List UInt16} (h : Opened p i s ids t)
    (hc : t.Continues p t') (hi : t'.Indexed p) : Opened p i s ids t' where
  scope := h.scope
  reached := h.reached
  indexed := hi
  seen k hk := (h.seen k hk).mono hc
  registered x hx := by
    obtain ⟨r, hr, hdecl, hdeclaring⟩ := h.registered x hx
    obtain ⟨r', hr', hsame⟩ := hc.routines hr
    exact ⟨r', hr', hdecl.same hsame, hsame.declaringScope ▸ hc.symbols.scopeIds hdeclaring⟩
  nodup := h.nodup

theorem Opened.ready {s : Scope} {ids : List UInt16} (h : Opened p i s ids t)
    (hmem : (f, id) ∈ s.functions.toList.zip ids) : Ready p i f id t where
  reached := h.reached
  declared := ⟨s, h.scope, (List.of_mem_zip hmem).1⟩
  indexed := h.indexed
  seen := h.seen
  registered := (h.registered _ hmem).imp fun _ hr => ⟨hr.1, hr.2.1⟩

/-- When its children have been gone through, the functions of a scope can be compiled. -/
theorem Entered.opened {depth : Nat} {s : Scope} {ids : List UInt16} {t₁ : Compilation} {u : PUnit}
    (h : Entered p i s ids t t₁) (hl : p.Linked) (hi : t.Indexed p) (hroot : p.Below Program.root i)
    (hseen : ∀ k, p.Below k i → k ≠ i → Seen p t k)
    (hchildren : s.children.toList.forM (compileScope p strict depth) t₁ = .ok (u, t')) :
    Opened p i s ids t' := by
  obtain ⟨_, -, h₁, hhere, haround⟩ := h.ok hi hseen
  have h₂ := traversed_children hl h.scope hroot (fun _ hk => hk) h₁.indexed haround hchildren
  exact ⟨h.scope, hroot, h₂.indexed, fun k hk =>
    hk.elim (fun hk => (haround k hk).mono h₂.continues) (h₂.seen_inside h.scope hhere),
    h₁.registered h₂.continues, h₁.nodup⟩

/-- **All scopes around a function and inside it have been seen** when it is compiled. -/
theorem ComesTo.ready {depth : Nat} (h : ComesTo p strict depth i t j f id t') (hl : p.Linked)
    (hi : t.Indexed p) (hroot : p.Below Program.root i)
    (hseen : ∀ k, p.Below k i → k ≠ i → Seen p t k) : Ready p j f id t' := by
  induction h with
  | inside henter hchildren hbefore h ih =>
    have hs := henter.scope
    have hc := Array.mem_toList_iff.mp (hchildren ▸ List.mem_append_right _ List.mem_cons_self)
    obtain ⟨_, -, h₁, -, haround⟩ := henter.ok hi hseen
    have h₂ := traversed_children hl hs hroot (fun k hk => hchildren ▸ List.mem_append_left _ hk)
      h₁.indexed haround hbefore
    exact ih h₂.indexed (.child hroot hs hc) fun k hk hne =>
      (haround k (hl.below_parent hs hc hk hne)).mono h₂.continues
  | own henter hchildren hwork hbefore =>
    have hopened := henter.opened hl hi hroot hseen hchildren
    have hcompiled := hopened.compiled (hwork ▸ List.sublist_append_left ..) hbefore
    exact (hopened.mono hcompiled.continues hcompiled.indexed).ready
      (hwork ▸ List.mem_append_right _ List.mem_cons_self)

/-- If the walk succeeds, it goes on from there. -/
theorem ComesTo.continues {depth : Nat} {u : PUnit} {T : Compilation}
    (h : ComesTo p strict depth i t j f id t') (hl : p.Linked) (hi : t.Indexed p)
    (hroot : p.Below Program.root i) (hseen : ∀ k, p.Below k i → k ≠ i → Seen p t k)
    (hT : compileScope p strict depth i t = .ok (u, T)) : t'.Continues p T := by
  induction h generalizing u T with
  | inside henter hchildren hbefore h ih =>
    have hs := henter.scope
    have hc := Array.mem_toList_iff.mp (hchildren ▸ List.mem_append_right _ List.mem_cons_self)
    obtain ⟨_, -, h₁, -, haround⟩ := henter.ok hi hseen
    have h₂ := traversed_children hl hs hroot (fun k hk => hchildren ▸ List.mem_append_left _ hk)
      h₁.indexed haround hbefore
    have haround₂ := fun k hk => (haround k hk).mono h₂.continues
    have hcroot := hroot.child hs hc
    have hcseen := fun k hk hne => haround₂ k (hl.below_parent hs hc hk hne)
    rw [henter.compileScope_eq] at hT
    obtain ⟨_, t₄, hall, hown⟩ := bind_ok hT
    have hrest := forM_append_ok (hchildren ▸ hall) hbefore
    obtain ⟨_, t₃, hchild, hafter⟩ := bind_ok hrest
    have h₃ := compileScope_ok _ h₂.indexed hcroot (fun _ => hcseen) hchild
    have h₄ := traversed_children hl hs hroot
      (fun k hk => hchildren ▸ List.mem_append_right _ (List.mem_cons_of_mem _ hk)) h₃.indexed
      (fun k hk => (haround₂ k hk).mono h₃.continues) hafter
    have h₅ := (henter.opened hl hi hroot hseen hall).compiled (List.Sublist.refl _) hown
    exact ((ih h₂.indexed hcroot hcseen hchild).trans h₄.continues).trans h₅.continues
  | own henter hchildren hwork hbefore =>
    have hopened := henter.opened hl hi hroot hseen hchildren
    have hcompiled := hopened.compiled (hwork ▸ List.sublist_append_left ..) hbefore
    rw [henter.compileScope_eq, bind_of_ok hchildren, hwork] at hT
    exact ((hopened.mono hcompiled.continues hcompiled.indexed).compiled
      (hwork ▸ List.sublist_append_right ..) (forM_append_ok hT hbefore)).continues

/-- Part of a list of steps that has been taken as a whole. -/
theorem exists_forM_of_append {α : Type} {f : α → ProgramM PUnit} {before after : List α} {u : PUnit}
    (h : (before ++ after).forM f t = .ok (u, t')) : ∃ t₁, before.forM f t = .ok (⟨⟩, t₁) ∧
      after.forM f t₁ = .ok (u, t') := by
  rw [List.forM_eq_forM, List.forM_append] at h
  obtain ⟨_, t₁, hbefore, hafter⟩ := bind_ok h
  exact ⟨t₁, hbefore, hafter⟩

/-- If the walk succeeds, it has come to every function inside. -/
theorem exists_comesTo {depth : Nat} {u : PUnit} (hl : p.Linked) (hi : t.Indexed p)
    (hroot : p.Below Program.root i) (hseen : ∀ k, p.Below k i → k ≠ i → Seen p t k)
    (h : compileScope p strict depth i t = .ok (u, t')) (hj : p.Below i j) (hd : p.DeclaredIn j f) :
    ∃ id t₁, ComesTo p strict depth i t j f id t₁ := by
  induction depth generalizing i t t' u with
  | zero => cases h
  | succ depth ih =>
    obtain ⟨s, hs⟩ := hl.exists_scope? hroot
    obtain ⟨ids, t₁, t₂, hentered, hchildren, hown⟩ := exists_entered hs h
    obtain ⟨_, -, h₁, -, haround⟩ := hentered.ok hi hseen
    rcases hj.cases_head with rfl | ⟨s', c, hs', hc, hj⟩
    · obtain ⟨s', hs', hf⟩ := hd
      obtain rfl := Option.some.inj (hs.symm.trans hs')
      obtain ⟨k, hk⟩ := List.mem_iff_getElem?.mp hf
      have hlt : k < ids.length := h₁.length ▸ (List.getElem?_eq_some_iff.mp hk).1
      have hmem : (f, ids[k]) ∈ s.functions.toList.zip ids := by
        refine List.mem_iff_getElem?.mpr ⟨k, ?_⟩
        rw [List.getElem?_zip_eq_some]
        exact ⟨hk, List.getElem?_eq_getElem hlt⟩
      obtain ⟨before, after, hwork⟩ := List.append_of_mem hmem
      obtain ⟨t₃, hbefore, -⟩ := exists_forM_of_append (hwork ▸ hown)
      exact ⟨_, t₃, .own hentered hchildren hwork hbefore⟩
    · obtain rfl := Option.some.inj (hs.symm.trans hs')
      obtain ⟨before, after, hsplit⟩ := List.append_of_mem (Array.mem_toList_iff.mpr hc)
      obtain ⟨t₃, hbefore, hafter⟩ := exists_forM_of_append (hsplit ▸ hchildren)
      obtain ⟨_, t₄, hchild, -⟩ := bind_ok hafter
      have h₃ := traversed_children hl hs hroot
        (fun k hk => hsplit ▸ List.mem_append_left _ hk) h₁.indexed haround hbefore
      obtain ⟨id, t₅, hcomes⟩ := ih h₃.indexed (hroot.child hs hc)
        (fun k hk hne => (haround k (hl.below_parent hs hc hk hne)).mono h₃.continues) hchild hj
      exact ⟨id, t₅, .inside hentered hsplit hbefore hcomes⟩

/-! ## Inside a function -/

/-- Wherever a name stands in a function, all scopes around it have been seen. -/
theorem Ready.seen_enclosing (h : Ready p i f id t) (hl : p.Linked) {sc x : ScopeIndex}
    (hsc : p.Below f.body.scope sc) (hx : x ∈ p.enclosing sc) : Seen p t x :=
  h.seen x (hl.encloses_cases h.reached ((hl.below_body h.declared).trans hsc)
    (Program.encloses_of_enclosing hx))

/-- Other tables that go on from these mean the same inside the function. -/
theorem Ready.agrees (h : Ready p i f id t) (hl : p.Linked) (hc : t.Continues p t')
    (hi : t'.Indexed p) : t.Agrees p (p.Below f.body.scope) t'.symbols where
  numbered hsc := (h.seen_enclosing hl hsc
    (hl.mem_enclosing ((h.reached.trans (hl.below_body h.declared)).trans hsc) .refl)).numbered
  var hsc name := (hc.lookup?_eq h.indexed hi (fun _ => h.seen_enclosing hl hsc) name).1
  function hsc name := (hc.lookup?_eq h.indexed hi (fun _ => h.seen_enclosing hl hsc) name).2

/-- What names mean in a function that is about to be compiled, with the tables as they are. -/
structure Resolved (p : Program) (strict : Bool) (f : FunctionDecl) (id : UInt16)
    (t : Compilation) : Prop where
  /-- The function has its id and its signature. -/
  registered : ∃ r, t.exe.routine? id = some r ∧ r.Declares f
  /-- Wherever a name stands in the function, it means what the tree says. In particular, all functions
  that are visible there have their ids and signatures. -/
  means : ∀ {sc}, p.Below f.body.scope sc → t.Means p sc
  /-- Compiling the function adds no name. -/
  settled : ∀ {t'}, compileFunction ⟨p, f, strict⟩ id t = .ok (⟨⟩, t') → t.SameNames t'
  /-- Whatever the tables come to hold, all names in the function mean what they mean now. -/
  lookup : ∀ {T}, t.Continues p T → T.Indexed p → ∀ {sc}, p.Below f.body.scope sc → ∀ name,
    T.symbols.lookupVar? p sc name = t.symbols.lookupVar? p sc name ∧
      T.symbols.lookupFunction? p sc name = t.symbols.lookupFunction? p sc name
  /-- With the names that are known later the function would be compiled to the same, or be refused for
  the same cause. -/
  same : ∀ {T}, t.Continues p T → T.Indexed p →
    compileFunction ⟨p, f, strict⟩ id (t.named T.symbols) =
      namedResult T.symbols (compileFunction ⟨p, f, strict⟩ id t)

theorem Ready.resolved (h : Ready p i f id t) (hl : p.Linked) (hn : p.NestedBlocks) :
    Resolved p strict f id t := by
  have hblocks : ∀ x ∈ f.body.scopes, p.Below f.body.scope x := fun x =>
    FunctionDecl.below_of_mem_scopes (hn i f h.reached h.declared)
  obtain ⟨root, hnumber⟩ := (h.seen Program.root (.inl h.reached)).numbered
  have hself : t.Continues p t := .refl h.indexed.toTables
  refine ⟨h.registered, fun hsc => h.indexed.means fun _ => h.seen_enclosing hl hsc,
    fun {t'} hok => ?_, fun {T} hc hT {sc} hsc => ?_, fun {T} hc hT => ?_⟩
  · exact (settled_compileFunction (h.agrees hl hself h.indexed) hblocks hnumber id).1 hok
  · exact hc.lookup?_eq h.indexed hT fun _ => h.seen_enclosing hl hsc
  · exact (settled_compileFunction (h.agrees hl hc hT) hblocks hnumber id).2

end ProgramM

open ProgramM

/-- **Names do not depend on when a function is compiled.** Wherever the walk through a program comes to
the compilation of a function, be it that the program is refused later on, names inside the function mean
what the tree says, as they will in all tables to come. If the program compiles, the walk has come to
every function, and its last tables are complete. -/
theorem Program.names_resolved (hb : p.Built) (hn : p.NestedBlocks) (strict : Bool) :
    (∀ {i f id t}, ComesTo p strict (p.scopeCount + 1) root {} i f id t → Resolved p strict f id t) ∧
      ∀ {u T}, compileScope p strict (p.scopeCount + 1) root {} = .ok (u, T) →
        T.Indexed p ∧ (∀ j, p.Below root j → Seen p T j) ∧
          (∀ sc, p.Below root sc → T.Means p sc) ∧
          (∀ {i f id t}, ComesTo p strict (p.scopeCount + 1) root {} i f id t → t.Continues p T) ∧
          ∀ {i f}, p.Below root i → p.DeclaredIn i f →
            ∃ id t, ComesTo p strict (p.scopeCount + 1) root {} i f id t := by
  have hl := hb.linked.1
  have hnone : ∀ k, p.Below k root → k ≠ root → Seen p {} k := fun k hk hne =>
    absurd (hl.below_root hk) hne
  refine ⟨fun {i f id t} h => (h.ready hl (indexed_empty p) .refl hnone).resolved hl hn,
    fun {u T} hT => ?_⟩
  have htraversed := compileScope_ok _ (indexed_empty p) .refl (fun _ => hnone) hT
  have hseen : ∀ j, p.Below root j → Seen p T j := htraversed.seen root (by simp)
  refine ⟨htraversed.indexed, hseen, fun sc hsc => htraversed.indexed.means fun x hx => hseen x ?_,
    fun h => h.continues hl (indexed_empty p) .refl hnone hT,
    exists_comesTo hl (indexed_empty p) .refl hnone hT⟩
  exact (hl.below_of_encloses hsc (encloses_of_enclosing hx)).1

/-- `f` calls `g`, which is declared after it, with its own parameter, not the variable of that name
around it. -/
def forwardCall : Program :=
  let p := Program.empty.declareVar Program.root ⟨"n", .double⟩
  let p := (p.declareFunction Program.root "f" .int [⟨"n", .int⟩]).2
  let p := (p.declareFunction Program.root "g" .int [⟨"n", .int⟩]).2
  let p := p.define 2 [.ret (some (.call "g" [.load "n"]))]
  let p := p.define 3 [.ret (some (.binary .add (.load "n") (.int 1)))]
  p.defineTop [.print [.call "f" [.int 1]]]

/-- When `f` is compiled, `g` has its id and its signature. -/
theorem forwardCall_resolved : forwardCall.Built ∧ forwardCall.NestedBlocks ∧
    (compileScope forwardCall true (forwardCall.scopeCount + 1) Program.root {}).toOption.isSome ∧
    ∃ f id t g r, ComesTo forwardCall true (forwardCall.scopeCount + 1) Program.root {}
        Program.root f id t ∧ f.name = "f" ∧
      t.symbols.lookupFunction? forwardCall 2 "g" = some g ∧ t.exe.routine? g = some r ∧
        r.name = "g" ∧ r.params = [.int] ∧ r.result = .int ∧
      (t.symbols.lookupVar? forwardCall 2 "n").map (·.ty) = some .int := by
  have hb : forwardCall.Built := .defineTop (.define (.define (.declareFunction (.declareFunction
    (.declareVar .empty _ _) (by decide) _ _ _) (by decide) _ _ _) _ _) _ _) _
  have hn : forwardCall.NestedBlocks := Program.nestedBlocks_of_all (by decide +kernel)
  have hok : (compileScope forwardCall true (forwardCall.scopeCount + 1) Program.root
    {}).toOption.isSome = true := by cbv
  obtain ⟨hresolved, hwhole⟩ := Program.names_resolved hb hn true
  cases hT : compileScope forwardCall true (forwardCall.scopeCount + 1) Program.root {} with
  | error e =>
    rw [hT] at hok
    cases hok
  | ok out =>
    obtain ⟨-, -, -, -, hall⟩ := hwhole hT
    have hf : ((forwardCall.functionsAt Program.root)[1]?).map (fun f => (f.name, f.body.scope)) =
        some ("f", 2) := by cbv
    obtain ⟨f, hmem, hfacts⟩ := Option.map_eq_some_iff.mp hf
    obtain ⟨hname, hscope⟩ := Prod.mk.inj hfacts
    obtain ⟨id, t, hcomes⟩ := hall .refl
      (Program.mem_functionsAt.mp (List.mem_of_getElem? hmem))
    have hmeans := (hresolved hcomes).means (hscope ▸ .refl : forwardCall.Below f.body.scope 2)
    have hg : (forwardCall.function? 2 "g").map (fun g => (g.name, g.params.map (·.ty), g.result)) =
        some ("g", [.int], .int) := by cbv
    have hvar : forwardCall.var? 2 "n" = some (2, .int) := by cbv
    cases hlookup : t.symbols.lookupFunction? forwardCall 2 "g" with
    | none =>
      rw [hmeans.noFunction.mp hlookup] at hg
      cases hg
    | some gid =>
      cases hlookupVar : t.symbols.lookupVar? forwardCall 2 "n" with
      | none =>
        rw [hmeans.noVar.mp hlookupVar] at hvar
        cases hvar
      | some info =>
        obtain ⟨_, g, r, hgf, -, -, hr, hdeclares⟩ := hmeans.function hlookup
        obtain ⟨_, _, hx, -⟩ := hmeans.var hlookupVar
        rw [hgf] at hg
        obtain ⟨hgname, hsignature⟩ := Prod.mk.inj (Option.some.inj hg)
        obtain ⟨hparams, hresult⟩ := Prod.mk.inj hsignature
        obtain ⟨-, hty⟩ := Prod.mk.inj (Option.some.inj (hx.symm.trans hvar))
        exact ⟨hb, hn, rfl, f, id, t, gid, r, hcomes, hname, hlookup, hr,
          hdeclares.name.trans hgname, hdeclares.params.trans hparams,
          hdeclares.result.trans hresult, hlookupVar ▸ congrArg some hty⟩

end StackLang
