import StackLang.Proofs.Compile.Owned
import StackLang.Proofs.Compile.Verified
import StackLang.Proofs.Reference.Evaluator

/-!
# What has been made of a function

`Made p strict t f r` collects what a finished compilation knows of one of its functions. Names in
its code mean what they mean in the tree (`Made.var`, `Made.function`), because all scopes around
the code have been numbered before; the frame holds the scopes of its body one behind the other
(`laid_layOut`).
-/

namespace StackLang

open Compilation

/-! ## Frames -/

/-- The scopes `owned` have their places one behind the other in a frame of this size. -/
structure Laid (s : Symbols) (owned : List UInt16) (layout : List ScopeLayout) (locals : Nat) :
    Prop where
  scopes : layout.map (·.scope) = owned
  sizes : ∀ l ∈ layout, l.size = s.scopeSize l.scope
  ordered : layout.Pairwise fun l l' => l.base + l.size ≤ l'.base
  within : ∀ l ∈ layout, l.base + l.size ≤ locals
  filled : ∀ n < locals, ∃ l ∈ layout, l.base ≤ n ∧ n < l.base + l.size

theorem laid_foldl {s : Symbols} {owned more : List UInt16} {layout : List ScopeLayout}
    {base : Nat} (h : Laid s owned layout base) :
    Laid s (owned ++ more)
      (more.foldl (fun (layout, base) scope =>
        (layout ++ [⟨scope, base, s.scopeSize scope⟩], base + s.scopeSize scope))
        (layout, base)).1
      (more.foldl (fun (layout, base) scope =>
        (layout ++ [⟨scope, base, s.scopeSize scope⟩], base + s.scopeSize scope))
        (layout, base)).2 := by
  induction more generalizing owned layout base with
  | nil => rwa [List.append_nil]
  | cons scope more ih =>
    have hstep : Laid s (owned ++ [scope]) (layout ++ [⟨scope, base, s.scopeSize scope⟩])
        (base + s.scopeSize scope) := by
      refine ⟨by rw [List.map_append, h.scopes]; rfl, fun l hl => ?_, ?_, fun l hl => ?_,
        fun n hn => ?_⟩
      · rcases List.mem_append.mp hl with hl | hl
        · exact h.sizes l hl
        · rw [List.mem_singleton.mp hl]
      · refine List.pairwise_append.mpr ⟨h.ordered, List.pairwise_singleton _ _, fun l hl l' hl' => ?_⟩
        rw [List.mem_singleton.mp hl']
        exact h.within l hl
      · rcases List.mem_append.mp hl with hl | hl
        · exact Nat.le_trans (h.within l hl) (Nat.le_add_right _ _)
        · cases List.mem_singleton.mp hl
          exact Nat.le_refl _
      · by_cases hlt : n < base
        · obtain ⟨l, hl, hin⟩ := h.filled n hlt
          exact ⟨l, List.mem_append_left _ hl, hin⟩
        · exact ⟨_, List.mem_append_right _ List.mem_cons_self, Nat.not_lt.mp hlt, hn⟩
    have hrest := ih hstep
    rwa [List.append_assoc] at hrest

theorem laid_layOut (s : Symbols) (owned : List UInt16) :
    Laid s owned (ProgramM.layOut s owned).1 (ProgramM.layOut s owned).2 := by
  have hempty : Laid s [] [] 0 := ⟨rfl, nofun, List.Pairwise.nil, nofun, nofun⟩
  exact laid_foldl hempty

/-! ## Lookups -/

/-- Two searches of one list that succeed at the same places find the same place. -/
theorem exists_findSome?_eq {α β γ : Type} {l : List α} {g : α → Option β} {g' : α → Option γ}
    {b : β} (h : l.findSome? g = some b) (hsame : ∀ a ∈ l, (g a).isSome = (g' a).isSome) :
    ∃ a ∈ l, g a = some b ∧ l.findSome? g' = g' a := by
  induction l with
  | nil => cases h
  | cons a l ih =>
    have hhead := hsame a List.mem_cons_self
    rw [List.findSome?_cons] at h ⊢
    cases hg : g a with
    | some b' =>
      rw [hg] at h hhead
      cases h
      obtain ⟨c, hc⟩ := Option.isSome_iff_exists.mp hhead.symm
      exact ⟨a, List.mem_cons_self, hg, by rw [hc]⟩
    | none =>
      rw [hg] at h hhead
      have hnone : g' a = none :=
        Option.isNone_iff_eq_none.mp (Option.isSome_eq_false_iff.mp hhead.symm)
      rw [hnone]
      obtain ⟨a', ha', hb, hfind⟩ := ih h fun a' ha' => hsame a' (List.mem_cons_of_mem _ ha')
      exact ⟨a', List.mem_cons_of_mem _ ha', hb, hfind⟩

namespace Symbols

theorem find?_of_isSlot {vars : List VarDecl} {name : String} {slot : Nat} {ty : Ty}
    (h : IsSlot vars name slot ty) : vars.find? (·.name = name) = some ⟨name, ty⟩ := by
  obtain ⟨hlt, hvar⟩ := List.getElem?_eq_some_iff.mp h.1
  refine List.find?_eq_some_iff_getElem.mpr ⟨by simp, slot, hlt, hvar, fun j hj => ?_⟩
  have := h.2 j hj _ (List.getElem?_eq_getElem (Nat.lt_trans hj hlt))
  simpa using this

theorem exists_isSlot {vars : List VarDecl} {name : String} {var : VarDecl}
    (h : vars.find? (·.name = name) = some var) :
    ∃ slot, IsSlot vars name slot var.ty := by
  obtain ⟨hname, slot, hlt, rfl, hmin⟩ := List.find?_eq_some_iff_getElem.mp h
  have hname' : vars[slot].name = name := by simpa using hname
  refine ⟨slot, ?_, fun j hj var hvar heq => ?_⟩
  · rw [List.getElem?_eq_getElem hlt, ← hname']
  · obtain ⟨hj', rfl⟩ := List.getElem?_eq_some_iff.mp hvar
    have := hmin j hj
    simp [heq] at this

/-- A numbered scope declares what its list of variables says. -/
theorem Sound.map_declared? {p : Program} {s : Symbols} (hs : s.Sound p) {i : ScopeIndex}
    {id : UInt16} (hi : s.scopeId? i = some id) (name : String) :
    (s.vars.declared? i name).map (·.ty) = (((p.scope? i).bind fun scope =>
      (scope.vars.toList.find? (·.name = name)).map fun var => (i, var.ty)).map (·.2)) := by
  obtain ⟨scope, hscope, -, -, -, hvars⟩ := hs.numbered hi
  rw [hscope, Option.bind_some, Option.map_map, NameTable.declared?, hvars, Option.bind_some]
  cases hslot : (slots id scope.vars.toList)[name]? with
  | some info =>
    obtain ⟨slot, h, -⟩ := getElem?_slots.mp hslot
    rw [find?_of_isSlot h]
    rfl
  | none =>
    cases hfind : scope.vars.toList.find? (·.name = name) with
    | none => rfl
    | some var =>
      obtain ⟨slot, h⟩ := exists_isSlot hfind
      have hinfo : (slots id scope.vars.toList)[name]? = some ⟨⟨id, slot.toUInt16⟩, var.ty⟩ :=
        getElem?_slots.mpr ⟨slot, h, rfl⟩
      rw [hslot] at hinfo
      cases hinfo

theorem Sound.declared?_isSome {p : Program} {s : Symbols} (hs : s.Sound p) {i : ScopeIndex}
    {id : UInt16} (hi : s.scopeId? i = some id) (name : String) :
    (s.vars.declared? i name).isSome = ((p.scope? i).bind fun scope =>
      (scope.vars.toList.find? (·.name = name)).map fun var => (i, var.ty)).isSome := by
  have h := congrArg Option.isSome (hs.map_declared? hi name)
  rwa [Option.isSome_map, Option.isSome_map] at h

end Symbols

/-- A scope that has been seen has given an id to every name of a function. -/
theorem Compilation.Indexed.declared?_isSome {p : Program} {t : Compilation} (hi : t.Indexed p)
    {x : ScopeIndex} (hx : Seen p t x) (name : String) :
    (t.symbols.functions.declared? x name).isSome =
      ((p.scope? x).bind fun s => s.functions.toList.find? (·.name = name)).isSome := by
  cases hdecl : t.symbols.functions.declared? x name with
  | some id =>
    obtain ⟨g, -, ⟨s, hs, hfind⟩, -⟩ := hi.declared hdecl
    rw [hs, Option.bind_some, hfind]
    rfl
  | none =>
    cases hfind : (p.scope? x).bind fun s => s.functions.toList.find? (·.name = name) with
    | none => rfl
    | some g =>
      obtain ⟨s, hs, hfind⟩ := Option.bind_eq_some_iff.mp hfind
      obtain ⟨id, hid⟩ := hx.functions g ⟨s, hs, List.mem_of_find?_eq_some hfind⟩
      have hname : g.name = name := by simpa using List.find?_some hfind
      rw [hname, hdecl] at hid
      cases hid

/-! ## Functions -/

/-- What the compilation `t` of a program has made of its function `f`, which the scope `i`
declares: the code was begun in `t₀` and finished in `t₁`, and `r` is the record. -/
structure Made (p : Program) (strict : Bool) (t : Compilation) (i : ScopeIndex) (f : FunctionDecl)
    (r : Routine) (t₀ t₁ : Compilation) : Prop where
  reached : p.Below Program.root i
  declared : p.DeclaredIn i f
  code : FunctionCode ⟨p, f, strict⟩ t₀ t₁ r.code
  seen : p.Linked → ∀ {j}, p.Below j i ∨ p.Below i j → Seen p t₀ j
  indexed : t₀.Indexed p
  finished : Finished ⟨p, f, strict⟩ i t₁ r.code r
  continues : t₁.Continues p t

theorem Compilation.Compiled.exists_made {p : Program} {strict : Bool} {t : Compilation}
    {i : ScopeIndex} {f : FunctionDecl} {id : UInt16} (h : Compiled p strict t i f id) :
    ∃ r t₀ t₁, t.exe.routine? id = some r ∧ Made p strict t i f r t₀ t₁ := by
  obtain ⟨t₀, t₁, code, r, hcode, hseen, hindexed, hr, hfin, hcont⟩ := h.made
  obtain rfl := hfin.code
  exact ⟨r, t₀, t₁, hr, h.reached, h.declared, hcode, fun hl {j} hj => hseen hl j hj, hindexed,
    hfin, hcont⟩

/-- Every function has been made of one of the program's. -/
theorem ProgramM.Traversed.exists_made {p : Program} {strict : Bool} {depth : Nat}
    {is : List ScopeIndex} {t : Compilation} (ht : Traversed p strict depth is {} t) {r : Routine}
    (hr : r ∈ t.exe.routines) : ∃ i f t₀ t₁, Made p strict t i f r t₀ t₁ := by
  have hid := ht.indexed.ids.routine?_of_mem hr
  obtain ⟨x, -, hcompiled⟩ := ht.exists_compiled (Nat.zero_le _) hid
  obtain ⟨r', t₀, t₁, hr', m⟩ := hcompiled.exists_made
  obtain rfl := Option.some.inj (hid.symm.trans hr')
  exact ⟨x.1, x.2, t₀, t₁, m⟩

/-- The functions of a program have been made in the order in which they are met. -/
theorem ProgramM.Traversed.made {p : Program} {strict : Bool} {t : Compilation}
    (ht : Traversed p strict (p.scopeCount + 1) [Program.root] {} t) {k : Nat}
    {x : ScopeIndex × FunctionDecl}
    (hx : (p.functionsFrom (p.scopeCount + 1) Program.root)[k]? = some x) :
    ∃ r t₀ t₁, t.exe.routines[k]? = some r ∧ Made p strict t x.1 x.2 r t₀ t₁ := by
  have hfrom : [Program.root].flatMap (p.functionsFrom (p.scopeCount + 1)) =
      p.functionsFrom (p.scopeCount + 1) Program.root := List.flatMap_singleton ..
  have hsize : t.exe.routines.size =
      0 + (p.functionsFrom (p.scopeCount + 1) Program.root).length := hfrom ▸ ht.size
  have hlt := (List.getElem?_eq_some_iff.mp hx).1
  have hroom := ht.indexed.room
  have hk : k.toUInt16.toNat = k := toNat_toUInt16 (by omega)
  have hcompiled : Compilation.Compiled p strict t x.1 x.2 k.toUInt16 :=
    ht.compiled (hfrom ▸ hx) (hk.trans (Nat.zero_add k).symm)
  obtain ⟨r, t₀, t₁, hr, m⟩ := hcompiled.exists_made
  refine ⟨r, t₀, t₁, ?_, m⟩
  rw [← hk]
  exact hr

namespace Made

variable {p : Program} {strict : Bool} {t t₀ t₁ : Compilation} {i : ScopeIndex} {f : FunctionDecl}
  {r : Routine}

theorem continues₀ (m : Made p strict t i f r t₀ t₁) : t₀.Continues p t :=
  (Grows.continues m.code.grows).trans m.continues

/-- The scopes around the code of a function had been seen when it was compiled. -/
theorem seen_of_encloses (m : Made p strict t i f r t₀ t₁) (hl : p.Linked) {sc x : ScopeIndex}
    (hsc : p.Below f.body.scope sc ∨ sc = Program.root) (hx : p.Encloses x sc) : Seen p t₀ x := by
  rcases hsc with hsc | rfl
  · exact m.seen hl (hl.encloses_cases m.reached ((hl.below_body m.declared).trans hsc) hx)
  · obtain rfl := hl.encloses_root hx
    exact m.seen hl (.inl m.reached)

/-- **A variable in the code is the one that the tree means.** -/
theorem var (m : Made p strict t i f r t₀ t₁) (hl : p.Linked) {sc : ScopeIndex} {name : String}
    {info : VarInfo} (hsc : p.Below f.body.scope sc ∨ sc = Program.root)
    (h : (Site.of ⟨p, f, strict⟩ t₀ t₁).var sc name info) :
    ∃ x scope, p.var? sc name = some (x, info.ty) ∧ p.Encloses x sc ∧ p.scope? x = some scope ∧
      t.symbols.scopeId? x = some info.addr.scope ∧
      Symbols.IsSlot scope.vars.toList name info.addr.slot.toNat info.ty := by
  obtain ⟨t', h₀, h₁, hlook⟩ := h
  have hsame : ∀ x ∈ p.enclosing sc, (t'.symbols.vars.declared? x name).isSome =
      ((p.scope? x).bind fun s =>
        (s.vars.toList.find? (·.name = name)).map fun var => (x, var.ty)).isSome := by
    intro x hx
    obtain ⟨⟨id, hid⟩, -⟩ := m.seen_of_encloses hl hsc (Program.encloses_of_enclosing hx)
    exact h₀.after.symbols.declared?_isSome (h₀.symbols.scopeIds hid) name
  obtain ⟨x, hx, hdecl, hfind⟩ := exists_findSome?_eq hlook hsame
  obtain ⟨scope, hscope, hid, hslot, -, -⟩ := h₀.after.symbols.declared? hdecl
  refine ⟨x, scope, ?_, Program.encloses_of_enclosing hx, hscope,
    m.continues.symbols.scopeIds (h₁.symbols.scopeIds hid), hslot⟩
  rw [Program.var?, hfind, hscope, Option.bind_some, Symbols.find?_of_isSlot hslot]
  rfl

/-- **A function called in the code is the one that the tree means**, and it has been compiled. -/
theorem function (m : Made p strict t i f r t₀ t₁) {e : Executable} (ho : p.Output strict t e)
    (hl : p.Linked) {sc : ScopeIndex} {name : String} {id : UInt16} {callee : Routine}
    (hsc : p.Below f.body.scope sc ∨ sc = Program.root)
    (h : (Site.of ⟨p, f, strict⟩ t₀ t₁).function sc name id callee) :
    ∃ x g, p.function? sc name = some g ∧ p.Encloses x sc ∧ g.name = name ∧
      Compiled p strict t x g id ∧ callee.Declares g := by
  obtain ⟨t', h₀, hlook, hr⟩ := h
  have hfunctions : t'.symbols.functions = t₀.symbols.functions := h₀.functions
  have hsame : ∀ x ∈ p.enclosing sc, (t'.symbols.functions.declared? x name).isSome =
      ((p.scope? x).bind fun s => s.functions.toList.find? (·.name = name)).isSome := by
    intro x hx
    rw [hfunctions]
    exact m.indexed.declared?_isSome
      (m.seen_of_encloses hl hsc (Program.encloses_of_enclosing hx)) name
  obtain ⟨x, hx, hdecl, hfind⟩ := exists_findSome?_eq hlook hsame
  rw [hfunctions] at hdecl
  obtain ⟨g, r₀, hfirst, hr₀, hdecl₀⟩ := m.indexed.declared hdecl
  obtain ⟨g', hfirst', hcompiled⟩ := ho.declared (m.continues₀.functions hdecl)
  have hsomeg : (p.scope? x).bind (fun s => s.functions.toList.find? (·.name = name)) = some g := by
    obtain ⟨s, hs, hg⟩ := hfirst
    rw [hs, Option.bind_some, hg]
  obtain rfl : g = g' := by
    obtain ⟨s, hs, hg⟩ := hfirst'
    rw [hs, Option.bind_some, hg] at hsomeg
    exact (Option.some.inj hsomeg).symm
  have hcallee : callee = r₀ := by
    rw [Executable.routine?, h₀.routines] at hr
    exact Option.some.inj (hr.symm.trans hr₀)
  refine ⟨x, g, ?_, Program.encloses_of_enclosing hx, hfirst.declaredIn.2, hcompiled,
    hcallee ▸ hdecl₀⟩
  rw [Program.function?, hfind, hsomeg]

/-- Where the scopes of a function have their places in its frame. -/
theorem laid (m : Made p strict t i f r t₀ t₁) : Laid t₁.symbols t₁.owned r.layout r.locals := by
  have := laid_layOut t₁.symbols t₁.owned
  rwa [← m.finished.layout, ← m.finished.locals] at this

/-- No scope has two places. -/
theorem nodup (m : Made p strict t i f r t₀ t₁) (hl : p.Linked) : t₁.owned.Nodup := by
  refine m.code.grows.nodup ?_
  have hfirst := m.code.owned
  generalize t₀.owned = first at hfirst ⊢
  rcases hfirst with ⟨-, h⟩ | ⟨-, hroot, h⟩
  · exact List.nodup_singleton _
  · refine List.nodup_cons.mpr ⟨fun hmem => ?_, List.nodup_singleton _⟩
    obtain rfl := List.mem_singleton.mp hmem
    exact hl.body_ne_root m.declared (m.indexed.symbols.injective h hroot)

end Made

end StackLang
