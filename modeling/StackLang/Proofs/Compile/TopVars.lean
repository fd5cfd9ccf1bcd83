import StackLang.Proofs.Compile.Made

/-!
# Variables of the host

The executable's table of variables for the host is what the tree says: the first variable of each
name in the body of `<top>`, at its slot (`Output.topVar?_eq`).
-/

namespace StackLang

open Symbols (IsSlot)

/-- The first variable of a name is kept. -/
theorem find?_firstOfEachName (vars : List VarDecl) (name : String) :
    (Program.firstOfEachName vars).find? (·.name = name) = vars.find? (·.name = name) := by
  have hstep : ∀ (vars firsts : List VarDecl) (seen : Std.TreeSet String),
      (∀ n, n ∈ seen ↔ ∃ var ∈ firsts, var.name = n) →
        (vars.foldl (fun acc var =>
          if var.name ∈ acc.1 then acc else (acc.1.insert var.name, var :: acc.2))
          (seen, firsts)).2.reverse.find? (·.name = name) =
        (firsts.reverse ++ vars).find? (·.name = name) := by
    intro vars
    induction vars with
    | nil => intro firsts seen _; rw [List.append_nil]; rfl
    | cons var vars ih =>
      intro firsts seen hseen
      rw [List.foldl_cons]
      by_cases hmem : var.name ∈ seen
      · rw [if_pos hmem, ih firsts seen hseen, List.find?_append, List.find?_append,
          List.find?_cons]
        by_cases hname : var.name = name
        · -- An earlier variable of this name is found before.
          obtain ⟨first, hfirst, hn⟩ := (hseen _).mp hmem
          have hsome : (firsts.reverse.find? (·.name = name)).isSome = true :=
            List.find?_isSome.mpr ⟨first, List.mem_reverse.mpr hfirst, by simp [hn, hname]⟩
          obtain ⟨found, hfound⟩ := Option.isSome_iff_exists.mp hsome
          rw [hfound]
          rfl
        · simp [hname]
      · rw [if_neg hmem, ih (var :: firsts) (seen.insert var.name) fun n => ?_, List.reverse_cons,
          List.append_assoc, List.singleton_append]
        rw [Std.TreeSet.mem_insert, Std.LawfulEqCmp.compare_eq_iff_eq, hseen n]
        simp [eq_comm]
  exact hstep vars [] ∅ (by simp)

namespace Symbols

/-- Inside a numbered scope its own names mean its own variables. -/
theorem Sound.lookupVar?_own {p : Program} {s : Symbols} (hs : s.Sound p) {i : ScopeIndex}
    {id : UInt16} {scope : Scope} (hi : s.scopeId? i = some id) (hscope : p.scope? i = some scope)
    {name : String} {slot : Nat} {ty : Ty} (h : IsSlot scope.vars.toList name slot ty) :
    s.lookupVar? p i name = some ⟨⟨id, slot.toUInt16⟩, ty⟩ ∧ slot.toUInt16.toNat = slot := by
  obtain ⟨scope', hscope', -, hmax, -, hvars⟩ := hs.numbered hi
  obtain rfl := Option.some.inj (hscope.symm.trans hscope')
  have hlt : slot < scope.vars.size := by
    have := (List.getElem?_eq_some_iff.mp h.1).1
    simpa using this
  refine ⟨?_, toNat_toUInt16 (Nat.lt_of_lt_of_le hlt (Nat.le_trans hmax (by decide)))⟩
  have hdecl : s.vars.declared? i name = some ⟨⟨id, slot.toUInt16⟩, ty⟩ := by
    rw [NameTable.declared?, hvars, Option.bind_some]
    exact getElem?_slots.mpr ⟨slot, h, rfl⟩
  rw [lookupVar?, NameTable.lookup?, Program.enclosing, Program.outwards, List.findSome?_cons, hdecl]

end Symbols

namespace Program.Output

variable {p : Program} {strict : Bool} {t : Compilation} {e : Executable}

/-- **The table of the host's variables** is that of the tree. -/
theorem topVar?_eq (ho : p.Output strict t e) (hl : p.Linked) (name : String) :
    (p.hostVar? name = none ∧ RunM.topVar? e name = none) ∨
    ∃ decl addr scope, p.hostVar? name = some decl ∧
      RunM.topVar? e name = some ⟨name, decl.ty, addr⟩ ∧ p.scope? p.topScope = some scope ∧
      t.symbols.scopeId? p.topScope = some addr.scope ∧
      IsSlot scope.vars.toList name addr.slot.toNat decl.ty := by
  obtain ⟨f, -, htop, hcompiled, -⟩ := ho.top
  have hbody : p.topScope = f.body.scope := by rw [topScope, htop]
  have hbelow : p.Below root p.topScope := hbody ▸ hl.below_body hcompiled.declared
  obtain ⟨scope, hscope⟩ := hl.exists_scope? hbelow
  obtain ⟨⟨id, hid⟩, -⟩ := ho.seen _ hbelow
  have hs := ho.indexed.symbols
  have hown : ∀ {name : String} {var : VarDecl},
      scope.vars.toList.find? (·.name = name) = some var → ∃ slot,
        IsSlot scope.vars.toList name slot var.ty ∧
          t.symbols.lookupVar? p p.topScope name = some ⟨⟨id, slot.toUInt16⟩, var.ty⟩ ∧
          slot.toUInt16.toNat = slot := by
    intro name var hfind
    obtain ⟨slot, hslot⟩ := Symbols.exists_isSlot hfind
    exact ⟨slot, hslot, hs.lookupVar?_own hid hscope hslot⟩
  have htable : RunM.topVar? e name = (scope.vars.toList.find? (·.name = name)).bind fun var =>
      (t.symbols.lookupVar? p p.topScope var.name).map fun info => ⟨var.name, info.ty, info.addr⟩ := by
    rw [RunM.topVar?, ho.exe]
    change (p.topVars t.symbols).find? _ = _
    rw [topVars, hscope]
    dsimp only
    rw [List.find?_filterMap, ← find?_firstOfEachName]
    congr 1
    refine List.find?_congr fun var hvar => ?_
    have hfound : ((firstOfEachName scope.vars.toList).find? (·.name = var.name)).isSome = true :=
      List.find?_isSome.mpr ⟨var, hvar, by simp⟩
    obtain ⟨first, hfirst⟩ := Option.isSome_iff_exists.mp hfound
    obtain ⟨_, -, hlook, -⟩ := hown (find?_firstOfEachName _ _ ▸ hfirst)
    rw [hlook]
    rfl
  rw [hostVar?, hscope, Option.bind_some, htable]
  cases hfind : scope.vars.toList.find? (·.name = name) with
  | none => exact .inl ⟨rfl, rfl⟩
  | some var =>
    obtain ⟨slot, hslot, hlook, hnat⟩ := hown hfind
    have hname : var.name = name := by simpa using List.find?_some hfind
    refine .inr ⟨var, ⟨id, slot.toUInt16⟩, scope, rfl, ?_, rfl, hid, by rw [hnat]; exact hslot⟩
    rw [Option.bind_some, hname, hlook]
    rfl

end Program.Output

end StackLang
