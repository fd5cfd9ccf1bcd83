import StackLang.Proofs.Compile.Made
import StackLang.Proofs.Compile.References
import StackLang.Proofs.Machine.Places

/-!
# The code of for loops

Every loop in the body of a compiled function has its code (`Emitted.hasLoops`). What the code of the
lower bound and of the body names is never the hidden slot of the upper bound, and in a compiled program
nothing else in the frame is at its place (`Program.compile_laidOut`).
-/

namespace StackLang

open Code

/-! ## Loops of the code -/

/-- All of these loops have their code. -/
def Site.HasLoops (g : Site) (loops : List ForLoop) : Prop :=
  ∃ ls, List.Forall₂ (ForLoop.CodeAt g) loops ls

theorem Site.HasLoops.append {g : Site} {loops loops' : List ForLoop} (h : g.HasLoops loops)
    (h' : g.HasLoops loops') : g.HasLoops (loops ++ loops') := by
  obtain ⟨ls, hls⟩ := h
  obtain ⟨ls', hls'⟩ := h'
  exact ⟨ls ++ ls', List.rel_append hls hls'⟩

/-- **Every loop in a phrase has its code.** -/
theorem Emitted.hasLoops {g : Site} {sc : ScopeIndex} {phrase : Phrase} {a b : Nat}
    {types : List Ty} (h : Emitted g sc phrase a types b) (hsc : g.block sc) :
    g.HasLoops (phrase.loops sc) := by
  induction h with
  | int | double | string | load | ret | native => exact ⟨[], .nil⟩
  | argsNil | operandsNil | stmtsNil => exact ⟨[], .nil⟩
  | unary _ _ _ ih | drop _ _ ih | assign _ _ _ _ ih | update _ _ _ _ _ _ ih | inner _ ih
  | retValue _ _ _ ih | print _ ih | call _ _ _ _ ih =>
    simpa only [Phrase.loops, Node.loops] using ih hsc
  | blockMk hin _ ih => simpa only [Phrase.loops, Block.loops] using ih hin
  | binary _ _ _ ihright ihleft =>
    simpa only [Phrase.loops, Node.loops] using (ihleft hsc).append (ihright hsc)
  | argsCons _ _ _ _ ihargs iharg =>
    simpa only [Phrase.loops, Node.allLoops] using (iharg hsc).append (ihargs hsc)
  | operandsCons _ _ _ ih ihrest | stmtsCons _ _ ih ihrest =>
    simpa only [Phrase.loops, Node.allLoops] using (ih hsc).append (ihrest hsc)
  | ifThen _ _ _ ihcond ihthen | whileLoop _ _ _ _ ihcond ihthen =>
    simpa only [Phrase.loops, Node.loops] using (ihcond hsc).append (ihthen hsc)
  | ifElse _ _ _ _ _ ihcond ihthen ihelse =>
    simpa only [Phrase.loops, Node.loops] using ((ihcond hsc).append (ihthen hsc)).append (ihelse hsc)
  | @forLoop sc name lower upper body info limit tl tu a m₁ m₂ m₃ m₄ m₅ m₆ b hvar hint hlimit hupper
      htu hu hlower htl hl htest hbody hback hsparel hspareb ihupper ihlower ihbody =>
    obtain ⟨ls, hls⟩ := ((ihlower hsc).append (ihupper hsc)).append (ihbody hsc)
    have hcode : ForLoop.CodeAt g ⟨sc, name, lower, upper, body⟩
        ⟨a, m₁, m₂, m₃, m₄, m₅, m₆, b, tu, tl, info.addr, limit⟩ :=
      ⟨hsc, ⟨info, hvar, hint, rfl⟩, hlimit, hupper, hu, hlower, hl, htest, hbody, hback, hsparel,
        hspareb⟩
    rw [Phrase.loops, Node.loops]
    exact ⟨_ :: ls, .cons hcode hls⟩

/-! ## Compiled programs -/

/-- The program declares a variable of this address. -/
def Program.Declared (p : Program) (s : Symbols) (addr : VarAddr) : Prop :=
  ∃ x scope, s.scopeId? x = some addr.scope ∧ p.scope? x = some scope ∧
    addr.slot.toNat < scope.vars.size

namespace Made

variable {p : Program} {strict : Bool} {t t₀ t₁ : Compilation} {i sc : ScopeIndex}
  {f : FunctionDecl} {r : Routine} {addr : VarAddr}

/-- The variables in the code of a function are declared. -/
theorem declared_of_var (m : Made p strict t i f r t₀ t₁) {name : String} {info : VarInfo}
    (h : (Site.of ⟨p, f, strict⟩ t₀ t₁).var sc name info) : p.Declared t.symbols info.addr := by
  obtain ⟨t', h₀, h₁, hlook⟩ := h
  obtain ⟨x, -, hdecl⟩ := List.exists_of_findSome?_eq_some hlook
  obtain ⟨scope, hscope, hid, hslot, -, -⟩ := h₀.after.symbols.declared? hdecl
  exact ⟨x, scope, m.continues.symbols.scopeIds (h₁.symbols.scopeIds hid), hscope, hslot.lt⟩

/-- What its frame has room for is a function's own. -/
theorem owns_of_mem (m : Made p strict t i f r t₀ t₁) (howned : addr.scope ∈ t₁.owned)
    (hlt : addr.slot.toNat < t₁.symbols.scopeSize addr.scope) : r.Owns addr := by
  rw [← m.laid.scopes] at howned
  obtain ⟨l, hl, hlscope⟩ := List.mem_map.mp howned
  have hfound : (r.lastPlace? addr.scope).isSome = true :=
    List.find?_isSome.mpr ⟨l, List.mem_reverse.mpr hl, by simpa using hlscope⟩
  obtain ⟨l', hl'⟩ := Option.isSome_iff_exists.mp hfound
  obtain ⟨hmem, hscope'⟩ := Routine.mem_of_lastPlace? hl'
  exact ⟨l', hl', by rw [m.laid.sizes l' hmem, hscope']; exact hlt⟩

/-- The hidden slots in the code of a function are its own. -/
theorem owns_of_hidden (m : Made p strict t i f r t₀ t₁)
    (hblock : (Site.of ⟨p, f, strict⟩ t₀ t₁).block sc)
    (h : (Site.of ⟨p, f, strict⟩ t₀ t₁).hidden sc addr) : r.Owns addr := by
  obtain ⟨scope, hscope, hid, -, hlt⟩ := h
  obtain ⟨id, hid', howned⟩ := hblock
  obtain rfl := Option.some.inj (hid.symm.trans hid')
  exact m.owns_of_mem howned hlt

theorem not_declared_of_hidden (m : Made p strict t i f r t₀ t₁)
    (h : (Site.of ⟨p, f, strict⟩ t₀ t₁).hidden sc addr) : ¬ p.Declared t.symbols addr := by
  rintro ⟨x, scope, hx, hscope, hlt⟩
  obtain ⟨scope', hscope', hid, hle, -⟩ := h
  obtain rfl := m.continues.symbols.after.injective hx (m.continues.symbols.scopeIds hid)
  obtain rfl := Option.some.inj (hscope.symm.trans hscope')
  exact absurd hlt (Nat.not_lt.mpr hle)

/-- The frame of a function has room for what is declared in its scopes. -/
theorem room_of_declared (m : Made p strict t i f r t₀ t₁) {l : ScopeLayout} (hl : l ∈ r.layout)
    (h : p.Declared t.symbols addr) (hscope : addr.scope = l.scope) : addr.slot.toNat < l.size := by
  obtain ⟨x, scope, hx, hdecl, hlt⟩ := h
  have howned : l.scope ∈ t₁.owned := m.laid.scopes ▸ List.mem_map_of_mem hl
  obtain ⟨x', -, hid⟩ := owned_of_functionCode m.code howned
  obtain rfl := m.continues.symbols.after.injective (hscope ▸ hx)
    (m.continues.symbols.scopeIds hid)
  obtain ⟨scope', hdecl', -, -, hsize, -⟩ := m.code.grows.after.symbols.numbered hid
  obtain rfl := Option.some.inj (hdecl.symm.trans hdecl')
  rw [m.laid.sizes l hl]
  exact Nat.lt_of_lt_of_le hlt hsize

/-- The scopes in the frame of a function have numbers. -/
theorem scope_lt (m : Made p strict t i f r t₀ t₁) {l : ScopeLayout} (hl : l ∈ r.layout) :
    l.scope.toNat < t.symbols.scopeCount := by
  have howned : l.scope ∈ t₁.owned := m.laid.scopes ▸ List.mem_map_of_mem hl
  obtain ⟨x, -, hid⟩ := owned_of_functionCode m.code howned
  obtain ⟨-, -, hlt, -⟩ := m.continues.symbols.after.numbered (m.continues.symbols.scopeIds hid)
  exact hlt

end Made

/-- The frames of what a program is compiled to are laid out. -/
theorem ProgramM.Traversed.laidOut {p : Program} {strict : Bool} {depth : Nat}
    {is : List ScopeIndex} {t : Compilation} (ht : Traversed p strict depth is {} t) :
    Executable.LaidOut
      { t.exe with scopeCount := t.symbols.scopeCount, topVars := p.topVars t.symbols }
      (p.Declared t.symbols) := by
  refine ⟨ht.indexed.ids, fun r hr => ?_, fun r hr => ?_, fun r hr l hl => ?_,
    fun r hr l hl addr haddr hscope => ?_, fun r hr => ?_⟩ <;>
    obtain ⟨i, f, t₀, t₁, m⟩ := ht.exists_made hr
  · exact m.laid.ordered
  · exact m.laid.within
  · exact m.scope_lt hl
  · exact m.room_of_declared hl haddr hscope
  · have hany : ∀ name : String, (fun _ : String => true) name = true := fun _ => rfl
    obtain ⟨line, hline, hrefers⟩ := m.code.sweeps (.inr hany)
    refine ⟨line, hline, fun x hx => ⟨fun addr haddr => ?_, fun t ht => ?_⟩⟩
    · have hrefers := hrefers x hx
      rw [haddr] at hrefers
      obtain ⟨sc, hblock, hidden | ⟨name, info, hvar, rfl⟩⟩ := hrefers
      · exact .inr (m.owns_of_hidden hblock hidden)
      · exact .inl (m.declared_of_var hvar)
    · have hrefers := hrefers x hx
      rwa [ht] at hrefers

/-- **The frames of a compiled program are laid out**, and its functions are those of the program in
the order in which they are met. -/
theorem Program.compile_laidOut {p : Program} {strict : Bool} {e : Executable}
    (h : p.compile strict = .ok e) : ∃ t : Compilation, e.LaidOut (p.Declared t.symbols) ∧
      ∀ {k : Nat} {x}, (p.functionsFrom (p.scopeCount + 1) root)[k]? = some x →
        ∃ r t₀ t₁, e.routines[k]? = some r ∧ Made p strict t x.1 x.2 r t₀ t₁ := by
  obtain ⟨t, ht, rfl⟩ := compile_traversed h
  exact ⟨t, ht.laidOut, ht.made⟩

end StackLang
