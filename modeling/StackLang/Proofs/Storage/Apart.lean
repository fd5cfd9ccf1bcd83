import StackLang.Proofs.Machine.Places
import StackLang.Proofs.Storage.Active

/-!
# Variables do not share storage

`State.place? e k addr` is where the `k`-th frame has a slot. In every state of a run of a compiled
program no two slots have the same place, the places of a frame are those from where its variables
begin to where they end, and no two frames have a place in common (`State.Apart`). Every slot in the
code is one of the only function whose frame has the scope (`Compiles.exists_owner`,
`Compiles.owner_unique`), so a store changes what one slot of one frame holds and nothing else
(`compile_variables_apart`).
-/

namespace StackLang

open RunM

/-! ## Places -/

/-- Where a frame has a slot, if its function has the scope, and the scope so many slots. -/
def Frame.place? (e : Executable) (frame : Frame) (addr : VarAddr) : Option Nat :=
  (e.routine? frame.function).bind fun r =>
    (r.layout.find? (·.scope = addr.scope)).bind fun l =>
      if addr.slot.toNat < l.size then some (frame.varsBase + l.base + addr.slot.toNat) else none

namespace State

variable {σ : Type}

/-- Where the `k`-th frame, from the innermost one, has a slot. -/
def place? (s : State σ) (e : Executable) (k : Nat) (addr : VarAddr) : Option Nat :=
  s.frames[k]?.bind (·.place? e addr)

/-- No two slots share a place, and the frames lie one behind the other without gaps. -/
structure Apart (s : State σ) (e : Executable) : Prop where
  injective : ∀ {k k' addr addr' n}, s.place? e k addr = some n → s.place? e k' addr' = some n →
    k = k' ∧ addr = addr'
  within : ∀ {k addr n}, s.place? e k addr = some n → n < s.vars.size
  fills : ∀ {k : Nat} {frame : Frame}, s.frames[k]? = some frame → ∃ r, e.routine? frame.function = some r ∧
    ∀ n, (∃ addr, s.place? e k addr = some n) ↔
      frame.varsBase ≤ n ∧ n < frame.varsBase + r.locals
  disjoint : ∀ {k k' : Nat} {frame frame' : Frame} {r' : Routine}, s.frames[k]? = some frame → s.frames[k']? = some frame' →
    k < k' → e.routine? frame'.function = some r' →
      frame'.varsBase + r'.locals ≤ frame.varsBase

end State

/-- The frame of `r` has the variables of a scope, at `l`. -/
structure Executable.Owner (e : Executable) (scope : UInt16) (r : Routine) (l : ScopeLayout) :
    Prop where
  routine : r ∈ e.routines
  layout : l ∈ r.layout
  scope : l.scope = scope

variable {σ : Type} {z : Setting σ} {acts : List Activation} {a : Activation} {c c' : Cursor}
  {s s' : State σ} {frame : Frame} {frames : List Frame} {addr : VarAddr} {k n : Nat}

namespace Setting

section Frames

theorem FrameOf.place?_eq (h : z.FrameOf frame a) (addr : VarAddr) :
    frame.place? z.env.exe addr = (a.place? addr.scope).bind fun l =>
      if addr.slot.toNat < l.size then some (a.base + l.base + addr.slot.toNat) else none := by
  rw [Frame.place?, h.routine, h.base]
  rfl

variable {i : ScopeIndex} {t₀ t₁ : Compilation}

/-- The places of a frame are those between its two ends. -/
theorem FrameOf.exists_place?_iff (h : z.FrameOf frame a) (hl : z.program.Linked)
    (m : z.Made i a.function a.routine t₀ t₁) :
    (∃ addr, frame.place? z.env.exe addr = some n) ↔ a.base ≤ n ∧ n < a.stop := by
  constructor
  · rintro ⟨addr, haddr⟩
    rw [h.place?_eq] at haddr
    obtain ⟨l, hl, hn⟩ := Option.bind_eq_some_iff.mp haddr
    have hin := (m.mem_of_place? hl).2.2.2.2
    split at hn
    · cases hn
      unfold Activation.stop
      omega
    · cases hn
  · rintro ⟨hle, hlt⟩
    obtain ⟨l, hmem, hbase, hin⟩ := m.laid.filled (n - a.base) (by unfold Activation.stop at hlt; omega)
    have hfind : a.place? l.scope = some l := m.find?_layout hl hmem
    have hsize : l.size ≤ UInt16.size := by
      rw [m.laid.sizes l hmem]
      exact m.code.grows.after.symbols.size l.scope
    have hslot : (n - a.base - l.base).toUInt16.toNat = n - a.base - l.base :=
      toNat_toUInt16 (by omega)
    refine ⟨⟨l.scope, (n - a.base - l.base).toUInt16⟩, ?_⟩
    rw [h.place?_eq, hfind, Option.bind_some, hslot, if_pos (by omega)]
    exact congrArg some (by omega)

/-- What a frame has a place for is a slot of an activation. -/
theorem slotAt_of_frames (hframes : List.Forall₂ z.FrameOf frames acts) (hst : z.Stacked acts)
    (h : frames[k]?.bind (·.place? z.env.exe addr) = some n) :
    ∃ i level, z.compilation.symbols.scopeId? i = some addr.scope ∧ level + k + 1 = acts.length ∧
      z.SlotAt acts level i addr.slot.toNat n := by
  induction hframes generalizing k with
  | nil => cases h
  | @cons frame a frames acts hframe hframes ih =>
    cases k with
    | zero =>
      rw [List.getElem?_cons_zero, Option.bind_some, hframe.place?_eq] at h
      obtain ⟨l, hl, hn⟩ := Option.bind_eq_some_iff.mp h
      obtain ⟨_, _, _, m⟩ := hst.made
      obtain ⟨i, -, hid, -⟩ := m.scope_of_place? hl
      split at hn
      · rename_i hlt
        cases hn
        exact ⟨i, acts.length, hid, rfl, .here hid hl hlt⟩
      · cases hn
    | succ k =>
      rw [List.getElem?_cons_succ] at h
      cases hst with
      | top _ _ _ =>
        cases hframes
        cases h
      | call hst _ _ _ =>
        obtain ⟨i, level, hid, hlevel, hslot⟩ := ih hst h
        exact ⟨i, level, hid, by rw [List.length_cons]; omega, .outer hslot⟩

/-- The scope's place in the innermost activation that has it, seen from the frames. -/
theorem place?_of_holder? (hframes : List.Forall₂ z.FrameOf frames acts) {level b : Nat}
    (h : holder? addr.scope acts = some (level, b)) :
    ∃ (k : Nat) (frame : Frame) (r : Routine) (l : ScopeLayout), frames[k]? = some frame ∧ z.env.exe.routine? frame.function = some r ∧
      l ∈ r.layout ∧ l.scope = addr.scope ∧
      (addr.slot.toNat < l.size → frame.place? z.env.exe addr = some (b + addr.slot.toNat)) := by
  induction hframes with
  | nil => cases h
  | @cons frame a frames acts hframe hframes ih =>
    rw [holder?] at h
    cases hl : a.place? addr.scope with
    | some l =>
      rw [hl] at h
      cases h
      refine ⟨0, frame, a.routine, l, rfl, hframe.routine, List.mem_of_find?_eq_some hl,
        by simpa using List.find?_some hl, fun hlt => ?_⟩
      rw [hframe.place?_eq, hl, Option.bind_some, if_pos hlt]
    | none =>
      rw [hl] at h
      obtain ⟨k, frame', r, l, hk, hrest⟩ := ih h
      exact ⟨k + 1, frame', r, l, hk, hrest⟩

/-- The variables of an activation lie behind those of the activations around it. -/
theorem Stacked.ordered (h : z.Stacked acts) : acts.Pairwise fun a b => b.stop ≤ a.base := by
  induction h with
  | top hf m hbase => exact List.pairwise_singleton _ _
  | call h hname m hbase ih => exact .cons (Stacked.call h hname m hbase).stop_le ih

end Frames

/-- **The storage of a run**: every slot of every frame has a place of its own. -/
theorem Active.apart (h : z.Active a acts c s) (hz : z.Compiles) : s.Apart z.env.exe := by
  have hat : ∀ {k : Nat} {frame : Frame}, s.frames[k]? = some frame →
      ∃ b, (a :: acts)[k]? = some b ∧ z.FrameOf frame b := by
    intro k frame hk
    obtain ⟨hlt, rfl⟩ := List.getElem?_eq_some_iff.mp hk
    have hlt' : k < (a :: acts).length := h.frames.length_eq ▸ hlt
    exact ⟨_, List.getElem?_eq_getElem hlt', h.frames.get hlt hlt'⟩
  refine ⟨fun {k k' addr addr' n} hk hk' => ?_, fun {k addr n} hk => ?_, fun {k frame} hk => ?_,
    fun {k k' frame frame' r'} hk hk' hlt hr' => ?_⟩
  · obtain ⟨i, level, hid, hlevel, hs⟩ := slotAt_of_frames h.frames h.stacked hk
    obtain ⟨i', level', hid', hlevel', hs'⟩ := slotAt_of_frames h.frames h.stacked hk'
    obtain ⟨rfl, rfl, hslot⟩ := h.stacked.slotAt_inj hz hs hs'
    obtain ⟨scope, slot⟩ := addr
    obtain ⟨scope', slot'⟩ := addr'
    obtain rfl : scope = scope' := Option.some.inj (hid.symm.trans hid')
    obtain rfl : slot = slot' := UInt16.toNat_inj.mp hslot
    exact ⟨by omega, rfl⟩
  · obtain ⟨i, level, -, -, hs⟩ := slotAt_of_frames h.frames h.stacked hk
    exact h.size ▸ h.stacked.index_lt hs
  · obtain ⟨b, hb, hframe⟩ := hat hk
    obtain ⟨i, t₀, t₁, m⟩ := h.stacked.made_of_mem (List.mem_of_getElem? hb)
    refine ⟨b.routine, hframe.routine, fun n => ?_⟩
    have hplace : ∀ addr, s.place? z.env.exe k addr = frame.place? z.env.exe addr := fun addr => by
      rw [State.place?, hk, Option.bind_some]
    simp only [hplace, hframe.base]
    exact hframe.exists_place?_iff hz.linked m
  · obtain ⟨b, hb, hframe⟩ := hat hk
    obtain ⟨b', hb', hframe'⟩ := hat hk'
    obtain rfl := Option.some.inj (hr'.symm.trans hframe'.routine)
    obtain ⟨hlt₁, rfl⟩ := List.getElem?_eq_some_iff.mp hb
    obtain ⟨hlt₂, rfl⟩ := List.getElem?_eq_some_iff.mp hb'
    rw [hframe.base, hframe'.base]
    exact List.pairwise_iff_getElem.mp h.stacked.ordered k k' hlt₁ hlt₂ hlt

/-! ## Owners -/

/-- **A scope has one owner.** -/
theorem Compiles.owner_unique (hz : z.Compiles) (ho : z.program.ScopedOnce) {scope : UInt16}
    {r r' : Routine} {l l' : ScopeLayout} (h : z.env.exe.Owner scope r l)
    (h' : z.env.exe.Owner scope r' l') : r' = r ∧ l' = l := by
  obtain ⟨x, t₀, t₁, hx, m⟩ := hz.made_of_mem h.routine
  obtain ⟨x', t₀', t₁', hx', m'⟩ := hz.made_of_mem h'.routine
  have hl := h.scope ▸ m.find?_layout hz.linked h.layout
  have hl' := h'.scope ▸ m'.find?_layout hz.linked h'.layout
  obtain ⟨i, -, hid, -, -, hmem⟩ := m.scope_of_place? hl
  obtain ⟨i', -, hid', -, -, hmem'⟩ := m'.scope_of_place? hl'
  obtain rfl := hz.symbols.injective hid hid'
  have hplace := ho.unique_place hz.linked hx hx' hmem hmem'
  have hr := hz.routine?_of_mem h.routine
  rw [UInt16.toNat_inj.mp hplace] at hr
  obtain rfl := Option.some.inj (hr.symm.trans (hz.routine?_of_mem h'.routine))
  exact ⟨rfl, Option.some.inj (hl'.symm.trans hl)⟩

/-- The function that a scope belongs to has all the scope's variables in its frame. -/
theorem Compiles.exists_owner_of_scope (hz : z.Compiles) (ho : z.program.ScopedOnce)
    {x : ScopeIndex} {scope : Scope} {id : UInt16} (hx : z.program.Below Program.root x)
    (hscope : z.program.scope? x = some scope)
    (hid : z.compilation.symbols.scopeId? x = some id) :
    ∃ r l, z.env.exe.Owner id r l ∧ scope.vars.size ≤ l.size := by
  obtain ⟨top, _, htop, -⟩ := hz.output.top
  obtain ⟨j, f, hj, hd, hmem⟩ := ho.exists_function hz.linked hz.bodies htop hx
  obtain ⟨id', hcompiled⟩ := hz.output.compiled hj hd
  obtain ⟨r, t₀, t₁, hr, m⟩ := hcompiled.exists_made
  obtain ⟨id₁, l, hid₁, hl⟩ := m.exists_place?_of_mem hmem
  obtain rfl := Option.some.inj (hid.symm.trans hid₁)
  obtain ⟨hlayout, hlscope, -⟩ := m.mem_of_place? hl
  obtain ⟨x', scope', hid', hscope', hsize, -⟩ := m.scope_of_place? hl
  obtain rfl := hz.symbols.injective hid hid'
  obtain rfl := Option.some.inj (hscope.symm.trans hscope')
  have hr' := (hz.output.exe_routine? id').trans hr
  exact ⟨r, l, ⟨Executable.mem_of_routine? hr', hlayout, hlscope⟩, hsize⟩

/-- **A slot in the code is one of its scope's owner.** -/
theorem Compiles.exists_owner (hz : z.Compiles) (ho : z.program.ScopedOnce) {r : Routine}
    (hr : r ∈ z.env.exe.routines) {i : ScopeIndex} {f : FunctionDecl} {t₀ t₁ : Compilation}
    (m : z.Made i f r t₀ t₁) {B : Nat → Prop}
    (h : (Site.of ⟨z.program, f, z.strict⟩ t₀ t₁).Refers z.callable B (.var addr)) :
    ∃ r' l, z.env.exe.Owner addr.scope r' l ∧ addr.slot.toNat < l.size := by
  obtain ⟨sc, hsc, x, scope, hx, hscope, hid, hslot⟩ := hz.scope_of_refers m h
  rcases hslot with hslot | ⟨-, l, hl, hslot⟩
  · have hroot : z.program.Below Program.root sc := by
      rcases hz.below_of_mem_frameScopes m.declared hsc with hbelow | rfl
      · exact (m.reached.trans (hz.linked.below_body m.declared)).trans hbelow
      · exact .refl
    obtain ⟨r', l, hown, hsize⟩ :=
      hz.exists_owner_of_scope ho (hz.linked.below_of_encloses hroot hx).1 hscope hid
    exact ⟨r', l, hown, Nat.lt_of_lt_of_le hslot hsize⟩
  · obtain ⟨hlayout, hlscope, -⟩ := m.mem_of_place? hl
    exact ⟨r, l, ⟨hr, hlayout, hlscope⟩, hslot⟩

end Setting

/-! ## Loads and stores -/

namespace Setting

/-- **A load or a store means one slot of one frame**, and leaves what all others hold. -/
theorem Active.changes (h : z.Active a acts c s) (hz : z.Compiles) (ho : z.program.ScopedOnce)
    (ha : Advances z.env c s c' s') {i : Instr} (hi : c.routine.code.decodeAt c.ip = .ok i)
    (haddr : i.operand = .var addr) :
    ∃ k n, s.slotIndex addr = .ok n ∧ s.place? z.env.exe k addr = some n ∧
      ∀ k' addr' n', s.place? z.env.exe k' addr' = some n' → (k', addr') ≠ (k, addr) →
        s'.vars[n']? = s.vars[n']? := by
  obtain ⟨x, t₀, t₁, m⟩ := h.stacked.made
  have hrefers := haddr ▸ h.refers hz m hi
  obtain ⟨n, hn, hothers⟩ := ha.changesOnly hi haddr
  obtain ⟨_, -, x', _, -, -, hid, -⟩ := hz.scope_of_refers m hrefers
  obtain ⟨frame₀, _, hframe₀, -⟩ := List.forall₂_cons_right_iff.mp h.frames
  obtain ⟨r, l, hown, hslot⟩ :=
    hz.exists_owner ho (Executable.mem_of_routine? hframe₀.routine) m hrefers
  obtain ⟨level, b, hholder⟩ : ∃ level b, holder? addr.scope (a :: acts) = some (level, b) := by
    cases hholder : holder? addr.scope (a :: acts) with
    | some place => exact ⟨place.1, place.2, rfl⟩
    | none =>
      rw [State.slotIndex, h.instances _ (hz.scope_lt hid), Option.bind_some, head?_placesOf,
        hholder] at hn
      cases hn
  obtain ⟨k, frame, r', l', hk, hr', hl', hscope, hplace⟩ := place?_of_holder? h.frames hholder
  obtain ⟨-, rfl⟩ := hz.owner_unique ho hown ⟨Executable.mem_of_routine? hr', hl', hscope⟩
  have hplace' : s.place? z.env.exe k addr = some n := by
    rw [State.place?, hk, Option.bind_some, hplace hslot]
    rw [State.slotIndex, h.instances _ (hz.scope_lt hid), Option.bind_some, head?_placesOf,
      hholder] at hn
    simp only [Option.map_some] at hn
    split at hn
    · cases hn
      rfl
    · cases hn
  refine ⟨k, n, hn, hplace', fun k' addr' n' hn' hne => hothers n' ?_⟩
  rintro rfl
  obtain ⟨rfl, rfl⟩ := (h.apart hz).injective hn' hplace'
  exact hne rfl

end Setting

theorem State.Apart.congr {e : Executable} (h : s.Apart e) (hframes : s'.frames = s.frames)
    (hvars : s'.vars.size = s.vars.size) : s'.Apart e := by
  have hplace : s'.place? e = s.place? e := by
    funext k addr
    rw [State.place?, State.place?, hframes]
  refine ⟨fun hk hk' => h.injective (hplace ▸ hk) (hplace ▸ hk'), fun hk => ?_, fun hk => ?_,
    fun hk hk' => h.disjoint (hframes ▸ hk) (hframes ▸ hk')⟩
  · exact hvars ▸ h.within (hplace ▸ hk)
  · rw [hplace]
    exact h.fills (hframes ▸ hk)

/-! ## Programs -/

/-- **Variables do not share storage.** In a compiled program whose blocks have scopes of their own, no
scope has two owners, and every slot in the code is one that the owner of its scope has. Whenever a run
comes to an instruction, and when it has ended, the slots of all frames have places of their own, and
those of a frame are all that there are from where its variables begin to where they end. A load or a
store means one of these slots, and what the others hold stays. -/
theorem compile_variables_apart {p : Program} (hb : p.Built) (hn : p.Nested fun _ => true)
    (ho : p.ScopedOnce) {strict : Bool} {e : Executable} (h : p.compile strict = .ok e) :
    (∀ scope r l r' l', e.Owner scope r l → e.Owner scope r' l' → r' = r ∧ l' = l) ∧
    (∀ r ∈ e.routines, ∃ instrs, r.code.instructions = .ok instrs ∧
      ∀ i ∈ instrs, ∀ addr, i.operand = .var addr →
        ∃ r' l, e.Owner addr.scope r' l ∧ addr.slot.toNat < l.size) ∧
    ∀ {σ : Type} (config : Config) (bridge : Bridge σ) (vars : List HostVar) (sink : Sink)
      (host : σ) (c : Cursor) (s : State σ), Visits ⟨e, config, bridge⟩ vars sink host c s →
        s.Apart e ∧
        (∀ s', advance ⟨e, config, bridge⟩ c s = .ok none s' → s'.Apart e) ∧
        ∀ i addr c' s', c.routine.code.decodeAt c.ip = .ok i → i.operand = .var addr →
          advance ⟨e, config, bridge⟩ c s = .ok (some c') s' →
            ∃ k n, s.slotIndex addr = .ok n ∧ s.place? e k addr = some n ∧
              ∀ k' addr' n', s.place? e k' addr' = some n' → (k', addr') ≠ (k, addr) →
                s'.vars[n']? = s.vars[n']? := by
  obtain ⟨t, hout⟩ := Program.compile_ok hb h
  let z : {σ : Type} → Config → Bridge σ → Setting σ := fun config bridge =>
    { program := p, callable := fun _ => true, strict, compilation := t,
      env := ⟨e, config, bridge⟩, sink := {} }
  have hz : ∀ {σ : Type} (config : Config) (bridge : Bridge σ), (z config bridge).Compiles :=
    fun _ _ => ⟨hout, hb.linked.1, hn⟩
  refine ⟨fun scope r l r' l' hr hr' => (hz {} noHost).owner_unique ho hr hr', fun r hr => ?_,
    fun config bridge vars sink host c s hv => ?_⟩
  · have hz := hz {} noHost
    obtain ⟨x, t₀, t₁, -, m⟩ := hz.made_of_mem hr
    obtain ⟨line, hline, hrefers⟩ := m.code.sweeps (.inl (hz.bodies m.declared))
    obtain ⟨instrs, hread, -, hinstrs⟩ := Code.instructionsFrom_of_line hline #[]
    rw [Array.empty_append] at hread
    refine ⟨instrs, hread, fun i hi addr haddr => ?_⟩
    have hmem : (i.op, i.operand) ∈ line := by
      rw [← hinstrs]
      exact List.mem_map_of_mem (f := fun i : Instr => (i.op, i.operand)) (Array.mem_toList_iff.mpr hi)
    exact hz.exists_owner ho hr m (haddr ▸ hrefers _ hmem)
  · have hz := hz config bridge
    obtain ⟨a, acts, hactive⟩ := Setting.active_of_visits hz hv
    refine ⟨hactive.apart hz, fun s' hs' => ?_, fun i addr c' s' hi haddr hs' => ?_⟩
    · obtain rfl := ended_of_advance hs'
      exact (hactive.apart hz).congr rfl rfl
    · exact hactive.changes hz ho (advances_of_advance hs') hi haddr

/-- Two calls each of two functions, and `<top>`. -/
theorem countingProgram_apart : countingProgram.Built ∧ (countingProgram.Nested fun _ => true) ∧
    countingProgram.ScopedOnce ∧ ∃ e, countingProgram.compile true = .ok e ∧
      ∃ c s, Visits ⟨e, {}, noHost⟩ [] {} () c s ∧ s.frames.length = 5 ∧ s.Apart e := by
  have hn : countingProgram.Nested fun _ => true := Program.nested_of_all (by decide +kernel)
  have ho : countingProgram.ScopedOnce :=
    ⟨by decide +kernel, by decide +kernel, by decide +kernel⟩
  obtain ⟨e, hc, c, s, i, hv, hlen, -⟩ := countingProgram_visits
  exact ⟨countingProgram_built, hn, ho, e, hc, c, s, hv, hlen,
    ((compile_variables_apart countingProgram_built hn ho hc).2.2 {} noHost [] {} () c s hv).1⟩

end StackLang
