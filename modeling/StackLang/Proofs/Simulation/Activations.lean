import StackLang.Proofs.Compile.Made
import StackLang.Proofs.Machine.Frames
import StackLang.Proofs.Simulation.Denotes

/-!
# Active functions and their variables

A `Setting` is a program and its executable. Its functions are active one inside the other
(`Setting.Stacked`), and each has the variables of its scopes in its part of the storage: `SlotAt`
says where. `Stacked.slotAt_inj`: no two variables share a place. `Setting.Placed` says that the
machine has its storage so, and what it makes of an address is the place in the innermost activation
with the scope (`Placed.slotIndex`).
-/

namespace StackLang

/-! ## Activations -/

/-- An active function; its variables begin at `base`. -/
structure Activation where
  function : FunctionDecl
  routine : Routine
  base : Nat

namespace Activation

/-- The place of a scope's variables in the frame. -/
def place? (a : Activation) (id : UInt16) : Option ScopeLayout :=
  a.routine.layout.find? (·.scope = id)

/-- Where the variables end. -/
def stop (a : Activation) : Nat := a.base + a.routine.locals

end Activation

/-- Where the variables of the innermost activation end. -/
def storageEnd : List Activation → Nat
  | [] => 0
  | a :: _ => a.stop

/-- The places of a scope in all activations, the innermost first. -/
def placesOf (id : UInt16) : List Activation → List Nat
  | [] => []
  | a :: acts => ((a.place? id).map (a.base + ·.base)).toList ++ placesOf id acts

/-- How many activations are around the innermost one that has a scope, and the place there. -/
def holder? (id : UInt16) : List Activation → Option (Nat × Nat)
  | [] => none
  | a :: acts =>
    match a.place? id with
    | some l => some (acts.length, a.base + l.base)
    | none => holder? id acts

theorem head?_placesOf (id : UInt16) (acts : List Activation) :
    (placesOf id acts).head? = (holder? id acts).map (·.2) := by
  induction acts with
  | nil => rfl
  | cons a acts ih =>
    rw [placesOf, holder?]
    cases a.place? id with
    | some l => rfl
    | none => exact ih

/-! ## Settings -/

/-- What a run and an evaluation are about. -/
structure Setting (σ : Type) where
  program : Program
  /-- The names of functions that are called. -/
  callable : String → Bool
  /-- The program has been compiled with strict returns. -/
  strict : Bool
  compilation : Compilation
  env : Env σ
  /-- Where a run begins to print to. -/
  sink : Sink

namespace Setting

variable {σ : Type}

/-- The executable is the program's, whose blocks are nested as their scopes are. -/
structure Compiles (z : Setting σ) : Prop where
  output : z.program.Output z.strict z.compilation z.env.exe
  linked : z.program.Linked
  bodies : ∀ {i f}, z.program.DeclaredIn i f →
    Node.allWellFormed z.program z.callable f.body.scope f.body.statements = true

/-- The program is well-formed and returns what its functions declare. -/
structure Sound (z : Setting σ) : Prop extends z.Compiles where
  strict : z.strict = true
  typed : z.program.Typed
  params : ∀ {i f}, z.program.DeclaredIn i f → (f.params.map (·.name)).Nodup

/-- What has been made of a function of the program. -/
abbrev Made (z : Setting σ) (i : ScopeIndex) (f : FunctionDecl) (r : Routine)
    (t₀ t₁ : Compilation) : Prop :=
  StackLang.Made z.program z.strict z.compilation i f r t₀ t₁

/-- The active functions of a run: `<top>` is the outermost, the others have been called, and their
variables lie one behind the other. -/
inductive Stacked (z : Setting σ) : List Activation → Prop
  | top {a : Activation} {t₀ t₁ : Compilation} (hf : z.program.top? = some a.function)
      (m : z.Made Program.root a.function a.routine t₀ t₁) (hbase : a.base = 0) : Stacked z [a]
  | call {a b : Activation} {acts : List Activation} {i : ScopeIndex} {t₀ t₁ : Compilation}
      (h : Stacked z (b :: acts)) (hname : z.callable a.function.name = true)
      (m : z.Made i a.function a.routine t₀ t₁) (hbase : a.base = b.stop) :
      Stacked z (a :: b :: acts)

/-- In the activation with `level` others around it, a slot of the scope `i` is at `index`. -/
inductive SlotAt (z : Setting σ) : List Activation → (level : Nat) → ScopeIndex →
    (slot index : Nat) → Prop
  | here {a : Activation} {acts : List Activation} {i : ScopeIndex} {id : UInt16}
      {l : ScopeLayout} {slot : Nat} (hid : z.compilation.symbols.scopeId? i = some id)
      (hl : a.place? id = some l) (hlt : slot < l.size) :
      SlotAt z (a :: acts) acts.length i slot (a.base + l.base + slot)
  | outer {a : Activation} {acts : List Activation} {level : Nat} {i : ScopeIndex}
      {slot index : Nat} (h : SlotAt z acts level i slot index) :
      SlotAt z (a :: acts) level i slot index

variable {z : Setting σ} {acts : List Activation} {a : Activation}

theorem Compiles.symbols (hz : z.Compiles) : z.compilation.symbols.Sound z.program :=
  hz.output.indexed.symbols

theorem Compiles.strings (hz : z.Compiles) : z.env.exe.strings.Faithful := by
  rw [hz.output.exe]
  exact hz.output.indexed.strings

theorem Sound.exe (hz : z.Sound) : z.env.exe.Sound :=
  hz.output.sound hz.linked hz.typed

theorem Compiles.id_of_routine? (hz : z.Compiles) {id : UInt16} {r : Routine}
    (hr : z.env.exe.routine? id = some r) :
    r.id = id :=
  UInt16.toNat_inj.mp (hz.output.indexed.ids _ r ((hz.output.exe_routine? id).symm.trans hr))

theorem Compiles.routine?_of_mem (hz : z.Compiles) {r : Routine} (hr : r ∈ z.env.exe.routines) :
    z.env.exe.routine? r.id = some r := by
  rw [hz.output.exe] at hr ⊢
  exact hz.output.indexed.ids.routine?_of_mem hr

/-- The scopes of a frame are scopes of the executable. -/
theorem Compiles.layout_lt (hz : z.Compiles) {i : ScopeIndex} {f : FunctionDecl} {r : Routine}
    {t₀ t₁ : Compilation} {l : ScopeLayout} (m : z.Made i f r t₀ t₁) (hl : l ∈ r.layout) :
    l.scope.toNat < z.env.exe.scopeCount := by
  have howned : l.scope ∈ t₁.owned := m.laid.scopes ▸ List.mem_map_of_mem hl
  rw [hz.output.exe]
  exact Nat.lt_of_lt_of_le (m.code.grows.after.owned_lt _ howned) m.continues.symbols.count

theorem Stacked.made_of_mem (h : z.Stacked acts) (ha : a ∈ acts) :
    ∃ i t₀ t₁, z.Made i a.function a.routine t₀ t₁ := by
  induction h with
  | top _ m _ => exact List.mem_singleton.mp ha ▸ ⟨_, _, _, m⟩
  | call _ _ m _ ih =>
    rcases List.mem_cons.mp ha with rfl | ha
    · exact ⟨_, _, _, m⟩
    · exact ih ha

theorem Stacked.made (h : z.Stacked (a :: acts)) :
    ∃ i t₀ t₁, z.Made i a.function a.routine t₀ t₁ := h.made_of_mem List.mem_cons_self

theorem Stacked.base_eq (h : z.Stacked (a :: acts)) : a.base = storageEnd acts := by
  cases h with
  | top _ _ hbase => exact hbase
  | call _ _ _ hbase => exact hbase

end Setting

/-! ## Frames -/

namespace Made

variable {p : Program} {strict : Bool} {t t₀ t₁ : Compilation} {i : ScopeIndex}
  {f : FunctionDecl} {r : Routine} {id : UInt16} {l : ScopeLayout}

/-- A place in a frame is inside the frame. -/
theorem mem_of_place? (m : Made p strict t i f r t₀ t₁)
    (h : r.layout.find? (·.scope = id) = some l) :
    l ∈ r.layout ∧ l.scope = id ∧ id ∈ t₁.owned ∧ l.size = t₁.symbols.scopeSize id ∧
      l.base + l.size ≤ r.locals := by
  have hmem := List.mem_of_find?_eq_some h
  obtain rfl : l.scope = id := by simpa using List.find?_some h
  refine ⟨hmem, rfl, ?_, m.laid.sizes l hmem, m.laid.within l hmem⟩
  rw [← m.laid.scopes]
  exact List.mem_map.mpr ⟨l, hmem, rfl⟩

/-- The scopes with a place in a frame are those that the tree gives to the function. -/
theorem scope_of_place? (m : Made p strict t i f r t₀ t₁)
    (h : r.layout.find? (·.scope = id) = some l) :
    ∃ x scope, t.symbols.scopeId? x = some id ∧ p.scope? x = some scope ∧
      scope.vars.size ≤ l.size ∧ x ∈ f.frameScopes := by
  obtain ⟨-, -, howned, hl, -⟩ := m.mem_of_place? h
  obtain ⟨x, hmem, hx⟩ := owned_of_functionCode m.code howned
  obtain ⟨scope, hscope, -, -, hsize, -⟩ := m.continues.before.symbols.numbered hx
  exact ⟨x, scope, m.continues.symbols.scopeIds hx, hscope, hl ▸ hsize, hmem⟩

/-- A scope that the frame has room for has a place there. -/
theorem exists_place? (m : Made p strict t i f r t₀ t₁) (h : id ∈ t₁.owned) :
    ∃ l, r.layout.find? (·.scope = id) = some l := by
  rw [← m.laid.scopes] at h
  obtain ⟨l, hl, rfl⟩ := List.mem_map.mp h
  exact Option.isSome_iff_exists.mp (List.find?_isSome.mpr ⟨l, hl, by simp⟩)

/-- A block that the code has entered has a place in the frame. -/
theorem exists_place?_of_block (m : Made p strict t i f r t₀ t₁) {x : ScopeIndex}
    (h : (Site.of ⟨p, f, strict⟩ t₀ t₁).block x) :
    ∃ id l, t.symbols.scopeId? x = some id ∧ r.layout.find? (·.scope = id) = some l := by
  obtain ⟨id, hid, howned⟩ := h
  obtain ⟨l, hl⟩ := m.exists_place? howned
  exact ⟨id, l, m.continues.symbols.scopeIds hid, hl⟩

/-- The scopes that the tree gives to a function have their places in its frame. -/
theorem exists_place?_of_mem (m : Made p strict t i f r t₀ t₁) {x : ScopeIndex}
    (h : x ∈ f.frameScopes) :
    ∃ id l, t.symbols.scopeId? x = some id ∧ r.layout.find? (·.scope = id) = some l :=
  m.exists_place?_of_block (m.code.block x h)

theorem nodup_layout (m : Made p strict t i f r t₀ t₁) (hl : p.Linked) :
    (r.layout.map (·.scope)).Nodup := by
  rw [m.laid.scopes]
  exact m.nodup hl

/-- A scope has one place in a frame. -/
theorem find?_layout (m : Made p strict t i f r t₀ t₁) (hl : p.Linked) (h : l ∈ r.layout) :
    r.layout.find? (·.scope = l.scope) = some l := by
  have howned : l.scope ∈ t₁.owned := m.laid.scopes ▸ List.mem_map_of_mem h
  obtain ⟨l', hl'⟩ := m.exists_place? howned
  obtain ⟨hmem, hscope, -⟩ := m.mem_of_place? hl'
  rw [hl', List.inj_on_of_nodup_map (m.nodup_layout hl) hmem h hscope]

/-- Two places in a frame that overlap are one. -/
theorem place_inj (m : Made p strict t i f r t₀ t₁) {id' : UInt16} {l' : ScopeLayout}
    {slot slot' : Nat} (h : r.layout.find? (·.scope = id) = some l)
    (h' : r.layout.find? (·.scope = id') = some l') (hlt : slot < l.size) (hlt' : slot' < l'.size)
    (heq : l.base + slot = l'.base + slot') : id = id' ∧ slot = slot' := by
  obtain ⟨hmem, hid, -⟩ := m.mem_of_place? h
  obtain ⟨hmem', hid', -⟩ := m.mem_of_place? h'
  obtain ⟨j, hj, rfl⟩ := List.mem_iff_getElem.mp hmem
  obtain ⟨k, hk, rfl⟩ := List.mem_iff_getElem.mp hmem'
  have hordered := List.pairwise_iff_getElem.mp m.laid.ordered
  rcases Nat.lt_trichotomy j k with hjk | rfl | hjk
  · have := hordered j k hj hk hjk
    omega
  · exact ⟨hid.symm.trans hid', by omega⟩
  · have := hordered k j hk hj hjk
    omega

end Made

/-! ## Places -/

namespace Setting

variable {σ : Type} {z : Setting σ} {acts : List Activation} {a : Activation}
  {level level' slot slot' index : Nat} {i i' : ScopeIndex}

theorem SlotAt.level_lt (h : z.SlotAt acts level i slot index) : level < acts.length := by
  induction h with
  | here => exact Nat.lt_succ_self _
  | outer _ ih => exact Nat.lt_succ_of_lt ih

/-- A slot is one of the innermost activation or of those around it. -/
theorem SlotAt.cases_head (h : z.SlotAt (a :: acts) level i slot index) :
    (level = acts.length ∧ ∃ id l, z.compilation.symbols.scopeId? i = some id ∧
        a.place? id = some l ∧ slot < l.size ∧ index = a.base + l.base + slot) ∨
      z.SlotAt acts level i slot index := by
  cases h with
  | here hid hl hlt => exact .inl ⟨rfl, _, _, hid, hl, hlt, rfl⟩
  | outer h => exact .inr h

/-- A slot is at one place. -/
theorem SlotAt.index_unique {index' : Nat} (h : z.SlotAt acts level i slot index)
    (h' : z.SlotAt acts level i slot index') : index = index' := by
  induction acts with
  | nil => cases h
  | cons a acts ih =>
    rcases h.cases_head with ⟨rfl, id, l, hid, hl, -, rfl⟩ | h <;>
      rcases h'.cases_head with ⟨hlevel, id', l', hid', hl', -, rfl⟩ | h'
    · obtain rfl := Option.some.inj (hid.symm.trans hid')
      obtain rfl := Option.some.inj (hl.symm.trans hl')
      rfl
    · exact absurd h'.level_lt (Nat.lt_irrefl _)
    · exact absurd (hlevel ▸ h.level_lt) (Nat.lt_irrefl _)
    · exact ih h h'

theorem Stacked.index_lt (h : z.Stacked acts) (hs : z.SlotAt acts level i slot index) :
    index < storageEnd acts := by
  induction hs with
  | here hid hl hlt =>
    obtain ⟨_, _, _, m⟩ := h.made
    have hin := (m.mem_of_place? hl).2.2.2.2
    change _ < Activation.base _ + Routine.locals _
    omega
  | @outer a acts _ _ _ _ hs ih =>
    cases h with
    | top _ _ _ => cases hs
    | call h _ _ hbase =>
      have hlt : _ < Activation.stop _ := ih h
      change _ < a.base + a.routine.locals
      omega

/-- The variables of an activation end before those of the innermost one begin. -/
theorem Stacked.stop_le (h : z.Stacked (a :: acts)) : ∀ b ∈ acts, b.stop ≤ a.base := by
  induction acts generalizing a with
  | nil => exact List.forall_mem_nil _
  | cons b acts ih =>
    cases h with
    | call h _ _ hbase =>
      refine List.forall_mem_cons.mpr ⟨Nat.le_of_eq hbase.symm, fun b' hb' => ?_⟩
      have hle := ih h b' hb'
      unfold Activation.stop at *
      omega

/-- **No two slots share a place**, whatever activations and scopes they are of. -/
theorem Stacked.slotAt_inj (hz : z.Compiles) (h : z.Stacked acts)
    (hs : z.SlotAt acts level i slot index) (hs' : z.SlotAt acts level' i' slot' index) :
    level = level' ∧ i = i' ∧ slot = slot' := by
  induction acts with
  | nil => cases hs
  | cons a acts ih =>
    have hbase := h.base_eq
    have houter : ∀ {level i slot index}, z.SlotAt acts level i slot index → index < a.base := by
      intro level i slot index hs
      cases h with
      | top _ _ _ => cases hs
      | call h _ _ hbase' => exact hbase ▸ h.index_lt hs
    rcases hs.cases_head with ⟨rfl, id, l, hid, hl, hlt, hindex⟩ | hs <;>
      rcases hs'.cases_head with ⟨rfl, id', l', hid', hl', hlt', hindex'⟩ | hs'
    · obtain ⟨_, _, _, m⟩ := h.made
      obtain ⟨rfl, rfl⟩ := m.place_inj hl hl' hlt hlt' (by omega)
      exact ⟨rfl, hz.symbols.injective hid hid', rfl⟩
    · have := houter hs'
      omega
    · have := houter hs
      omega
    · cases h with
      | top _ _ _ => cases hs
      | call h _ _ _ => exact ih h hs hs'

/-- The variables of a scope have their slots in the innermost activation that has the scope. -/
theorem Stacked.slotAt_of_holder? (hz : z.Compiles) (h : z.Stacked acts) {id : UInt16} {b : Nat}
    {scope : Scope} (hholder : holder? id acts = some (level, b))
    (hid : z.compilation.symbols.scopeId? i = some id) (hscope : z.program.scope? i = some scope)
    (hlt : slot < scope.vars.size) : z.SlotAt acts level i slot (b + slot) := by
  induction acts with
  | nil => cases hholder
  | cons a acts ih =>
    rw [holder?] at hholder
    cases hl : a.place? id with
    | some l =>
      rw [hl] at hholder
      cases hholder
      obtain ⟨_, _, _, m⟩ := h.made
      obtain ⟨x, scope', hx, hscope', hsize, -⟩ := m.scope_of_place? hl
      obtain rfl := hz.symbols.injective hid hx
      obtain rfl := Option.some.inj (hscope.symm.trans hscope')
      exact .here hid hl (Nat.lt_of_lt_of_le hlt hsize)
    | none =>
      rw [hl] at hholder
      cases h with
      | top _ _ _ => cases hholder
      | call h _ _ _ => exact .outer (ih h hholder)

/-- The frame of a function has no scope around the function's declaration, except that `<top>` has
the root. -/
theorem Compiles.place?_eq_none (hz : z.Compiles) {j : ScopeIndex} {id : UInt16}
    {t₀ t₁ : Compilation} (m : z.Made i a.function a.routine t₀ t₁) (hj : z.program.Encloses j i)
    (hid : z.compilation.symbols.scopeId? j = some id)
    (hne : ¬ (a.function.name = Program.topName ∧ j = Program.root)) : a.place? id = none := by
  cases hl : a.place? id with
  | none => rfl
  | some l =>
    obtain ⟨k, _, hk, -, -, hown⟩ := m.scope_of_place? hl
    obtain rfl := hz.symbols.injective hid hk
    rcases FunctionDecl.mem_frameScopes.mp hown with hown | htop
    · have hbelow := FunctionDecl.below_of_mem_scopes (hz.bodies m.declared) hown
      -- A scope around the declaration comes before the body.
      obtain ⟨s, hs, hf⟩ := m.declared
      have hlt := hz.linked.lt_child m.reached hs (hz.linked.body hs (Array.mem_toList_iff.mp hf)).1
      have := hz.linked.below_le hbelow
      have := hz.linked.encloses_le hj
      exact absurd (Nat.lt_of_lt_of_le hlt (Nat.le_trans ‹_› ‹_›)) (Nat.lt_irrefl _)
    · exact absurd htop hne

theorem holder?_cons {id : UInt16} (h : a.place? id = none) :
    holder? id (a :: acts) = holder? id acts := by
  rw [holder?, h]

end Setting

/-! ## Slots -/

namespace Symbols.IsSlot

variable {name : String} {slot slot' : Nat} {ty ty' : Ty}

/-- A name has one slot. -/
theorem unique {vars : List VarDecl} (h : IsSlot vars name slot ty)
    (h' : IsSlot vars name slot' ty') : slot = slot' ∧ ty = ty' := by
  have hfind := (find?_of_isSlot h).symm.trans (find?_of_isSlot h')
  have hty : ty = ty' := by cases hfind; rfl
  rcases Nat.lt_trichotomy slot slot' with hlt | heq | hlt
  · exact absurd rfl (h'.2 slot hlt _ h.1)
  · exact ⟨heq, hty⟩
  · exact absurd rfl (h.2 slot' hlt _ h'.1)

end Symbols.IsSlot

/-! ## The machine's storage -/

/-- At most one element has a key, if no key comes twice. -/
theorem filter_eq_toList_find? {α β : Type} [DecidableEq β] {l : List α} {key : α → β} (k : β)
    (h : (l.map key).Nodup) : l.filter (key · = k) = (l.find? (key · = k)).toList := by
  induction l with
  | nil => rfl
  | cons x l ih =>
    obtain ⟨hx, hl⟩ := List.nodup_cons.mp h
    by_cases hk : key x = k
    · have hnone : l.filter (key · = k) = [] := by
        refine List.filter_eq_nil_iff.mpr fun y hy hky => hx ?_
        exact List.mem_map.mpr ⟨y, hy, (of_decide_eq_true hky).trans hk.symm⟩
      rw [List.filter_cons_of_pos (by simpa using hk), List.find?_cons_of_pos (by simpa using hk),
        hnone]
      rfl
    · rw [List.filter_cons_of_neg (by simpa using hk), List.find?_cons_of_neg (by simpa using hk)]
      exact ih hl

namespace Setting

variable {σ : Type} {z : Setting σ} {acts : List Activation} {a : Activation} {s : State σ}
  {level slot : Nat} {i : ScopeIndex} {f : FunctionDecl} {r : Routine} {t₀ t₁ : Compilation}

/-- The storage of a state is that of these activations, and every scope has its places in them. -/
structure Placed (z : Setting σ) (acts : List Activation) (s : State σ) : Prop where
  size : s.vars.size = storageEnd acts
  instances : ∀ id : UInt16, id.toNat < z.env.exe.scopeCount →
    s.instances[id.toNat]? = some (placesOf id acts)

/-- Numbers of scopes are below their count. -/
theorem Compiles.scope_lt (hz : z.Compiles) {id : UInt16}
    (h : z.compilation.symbols.scopeId? i = some id) : id.toNat < z.env.exe.scopeCount := by
  obtain ⟨-, -, hlt, -⟩ := hz.symbols.numbered h
  rw [hz.output.exe]
  exact hlt

theorem filter_layout (hl : z.program.Linked) (m : z.Made i f r t₀ t₁) (id : UInt16) :
    r.layout.filter (·.scope.toNat = id.toNat) = (r.layout.find? (·.scope = id)).toList := by
  rw [← filter_eq_toList_find? id (m.nodup_layout hl)]
  refine List.filter_congr fun l _ => ?_
  exact decide_eq_decide.mpr UInt16.toNat_inj

namespace Placed

/-- The machine finds the slots of a scope in the innermost activation that has the scope. -/
theorem slotIndex (h : z.Placed acts s) (hz : z.Compiles) (hst : z.Stacked acts) {addr : VarAddr}
    {b : Nat} (hid : z.compilation.symbols.scopeId? i = some addr.scope)
    (hholder : holder? addr.scope acts = some (level, b))
    (hs : z.SlotAt acts level i addr.slot.toNat (b + addr.slot.toNat)) :
    s.slotIndex addr = .ok (b + addr.slot.toNat) := by
  have hlt : b + addr.slot.toNat < s.vars.size := h.size ▸ hst.index_lt hs
  rw [State.slotIndex, h.instances _ (hz.scope_lt hid), Option.bind_some, head?_placesOf, hholder]
  simp only [Option.map_some, hlt, if_true]

/-- A function has become active. -/
theorem entered (h : z.Placed acts s) (hl : z.program.Linked)
    (m : z.Made i a.function a.routine t₀ t₁) (hbase : a.base = storageEnd acts) :
    z.Placed (a :: acts) (s.entered a.routine) where
  size := by
    change (s.vars ++ Array.replicate a.routine.locals none).size = a.base + a.routine.locals
    rw [Array.size_append, Array.size_replicate, h.size, hbase]
  instances id hid := by
    change (enterInstances s.vars.size a.routine.layout s.instances)[id.toNat]? = _
    rw [getElem?_enterInstances, h.instances id hid, Option.map_some, filter_layout hl m, h.size,
      ← hbase, placesOf, Activation.place?]
    cases a.routine.layout.find? (·.scope = id) <;> rfl

/-- The innermost function has ended. -/
theorem left (h : z.Placed (a :: acts) s) (hl : z.program.Linked) (hst : z.Stacked (a :: acts))
    {frame : Frame} (hbase : frame.varsBase = a.base) (frames : List Frame) :
    z.Placed acts (s.left a.routine frame frames) where
  size := by
    change (s.vars.shrink frame.varsBase).size = _
    have hsize : s.vars.size = a.base + a.routine.locals := h.size
    rw [Array.size_shrink, hsize, hbase, ← hst.base_eq]
    omega
  instances id hid := by
    obtain ⟨_, _, _, m⟩ := hst.made
    change (leaveInstances a.routine.layout s.instances)[id.toNat]? = _
    rw [getElem?_leaveInstances, h.instances id hid, Option.map_some,
      List.countP_eq_length_filter, filter_layout hl m, placesOf, Activation.place?]
    cases a.routine.layout.find? (·.scope = id) <;> rfl

end Placed

end Setting

end StackLang
