import StackLang.Proofs.Storage.Active

/-!
# Static links

The machine finds a variable in the innermost active function that has the variable's scope, while
the tree says which variable a name means before anything runs. `StaticLinks` follows a run as the
tree would have it: each active function has a chain that begins with it, and a callee is linked to
the first function along the chain of its caller whose frame has the scope that declares the callee
(`relink`). `compile_follows_links`: the place of every variable that a run comes to is the one in the
first function along the chain that has the variable's scope, however the functions call each other.

A chain skips active functions, and none of those skipped may have a scope that can be seen from
where it leads (`Tied.exists_owner`). What carries this along a run is that a callee's declaration is
around a scope of the caller (`Chained.sees`).
-/

namespace StackLang

open RunM

/-! ## Links -/

namespace Routine

/-- The place of a scope's variables in the frame. -/
def place? (r : Routine) (scope : UInt16) : Option ScopeLayout :=
  r.layout.find? (·.scope = scope)

/-- The variables of a scope are in the frame. -/
def owns (r : Routine) (scope : UInt16) : Bool := (r.place? scope).isSome

end Routine

/-- A function that has a frame; its variables begin at `base`. -/
structure ActiveRoutine where
  routine : Routine
  base : Nat

/-- The links behind an instruction. A callee is linked to the first function along the chain of its
caller whose frame has the scope that declares the callee; a return leaves the caller's links. -/
def relink (op : Opcode) (callee : ActiveRoutine) :
    List (List ActiveRoutine) → List (List ActiveRoutine)
  | [] => []
  | chain :: links =>
    match op with
    | .call =>
      (callee :: chain.dropWhile (!·.routine.owns callee.routine.declaringScope)) :: chain :: links
    | .ret => links
    | _ => chain :: links

variable {σ : Type} {z : Setting σ} {acts : List Activation} {a : Activation} {c : Cursor}
  {s : State σ} {vars : List HostVar} {sink : Sink} {host : σ}

/-- A run comes to the instruction at a cursor, and these are the links of the active functions, the
innermost first: each function with those that its link leads to, one after the other. -/
inductive StaticLinks (env : Env σ) (vars : List HostVar) (sink : Sink) (host : σ) :
    Cursor → State σ → List (List ActiveRoutine) → Prop
  | start {c : Cursor} {s : State σ} (h : start env vars (initial env.exe sink host) = .ok c s) :
      StaticLinks env vars sink host c s [[⟨c.routine, 0⟩]]
  | advance {c c' : Cursor} {s s' : State σ} {links : List (List ActiveRoutine)} {i : Instr}
      (h : StaticLinks env vars sink host c s links) (hi : c.routine.code.decodeAt c.ip = .ok i)
      (ha : advance env c s = .ok (some c') s') :
      StaticLinks env vars sink host c' s' (relink i.op ⟨c'.routine, s.vars.size⟩ links)

theorem relink_of_ne {op : Opcode} (hcall : op ≠ .call) (hret : op ≠ .ret) (callee : ActiveRoutine)
    (links : List (List ActiveRoutine)) : relink op callee links = links := by
  cases links with
  | nil => rfl
  | cons chain links => cases op <;> first | rfl | contradiction

/-- What a frame is of. -/
def Frame.active? (e : Executable) (frame : Frame) : Option ActiveRoutine :=
  (e.routine? frame.function).map (⟨·, frame.varsBase⟩)

namespace State

/-- The chains begin with the functions that have frames, and go on as the chain of another one; only
that of `<top>` ends. -/
structure HasLinks (s : State σ) (e : Executable) (links : List (List ActiveRoutine)) : Prop where
  heads : ∃ active : List ActiveRoutine,
    s.frames.map (·.active? e) = active.map some ∧ links.map List.head? = active.map some
  lead : ∀ chain ∈ links, chain.tail ∈ links ∨
    chain.tail = [] ∧ ∀ a ∈ chain, a.routine.name = Program.topName

/-- The machine finds the variable in the first function along the chain that has its scope. -/
def FollowsLinks (s : State σ) (chain : List ActiveRoutine) (addr : VarAddr) : Prop :=
  ∃ a l, chain.find? (·.routine.owns addr.scope) = some a ∧
    a.routine.place? addr.scope = some l ∧ addr.slot.toNat < l.size ∧
    s.slotIndex addr = .ok (a.base + l.base + addr.slot.toNat)

end State

/-- Every state that a run comes to has links. -/
theorem Visits.exists_links {env : Env σ} (hv : Visits env vars sink host c s) :
    ∃ links, StaticLinks env vars sink host c s links := by
  induction hv with
  | start h => exact ⟨_, .start h⟩
  | advance _ ha ih =>
    obtain ⟨links, h⟩ := ih
    cases advances_of_advance ha with
    | next hi _ | call hi _ _ _ | ret hi _ _ _ _ => exact ⟨_, h.advance hi ha⟩

/-! ## Scopes -/

/-- The records of a program's functions name its scopes by these numbers. -/
structure Program.NumberedIn (p : Program) (e : Executable) (number : ScopeIndex → Option UInt16) :
    Prop where
  injective : ∀ {x y id}, number x = some id → number y = some id → x = y
  routines : ∀ r ∈ e.routines, ∃ i f, p.DeclaredIn i f ∧ r.name = f.name ∧
    number i = some r.declaringScope ∧
    ∀ x, x ∈ f.frameScopes ↔ ∃ id, number x = some id ∧ r.owns id = true

/-- A scope is around one of those that have their variables in the frame of `r`. -/
def Program.SeenFrom (p : Program) (number : ScopeIndex → Option UInt16) (r : Routine)
    (scope : UInt16) : Prop :=
  ∃ sc x id, number sc = some id ∧ r.owns id = true ∧ p.Encloses x sc ∧ number x = some scope

section Scopes

variable {i sc x : ScopeIndex} {f : FunctionDecl} {r : Routine} {t₀ t₁ : Compilation} {id : UInt16}

namespace Setting

/-- The scopes that the tree gives to a function are those in its frame. -/
theorem Compiles.owns_iff (hz : z.Compiles) (m : z.Made i f r t₀ t₁)
    (hid : z.compilation.symbols.scopeId? x = some id) :
    r.owns id = true ↔ x ∈ f.frameScopes := by
  constructor
  · intro h
    obtain ⟨l, hl⟩ := Option.isSome_iff_exists.mp h
    obtain ⟨y, -, hid', -, -, hy⟩ := m.scope_of_place? hl
    exact hz.symbols.injective hid hid' ▸ hy
  · intro hx
    obtain ⟨id', l, hid', hl⟩ := m.exists_place?_of_mem hx
    obtain rfl := Option.some.inj (hid.symm.trans hid')
    exact Option.isSome_iff_exists.mpr ⟨l, hl⟩

theorem Compiles.seenFrom (hz : z.Compiles) (m : z.Made i f r t₀ t₁) (hsc : sc ∈ f.frameScopes)
    (hx : z.program.Encloses x sc) (hid : z.compilation.symbols.scopeId? x = some id) :
    z.program.SeenFrom z.compilation.symbols.scopeId? r id := by
  obtain ⟨id', -, hid', -⟩ := m.exists_place?_of_mem hsc
  exact ⟨sc, x, id', hid', (hz.owns_iff m hid').mpr hsc, hx, hid⟩

theorem Compiles.numberedIn (hz : z.Compiles) :
    z.program.NumberedIn z.env.exe z.compilation.symbols.scopeId? where
  injective := hz.symbols.injective
  routines r hr := by
    obtain ⟨⟨i, f⟩, t₀, t₁, -, m⟩ := hz.made_of_mem hr
    refine ⟨i, f, m.declared, m.finished.name, m.continues.symbols.scopeIds m.finished.declaring,
      fun x => ⟨fun hx => ?_, ?_⟩⟩
    · obtain ⟨id, -, hid, -⟩ := m.exists_place?_of_mem hx
      exact ⟨id, hid, (hz.owns_iff m hid).mpr hx⟩
    · rintro ⟨id, hid, howns⟩
      exact (hz.owns_iff m hid).mp howns

/-! ## Chains -/

/-- A chain of active functions: each is declared in a scope of the next one, and `<top>`, which the
root declares, is the last. -/
inductive Tied (z : Setting σ) : List Activation → Prop
  | top {a : Activation} {t₀ t₁ : Compilation} (hname : a.function.name = Program.topName)
      (m : z.Made Program.root a.function a.routine t₀ t₁) : Tied z [a]
  | link {a b : Activation} {outer : List Activation} {i : ScopeIndex} {t₀ t₁ : Compilation}
      (h : Tied z (b :: outer)) (hname : a.function.name ≠ Program.topName)
      (m : z.Made i a.function a.routine t₀ t₁) (hi : i ∈ b.function.frameScopes) :
      Tied z (a :: b :: outer)

/-- Along a chain there is a function with each scope `x` around those of the first one. What is
around `x` is found from there as from the first one. -/
theorem Tied.exists_owner (hz : z.Compiles) {chain : List Activation} (h : z.Tied chain)
    (ha : chain.head? = some a) (hsc : sc ∈ a.function.frameScopes)
    (hx : z.program.Encloses x sc) (hid : z.compilation.symbols.scopeId? x = some id) :
    ∃ b rest, chain.dropWhile (!·.routine.owns id) = b :: rest ∧ x ∈ b.function.frameScopes ∧
      z.Tied (b :: rest) ∧
      ∀ {y id'}, z.program.Encloses y x → z.compilation.symbols.scopeId? y = some id' →
        (b :: rest).find? (·.routine.owns id') = chain.find? (·.routine.owns id') := by
  induction h generalizing a sc with
  | @top b t₀ t₁ hname m =>
    obtain rfl := Option.some.inj ha
    have hmem : x ∈ b.function.frameScopes := by
      rcases FunctionDecl.frameScopes_of_encloses (hz.bodies m.declared) hz.linked m.declared hsc hx
        with hmem | hx
      · exact hmem
      · exact FunctionDecl.mem_frameScopes.mpr (.inr ⟨hname, hz.linked.encloses_root hx⟩)
    have howns := (hz.owns_iff m hid).mpr hmem
    exact ⟨b, [], List.dropWhile_cons_of_neg (by simp [howns]), hmem, .top hname m,
      fun _ _ => rfl⟩
  | @link b b' outer i t₀ t₁ h hname m hi ih =>
    obtain rfl := Option.some.inj ha
    by_cases hmem : x ∈ b.function.frameScopes
    · have howns := (hz.owns_iff m hid).mpr hmem
      exact ⟨b, b' :: outer, List.dropWhile_cons_of_neg (by simp [howns]), hmem,
        .link h hname m hi, fun _ _ => rfl⟩
    · have hx' := (FunctionDecl.frameScopes_of_encloses (hz.bodies m.declared) hz.linked m.declared
        hsc hx).resolve_left hmem
      have hskip : ∀ {y id'}, z.program.Encloses y x →
          z.compilation.symbols.scopeId? y = some id' → b.routine.owns id' = false := by
        intro y id' hy hid'
        have hnone := hz.place?_eq_none m (hy.trans hx') hid' fun h => hname h.1
        exact Option.isSome_eq_false_iff.mpr (Option.isNone_iff_eq_none.mpr hnone)
      obtain ⟨b'', rest, hdrop, hmem'', htied, hfind⟩ := ih rfl hi hx'
      refine ⟨b'', rest, ?_, hmem'', htied, fun hy hid' => ?_⟩
      · rw [List.dropWhile_cons_of_pos (by simpa using hskip .refl hid), hdrop]
      · rw [hfind hy hid']
        simp only [List.find?_cons, hskip hy hid']

/-- The chains of the active functions: a callee is declared in a scope that is seen from its caller,
and is linked to the first function along the caller's chain that has that scope. -/
inductive Chained (z : Setting σ) : List Activation → List (List Activation) → Prop
  | top {a : Activation} {t₀ t₁ : Compilation} (hname : a.function.name = Program.topName)
      (m : z.Made Program.root a.function a.routine t₀ t₁) : Chained z [a] [[a]]
  | call {a b : Activation} {acts chain : List Activation} {links : List (List Activation)}
      {sc i : ScopeIndex} {t₀ t₁ : Compilation} (h : Chained z (b :: acts) (chain :: links))
      (hsc : sc ∈ b.function.frameScopes) (hi : z.program.Encloses i sc)
      (hname : a.function.name ≠ Program.topName) (m : z.Made i a.function a.routine t₀ t₁) :
      Chained z (a :: b :: acts)
        ((a :: chain.dropWhile (!·.routine.owns a.routine.declaringScope)) :: chain :: links)

variable {chain : List Activation} {links : List (List Activation)}

theorem Chained.heads (h : z.Chained acts links) : links.map List.head? = acts.map some := by
  induction h with
  | top _ _ => rfl
  | call _ _ _ _ _ ih => exact congrArg (_ :: ·) ih

theorem Chained.head (h : z.Chained (a :: acts) (chain :: links)) : chain.head? = some a :=
  (List.cons.inj h.heads).1

/-- **What is around a scope of the innermost function** is found along its chain as it is found
among all active functions. -/
theorem Chained.sees (hz : z.Compiles) (h : z.Chained (a :: acts) (chain :: links)) :
    z.Tied chain ∧ ∀ {sc x id}, sc ∈ a.function.frameScopes → z.program.Encloses x sc →
      z.compilation.symbols.scopeId? x = some id →
        chain.find? (·.routine.owns id) = (a :: acts).find? (·.routine.owns id) := by
  induction acts generalizing a chain links with
  | nil =>
    cases h with
    | top hname m => exact ⟨.top hname m, fun _ _ _ => rfl⟩
  | cons b acts ih =>
    cases h with
    | @call _ _ _ outer links sc i t₀ t₁ h hsc hi hname m =>
      obtain ⟨htied, hsees⟩ := ih h
      obtain ⟨b', rest, hdrop, hmem, htied', hfind⟩ := htied.exists_owner hz h.head hsc hi
        (m.continues.symbols.scopeIds m.finished.declaring)
      rw [hdrop]
      refine ⟨.link htied' hname m hmem, fun {sc' x id} hsc' hx hid => ?_⟩
      simp only [List.find?_cons]
      cases howns : a.routine.owns id with
      | true => rfl
      | false =>
        have hx' := (FunctionDecl.frameScopes_of_encloses (hz.bodies m.declared) hz.linked
          m.declared hsc' hx).resolve_left fun hmem => by simp [(hz.owns_iff m hid).mpr hmem] at howns
        exact (hfind hx' hid).trans (hsees hsc (hx'.trans hi) hid)

/-- Where a chain leads, another one begins. -/
theorem Chained.mem_of_suffix (h : z.Chained acts links) :
    ∀ chain ∈ links, ∀ rest, rest <:+ chain → rest ≠ [] → rest ∈ links := by
  induction h with
  | @top a t₀ t₁ hname m =>
    intro chain hchain rest hrest hne
    obtain rfl := List.mem_singleton.mp hchain
    rcases List.suffix_cons_iff.mp hrest with rfl | hrest
    · exact hchain
    · exact absurd (List.suffix_nil.mp hrest) hne
  | @call a b acts outer links sc i t₀ t₁ h hsc hi hname m ih =>
    intro chain hchain rest hrest hne
    rcases List.mem_cons.mp hchain with rfl | hchain
    · rcases List.suffix_cons_iff.mp hrest with rfl | hrest
      · exact List.mem_cons_self
      · exact List.mem_cons_of_mem _ (ih outer List.mem_cons_self rest
          (hrest.trans (List.dropWhile_suffix _)) hne)
    · exact List.mem_cons_of_mem _ (ih chain hchain rest hrest hne)

theorem Chained.tied_of_mem (hz : z.Compiles) (h : z.Chained acts links) :
    ∀ chain ∈ links, z.Tied chain := by
  induction h with
  | top hname m => exact List.forall_mem_singleton.mpr (.top hname m)
  | call h hsc hi hname m ih =>
    exact List.forall_mem_cons.mpr ⟨((Chained.call h hsc hi hname m).sees hz).1, ih⟩

end Setting

end Scopes

/-! ## Runs -/

/-- An active function without its declaration. -/
def Activation.running (a : Activation) : ActiveRoutine := ⟨a.routine, a.base⟩

theorem head?_placesOf_of_find? {id : UInt16} {l : ScopeLayout}
    (h : acts.find? (·.routine.owns id) = some a) (hl : a.routine.place? id = some l) :
    (placesOf id acts).head? = some (a.base + l.base) := by
  induction acts with
  | nil => cases h
  | cons b acts ih =>
    rw [List.find?_cons] at h
    rw [placesOf]
    cases howns : b.routine.owns id with
    | true =>
      rw [howns] at h
      cases h
      rw [show a.place? id = some l from hl]
      rfl
    | false =>
      rw [howns] at h
      rw [show b.place? id = none from Option.isNone_iff_eq_none.mp (Option.isSome_eq_false_iff.mp howns)]
      exact ih h

namespace Setting

variable {chain : List Activation} {chains : List (List Activation)} {addr : VarAddr}
  {i x sc : ScopeIndex} {t₀ t₁ : Compilation}

/-- The machine finds a scope in the innermost function that has it. -/
theorem Active.slotIndex_of_find? (h : z.Active a acts c s) (hz : z.Compiles) {b : Activation}
    {l : ScopeLayout} (hid : z.compilation.symbols.scopeId? x = some addr.scope)
    (hb : (a :: acts).find? (·.routine.owns addr.scope) = some b)
    (hl : b.routine.place? addr.scope = some l) (hlt : addr.slot.toNat < l.size) :
    s.slotIndex addr = .ok (b.base + l.base + addr.slot.toNat) := by
  have hmem := List.mem_of_find?_eq_some hb
  obtain ⟨_, _, _, m⟩ := h.stacked.made_of_mem hmem
  have hin := (m.mem_of_place? hl).2.2.2.2
  have hstop : b.stop ≤ a.stop := by
    rcases List.mem_cons.mp hmem with rfl | hmem
    · exact Nat.le_refl _
    · exact Nat.le_trans (h.stacked.stop_le b hmem) (Nat.le_add_right _ _)
  have hsize : s.vars.size = a.stop := h.size
  rw [State.slotIndex, h.instances _ (hz.scope_lt hid), Option.bind_some,
    head?_placesOf_of_find? hb hl]
  exact if_pos (by unfold Activation.stop at *; omega)

/-- A scope that is seen from the innermost function is found along its chain. -/
theorem Chained.exists_find? (hz : z.Compiles) (h : z.Chained (a :: acts) (chain :: chains))
    (hsc : sc ∈ a.function.frameScopes) (hx : z.program.Encloses x sc) {id : UInt16}
    (hid : z.compilation.symbols.scopeId? x = some id) :
    ∃ b, chain.find? (·.routine.owns id) = some b := by
  obtain ⟨b, rest, hdrop, -⟩ := (h.sees hz).1.exists_owner hz h.head hsc hx hid
  exact ⟨b, by rw [List.find?_eq_head?_dropWhile_not, hdrop]; rfl⟩

/-- **The machine follows the links** to the variables in the code. -/
theorem Active.follows (h : z.Active a acts c s) (hz : z.Compiles)
    (hchained : z.Chained (a :: acts) (chain :: chains)) (m : z.Made i a.function a.routine t₀ t₁)
    {B : Nat → Prop}
    (hrefers : (Site.of ⟨z.program, a.function, z.strict⟩ t₀ t₁).Refers z.callable B (.var addr)) :
    z.program.SeenFrom z.compilation.symbols.scopeId? a.routine addr.scope ∧
      s.FollowsLinks (chain.map Activation.running) addr := by
  obtain ⟨sc, hsc, x, scope, hx, hscope, hid, hslot⟩ := hz.scope_of_refers m hrefers
  obtain ⟨b, hb⟩ := hchained.exists_find? hz hsc hx hid
  have hactive := ((hchained.sees hz).2 hsc hx hid).symm.trans hb
  have howns : b.routine.owns addr.scope = true := by simpa using List.find?_some hb
  obtain ⟨l, hl⟩ := Option.isSome_iff_exists.mp howns
  have hlt : addr.slot.toNat < l.size := by
    rcases hslot with hslot | ⟨rfl, l', hl', hslot⟩
    · obtain ⟨_, _, _, m'⟩ := h.stacked.made_of_mem (List.mem_of_find?_eq_some hactive)
      obtain ⟨x', scope', hid', hscope', hsize, -⟩ := m'.scope_of_place? hl
      obtain rfl := hz.symbols.injective hid hid'
      obtain rfl := Option.some.inj (hscope.symm.trans hscope')
      exact Nat.lt_of_lt_of_le hslot hsize
    · have howns := (hz.owns_iff m hid).mpr hsc
      simp only [List.find?_cons, howns] at hactive
      obtain rfl := Option.some.inj hactive
      obtain rfl := Option.some.inj (hl'.symm.trans hl)
      exact hslot
  refine ⟨hz.seenFrom m hsc hx hid, b.running, l, ?_, hl, hlt,
    h.slotIndex_of_find? hz hid hactive hl hlt⟩
  rw [List.find?_map]
  exact congrArg (Option.map Activation.running) hb

theorem Active.hasLinks (h : z.Active a acts c s) (hz : z.Compiles)
    (hchained : z.Chained (a :: acts) chains) :
    s.HasLinks z.env.exe (chains.map (·.map Activation.running)) where
  heads := by
    refine ⟨(a :: acts).map Activation.running, ?_, ?_⟩
    · have hframes := h.frames
      generalize a :: acts = acts at hframes
      generalize s.frames = frames at hframes
      induction hframes with
      | nil => rfl
      | cons hframe _ ih =>
        rw [List.map_cons, ih, Frame.active?, hframe.routine, hframe.base]
        rfl
    · have hheads := congrArg (List.map (Option.map Activation.running)) hchained.heads
      rw [List.map_map, List.map_map] at hheads
      rw [List.map_map, List.map_map]
      refine Eq.trans (List.map_congr_left fun chain _ => ?_) hheads
      exact List.head?_map
  lead chain hchain := by
    obtain ⟨chain, hmem, rfl⟩ := List.mem_map.mp hchain
    cases hchained.tied_of_mem hz chain hmem with
    | top hname m =>
      refine .inr ⟨rfl, fun b hb => ?_⟩
      rw [List.mem_singleton.mp hb]
      exact m.finished.name.trans hname
    | @link a b outer i t₀ t₁ h hname m hi =>
      exact .inl (List.mem_map_of_mem (hchained.mem_of_suffix _ hmem (b :: outer)
        (List.suffix_cons a _) (List.cons_ne_nil _ _)))

/-- **The links of every state of a run** are those of its active functions. -/
theorem exists_chained (hz : z.Compiles)
    (hcallable : ∀ name, z.callable name = true → name ≠ Program.topName)
    {links : List (List ActiveRoutine)} (h : StaticLinks z.env vars sink host c s links) :
    ∃ a acts chains, z.Active a acts c s ∧ z.Chained (a :: acts) chains ∧
      links = chains.map (·.map Activation.running) := by
  induction h with
  | start h =>
    obtain ⟨a, hactive, hbase⟩ := active_of_startsAt hz (started h)
    refine ⟨a, [], [[a]], hactive, ?_, ?_⟩
    · cases hactive.stacked with
      | top hf m _ => exact .top (Program.declared_of_top? hf).2 m
    · rw [hactive.routine, ← hbase]
      rfl
  | @advance c c' s s' links i h hi ha ih =>
    obtain ⟨a, acts, chains, hactive, hchained, rfl⟩ := ih
    obtain ⟨i', b, acts', hi', hturns, hb⟩ := hactive.advances hz (advances_of_advance ha)
    obtain rfl := Except.ok.inj (hi.symm.trans hi')
    generalize i.op = op at hturns
    cases hturns with
    | next hcall hret => exact ⟨_, _, _, hb, hchained, relink_of_ne hcall hret _ _⟩
    | call hsc hx hname m hbase =>
      cases chains with
      | nil => cases hchained
      | cons chain chains =>
        refine ⟨_, _, _, hb, .call hchained hsc hx (hcallable _ hname) m, ?_⟩
        have hsize : s.vars.size = b.base := hactive.size.trans hbase.symm
        rw [hb.routine, hsize, List.map_cons, relink, List.dropWhile_map]
        rfl
    | ret =>
      cases hchained with
      | call hchained _ _ _ _ => exact ⟨_, _, _, hb, hchained, rfl⟩

end Setting

/-! ## Programs -/

/-- **A variable is found where the static links lead.** In a run of a compiled program that never
calls `<top>`, each active function has its links. Whenever the run comes to an instruction that reads
or writes a variable, the scope of the variable is around one of the running function's, a function
along its chain has it, and the machine finds the variable in the first that does. A function that is
called is declared in a scope that is around one of the caller's, and a function along the caller's
chain has that scope. -/
theorem compile_follows_links {p : Program} (hb : p.Built)
    (hn : p.Nested fun name => name ≠ Program.topName) {strict : Bool} {e : Executable}
    (h : p.compile strict = .ok e) :
    ∃ number, p.NumberedIn e number ∧
      ∀ {σ : Type} (config : Config) (bridge : Bridge σ) (vars : List HostVar) (sink : Sink)
        (host : σ) (c : Cursor) (s : State σ), Visits ⟨e, config, bridge⟩ vars sink host c s →
          (∃ links, StaticLinks ⟨e, config, bridge⟩ vars sink host c s links) ∧
          ∀ links, StaticLinks ⟨e, config, bridge⟩ vars sink host c s links →
            s.HasLinks e links ∧
            ∀ i, c.routine.code.decodeAt c.ip = .ok i →
              (∀ addr, i.operand = .var addr → p.SeenFrom number c.routine addr.scope ∧
                ∃ chain, links.head? = some chain ∧ s.FollowsLinks chain addr) ∧
              ∀ id r, i.operand = .function id → e.routine? id = some r →
                p.SeenFrom number c.routine r.declaringScope ∧
                ∃ chain a, links.head? = some chain ∧
                  chain.find? (·.routine.owns r.declaringScope) = some a := by
  obtain ⟨t, hout⟩ := Program.compile_ok hb h
  let z : {σ : Type} → Config → Bridge σ → Setting σ := fun config bridge =>
    { program := p, callable := fun name => name ≠ Program.topName, strict, compilation := t,
      env := ⟨e, config, bridge⟩, sink := {} }
  have hz : ∀ {σ : Type} (config : Config) (bridge : Bridge σ), (z config bridge).Compiles :=
    fun _ _ => ⟨hout, hb.linked.1, hn⟩
  refine ⟨t.symbols.scopeId?, (hz {} noHost).numberedIn,
    fun config bridge vars sink host c s hv => ⟨hv.exists_links, fun links hlinks => ?_⟩⟩
  have hz := hz config bridge
  obtain ⟨a, acts, chains, hactive, hchained, rfl⟩ :=
    Setting.exists_chained hz (fun _ hname => of_decide_eq_true hname) hlinks
  refine ⟨hactive.hasLinks hz hchained, fun i hi => ?_⟩
  obtain ⟨x, t₀, t₁, m⟩ := hactive.stacked.made
  have hrefers := hactive.refers hz m hi
  obtain ⟨chain, chains, rfl⟩ : ∃ chain rest, chains = chain :: rest := by
    cases hchained <;> exact ⟨_, _, rfl⟩
  rw [hactive.routine]
  refine ⟨fun addr haddr => ?_, fun id r hid hr => ?_⟩
  · obtain ⟨hseen, hfollows⟩ := hactive.follows hz hchained m (haddr ▸ hrefers)
    exact ⟨hseen, _, rfl, hfollows⟩
  · obtain ⟨sc, hsc, y, g, t₀', t₁', hy, -, m'⟩ := hz.callee_of_refers m (hid ▸ hrefers) hr
    have hdeclaring := m'.continues.symbols.scopeIds m'.finished.declaring
    obtain ⟨b, hb⟩ := hchained.exists_find? hz hsc hy hdeclaring
    refine ⟨hz.seenFrom m hsc hy hdeclaring, _, b.running, rfl, ?_⟩
    rw [List.find?_map]
    exact congrArg (Option.map Activation.running) hb

/-- The inner one of two calls of `rest` finds the `n` of `count` along its links. -/
theorem countingProgram_links : countingProgram.Built ∧
    (countingProgram.Nested fun name => name ≠ Program.topName) ∧
    ∃ e, countingProgram.compile true = .ok e ∧
      ∃ c s links chain, Visits ⟨e, {}, noHost⟩ [] {} () c s ∧ s.frames.length = 5 ∧
        StaticLinks ⟨e, {}, noHost⟩ [] {} () c s links ∧ s.HasLinks e links ∧
        links.head? = some chain ∧ c.routine.owns 2 = false ∧ s.FollowsLinks chain ⟨2, 0⟩ := by
  have hn : countingProgram.Nested fun name => name ≠ Program.topName :=
    Program.nested_of_all (by decide +kernel)
  obtain ⟨e, hc, c, s, i, hv, hlen, hi, hoperand, hnone⟩ := countingProgram_visits
  obtain ⟨number, -, hruns⟩ := compile_follows_links countingProgram_built hn hc
  obtain ⟨⟨links, hlinks⟩, hall⟩ := hruns {} noHost [] {} () c s hv
  obtain ⟨hhas, hinstr⟩ := hall links hlinks
  obtain ⟨-, chain, hchain, hfollows⟩ := (hinstr i hi).1 _ hoperand
  exact ⟨countingProgram_built, hn, e, hc, c, s, links, chain, hv, hlen, hlinks, hhas, hchain,
    Option.isSome_eq_false_iff.mpr (Option.isNone_iff_eq_none.mpr hnone), hfollows⟩

end StackLang
