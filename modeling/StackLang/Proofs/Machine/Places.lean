import StackLang.Proofs.Code.Joints
import StackLang.Proofs.Machine.Storage

/-!
# Which place a variable has

The frame of a function has a place for the variables of each scope in its layout, and the machine
means the innermost frame with such a place (`Holds.exists_frame`). In an executable that is `LaidOut`
the places of a frame do not overlap, and the code of a function names only variables that every frame
with the scope has room for, or that are its own. Then a slot changes only where it is assigned to under
its own name, as long as its frame is there (`Advances.place_kept`).
-/

namespace StackLang

open MachineM (wp)
open RunM

/-- Where the frame of a function has the variables of a scope: the last place counts. -/
def Routine.lastPlace? (r : Routine) (scope : UInt16) : Option ScopeLayout :=
  r.layout.reverse.find? (·.scope = scope)

/-- The frame of a function has the variable. -/
def Routine.Owns (r : Routine) (addr : VarAddr) : Prop :=
  ∃ l, r.lastPlace? addr.scope = some l ∧ addr.slot.toNat < l.size

theorem Routine.mem_of_lastPlace? {r : Routine} {scope : UInt16} {l : ScopeLayout}
    (h : r.lastPlace? scope = some l) : l ∈ r.layout ∧ l.scope = scope :=
  ⟨List.mem_reverse.mp (List.mem_of_find?_eq_some h), by simpa using List.find?_some h⟩

/-- The innermost place of a scope when a function has become active: the function's own, if it has
one. -/
theorem head?_enterInstances (varsBase : Nat) (r : Routine) (instances : Array (List Nat))
    (scope : UInt16) :
    (enterInstances varsBase r.layout instances)[scope.toNat]?.bind List.head? =
      instances[scope.toNat]?.bind fun places =>
        ((r.lastPlace? scope).map (varsBase + ·.base)).or places.head? := by
  have hsame : r.layout.reverse.find? (fun l => decide (l.scope.toNat = scope.toNat)) =
      r.lastPlace? scope := by
    simp only [Routine.lastPlace?, UInt16.toNat_inj]
  rw [getElem?_enterInstances, Option.bind_map]
  refine Option.bind_congr fun places _ => ?_
  rw [Function.comp_apply, ← List.map_reverse, ← List.filter_reverse, List.head?_append,
    List.head?_map, List.head?_filter, hsame]

namespace Executable

/-- The frames of an executable have room for their variables. Those that are `declared` have a slot
wherever their scope has a place. -/
structure LaidOut (e : Executable) (declared : VarAddr → Prop) : Prop where
  ids : e.IdsArePlaces
  ordered : ∀ r ∈ e.routines, r.layout.Pairwise fun l l' => l.base + l.size ≤ l'.base
  within : ∀ r ∈ e.routines, ∀ l ∈ r.layout, l.base + l.size ≤ r.locals
  scopes : ∀ r ∈ e.routines, ∀ l ∈ r.layout, l.scope.toNat < e.scopeCount
  room : ∀ r ∈ e.routines, ∀ l ∈ r.layout, ∀ addr, declared addr → addr.scope = l.scope →
    addr.slot.toNat < l.size
  /-- The code names variables that are declared or its own, and branches to its own instructions. -/
  code : ∀ r ∈ e.routines, ∃ line, r.code.Line 0 line r.code.size ∧ ∀ i ∈ line,
    (∀ addr, i.2 = .var addr → declared addr ∨ r.Owns addr) ∧
      ∀ t, i.2 = .target t → r.code.Joint 0 r.code.size t

/-- Two places of a frame do not overlap. -/
theorem LaidOut.disjoint {e : Executable} {declared : VarAddr → Prop} (he : e.LaidOut declared)
    {r : Routine} (hr : r ∈ e.routines) {l l' : ScopeLayout} (hl : l ∈ r.layout)
    (hl' : l' ∈ r.layout) (hne : l ≠ l') :
    l.base + l.size ≤ l'.base ∨ l'.base + l'.size ≤ l.base := by
  have hordered := he.ordered r hr
  generalize r.layout = layout at *
  induction hordered with
  | nil => cases hl
  | cons hfirst _ ih =>
    rcases List.mem_cons.mp hl with rfl | hin <;> rcases List.mem_cons.mp hl' with rfl | hin'
    · exact absurd rfl hne
    · exact .inl (hfirst l' hin')
    · exact .inr (hfirst l hin)
    · exact ih hin hin'

/-! ## The places of all frames -/

namespace Holds

variable {e : Executable} {frames : List Frame} {size k : Nat} {instances : Array (List Nat)}
  {frame : Frame} {r : Routine}

/-- The machine means the innermost frame with a place for the scope. -/
theorem exists_frame (h : e.Holds frames size instances) {scope : UInt16} {b : Nat}
    (hb : instances[scope.toNat]?.bind List.head? = some b) :
    ∃ (k : Nat) (frame : Frame) (r : Routine) (l : ScopeLayout), frames[k]? = some frame ∧
      e.routine? frame.function = some r ∧ r.lastPlace? scope = some l ∧ b = frame.varsBase + l.base ∧
      ∀ j < k, ∀ (frame' : Frame) (r' : Routine), frames[j]? = some frame' →
        e.routine? frame'.function = some r' → r'.lastPlace? scope = none := by
  induction h with
  | nil => simp [Array.getElem?_replicate, Option.bind_eq_some_iff] at hb
  | @cons frame frames r instances hr h ih =>
    rw [head?_enterInstances] at hb
    obtain ⟨places, hplaces, hb⟩ := Option.bind_eq_some_iff.mp hb
    cases hl : r.lastPlace? scope with
    | some l =>
      rw [hl] at hb
      cases hb
      exact ⟨0, frame, r, l, rfl, hr, hl, rfl, fun j hj => absurd hj (Nat.not_lt_zero j)⟩
    | none =>
      rw [hl] at hb
      obtain ⟨k, frame', r', l, hk, hr', hl', hb', hnone⟩ := ih (by rw [hplaces]; exact hb)
      refine ⟨k + 1, frame', r', l, hk, hr', hl', hb', fun j hj frame'' r'' hj' hr'' => ?_⟩
      cases j with
      | zero =>
        cases hj'
        obtain rfl := Option.some.inj (hr.symm.trans hr'')
        exact hl
      | succ j => exact hnone j (Nat.lt_of_succ_lt_succ hj) frame'' r'' hj' hr''

/-- There are places for all scopes of the executable. -/
theorem size_instances (h : e.Holds frames size instances) : instances.size = e.scopeCount := by
  induction h with
  | nil => exact Array.size_replicate
  | cons _ _ ih => rw [size_enterInstances, ih]

/-- The variables of a frame are among those that all frames hold. -/
theorem stop_le (h : e.Holds frames size instances) (hk : frames[k]? = some frame)
    (hr : e.routine? frame.function = some r) : frame.varsBase + r.locals ≤ size := by
  induction h generalizing k with
  | nil => cases hk
  | cons hr' _ ih =>
    cases k with
    | zero =>
      cases hk
      obtain rfl := Option.some.inj (hr.symm.trans hr')
      exact Nat.le_refl _
    | succ k => exact Nat.le_trans (ih hk) (Nat.le_add_right _ _)

/-- The variables of a frame lie behind those of the frames around it. -/
theorem ordered (h : e.Holds frames size instances) {j : Nat} {inner : Frame} (hjk : j < k)
    (hj : frames[j]? = some inner) (hk : frames[k]? = some frame)
    (hr : e.routine? frame.function = some r) : frame.varsBase + r.locals ≤ inner.varsBase := by
  induction h generalizing j k with
  | nil => cases hk
  | cons _ h ih =>
    obtain ⟨k, rfl⟩ := Nat.exists_eq_add_of_lt hjk
    cases j with
    | zero =>
      cases hj
      rw [Nat.zero_add] at hk
      exact h.stop_le hk hr
    | succ j =>
      refine ih (j := j) (k := j + k + 1) (by omega) hj ?_
      rw [← hk, ← List.getElem?_cons_succ (a := _) (i := j + k + 1)]
      congr 1
      omega

end Holds

end Executable

open Executable

variable {σ : Type} {env : Env σ} {vars : List HostVar} {sink : Sink} {host : σ} {c c' : Cursor}
  {s s' : State σ} {declared : VarAddr → Prop}

/-! ## Control -/

/-- Every active function is between two of its instructions. -/
structure OnJoints (e : Executable) (c : Cursor) (s : State σ) : Prop where
  cursor : c.routine.code.Joint 0 c.routine.code.size c.ip
  frames : ∀ frame ∈ s.frames, ∀ r, e.routine? frame.function = some r →
    r.code.Joint 0 r.code.size frame.returnIp

theorem Executable.LaidOut.joint_zero {e : Executable} (he : e.LaidOut declared) {r : Routine}
    (hr : r ∈ e.routines) : r.code.Joint 0 r.code.size 0 := by
  obtain ⟨line, hline, -⟩ := he.code r hr
  exact hline.leads.joint_start

/-- What an instruction names, and where it branches to. -/
theorem Executable.LaidOut.operand {e : Executable} (he : e.LaidOut declared) {r : Routine}
    (hr : r ∈ e.routines) {ip : Nat} (hip : r.code.Joint 0 r.code.size ip) {i : Instr}
    (hi : r.code.decodeAt ip = .ok i) :
    (∀ addr, i.operand = .var addr → declared addr ∨ r.Owns addr) ∧
      ∀ t, i.operand = .target t → r.code.Joint 0 r.code.size t := by
  obtain ⟨line, hline, hoperands⟩ := he.code r hr
  exact hoperands _ (hip.mem_line (Code.ne_size_of_decodeAt hi) hi hline)

theorem Advances.onJoints (he : env.exe.LaidOut declared) (ha : Advances env c s c' s')
    {frame : Frame} {frames : List Frame} (hframes : s.frames = frame :: frames)
    (hroutine : env.exe.routine? frame.function = some c.routine) (h : OnJoints env.exe c s) :
    OnJoints env.exe c' s' := by
  have hc := mem_of_routine? hroutine
  cases ha with
  | @next i ip _ hi hstep =>
    refine ⟨?_, by rw [(framed_of_stepInstr hstep).frames]; exact h.frames⟩
    rcases MachineM.next_of_stepInstr hstep with rfl | htarget
    · exact h.cursor.next (Code.ne_size_of_decodeAt hi) hi
    · exact (he.operand hc h.cursor hi).2 ip htarget
  | @call i id r hi hid hr hfits =>
    refine ⟨he.joint_zero (mem_of_routine? hr), ?_⟩
    rw [frames_entered_paused (s := { s with steps := s.steps + 1 }) hframes]
    refine List.forall_mem_cons.mpr ⟨fun r' hr' => he.joint_zero (mem_of_routine? hr'),
      List.forall_mem_cons.mpr ⟨fun r' hr' => ?_, fun frame' hmem => ?_⟩⟩
    · obtain rfl := Option.some.inj (hroutine.symm.trans hr')
      exact h.cursor.next (Code.ne_size_of_decodeAt hi) hi
    · exact h.frames frame' (hframes ▸ List.mem_cons_of_mem _ hmem)
  | @ret i frame' caller frames' r hi hop hframes' hr _ =>
    have hresume : ∀ frame ∈ caller :: frames', ∀ r, env.exe.routine? frame.function = some r →
        r.code.Joint 0 r.code.size frame.returnIp := fun frame hmem =>
      h.frames frame (hframes' ▸ List.mem_cons_of_mem _ hmem)
    exact ⟨hresume caller List.mem_cons_self r hr, hresume⟩

/-- **Control goes from instruction to instruction**, in every state of a run. -/
theorem onJoints_of_visits (he : env.exe.LaidOut declared) (hv : Visits env vars sink host c s) :
    OnJoints env.exe c s := by
  induction hv with
  | start h =>
    have hstart := started h
    have hr := he.ids.routine?_of_top? hstart.top
    refine ⟨hstart.ip ▸ he.joint_zero (mem_of_routine? hr), ?_⟩
    rw [hstart.framed.frames]
    exact List.forall_mem_cons.mpr
      ⟨fun r hr => he.joint_zero (mem_of_routine? hr), List.forall_mem_nil _⟩
  | advance hv h ih =>
    obtain ⟨frame, hhead, hr⟩ := routine_of_visits he.ids hv
    obtain ⟨frames, hframes⟩ := List.head?_eq_some_iff.mp hhead
    exact (advances_of_advance h).onJoints he hframes hr ih

/-! ## Loads and stores -/

/-- The machine finds a place for `addr`, and every other place holds in `s'` what it held in `s`. -/
def State.ChangesOnly (addr : VarAddr) (s s' : State σ) : Prop :=
  ∃ n, s.slotIndex addr = .ok n ∧ ∀ n', n' ≠ n → s'.vars[n']? = s.vars[n']?

namespace MachineM

theorem wp_loadVar_changesOnly (addr : VarAddr) (ty : Ty) (s : State σ) :
    wp (loadVar addr ty) (fun _ s' => s.ChangesOnly addr s') (fun _ _ => True) s := by
  simp only [loadVar, wp_bind, wp_slotIndex]
  cases hn : s.slotIndex addr with
  | error trap => trivial
  | ok n =>
    simp only [wp_get, wp_ite, wp_push]
    exact ⟨fun _ => trivial, fun _ => ⟨n, hn, fun _ _ => rfl⟩⟩

theorem wp_storeVar_changesOnly (op : Opcode) (addr : VarAddr) (ty : Ty) (s : State σ) :
    wp (storeVar op addr ty) (fun _ s' => s.ChangesOnly addr s') (fun _ _ => True) s := by
  simp only [storeVar, wp_bind, wp_pop]
  refine ⟨fun _ => trivial, fun _ v _ => ?_⟩
  simp only [wp_ite, wp_bind, wp_slotIndex]
  refine ⟨fun _ => trivial, fun _ => ?_⟩
  have hsame : State.slotIndex { s with stack := s.stack.pop } addr = s.slotIndex addr := rfl
  rw [hsame]
  cases hn : s.slotIndex addr with
  | error trap => trivial
  | ok n => exact ⟨n, hn, fun n' hne => Array.getElem?_setIfInBounds_ne hne.symm⟩

theorem wp_stepVar_changesOnly (op : Opcode) (addr : VarAddr) (s : State σ) :
    wp (stepVar op addr) (fun _ s' => s.ChangesOnly addr s') (fun _ _ => True) s := by
  cases op with
  | loadDoubleVar | loadIntVar | loadStringVar => exact wp_loadVar_changesOnly addr _ s
  | storeDoubleVar | storeIntVar | storeStringVar => exact wp_storeVar_changesOnly _ addr _ s
  | _ => trivial

end MachineM

/-- A load or a store changes at most the place that it means. -/
theorem Advances.changesOnly {env : Env σ} (h : Advances env c s c' s') {i : Instr}
    (hi : c.routine.code.decodeAt c.ip = .ok i) (haddr : i.operand = .var addr) :
    s.ChangesOnly addr s' := by
  cases h with
  | @next i' ip _ hi' hstep =>
    obtain rfl := Except.ok.inj (hi.symm.trans hi')
    obtain ⟨offset, op, operand⟩ := i
    cases haddr
    have hwp : MachineM.wp (MachineM.stepInstr env ⟨offset, op, .var addr⟩)
        (fun _ s' => s.ChangesOnly addr s') (fun _ _ => True) { s with steps := s.steps + 1 } :=
      (MachineM.wp_bind _ _).mpr
        (MachineM.wp_stepVar_changesOnly op addr { s with steps := s.steps + 1 })
    exact MachineM.wp_of_ok (Q := fun _ s' => s.ChangesOnly addr s') hwp hstep
  | call hi' hid =>
    obtain rfl := Except.ok.inj (hi.symm.trans hi')
    cases haddr.symm.trans hid
  | ret hi' hop =>
    obtain rfl := Except.ok.inj (hi.symm.trans hi')
    have hkind := (Code.decodeAt_cases hi).2.1
    rw [haddr, hop] at hkind
    cases hkind

/-! ## A slot of one frame -/

/-- Where the machine has found a variable. -/
theorem State.exists_base {addr : VarAddr} {n : Nat} (h : s.slotIndex addr = .ok n) :
    ∃ b, s.instances[addr.scope.toNat]?.bind List.head? = some b ∧ n = b + addr.slot.toNat ∧
      n < s.vars.size := by
  unfold slotIndex at h
  split at h
  · cases h
  · rename_i b hb
    dsimp only at h
    split at h
    · cases h
      exact ⟨b, hb, rfl, ‹_›⟩
    · cases h

/-- `n` is where a frame has the variable at `addr`, as one of its own. -/
def Frame.Has (e : Executable) (frame : Frame) (addr : VarAddr) (n : Nat) : Prop :=
  ∃ r l, e.routine? frame.function = some r ∧ r.lastPlace? addr.scope = some l ∧
    addr.slot.toNat < l.size ∧ n = frame.varsBase + l.base + addr.slot.toNat

namespace Executable.LaidOut

variable {e : Executable} {frame : Frame} {k n : Nat} {addr addr' : VarAddr}

/-- The variables of a frame are among its own. -/
theorem within_of_has (he : e.LaidOut declared) (h : frame.Has e addr n) :
    ∃ r, e.routine? frame.function = some r ∧ frame.varsBase ≤ n ∧
      n < frame.varsBase + r.locals := by
  obtain ⟨r, l, hr, hl, hlt, rfl⟩ := h
  have := he.within r (mem_of_routine? hr) l (Routine.mem_of_lastPlace? hl).1
  exact ⟨r, hr, by omega, by omega⟩

/-- Two variables of one frame have two slots. -/
theorem eq_of_has (he : e.LaidOut declared) (h : frame.Has e addr n) (h' : frame.Has e addr' n) :
    addr = addr' := by
  obtain ⟨r, l, hr, hl, hlt, rfl⟩ := h
  obtain ⟨r', l', hr', hl', hlt', heq⟩ := h'
  obtain rfl := Option.some.inj (hr.symm.trans hr')
  obtain ⟨hmem, hscope⟩ := Routine.mem_of_lastPlace? hl
  obtain ⟨hmem', hscope'⟩ := Routine.mem_of_lastPlace? hl'
  have hsame : l = l' := by
    by_contra hdiff
    have := he.disjoint (mem_of_routine? hr) hmem hmem' hdiff
    omega
  have hslot : addr.slot = addr'.slot := UInt16.toNat_inj.mp (by rw [hsame] at heq; omega)
  cases addr
  cases addr'
  exact congrArg₂ VarAddr.mk (hscope.symm.trans (hsame ▸ hscope')) hslot

/-- Two frames have no slot in common. -/
theorem eq_of_has_has (he : e.LaidOut declared) (hs : s.Kept e) {k' : Nat} {frame' : Frame}
    (hk : s.frames[k]? = some frame) (hk' : s.frames[k']? = some frame') (h : frame.Has e addr n)
    (h' : frame'.Has e addr' n) : k = k' := by
  obtain ⟨r, hr, hle, hlt⟩ := he.within_of_has h
  obtain ⟨r', hr', hle', hlt'⟩ := he.within_of_has h'
  rcases Nat.lt_trichotomy k k' with hkk | heq | hkk
  · have := hs.ordered hkk hk hk' hr'
    omega
  · exact heq
  · have := hs.ordered hkk hk' hk hr
    omega

end Executable.LaidOut

section Found

variable (he : env.exe.LaidOut declared) (hv : Visits env vars sink host c s) {addr addr' : VarAddr}
  {n : Nat}

include he hv

/-- A variable that the machine finds is one of an active frame. One that is not declared is the
innermost frame's, if it is that function's own. -/
theorem Executable.LaidOut.has_of_slotIndex (haddr : declared addr ∨ c.routine.Owns addr)
    (hn : s.slotIndex addr = .ok n) :
    ∃ (k : Nat) (frame : Frame), s.frames[k]? = some frame ∧ frame.Has env.exe addr n ∧
      (declared addr ∨ k = 0) := by
  obtain ⟨top, hhead, hr₀⟩ := routine_of_visits he.ids hv
  have htop : s.frames[0]? = some top := by rwa [← List.head?_eq_getElem?]
  obtain ⟨b, hb, rfl, -⟩ := State.exists_base hn
  obtain ⟨k, frame, r, l, hk, hr, hl, rfl, hnone⟩ := (kept_of_visits he.ids hv).exists_frame hb
  obtain ⟨hmem, hscope⟩ := Routine.mem_of_lastPlace? hl
  rcases haddr with hdecl | ⟨l₀, hl₀, hlt⟩
  · exact ⟨k, frame, hk, ⟨r, l, hr, hl, he.room r (mem_of_routine? hr) l hmem addr hdecl hscope.symm,
      rfl⟩, .inl hdecl⟩
  · cases k with
    | zero =>
      obtain rfl := Option.some.inj (htop.symm.trans hk)
      obtain rfl := Option.some.inj (hr.symm.trans hr₀)
      obtain rfl := Option.some.inj (hl.symm.trans hl₀)
      exact ⟨0, top, hk, ⟨_, l, hr, hl, hlt, rfl⟩, .inr rfl⟩
    | succ k => cases (hnone 0 (Nat.succ_pos k) top _ htop hr₀).symm.trans hl₀

/-- At a place the machine finds one variable. -/
theorem Executable.LaidOut.eq_of_slotIndex (haddr : declared addr ∨ c.routine.Owns addr)
    (haddr' : declared addr' ∨ c.routine.Owns addr') (hn : s.slotIndex addr = .ok n)
    (hn' : s.slotIndex addr' = .ok n) : addr = addr' := by
  obtain ⟨k, frame, hk, hhas, -⟩ := he.has_of_slotIndex hv haddr hn
  obtain ⟨k', frame', hk', hhas', -⟩ := he.has_of_slotIndex hv haddr' hn'
  obtain rfl := he.eq_of_has_has (kept_of_visits he.ids hv) hk hk' hhas hhas'
  obtain rfl := Option.some.inj (hk.symm.trans hk')
  exact he.eq_of_has hhas hhas'

/-- The machine finds the own variables of the function that is running in the innermost frame. -/
theorem Executable.LaidOut.exists_has_of_owns (h : c.routine.Owns addr) : ∃ top n,
    s.frames.head? = some top ∧ top.Has env.exe addr n ∧ s.slotIndex addr = .ok n := by
  obtain ⟨top, htop, hr⟩ := routine_of_visits he.ids hv
  have hs := kept_of_visits he.ids hv
  obtain ⟨l, hl, hlt⟩ := h
  obtain ⟨hmem, hscope⟩ := Routine.mem_of_lastPlace? hl
  obtain ⟨base, hframes⟩ := List.head?_eq_some_iff.mp htop
  have hwithin := he.within c.routine (mem_of_routine? hr) l hmem
  have hroom : addr.scope.toNat < s.instances.size := by
    rw [hs.size_instances, ← hscope]
    exact he.scopes c.routine (mem_of_routine? hr) l hmem
  have hsize := hs.stop_le (k := 0) (by rw [hframes]; rfl) hr
  have hhead : s.instances[addr.scope.toNat]?.bind List.head? = some (top.varsBase + l.base) := by
    unfold State.Kept at hs
    rw [hframes] at hs
    generalize s.instances = instances at hs hroom ⊢
    generalize s.vars.size = size at hs
    cases hs with
    | @cons _ _ r' instances hr' _ =>
      obtain rfl := Option.some.inj (hr.symm.trans hr')
      rw [size_enterInstances] at hroom
      rw [head?_enterInstances, Array.getElem?_eq_getElem hroom, Option.bind_some, hl]
      rfl
  refine ⟨top, top.varsBase + l.base + addr.slot.toNat, htop, ⟨c.routine, l, hr, hl, hlt, rfl⟩, ?_⟩
  rw [State.slotIndex, hhead]
  exact if_pos (by omega)

theorem Executable.LaidOut.exists_slotIndex (h : c.routine.Owns addr) :
    ∃ n, s.slotIndex addr = .ok n := by
  obtain ⟨-, n, -, -, hn⟩ := he.exists_has_of_owns hv h
  exact ⟨n, hn⟩

end Found

/-- The instruction at the cursor stores to the variable at `addr`, and means the place `n`. -/
def Assigns (c : Cursor) (s : State σ) (addr : VarAddr) (n : Nat) : Prop :=
  ∃ i, c.routine.code.decodeAt c.ip = .ok i ∧ i.op.isStore = true ∧ i.operand = .var addr ∧
    s.slotIndex addr = .ok n

theorem Code.exists_addr_of_isStore {c : Code} {offset : Nat} {i : Instr}
    (hi : c.decodeAt offset = .ok i) (h : i.op.isStore = true) : ∃ addr, i.operand = .var addr := by
  have hkind := (Code.decodeAt_cases hi).2.1
  obtain ⟨_, op, operand⟩ := i
  cases op <;> cases h <;> cases operand <;> cases hkind <;> exact ⟨_, rfl⟩

/-- **A slot changes only where it is assigned to under its own name**, as long as its frame is
there. -/
theorem Advances.place_kept (he : env.exe.LaidOut declared) (ha : Advances env c s c' s')
    (hv : Visits env vars sink host c s) {k : Nat} {frame : Frame} (hk : s.frames[k]? = some frame)
    (hstays : s.frames.length ≤ s'.frames.length + k) {addr : VarAddr} {n : Nat}
    (hn : frame.Has env.exe addr n) (hspare : ¬ Assigns c s addr n) :
    s'.vars[n]? = s.vars[n]? := by
  have hkept := kept_of_visits he.ids hv
  obtain ⟨top, hhead, hroutine⟩ := routine_of_visits he.ids hv
  obtain ⟨r, hr, -, hlt⟩ := he.within_of_has hn
  have hsize : n < s.vars.size := Nat.lt_of_lt_of_le hlt (hkept.stop_le hk hr)
  cases ha with
  | @next i ip _ hi hstep =>
    by_cases hstore : i.op.isStore = true
    · obtain ⟨addr', haddr⟩ := Code.exists_addr_of_isStore hi hstore
      obtain ⟨n', hn', hothers⟩ := (Advances.next hi hstep).changesOnly hi haddr
      refine hothers n ?_
      rintro rfl
      have hnames := (he.operand (mem_of_routine? hroutine) (onJoints_of_visits he hv).cursor hi).1
        addr' haddr
      obtain ⟨k', frame', hk', hhas, -⟩ := he.has_of_slotIndex hv hnames hn'
      obtain rfl := he.eq_of_has_has hkept hk hk' hn hhas
      obtain rfl := Option.some.inj (hk.symm.trans hk')
      obtain rfl := he.eq_of_has hn hhas
      exact hspare ⟨i, hi, hstore, haddr, hn'⟩
    · rw [vars_of_stepInstr hstore hstep]
  | @call i id r' hi hid hr' hfits =>
    obtain ⟨frames, hframes⟩ := List.head?_eq_some_iff.mp hhead
    simp only [State.entered, paused_of_frames (s := { s with steps := s.steps + 1 }) hframes,
      Array.getElem?_append_left hsize]
  | @ret i frame' caller frames r' hi hop hframes hr' _ =>
    rw [hframes] at hstays hk
    simp only [State.left, List.length_cons] at hstays
    have hfirst : s.frames[0]? = some frame' := by rw [hframes]; rfl
    have := hkept.ordered (by omega : 0 < k) hfirst (hframes ▸ hk) hr
    exact getElem?_shrink (Nat.lt_of_lt_of_le hlt this)

end StackLang
