import StackLang.Proofs.Machine.Places

/-!
# From one place in the code of a function to another

`Passes env quiet r a b t s s'`: an active function `r` goes on from `a`, by its code up to `b` and by
what this calls, and control comes to `t` in the same activation, with `quiet` of every state in which
there was an instruction to execute. The activations around it are then the same as before, so names
mean the same places (`Passes.slotIndex_eq`). A slot of one of them keeps what it holds if nobody assigns
to it (`Passes.place_kept`); and where the code spares a slot of the function's own, nobody does
(`Passes.spares`).
-/

namespace StackLang

open RunM
open Executable

variable {σ : Type} {env : Env σ} {vars : List HostVar} {sink : Sink} {host : σ}
  {c c' c'' : Cursor} {s s' s'' : State σ} {declared : VarAddr → Prop}
  {quiet quiet' : Cursor → State σ → Prop} {height a b t : Nat}

/-! ## The outermost frames -/

/-- A frame, wherever it goes on. -/
def Frame.resting (frame : Frame) : Frame := { frame with returnIp := 0 }

/-- The outermost frames, wherever they go on. -/
def State.outer (s : State σ) (height : Nat) : List Frame :=
  (s.frames.map Frame.resting).drop (s.frames.length - height)

theorem State.outer_length (s : State σ) : s.outer s.frames.length = s.frames.map Frame.resting := by
  rw [outer, Nat.sub_self, List.drop_zero]

/-- A frame among the outermost. -/
theorem State.exists_of_outer {k : Nat} {frame : Frame} (h : (s.outer height)[k]? = some frame) :
    ∃ frame', s.frames[s.frames.length - height + k]? = some frame' ∧ frame'.resting = frame := by
  rwa [outer, List.getElem?_drop, List.getElem?_map, Option.map_eq_some_iff] at h

/-- One more frame further in makes no difference. -/
theorem State.outer_of_cons {inner : Frame} {frames : List Frame} (h : s'.frames = inner :: frames)
    (hrest : frames.map Frame.resting = s.frames.map Frame.resting)
    (hle : height ≤ s.frames.length) : s'.outer height = s.outer height := by
  have hlen : frames.length = s.frames.length := by simpa using congrArg List.length hrest
  rw [outer, outer, h, List.map_cons, List.length_cons, hrest, hlen, Nat.succ_sub hle,
    List.drop_succ_cons]

/-- Calls and returns further in leave the outermost frames alone. -/
theorem Advances.outer (ha : Advances env c s c' s') {frame : Frame}
    (hhead : s.frames.head? = some frame) (hle : height ≤ s.frames.length)
    (hle' : height ≤ s'.frames.length) : s'.outer height = s.outer height := by
  obtain ⟨frames, hframes⟩ := List.head?_eq_some_iff.mp hhead
  cases ha with
  | next hi hstep => rw [State.outer, State.outer, (framed_of_stepInstr hstep).frames]
  | @call i id r hi hid hr hfits =>
    refine State.outer_of_cons
      (frames_entered_paused (s := { s with steps := s.steps + 1 }) hframes i.next) ?_ hle
    rw [hframes]
    rfl
  | @ret i frame' caller frames' r hi hop hframes' hr _ =>
    symm
    exact State.outer_of_cons hframes' rfl hle'

namespace Executable.Holds

variable {e : Executable} {frames : List Frame} {size : Nat} {instances : Array (List Nat)}

/-- Where frames are to go on does not matter. -/
theorem resting (h : e.Holds frames size instances) :
    e.Holds (frames.map Frame.resting) size instances := by
  induction h with
  | nil => exact .nil
  | @cons frame frames r instances hr _ ih => exact @Holds.cons e frame.resting _ _ _ hr ih

end Executable.Holds

/-- With the same active functions every name means the same place. -/
theorem State.Kept.slotIndex_eq {e : Executable} (hs : s.Kept e) (hs' : s'.Kept e)
    (h : s'.frames.map Frame.resting = s.frames.map Frame.resting) (addr : VarAddr) :
    s'.slotIndex addr = s.slotIndex addr := by
  have hresting := Holds.resting hs'
  rw [h] at hresting
  obtain ⟨hsize, hinstances⟩ := hresting.unique (Holds.resting hs)
  unfold slotIndex
  rw [hsize, hinstances]

/-! ## Crossing a part of the code -/

/-- Control goes on, `quiet` in every state in which there was an instruction to execute. The frames do
not become fewer than `height`; the function of the innermost of these executes only its code from `a`
up to `b`. -/
inductive Crosses (env : Env σ) (quiet : Cursor → State σ → Prop) (height a b : Nat) :
    Cursor → State σ → Cursor → State σ → Prop
  | here {c : Cursor} {s : State σ} : Crosses env quiet height a b c s c s
  | step {c c' c'' : Cursor} {s s' s'' : State σ}
      (hin : s.frames.length = height → a ≤ c.ip ∧ c.ip < b) (hq : quiet c s)
      (ha : advance env c s = .ok (some c') s') (hle : height ≤ s'.frames.length)
      (h : Crosses env quiet height a b c' s' c'' s'') : Crosses env quiet height a b c s c'' s''

namespace Crosses

theorem mono (h : Crosses env quiet height a b c s c' s') (hq : ∀ c s, quiet c s → quiet' c s) :
    Crosses env quiet' height a b c s c' s' := by
  induction h with
  | here => exact .here
  | step hin h ha hle _ ih => exact .step hin (hq _ _ h) ha hle ih

theorem trans (h : Crosses env quiet height a b c s c' s')
    (h' : Crosses env quiet height a b c' s' c'' s'') : Crosses env quiet height a b c s c'' s'' := by
  induction h with
  | here => exact h'
  | step hin hq ha hle _ ih => exact .step hin hq ha hle (ih h')

/-- More of the code may be executed. -/
theorem widen (h : Crosses env quiet height a b c s c' s') {a' b' : Nat} (ha : a' ≤ a)
    (hb : b ≤ b') : Crosses env quiet height a' b' c s c' s' := by
  induction h with
  | here => exact .here
  | step hin hq hstep hle _ ih =>
    refine .step (fun hlen => ?_) hq hstep hle ih
    obtain ⟨hfrom, hto⟩ := hin hlen
    exact ⟨Nat.le_trans ha hfrom, Nat.lt_of_lt_of_le hto hb⟩

theorem visits (h : Crosses env quiet height a b c s c' s') (hv : Visits env vars sink host c s) :
    Visits env vars sink host c' s' := by
  induction h with
  | here => exact hv
  | step _ _ ha _ _ ih => exact ih (hv.advance ha)

theorem outer (hids : env.exe.IdsArePlaces) (h : Crosses env quiet height a b c s c' s')
    (hv : Visits env vars sink host c s) (hle : height ≤ s.frames.length) :
    s'.outer height = s.outer height := by
  induction h with
  | here => rfl
  | step _ _ ha hle' _ ih =>
    obtain ⟨frame, hhead, -⟩ := routine_of_visits hids hv
    exact (ih (hv.advance ha) hle').trans ((advances_of_advance ha).outer hhead hle hle')

/-- Where control comes to behind the code is settled. -/
theorem unique (h : Crosses env quiet height a b c s c' s')
    (h' : Crosses env quiet' height a b c s c'' s'') (hend : s'.frames.length = height)
    (hout : ¬ (a ≤ c'.ip ∧ c'.ip < b)) (hend' : s''.frames.length = height)
    (hout' : ¬ (a ≤ c''.ip ∧ c''.ip < b)) : c' = c'' ∧ s' = s'' := by
  induction h with
  | here =>
    cases h' with
    | here => exact ⟨rfl, rfl⟩
    | step hin => exact absurd (hin hend) hout
  | step hin _ ha _ _ ih =>
    cases h' with
    | here => exact absurd (hin hend') hout'
    | step _ _ ha' _ h' =>
      cases ha.symm.trans ha'
      exact ih h' hend hout

/-- What nobody assigns to stays. -/
theorem place_kept (he : env.exe.LaidOut declared) (h : Crosses env quiet height a b c s c' s')
    (hv : Visits env vars sink host c s) (hle : height ≤ s.frames.length) {k n : Nat}
    {frame : Frame} {addr : VarAddr} (hk : (s.outer height)[k]? = some frame)
    (hn : frame.Has env.exe addr n) (hquiet : ∀ c s, quiet c s → ¬ Assigns c s addr n) :
    s'.vars[n]? = s.vars[n]? := by
  induction h with
  | here => rfl
  | @step c c' _ s s' _ _ hq ha hle' _ ih =>
    obtain ⟨top, hhead, -⟩ := routine_of_visits he.ids hv
    have hadvances := advances_of_advance ha
    have hrest := ih (hv.advance ha) hle' ((hadvances.outer hhead hle hle').symm ▸ hk)
    obtain ⟨frame', hk', rfl⟩ := State.exists_of_outer hk
    exact hrest.trans (hadvances.place_kept he hv hk' (by omega) hn (hquiet c s hq))

end Crosses

/-! ## Code that spares a slot -/

/-- The innermost of the outermost `height` frames is one of `r`, which is between two of its
instructions from `a` to `b`. -/
inductive Between (env : Env σ) (r : Routine) (height a b : Nat) (c : Cursor) (s : State σ) : Prop
  | own {frame : Frame} {base : List Frame} (hframes : s.frames = frame :: base)
      (hheight : base.length + 1 = height) (hr : env.exe.routine? frame.function = some r)
      (hip : r.code.Joint a b c.ip) : Between env r height a b c s
  | callee {inner frame : Frame} (upper : List Frame) {base : List Frame}
      (hframes : s.frames = inner :: (upper ++ frame :: base)) (hheight : base.length + 1 = height)
      (hr : env.exe.routine? frame.function = some r) (hip : r.code.Joint a b frame.returnIp) :
      Between env r height a b c s

variable {r : Routine} {addr : VarAddr} {n : Nat}

/-- Control stays between the instructions of code that no branch leaves. -/
theorem Advances.between (ha : Advances env c s c' s') (hids : env.exe.IdsArePlaces)
    (hv : Visits env vars sink host c s) (hspares : r.code.Spares addr a b)
    (hin : s.frames.length = height → a ≤ c.ip ∧ c.ip < b) (hle : height ≤ s'.frames.length)
    (h : Between env r height a b c s) : Between env r height a b c' s' := by
  obtain ⟨top, hhead, hroutine⟩ := routine_of_visits hids hv
  cases h with
  | @own frame base hframes hheight hr hip =>
    obtain rfl : frame = top := by simpa [hframes] using hhead
    obtain rfl := Option.some.inj (hroutine.symm.trans hr)
    have hne : c.ip ≠ b := Nat.ne_of_lt (hin (by simp [hframes, hheight])).2
    cases ha with
    | @next i ip _ hi hstep =>
      refine .own ((framed_of_stepInstr hstep).frames.trans hframes) hheight hr ?_
      rcases MachineM.next_of_stepInstr hstep with rfl | htarget
      · exact hip.next hne hi
      · obtain ⟨line, hline, hall⟩ := hspares
        exact (hall _ (hip.mem_line hne hi hline)).2 ip htarget
    | @call i id r' hi hid hr' hfits =>
      have hentered := frames_entered_paused (s := { s with steps := s.steps + 1 }) (r := r') hframes
        i.next
      exact .callee [] hentered hheight hr
        (hip.next hne hi)
    | @ret i frame' caller frames r' hi hop hframes' hr' _ =>
      rw [hframes'] at hframes
      obtain ⟨rfl, rfl⟩ := List.cons.inj hframes
      simp only [State.left, List.length_cons] at hle hheight
      omega
  | @callee inner frame upper base hframes hheight hr hip =>
    cases ha with
    | @next i ip _ hi hstep =>
      exact .callee upper ((framed_of_stepInstr hstep).frames.trans hframes) hheight hr hip
    | @call i id r' hi hid hr' hfits =>
      have hentered := frames_entered_paused (s := { s with steps := s.steps + 1 }) (r := r') hframes
        i.next
      exact .callee ({ inner with returnIp := i.next } :: upper) hentered hheight hr hip
    | @ret i frame' caller frames r' hi hop hframes' hr' _ =>
      rw [hframes'] at hframes
      obtain ⟨rfl, hrest⟩ := List.cons.inj hframes
      cases upper with
      | nil =>
        obtain ⟨rfl, rfl⟩ := List.cons.inj hrest
        exact .own rfl hheight hr hip
      | cons inner upper => exact .callee upper hrest hheight hr hip

/-- The own slot of an activation that its code spares is assigned to by nobody. -/
theorem Between.not_assigns (h : Between env r height a b c s) (he : env.exe.LaidOut declared)
    (hv : Visits env vars sink host c s) (hspares : r.code.Spares addr a b)
    (hin : s.frames.length = height → a ≤ c.ip ∧ c.ip < b) (hhidden : ¬ declared addr)
    {frame : Frame} (hk : (s.outer height)[0]? = some frame) (hn : frame.Has env.exe addr n) :
    ¬ Assigns c s addr n := by
  rintro ⟨i, hi, -, haddr, hindex⟩
  have hkept := kept_of_visits he.ids hv
  obtain ⟨top, hhead, hroutine⟩ := routine_of_visits he.ids hv
  have hnames := (he.operand (mem_of_routine? hroutine) (onJoints_of_visits he hv).cursor hi).1 addr
    haddr
  obtain ⟨k, frame', hk', hn', hzero⟩ := he.has_of_slotIndex hv hnames hindex
  obtain ⟨own, hown, rfl⟩ := State.exists_of_outer hk
  have hheight := he.eq_of_has_has hkept hown hk' hn hn'
  obtain rfl := hzero.resolve_left hhidden
  cases h with
  | @own frame base hframes hlen hr hip =>
    obtain rfl : frame = top := by simpa [hframes] using hhead
    obtain rfl := Option.some.inj (hroutine.symm.trans hr)
    have hne : c.ip ≠ b := Nat.ne_of_lt (hin (by simp [hframes, hlen])).2
    obtain ⟨line, hline, hall⟩ := hspares
    exact (hall _ (hip.mem_line hne hi hline)).1 haddr
  | callee _ hframes hlen _ _ =>
    simp only [hframes, List.length_cons, List.length_append] at hheight
    omega

theorem Crosses.spares (he : env.exe.LaidOut declared) (h : Crosses env quiet height a b c s c' s')
    (hv : Visits env vars sink host c s) (hle : height ≤ s.frames.length)
    (hspares : r.code.Spares addr a b) (hhidden : ¬ declared addr)
    (hinside : Between env r height a b c s) {frame : Frame}
    (hk : (s.outer height)[0]? = some frame) (hn : frame.Has env.exe addr n) :
    Crosses env (fun c s => ¬ Assigns c s addr n) height a b c s c' s' := by
  induction h with
  | here => exact .here
  | step hin _ ha hle' _ ih =>
    obtain ⟨top, hhead, -⟩ := routine_of_visits he.ids hv
    have hadvances := advances_of_advance ha
    exact .step hin (hinside.not_assigns he hv hspares hin hhidden hk hn) ha hle'
      (ih (hv.advance ha) hle' (hadvances.between he.ids hv hspares hin hle' hinside)
        ((hadvances.outer hhead hle hle').symm ▸ hk))

/-! ## From one place to another -/

/-- An active function `r` goes on from `a` by its code up to `b`, and control comes to `t` in the same
activation, which then has its part of the stack. -/
structure Passes (env : Env σ) (quiet : Cursor → State σ → Prop) (r : Routine) (a b t : Nat)
    (s s' : State σ) : Prop where
  run : Crosses env quiet s.frames.length a b ⟨r, a⟩ s ⟨r, t⟩ s'
  height : s'.frames.length = s.frames.length
  base : s'.frameBase ≤ s'.stack.size

namespace Passes

theorem mono (h : Passes env quiet r a b t s s') (hq : ∀ c s, quiet c s → quiet' c s) :
    Passes env quiet' r a b t s s' :=
  ⟨h.run.mono hq, h.height, h.base⟩

/-- One instruction that neither calls nor returns. -/
theorem one (ha : advance env ⟨r, a⟩ s = .ok (some ⟨r, t⟩) s') (hab : a < b)
    (hlen : s'.frames.length = s.frames.length) (hbase : s'.frameBase ≤ s'.stack.size) :
    Passes env (fun _ _ => True) r a b t s s' :=
  ⟨.step (fun _ => ⟨Nat.le_refl _, hab⟩) trivial ha (Nat.le_of_eq hlen.symm) .here, hlen, hbase⟩

/-- What has become of the state behind the code is settled. -/
theorem unique (h : Passes env quiet r a b t s s') (h' : Passes env quiet' r a b t s s'')
    (ht : ¬ (a ≤ t ∧ t < b)) : s' = s'' :=
  (h.run.unique h'.run h.height ht h'.height ht).2

theorem visits (h : Passes env quiet r a b t s s') (hv : Visits env vars sink host ⟨r, a⟩ s) :
    Visits env vars sink host ⟨r, t⟩ s' :=
  h.run.visits hv

variable (hids : env.exe.IdsArePlaces)

include hids

theorem frames_eq (h : Passes env quiet r a b t s s') (hv : Visits env vars sink host ⟨r, a⟩ s) :
    s'.frames.map Frame.resting = s.frames.map Frame.resting := by
  rw [← s'.outer_length, ← s.outer_length, h.height]
  exact h.run.outer hids hv (Nat.le_refl _)

theorem slotIndex_eq (h : Passes env quiet r a b t s s')
    (hv : Visits env vars sink host ⟨r, a⟩ s) (addr : VarAddr) :
    s'.slotIndex addr = s.slotIndex addr :=
  (kept_of_visits hids hv).slotIndex_eq (kept_of_visits hids (h.visits hv)) (h.frames_eq hids hv) addr

omit hids

variable (he : env.exe.LaidOut declared)

include he

/-- The place of a variable that has one keeps what it holds if nobody assigns to it. -/
theorem place_kept (h : Passes env quiet r a b t s s') (hv : Visits env vars sink host ⟨r, a⟩ s)
    (haddr : declared addr ∨ r.Owns addr) (hn : s.slotIndex addr = .ok n)
    (hquiet : ∀ c s, quiet c s → ¬ Assigns c s addr n) : s'.vars[n]? = s.vars[n]? := by
  obtain ⟨k, frame, hk, hhas, -⟩ := he.has_of_slotIndex hv haddr hn
  have houter : (s.outer s.frames.length)[k]? = some frame.resting := by
    rw [s.outer_length, List.getElem?_map, hk]
    rfl
  exact h.run.place_kept he hv (Nat.le_refl _) houter hhas hquiet

/-- Nobody assigns to an own slot of the activation that the code spares. -/
theorem spares (h : Passes env quiet r a b t s s') (hv : Visits env vars sink host ⟨r, a⟩ s)
    (hspares : r.code.Spares addr a b) (howns : r.Owns addr) (hhidden : ¬ declared addr)
    (hn : s.slotIndex addr = .ok n) : Passes env (fun c s => ¬ Assigns c s addr n) r a b t s s' := by
  obtain ⟨top, hhead, hroutine⟩ := routine_of_visits he.ids hv
  obtain ⟨base, hframes⟩ := List.head?_eq_some_iff.mp hhead
  obtain ⟨k, frame, hk, hhas, hzero⟩ := he.has_of_slotIndex hv (.inr howns) hn
  obtain rfl := hzero.resolve_left hhidden
  have houter : (s.outer s.frames.length)[0]? = some frame.resting := by
    rw [s.outer_length, List.getElem?_map, hk]
    rfl
  obtain ⟨line, hline, -⟩ := id hspares
  refine ⟨h.run.spares he hv (Nat.le_refl _) hspares hhidden ?_ houter hhas, h.height, h.base⟩
  exact .own hframes (by simp [hframes]) hroutine hline.leads.joint_start

end Passes

end StackLang
