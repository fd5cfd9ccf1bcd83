import StackLang.Proofs.Machine.Parts

/-!
# What happens above a frame

`Above env depth c s c' s'` is a run from one instruction to another with more than `depth` frames
throughout: the run of a function and of everything it calls. The frames below stay as they are, and so
does the frame of the function itself but for where it goes on (`Above.frame`). If the parts of the
frames lie one above the other, so do the operands below its part (`Above.operands`).
-/

namespace StackLang

open RunM

variable {σ : Type} {env : Env σ} {vars : List HostVar} {sink : Sink} {host : σ}

/-- A run from one instruction to another that has more than `depth` frames throughout. -/
inductive Above (env : Env σ) (depth : Nat) (c : Cursor) (s : State σ) : Cursor → State σ → Prop
  | here (h : depth < s.frames.length) : Above env depth c s c s
  | step {c' c'' : Cursor} {s' s'' : State σ} (hin : Above env depth c s c' s')
      (ha : advance env c' s' = .ok (some c'') s'') (h : depth < s''.frames.length) :
      Above env depth c s c'' s''

theorem Above.visits {depth : Nat} {c c' : Cursor} {s s' : State σ}
    (h : Above env depth c s c' s') (hv : Visits env vars sink host c s) :
    Visits env vars sink host c' s' := by
  induction h with
  | here _ => exact hv
  | step _ ha _ ih => exact ih.advance ha

/-! ## Frames -/

/-- A frame above some others stays while there are more frames than those, but for where its
function goes on. -/
theorem Advances.frame_above {c c' : Cursor} {s s' : State σ} (h : Advances env c s c' s')
    {upper base : List Frame} {frame : Frame} (hframes : s.frames = upper ++ frame :: base)
    (hlen : base.length < s'.frames.length) :
    ∃ upper' ip, s'.frames = upper' ++ { frame with returnIp := ip } :: base := by
  cases h with
  | next hi hstep =>
    exact ⟨upper, frame.returnIp, (framed_of_stepInstr hstep).frames.trans hframes⟩
  | @call i id r hi hid hr hfits =>
    cases upper with
    | nil =>
      exact ⟨[_], i.next, frames_entered_paused (s := { s with steps := s.steps + 1 }) hframes i.next⟩
    | cons first upper =>
      exact ⟨_ :: { first with returnIp := i.next } :: upper, frame.returnIp,
        frames_entered_paused (s := { s with steps := s.steps + 1 }) hframes i.next⟩
  | ret hi hop hframes' hr _ =>
    cases upper with
    | nil =>
      obtain ⟨rfl, rfl⟩ := List.cons.inj (hframes.symm.trans hframes')
      exact absurd hlen (Nat.lt_irrefl _)
    | cons first upper =>
      obtain ⟨rfl, hrest⟩ := List.cons.inj (hframes.symm.trans hframes')
      exact ⟨upper, frame.returnIp, hrest.symm⟩

theorem Above.frame {c c' : Cursor} {s s' : State σ} {upper base : List Frame} {frame : Frame}
    (h : Above env base.length c s c' s') (hframes : s.frames = upper ++ frame :: base) :
    ∃ upper' ip, s'.frames = upper' ++ { frame with returnIp := ip } :: base := by
  induction h with
  | here _ => exact ⟨upper, frame.returnIp, hframes⟩
  | step _ ha hlen ih =>
    obtain ⟨upper', ip, hframes'⟩ := ih
    obtain ⟨upper'', ip', hframes''⟩ := (advances_of_advance ha).frame_above hframes' hlen
    exact ⟨upper'', ip', hframes''⟩

theorem frames_ne_nil_of_visits {c : Cursor} {s : State σ} (hv : Visits env vars sink host c s) :
    s.frames ≠ [] := by
  induction hv with
  | start h =>
    rw [(started h).framed.frames]
    exact List.cons_ne_nil _ _
  | advance _ h ih =>
    cases advances_of_advance h with
    | next hi hstep => rwa [(framed_of_stepInstr hstep).frames]
    | call => exact List.cons_ne_nil _ _
    | ret => exact List.cons_ne_nil _ _

/-! ## Operands -/

/-- What lies below the part of a function is still there, whatever the function has done and
called. -/
theorem Above.operands {c c' : Cursor} {s s' : State σ} {upper base : List Frame} {frame : Frame}
    (h : Above env base.length c s c' s') (hframes : s.frames = upper ++ frame :: base)
    (hv : Visits env vars sink host c s)
    (hargs : ∀ c s, Visits env vars sink host c s → FindsArguments env c s) :
    ∀ k < frame.stackBase, ∀ v, s.stack[k]? = some v → s'.stack[k]? = some v := by
  induction h with
  | here _ => exact fun _ _ _ hv => hv
  | @step c' c'' s' s'' hin ha _ ih =>
    intro k hk v hkv
    obtain ⟨upper', ip, hframes'⟩ := hin.frame hframes
    have hmem : { frame with returnIp := ip } ∈ s'.frames := by
      rw [hframes']
      exact List.mem_append_right _ List.mem_cons_self
    have hbase := (stacked_of_visits hargs (hin.visits hv)).le_frameBase hmem
    have hbelow := wpRun_of_ok (keepsBelow_of_advance env c' s') ha
    exact hbelow k (Nat.lt_of_lt_of_le hk hbase) v (ih k hk v hkv)

/-! ## A call and its return -/

/-- A call at `i` in state `s`, which enters the function `r` in state `s₁`, the return of `r` in state
`s₂`, and the state `s₃` in which the caller goes on. -/
structure Returns (env : Env σ) (i : Instr) (s s₁ s₂ s₃ : State σ) (c₂ c₃ : Cursor) (id : UInt16)
    (r : Routine) (frame caller : Frame) (frames : List Frame) : Prop where
  operand : i.operand = .function id
  callee : env.exe.routine? id = some r
  fits : r.arity ≤ s.stack.size
  before : s.frames = caller :: frames
  function : frame.function = r.id
  base : frame.stackBase = s.stack.size - r.arity
  entry : s₁.frames = { frame with returnIp := 0 } :: { caller with returnIp := i.next } :: frames
  handed : s₁.stack = s.stack
  inside : s₂.frames = frame :: { caller with returnIp := i.next } :: frames
  value : c₂.routine.returnsValue = true → frame.stackBase < s₂.stack.size
  resumed : env.exe.routine? caller.function = some c₃.routine ∧ c₃.ip = i.next
  left : s₃ = ({ s₂ with steps := s₂.steps + 1 } : State σ).left c₂.routine frame
    ({ caller with returnIp := i.next } :: frames)

/-- What a call and the return of the function that it called have to do with each other. -/
theorem returns_of_above {c c₁ c₂ c₃ : Cursor} {s s₁ s₂ s₃ : State σ} {i i₂ : Instr}
    (hne : s.frames ≠ []) (hi : c.routine.code.decodeAt c.ip = .ok i) (hcall : i.op = .call)
    (hentry : advance env c s = .ok (some c₁) s₁)
    (hin : Above env s.frames.length c₁ s₁ c₂ s₂) (hlen : s₂.frames.length = s.frames.length + 1)
    (hi₂ : c₂.routine.code.decodeAt c₂.ip = .ok i₂) (hret : i₂.op = .ret)
    (hleave : advance env c₂ s₂ = .ok (some c₃) s₃) :
    ∃ id r frame caller frames, Returns env i s s₁ s₂ s₃ c₂ c₃ id r frame caller frames := by
  obtain ⟨caller, frames, hframes⟩ := List.exists_cons_of_ne_nil hne
  obtain ⟨id, r, hid, hr, rfl, rfl⟩ := (advances_of_advance hentry).of_call hi hcall
  obtain ⟨-, hhanded, hfits⟩ := handed_of_call hi hid hr hentry
  -- the frame of the caller, which has noted where to go on, stays below that of the callee
  have hdepth : s.frames.length = ({ caller with returnIp := i.next } :: frames).length := by
    rw [hframes, List.length_cons, List.length_cons]
  rw [hdepth] at hin hlen
  have hentry₁ := frames_entered_paused (s := { s with steps := s.steps + 1 }) (r := r) hframes i.next
  obtain ⟨upper, ip, hinside⟩ := hin.frame (show _ = [] ++ _ :: _ from hentry₁)
  obtain rfl : upper = [] := by
    rw [hinside, List.length_append, List.length_cons] at hlen
    exact List.eq_nil_of_length_eq_zero (by omega)
  obtain ⟨frame, caller', frames', r', hframes', hr', rfl, hvalue, rfl⟩ :=
    (advances_of_advance hleave).of_ret hi₂ hret
  obtain ⟨rfl, hbelow⟩ := List.cons.inj (hinside.symm.trans hframes')
  obtain ⟨rfl, rfl⟩ := List.cons.inj hbelow
  exact ⟨id, r, _, caller, frames, hid, hr, by omega, hframes, rfl, by simp, hentry₁, hhanded,
    hframes', hvalue, ⟨hr', rfl⟩, rfl⟩

end StackLang
