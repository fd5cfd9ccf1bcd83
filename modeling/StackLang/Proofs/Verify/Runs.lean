import StackLang.Proofs.Machine.Effects
import StackLang.Proofs.Verify.Tracks

/-!
# Runs of a verified executable

`OnPaths e c s` is the invariant of a run: it is on track, and every string has a text.
`onPaths_of_visits` shows it of every state of a run of a verified executable, and
`run_not_structural` that such a run never meets what verification is to rule out.
-/

namespace StackLang

open MachineM (wp)
open RunM

namespace Executable

/-- What an executable must be so that its runs stay on their paths. -/
structure Sound (e : Executable) : Prop where
  pool : e.strings.Sound
  ids : e.IdsArePlaces
  verified : e.verify = .ok ()
  top : ∀ r, e.top? = some r → r.arity = 0

/-- Every active function is on one of its paths, and every value is known. -/
structure OnPaths {σ : Type} (e : Executable) (c : Cursor) (s : State σ) : Prop where
  frames : OnTrack e c s
  known : s.KnownValues e

end Executable

open Executable

variable {σ : Type} {env : Env σ}

/-! ## One instruction -/

theorem State.knownValues_paused {e : Executable} {s : State σ} (h : s.KnownValues e)
    (ip : Nat) : (paused s ip).KnownValues e := by
  unfold paused
  split
  · exact h
  · exact ⟨h.stack, h.vars⟩

theorem State.knownValues_entered {e : Executable} {s : State σ} (h : s.KnownValues e)
    (r : Routine) : (s.entered r).KnownValues e := by
  refine ⟨h.stack, fun i v hv => ?_⟩
  simp only [State.entered, Array.getElem?_append] at hv
  split at hv
  · exact h.vars i v hv
  · simp [Array.getElem?_replicate] at hv

theorem State.knownValues_left {e : Executable} {s : State σ} (h : s.KnownValues e) (r : Routine)
    (frame : Frame) (frames : List Frame) : (s.left r frame frames).KnownValues e := by
  have hshrink : ∀ v ∈ s.stack.shrink frame.stackBase, s.Known e v := fun v hv => by
    rw [← Array.mem_toList_iff, Array.toList_shrink] at hv
    exact h.stack v (Array.mem_toList_iff.mp (List.mem_of_mem_take hv))
  refine ⟨fun v hv => ?_, fun i v hv => ?_⟩
  · simp only [State.left] at hv
    split at hv
    · rename_i w hw
      rcases Array.mem_push.mp hv with hv | rfl
      · exact hshrink v hv
      · split at hw
        · have hknown : s.Known e v := State.known_of_back? h hw
          exact hknown
        · cases hw
    · exact hshrink v hv
  · refine h.vars i v ?_
    simp only [State.left, ← Array.getElem?_toList, Array.toList_shrink,
      List.getElem?_take] at hv
    split at hv
    · simpa using hv
    · cases hv

/-- On the paths an instruction makes no string without a text, and raises no structural trap. -/
theorem wpRun_advance_known (he : env.exe.Sound) {c : Cursor} {s : State σ}
    (h : OnPaths env.exe c s) :
    wpRun (advance env c) (fun _ s' => s'.KnownValues env.exe)
      (fun fault _ => fault.trap.isStructural = false) s := by
  obtain ⟨frame, frames, hframes, hr, hbase, hpath, hsusp⟩ := h.frames
  obtain ⟨d, hd⟩ := verify_ok_iff.mp he.verified _ (mem_of_routine? hr)
  obtain ⟨i, after, hpass⟩ := passes_of_reaches hd hpath
  obtain ⟨effect, heffect, hpops, -⟩ := hpass.effect
  obtain ⟨-, hkind, -⟩ := Code.decodeAt_cases hpass.decode
  refine wp_advance ?_
  rw [MachineM.step, MachineM.wp_bind]
  refine MachineM.wp_tick (fun _ _ => rfl) (fun _ _ => rfl) ?_
  rw [hpass.decode]
  have hfb : frame.stackBase = State.frameBase { s with steps := s.steps + 1 } :=
    (State.frameBase_of_frames hframes).symm
  have hknown : State.KnownValues env.exe { s with steps := s.steps + 1 } :=
    ⟨h.known.stack, h.known.vars⟩
  refine MachineM.wp_mono (MachineM.wp_stepInstr he.pool hkind heffect ?_ hknown)
    (fun flow s' hflow => ?_) fun _ _ ht => ht
  · rw [← hfb]
    dsimp only
    omega
  cases flow with
  | next ip => exact hflow.1.known
  | halt =>
    obtain ⟨-, rfl⟩ := hflow
    exact hknown
  | call callee returnIp =>
    obtain ⟨hfun, rfl, hterm, rfl⟩ := hflow
    rw [hfun] at heffect
    simp only [effectOf] at heffect
    dsimp only
    refine wp_call (fun hnone => by rw [hnone] at heffect; cases heffect) fun callee' hcallee => ?_
    rw [hcallee] at heffect
    cases heffect
    refine MachineM.wp_enter (fun _ => rfl) (fun hlt => ?_) (fun _ _ _ _ => rfl) ?_
    · rw [paused_of_frames (s := { s with steps := s.steps + 1 }) hframes] at hlt
      dsimp only at hlt hpops
      omega
    · exact State.knownValues_entered (State.knownValues_paused hknown i.next) callee'
  | ret =>
    obtain ⟨-, rfl⟩ := hflow
    refine ⟨fun _ => hknown, fun hlen => ?_⟩
    refine MachineM.wp_leave (s := { s with steps := s.steps + 1 }) hframes (fun _ _ => rfl)
      fun _ => ?_
    cases hsusp with
    | bottom => simp [hframes] at hlen
    | caller hr' => exact wp_resume rfl hr' (State.knownValues_left hknown _ _ _)

/-- **One instruction stays on the paths**, and raises no structural trap. -/
theorem wpRun_advance_onPaths (he : env.exe.Sound) {c : Cursor} {s : State σ}
    (h : OnPaths env.exe c s) :
    wpRun (advance env c)
      (fun c'? s' => (∀ c', c'? = some c' → OnPaths env.exe c' s') ∧
        (c'? = none → s'.stack = s.stack ∧ s'.frames = s.frames) ∧ s'.KnownValues env.exe)
      (fun fault _ => fault.trap.isStructural = false) s := by
  have hwp := wpRun_advance_known he h
  refine wpRun_of_cases (fun c'? s' ha => ?_) fun fault s' ha => wpRun_of_error hwp ha
  have hknown := wpRun_of_ok hwp ha
  refine ⟨?_, ?_, hknown⟩
  · rintro c' rfl
    exact ⟨(advances_of_advance ha).onTrack he.ids he.verified h.frames, hknown⟩
  · rintro rfl
    rw [ended_of_advance ha]
    exact ⟨rfl, rfl⟩

/-! ## Whole runs -/

/-- Writing the host's variables leaves the stack and the frames alone. -/
theorem wp_bindVars_of {exe : Executable} {s : State σ} (hpool : exe.strings.Sound)
    (hs : s.KnownValues exe) (vars : List HostVar) :
    wp (bindVars exe vars) (fun _ s' => Moved exe ⟨0, 0⟩ s s')
      (fun trap _ => trap.isStructural = false) s := by
  induction vars generalizing s with
  | nil => exact Moved.refl hs
  | cons var vars ih =>
    rw [bindVars]
    cases topVar? exe var.name with
    | none => exact ih hs
    | some top =>
      simp only [MachineM.wp_bind, MachineM.wp_ite, MachineM.wp_throw]
      refine ⟨fun _ => rfl, fun _ => ?_⟩
      refine MachineM.wp_mono (MachineM.wp_ofHost_of hpool hs var.value top.ty)
        (fun v s₁ hof => ?_) fun _ _ h => h
      obtain ⟨h₁, hv⟩ := hof
      rw [MachineM.wp_slotIndex]
      cases hi : s₁.slotIndex top.addr with
      | error trap => exact State.slotIndex_not_structural hi
      | ok index =>
        have h₂ : Moved exe ⟨0, 0⟩ s
            { s₁ with vars := s₁.vars.setIfInBounds index (some v) } :=
          ⟨h₁.height, h₁.frames, h₁.instances, by simp [h₁.vars], h₁.overlay,
            h₁.known.setVar hv index⟩
        dsimp only
        rw [MachineM.wp_setVar]
        exact MachineM.wp_mono (ih h₂.known) (fun _ s' h => h₂.trans h rfl) fun _ _ h => h

theorem State.knownValues_initial (exe : Executable) (sink : Sink) (host : σ) :
    (initial exe sink host).KnownValues exe :=
  ⟨fun _ h => (nomatch h), fun _ _ h => (nomatch h)⟩

/-- Before the first instruction `<top>` is at its entry, with nothing on the stack. -/
theorem wp_start_onPaths (he : env.exe.Sound) (vars : List HostVar) (sink : Sink) (host : σ) :
    wp (start env vars) (OnPaths env.exe) (fun trap _ => trap.isStructural = false)
      (initial env.exe sink host) := by
  simp only [start, he.verified, ite_self]
  cases htop : env.exe.top? with
  | none => rfl
  | some r =>
    have harity := he.top r htop
    simp only [MachineM.wp_bind, MachineM.wp_pure]
    refine MachineM.wp_enter (fun _ => rfl) (fun h => by omega) (fun _ _ _ _ => rfl) ?_
    have hknown := State.knownValues_entered (State.knownValues_initial env.exe sink host) r
    refine MachineM.wp_mono (wp_bindVars_of he.pool hknown vars) (fun _ s' h => ?_)
      fun _ _ h => h
    refine ⟨⟨_, [], h.frames, he.ids.routine?_of_top? htop, ?_, ?_, .bottom⟩, h.known⟩
    · simp [initial]
    · have hheight : s'.stack.size = 0 := by simpa [State.entered, initial] using h.height
      have hentry : Reaches env.exe r 0 r.arity := .entry
      rw [harity] at hentry
      simpa only [hheight, Nat.zero_sub] using hentry

/-- **Every state of a run of a sound executable is on its paths.** -/
theorem onPaths_of_visits (he : env.exe.Sound) {vars : List HostVar} {sink : Sink} {host : σ}
    {c : Cursor} {s : State σ} (hv : Visits env vars sink host c s) : OnPaths env.exe c s := by
  induction hv with
  | start h => exact MachineM.wp_of_ok (wp_start_onPaths he vars sink host) h
  | advance _ h ih => exact (wpRun_of_ok (wpRun_advance_onPaths he ih) h).1 _ rfl

/-- A machine that is to verify runs only what it has verified. -/
theorem verify_of_visits {vars : List HostVar} {sink : Sink} {host : σ} {c : Cursor} {s : State σ}
    (hv : Visits env vars sink host c s) (hverify : env.config.verify = true) :
    env.exe.verify = .ok () := by
  induction hv with
  | start h =>
    unfold start at h
    rw [if_pos hverify] at h
    cases he : env.exe.verify with
    | ok u => rfl
    | error e =>
      rw [he] at h
      cases h
  | advance _ _ ih => exact ih

theorem readVar_not_structural {exe : Executable} {s : State σ} (hpool : exe.strings.Sound)
    (hs : s.KnownValues exe) {var : HostVar} {trap : Trap}
    (h : RunM.readVar exe s var = .error trap) : trap.isStructural = false := by
  unfold RunM.readVar at h
  split at h
  · cases h
  · rename_i top _
    cases hi : s.slotIndex top.addr with
    | error trap' =>
      rw [hi] at h
      cases h
      exact State.slotIndex_not_structural hi
    | ok index =>
      obtain ⟨hv, ht⟩ := State.toHost_of_known (State.known_readVar hpool hs index top.ty)
      rw [hi] at h
      simp only [bind, Except.bind, ht] at h
      cases h

theorem readBack_not_structural {exe : Executable} {s : State σ} (hpool : exe.strings.Sound)
    (hs : s.KnownValues exe) {vars : List HostVar} {trap : Trap}
    (h : (readBack exe s vars).2 = .error trap) : trap.isStructural = false := by
  induction vars with
  | nil => cases h
  | cons var vars ih =>
    unfold readBack at h
    cases hr : RunM.readVar exe s var with
    | error trap' =>
      rw [hr] at h
      cases h
      exact readVar_not_structural hpool hs hr
    | ok var' =>
      rw [hr] at h
      exact ih h

end StackLang
