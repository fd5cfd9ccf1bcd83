import StackLang.Executable.Image
import StackLang.Proofs.Executable.RoundTrip
import StackLang.Proofs.Machine.Above
import StackLang.Proofs.Machine.HostVars
import StackLang.Proofs.Machine.Storage
import StackLang.Proofs.Verify.Runs

/-!
# Where a return leads

A frame keeps the id that its function carries, and a return goes on in the function which has that
id as its place. `return_resumes_caller`: of every image that is accepted, a return leads behind the
call, in the function that the caller's frame names, and that is the caller itself if every function
carries its place as its id. Verification does not look at the ids of an image: in an accepted one
they may be any, and then a return can lead to another function (`return_leaves_caller`).
-/

namespace StackLang

open Executable RunM

variable {σ : Type} {env : Env σ} {vars : List HostVar} {sink : Sink} {host : σ}

/-- A call whose function returns goes on behind the call, in the function that the caller's frame
names. -/
theorem resumed_of_return {c c₁ c₂ c₃ : Cursor} {s s₁ s₂ s₃ : State σ} {i i₂ : Instr}
    (hne : s.frames ≠ []) (hi : c.routine.code.decodeAt c.ip = .ok i) (hcall : i.op = .call)
    (hentry : advance env c s = .ok (some c₁) s₁)
    (hin : Above env s.frames.length c₁ s₁ c₂ s₂) (hlen : s₂.frames.length = s.frames.length + 1)
    (hi₂ : c₂.routine.code.decodeAt c₂.ip = .ok i₂) (hret : i₂.op = .ret)
    (hleave : advance env c₂ s₂ = .ok (some c₃) s₃) :
    c₃.ip = i.next ∧
      ∃ frame, s.frames.head? = some frame ∧ env.exe.routine? frame.function = some c₃.routine := by
  obtain ⟨_, _, _, caller, frames, h⟩ :=
    returns_of_above hne hi hcall hentry hin hlen hi₂ hret hleave
  exact ⟨h.resumed.2, caller, by rw [h.before, List.head?_cons], h.resumed.1⟩

/-- A run that has begun has found that `<top>` takes no arguments. -/
theorem arity_of_visits {c : Cursor} {s : State σ} (hv : Visits env vars sink host c s) :
    ∀ r, env.exe.top? = some r → r.arity = 0 := by
  induction hv with
  | start h =>
    intro r hr
    have hstart := started h
    obtain rfl := Option.some.inj (hstart.top.symm.trans hr)
    exact Nat.le_zero.mp hstart.fits.args
  | advance _ _ ih => exact ih

theorem verify_of_ofImage {bytes : List UInt8} {e : Executable} (h : ofImage bytes = .ok e) :
    e.verify = .ok () := by
  unfold ofImage at h
  split at h
  · cases h
  · split at h
    · cases h
    · rename_i hverify
      cases h
      exact hverify

/-- Wherever a run of a sound executable comes to, there is an instruction. -/
theorem decodeAt_of_visits (he : env.exe.Sound) {c : Cursor} {s : State σ}
    (hv : Visits env vars sink host c s) : ∃ i, c.routine.code.decodeAt c.ip = .ok i := by
  obtain ⟨frame, frames, -, hr, -, hpath, -⟩ := (onPaths_of_visits he hv).frames
  obtain ⟨d, hd⟩ := verify_ok_iff.mp he.verified _ (mem_of_routine? hr)
  obtain ⟨i, _, hpass⟩ := passes_of_reaches hd hpath
  exact ⟨i, hpass.decode⟩

/-- **A return resumes the caller**, in every run of an image that is accepted: control goes on
behind the call, in the function that the caller's frame names. If the functions of the image carry
their places as their ids, as `addRoutine` gives them, that is the very function which made the call,
and there is an instruction behind the call. -/
theorem return_resumes_caller (bytes : List UInt8) (hload : ofImage bytes = .ok env.exe)
    (c c₁ c₂ c₃ : Cursor) (s s₁ s₂ s₃ : State σ) (i i₂ : Instr)
    (hv : Visits env vars sink host c s)
    (hi : c.routine.code.decodeAt c.ip = .ok i) (hcall : i.op = .call)
    (hentry : advance env c s = .ok (some c₁) s₁)
    (hin : Above env s.frames.length c₁ s₁ c₂ s₂) (hlen : s₂.frames.length = s.frames.length + 1)
    (hi₂ : c₂.routine.code.decodeAt c₂.ip = .ok i₂) (hret : i₂.op = .ret)
    (hleave : advance env c₂ s₂ = .ok (some c₃) s₃) :
    c₃.ip = i.next ∧
      (∃ frame, s.frames.head? = some frame ∧
        env.exe.routine? frame.function = some c₃.routine) ∧
      (env.exe.IdsArePlaces →
        c₃.routine = c.routine ∧ ∃ j, c.routine.code.decodeAt i.next = .ok j) := by
  obtain ⟨hip, frame, hframe, hr⟩ := resumed_of_return (frames_ne_nil_of_visits hv) hi hcall hentry
    hin hlen hi₂ hret hleave
  refine ⟨hip, ⟨frame, hframe, hr⟩, fun hids => ?_⟩
  obtain ⟨frame', hframe', hr'⟩ := routine_of_visits hids hv
  obtain rfl := Option.some.inj (hframe.symm.trans hframe')
  have hsame : c₃.routine = c.routine := Option.some.inj (hr.symm.trans hr')
  have hsound : env.exe.Sound :=
    ⟨(strings_built_of_ofImage hload).sound, hids, verify_of_ofImage hload, arity_of_visits hv⟩
  have hv₃ : Visits env vars sink host c₃ s₃ := (hin.visits (hv.advance hentry)).advance hleave
  obtain ⟨j, hj⟩ := decodeAt_of_visits hsound hv₃
  exact ⟨hsame, j, by rwa [hsame, hip] at hj⟩

namespace ReturnExample

/-- Calls `f` and prints 1. -/
def top (id : UInt16) : Routine :=
  { id, name := "<top>", declaringScope := 0, scope := 0, params := [], result := .void,
    locals := 0, layout := [], code := ⟨#[47, 1, 0, 8, 25, 50]⟩ }

/-- Returns. Behind the return stands code that prints -1. -/
def f : Routine :=
  { id := 1, name := "f", declaringScope := 0, scope := 0, params := [], result := .void,
    locals := 0, layout := [], code := ⟨#[49, 0, 0, 10, 25, 50]⟩ }

/-- The two functions, where `<top>`, which has the place 0, carries some id. -/
def exe (id : UInt16) : Executable :=
  { routines := #[top id, f], byName := .ofList [("<top>", (0 : UInt16))] }

def setting (id : UInt16) : Env Unit := ⟨exe id, {}, noHost⟩

/-- In `<top>`, in front of the call. -/
def before (id : UInt16) : State Unit := { host := (), frames := [⟨id, 0, 0, 0⟩] }

/-- In `f`, in front of the return. -/
def inside (id : UInt16) : State Unit :=
  { host := (), steps := 1, frames := [⟨1, 0, 0, 0⟩, ⟨id, 3, 0, 0⟩] }

/-- Behind the return. -/
def after (id : UInt16) : State Unit := { host := (), steps := 2, frames := [⟨id, 3, 0, 0⟩] }

theorem call_f (id : UInt16) :
    advance (setting id) ⟨top id, 0⟩ (before id) = .ok (some ⟨f, 0⟩) (inside id) := rfl

theorem above_f (id : UInt16) :
    Above (setting id) (before id).frames.length ⟨f, 0⟩ (inside id) ⟨f, 0⟩ (inside id) :=
  .here (Nat.lt_succ_self 1)

theorem decode_call (id : UInt16) : (top id).code.decodeAt 0 = .ok ⟨0, .call, .function 1⟩ := rfl

theorem decode_ret : f.code.decodeAt 0 = .ok ⟨0, .ret, .none⟩ := rfl

end ReturnExample

open ReturnExample

/-- With the right ids, the return leads back to `<top>`. -/
theorem returnExample_resumed :
    (exe 0).IdsArePlaces ∧ ∃ c, advance (setting 0) ⟨f, 0⟩ (inside 0) = .ok (some c) (after 0) ∧
      c.ip = 3 ∧ c.routine = top 0 := by
  have hload : ofImage ((exe 0).imageWith [("<top>", 0)]) = .ok (exe 0) := by cbv
  have hstart : start (setting 0) [] (initial (exe 0) {} ()) = .ok ⟨top 0, 0⟩ (before 0) := by cbv
  have hids : (exe 0).IdsArePlaces := by
    rintro (_ | _ | i) r h
    · cases h; rfl
    · cases h; rfl
    · simp [exe] at h
  have hleave : advance (setting 0) ⟨f, 0⟩ (inside 0) = .ok (some ⟨top 0, 3⟩) (after 0) := rfl
  obtain ⟨hip, -, hsame⟩ := return_resumes_caller
    ((exe 0).imageWith [("<top>", 0)]) hload ⟨top 0, 0⟩ ⟨f, 0⟩ ⟨f, 0⟩ ⟨top 0, 3⟩ (before 0) (inside 0)
    (inside 0) (after 0) ⟨0, .call, .function 1⟩ ⟨0, .ret, .none⟩ (.start hstart) (decode_call 0) rfl
    (call_f 0) (above_f 0) rfl decode_ret rfl hleave
  exact ⟨hids, _, hleave, hip, (hsame hids).1⟩

/-- **A return can leave its caller**, in a run of an image that is accepted: here it leads from `f`
not to `<top>`, which made the call, but to the code behind the return of `f`. -/
theorem return_leaves_caller :
    ¬ ∀ (bytes : List UInt8) (env : Env Unit) (vars : List HostVar) (sink : Sink) (host : Unit)
      (c c₁ c₂ c₃ : Cursor) (s s₁ s₂ s₃ : State Unit) (i i₂ : Instr),
      ofImage bytes = .ok env.exe → Visits env vars sink host c s →
      c.routine.code.decodeAt c.ip = .ok i → i.op = .call →
      advance env c s = .ok (some c₁) s₁ → Above env s.frames.length c₁ s₁ c₂ s₂ →
      s₂.frames.length = s.frames.length + 1 →
      c₂.routine.code.decodeAt c₂.ip = .ok i₂ → i₂.op = .ret →
      advance env c₂ s₂ = .ok (some c₃) s₃ → c₃.routine = c.routine ∧ c₃.ip = i.next := by
  intro h
  have hload : ofImage ((exe 1).imageWith [("<top>", 0)]) = .ok (exe 1) := by cbv
  have hstart : start (setting 1) [] (initial (exe 1) {} ()) = .ok ⟨top 1, 0⟩ (before 1) := by cbv
  have hleave : advance (setting 1) ⟨f, 0⟩ (inside 1) = .ok (some ⟨f, 3⟩) (after 1) := rfl
  obtain ⟨hsame, -⟩ := h ((exe 1).imageWith [("<top>", 0)]) (setting 1) [] {} () ⟨top 1, 0⟩ ⟨f, 0⟩
    ⟨f, 0⟩ ⟨f, 3⟩ (before 1) (inside 1) (inside 1) (after 1) ⟨0, .call, .function 1⟩ ⟨0, .ret, .none⟩
    hload (.start hstart) (decode_call 1) rfl (call_f 1) (above_f 1) rfl decode_ret rfl hleave
  exact absurd (congrArg Routine.name hsame) (by decide)

end StackLang
