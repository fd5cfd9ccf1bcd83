import StackLang.Proofs.Storage.ReadBack

/-!
# The moments of a run

`Visits` has the states before the instructions of a run. `Moment` adds those between which the host's
variables are written, one after the other, and the one in which the run has ended and they are read
back. `reached_running` and `reached_ended` say that these are the moments of a run as the machine makes
it.
-/

namespace StackLang

open RunM

variable {σ : Type} {env : Env σ} {vars : List HostVar} {sink : Sink} {host : σ} {c : Cursor}
  {s s' : State σ}

/-- Where a run is. -/
inductive Moment (σ : Type) where
  /-- These variables of the host are left to be written. -/
  | binding (left : List HostVar) (s : State σ)
  /-- The instruction at the cursor comes next. -/
  | running (c : Cursor) (s : State σ)
  | ended (s : State σ)

namespace Moment

def state : Moment σ → State σ
  | binding _ s | running _ s | ended s => s

/-- One moment follows another. -/
inductive Next (env : Env σ) : Moment σ → Moment σ → Prop
  | bind {var : HostVar} {left : List HostVar} {s s' : State σ}
      (h : bindVars env.exe [var] s = .ok () s') : Next env (.binding (var :: left) s) (.binding left s')
  | begin {r : Routine} {s : State σ} (htop : env.exe.top? = some r) :
      Next env (.binding [] s) (.running ⟨r, 0⟩ s)
  | advance {c c' : Cursor} {s s' : State σ} (h : advance env c s = .ok (some c') s') :
      Next env (.running c s) (.running c' s')
  | stop {c : Cursor} {s s' : State σ} (h : advance env c s = .ok none s') :
      Next env (.running c s) (.ended s')

/-- The same moment or a later one. -/
def Later (env : Env σ) : Moment σ → Moment σ → Prop := Relation.ReflTransGen (Next env)

/-- A run comes to this moment. -/
inductive Reached (env : Env σ) (vars : List HostVar) (sink : Sink) (host : σ) : Moment σ → Prop
  | enter {r : Routine} {s : State σ}
      (hverified : env.config.verify = true → env.exe.verify = .ok ())
      (htop : env.exe.top? = some r)
      (h : MachineM.enter env.config r (initial env.exe sink host) = .ok () s) :
      Reached env vars sink host (.binding vars s)
  | next {m m' : Moment σ} (hm : Reached env vars sink host m) (h : m.Next env m') :
      Reached env vars sink host m'

variable {m m' : Moment σ}

theorem Reached.later (hm : Reached env vars sink host m) (h : Later env m m') :
    Reached env vars sink host m' := by
  induction h with
  | refl => exact hm
  | tail _ hnext ih => exact ih.next hnext

theorem later_of_bindVars {left : List HostVar} (h : bindVars env.exe left s = .ok () s') :
    Later env (.binding left s) (.binding [] s') := by
  induction left generalizing s with
  | nil =>
    cases h
    exact .refl
  | cons var left ih =>
    obtain ⟨t, hfirst, hrest⟩ := bindVars_cons_ok h
    exact .head (.bind hfirst) (ih hrest)

theorem reached_of_visits (hv : Visits env vars sink host c s) :
    Reached env vars sink host (.running c s) := by
  induction hv with
  | @start c s h =>
    obtain ⟨htop, hip, t, henter, hbind⟩ := begun_of_start h
    obtain ⟨r, ip⟩ := c
    obtain rfl := hip
    exact ((Reached.enter (verify_of_visits (.start h)) htop henter).later
      (later_of_bindVars hbind)).next (.begin htop)
  | advance _ h ih => exact ih.next (.advance h)

/-- What a moment says about the run of the machine. -/
def InRun (env : Env σ) (vars : List HostVar) (sink : Sink) (host : σ) : Moment σ → Prop
  | binding left s => ∀ r s', env.exe.top? = some r → bindVars env.exe left s = .ok () s' →
      start env vars (initial env.exe sink host) = .ok ⟨r, 0⟩ s'
  | running c s => Visits env vars sink host c s
  | ended s' => ∃ c s, Visits env vars sink host c s ∧ advance env c s = .ok none s'

theorem Reached.inRun (hm : Reached env vars sink host m) : m.InRun env vars sink host := by
  induction hm with
  | @enter r s hverified htop h =>
    intro r' s' htop' hbind
    obtain rfl := Option.some.inj (htop.symm.trans htop')
    have henter : enterTop env vars (initial env.exe sink host) = .ok ⟨r, 0⟩ s' := by
      simp only [enterTop, htop, bind, EStateM.bind, h, hbind]
      rfl
    rw [start_eq]
    by_cases hv : env.config.verify = true
    · rw [if_pos hv, hverified hv]
      exact henter
    · rw [if_neg hv]
      exact henter
  | next hm h ih =>
    cases h with
    | bind h =>
      intro r s' htop hbind
      refine ih r s' htop ?_
      rw [bindVars_cons]
      simp only [Bind.bind, EStateM.bind, h, hbind]
    | begin htop => exact .start (ih _ _ htop rfl)
    | advance h => exact ih.advance h
    | stop h => exact ⟨_, _, ih, h⟩

/-- The moments between instructions are those that a run comes to. -/
theorem reached_running :
    Reached env vars sink host (.running c s) ↔ Visits env vars sink host c s :=
  ⟨fun h => h.inRun, reached_of_visits⟩

/-- The moments at the end are those that the last instruction of a run leads to. -/
theorem reached_ended : Reached env vars sink host (.ended s') ↔
    ∃ c s, Visits env vars sink host c s ∧ advance env c s = .ok none s' :=
  ⟨fun h => h.inRun, fun ⟨_, _, hv, h⟩ => (reached_of_visits hv).next (.stop h)⟩

/-- A run that succeeds comes to its last moment. -/
theorem reached_of_run {fuel : Nat} {out : Outcome σ} (hrun : env.run vars sink host fuel = some out)
    (hok : out.result = .ok ()) : Reached env vars sink host (.ended out.state) := by
  rcases run_cases hrun with ⟨trap, s, -, rfl⟩ | ⟨c, s, fault, s', -, -, rfl⟩ |
    ⟨c, s, s', hv, hend, rfl⟩
  · cases hok
  · cases hok
  · rw [(conclude_ok hok).1]
    exact reached_ended.mpr ⟨c, s, hv, hend⟩

end Moment

end StackLang
