import StackLang.Proofs.Loops.Own
import StackLang.Proofs.Machine.HostVars

/-!
# For loops

`LoopCode.Rounds env r n s is s'` says which values the variable of a loop has had when its body was
executed, from where the loop begins until control is at its test again. `forLoop_rounds`: in a compiled
program these are the ints from the lower to the upper bound, one after the other, and then the loop is
left, if the body never assigns to the variable and comes to its end whenever it is executed. The
exception is an upper bound that is the greatest int: there is no next int at which the loop could end,
and it goes on with the least one.

`Ready` is the invariant at the test: the variable is `i`, and the hidden slot still holds the upper
bound. The slot is out of reach: the loop's own function spares it, and every other name means another
place (`Passes.spares`).
-/

namespace StackLang

open RunM

variable {σ : Type} {env : Env σ} {vars : List HostVar} {sink : Sink} {host : σ} {r : Routine}
  {s s' s₁ s₂ : State σ}

/-! ## What a loop does -/

/-- The code of a bound is executed and leaves a value that stands for the int `k`. -/
structure Evaluates (env : Env σ) (r : Routine) (ty : Ty) (a b : Nat) (k : Int64)
    (s s' : State σ) : Prop where
  passes : Passes env Anyhow r a b b s s'
  value : ∃ v, s'.stack.back? = some v ∧ v.bound? ty = some k
  held : s'.frameBase < s'.stack.size

namespace LoopCode

/-- From `s`, where the loop begins, the body has been executed with the values `is` of the variable,
which is at the place `n`, in this order, and control is at the loop's test. -/
inductive Rounds (l : LoopCode) (env : Env σ) (r : Routine) (n : Nat) (s : State σ) :
    List Int64 → State σ → Prop
  | enter {s₁ s₂ s₃ s₄ : State σ} (hupper : Passes env Anyhow r l.entry l.upperEnd l.upperEnd s s₁)
      (hkeep : Passes env Anyhow r l.upperEnd l.lower l.lower s₁ s₂)
      (hlower : Passes env Anyhow r l.lower l.lowerEnd l.lowerEnd s₂ s₃)
      (hinit : Passes env Anyhow r l.lowerEnd l.head l.head s₃ s₄) : Rounds l env r n s [] s₄
  | round {is : List Int64} {i : Int64} {s₁ s₂ s₃ s₄ : State σ} (h : Rounds l env r n s is s₁)
      (htest : Passes env Anyhow r l.head l.body l.body s₁ s₂)
      (hvar : s₂.vars[n]? = some (some (.int i)))
      (hbody : Passes env Anyhow r l.body l.step l.step s₂ s₃)
      (hstep : Passes env Anyhow r l.step l.exit l.head s₃ s₄) : Rounds l env r n s (is ++ [i]) s₄

/-- From `s`, where the loop begins, its bounds are `lo` and `hi`, and whenever its body is executed
control comes to the end of the body, and nobody has assigned to the loop's variable. -/
structure Regular (l : LoopCode) (env : Env σ) (r : Routine) (n : Nat) (lo hi : Int64)
    (s : State σ) : Prop where
  upper : ∃ s₁, Evaluates env r l.upperTy l.entry l.upperEnd hi s s₁ ∧
    ∀ s₂, Passes env Anyhow r l.upperEnd l.lower l.lower s₁ s₂ →
      ∃ s₃, Evaluates env r l.lowerTy l.lower l.lowerEnd lo s₂ s₃
  body : ∀ is s₁ s₂, l.Rounds env r n s is s₁ → Passes env Anyhow r l.head l.body l.body s₁ s₂ →
    ∃ s₃, Passes env (fun c s => ¬ Assigns c s l.var n) r l.body l.step l.step s₂ s₃

end LoopCode

/-- `k` ints from `lo` on. -/
def intsFrom (lo : Int64) (k : Nat) : List Int64 := (List.range k).map fun j => lo + Int64.ofNat j

theorem intsFrom_succ (lo : Int64) (k : Nat) :
    intsFrom lo (k + 1) = intsFrom lo k ++ [lo + Int64.ofNat k] := by
  rw [intsFrom, List.range_succ, List.map_append]
  rfl

/-- How many ints there are from `lo` to `hi`. -/
def countTo (lo hi : Int64) : Nat := (hi.toInt + 1 - lo.toInt).toNat

/-- Up to the greatest int the ints from `lo` on are what they should be. -/
theorem toInt_add_ofNat {lo : Int64} {k : Nat} (h : lo.toInt + k ≤ Int64.maxValue.toInt) :
    (lo + Int64.ofNat k).toInt = lo.toInt + k := by
  have hlo := lo.le_toInt
  rw [Int64.toInt_maxValue] at h
  rw [Int64.toInt_add, Int64.toInt_ofNat', Int64.size, Int.add_bmod_bmod]
  exact Int.bmod_eq_of_le (by omega) (by omega)

theorem State.lt_of_slotIndex {addr : VarAddr} {n : Nat} (h : s.slotIndex addr = .ok n) :
    n < s.vars.size := by
  obtain ⟨_, -, -, hlt⟩ := State.exists_base h
  exact hlt

/-! ## The invariant at the test -/

namespace LoopCode

variable {l : LoopCode} {declared : VarAddr → Prop} {n m : Nat} {i lo hi : Int64} {is : List Int64}

/-- What the proofs need of the code of a loop in the function `r`. -/
structure Sits (l : LoopCode) (declared : VarAddr → Prop) (r : Routine) : Prop where
  var : declared l.var
  hidden : ¬ declared l.limit
  owns : r.Owns l.limit
  upper : l.entry ≤ l.upperEnd
  keep : r.code.Line l.upperEnd (boundCode l.upperTy ++ [(.storeIntVar, .var l.limit)]) l.lower
  init : r.code.Line l.lowerEnd (boundCode l.lowerTy ++ [(.storeIntVar, .var l.var)]) l.head
  test : r.code.Line l.head [(.loadIntVar, .var l.limit), (.loadIntVar, .var l.var),
    (.jumpGt, .target l.exit)] l.body
  back : r.code.Line l.step [(.int1, .none), (.loadIntVar, .var l.var), (.addInt, .none),
    (.storeIntVar, .var l.var), (.jump, .target l.head)] l.exit
  sparesLower : r.code.Spares l.limit l.lower l.lowerEnd
  sparesBody : r.code.Spares l.limit l.body l.step

theorem Sits.ordered (h : l.Sits declared r) : l.entry ≤ l.upperEnd ∧ l.upperEnd ≤ l.lower ∧
    l.lower ≤ l.lowerEnd ∧ l.lowerEnd ≤ l.head ∧ l.head ≤ l.body ∧ l.body ≤ l.step ∧
    l.step ≤ l.exit := by
  obtain ⟨_, hlower, -⟩ := h.sparesLower
  obtain ⟨_, hbody, -⟩ := h.sparesBody
  exact ⟨h.upper, h.keep.le, hlower.le, h.init.le, h.test.le, hbody.le, h.back.le⟩

/-- Control is at the test of a loop. The variable is `i`, and the hidden slot holds the upper bound. -/
structure Ready (l : LoopCode) (env : Env σ) (vars : List HostVar) (sink : Sink) (host : σ)
    (r : Routine) (n m : Nat) (hi i : Int64) (s : State σ) : Prop where
  visits : Visits env vars sink host ⟨r, l.head⟩ s
  var : s.slotIndex l.var = .ok n
  limit : s.slotIndex l.limit = .ok m
  holds : s.vars[n]? = some (some (.int i))
  keeps : s.vars[m]? = some (some (.int hi))
  base : s.frameBase ≤ s.stack.size

variable (he : env.exe.LaidOut declared) (hl : l.Sits declared r)

include he hl

/-- The variable and the upper bound have different places. -/
theorem Sits.ne_of_slotIndex {ip : Nat} (hv : Visits env vars sink host ⟨r, ip⟩ s)
    (hn : s.slotIndex l.var = .ok n) (hm : s.slotIndex l.limit = .ok m) : n ≠ m := by
  rintro rfl
  have heq := he.eq_of_slotIndex hv (.inl hl.var) (.inr hl.owns) hn hm
  exact hl.hidden (heq ▸ hl.var)

/-- **Where a loop begins**, control comes to its test with the lower bound in the variable. -/
theorem comes_enter (hv : Visits env vars sink host ⟨r, l.entry⟩ s)
    (hn : s.slotIndex l.var = .ok n) (hm : s.slotIndex l.limit = .ok m)
    (hreg : l.Regular env r n lo hi s) :
    Comes env s.frames.length l.entry l.exit (fun c s' => c = ⟨r, l.head⟩ ∧
      s'.frames.length = s.frames.length ∧ l.Rounds env r n s [] s' ∧
      l.Ready env vars sink host r n m hi lo s') ⟨r, l.entry⟩ s := by
  obtain ⟨h₁, h₂, h₃, h₄, h₅, h₆, h₇⟩ := hl.ordered
  obtain ⟨s₁, ⟨hupper, ⟨v, htop, hbound⟩, hheld⟩, hlower⟩ := hreg.upper
  have hv₁ := hupper.visits hv
  have hm₁ := (hupper.slotIndex_eq he.ids hv l.limit).trans hm
  refine .after (hupper.run.widen (Nat.le_refl _) (by omega)) ?_
  rw [← hupper.height]
  refine (comes_bound hl.keep htop hbound hheld hm₁).bind h₁ (by omega) ?_
  rintro _ s₂ hrun ⟨rfl, hset⟩
  have hkeep := hset.passes (by rw [Array.size_pop]; omega) hrun
  have hv₂ := hkeep.visits hv₁
  have hm₂ := (hkeep.slotIndex_eq he.ids hv₁ l.limit).trans hm₁
  have hlimit : s₂.vars[m]? = some (some (.int hi)) := by
    rw [hset.vars]
    exact Array.getElem?_setIfInBounds_self_of_lt (State.lt_of_slotIndex hm₁)
  obtain ⟨s₃, hlow, ⟨v', htop', hbound'⟩, hheld'⟩ := hlower s₂ hkeep
  have hv₃ := hlow.visits hv₂
  have hm₃ := (hlow.slotIndex_eq he.ids hv₂ l.limit).trans hm₂
  -- the lower bound is evaluated with the upper one in its slot
  have hlimit₃ : s₃.vars[m]? = some (some (.int hi)) :=
    ((hlow.spares he hv₂ hl.sparesLower hl.owns hl.hidden hm₂).place_kept he hv₂ (.inr hl.owns) hm₂
      fun _ _ h => h).trans hlimit
  have hn₃ : s₃.slotIndex l.var = .ok n := by
    rw [hlow.slotIndex_eq he.ids hv₂, hkeep.slotIndex_eq he.ids hv₁, hupper.slotIndex_eq he.ids hv, hn]
  rw [← hkeep.height]
  refine .after (hlow.run.widen (by omega) (by omega)) ?_
  rw [← hlow.height]
  refine (comes_bound hl.init htop' hbound' hheld' hn₃).bind (by omega) (by omega) ?_
  rintro _ s₄ hrun' ⟨rfl, hset'⟩
  have hinit := hset'.passes (by rw [Array.size_pop]; omega) hrun'
  have hne := hl.ne_of_slotIndex he hv₃ hn₃ hm₃
  refine .here ⟨rfl, hinit.height, .enter hupper hkeep hlow hinit, hinit.visits hv₃,
    (hinit.slotIndex_eq he.ids hv₃ _).trans hn₃, (hinit.slotIndex_eq he.ids hv₃ _).trans hm₃, ?_, ?_,
    hinit.base⟩
  · rw [hset'.vars]
    exact Array.getElem?_setIfInBounds_self_of_lt (State.lt_of_slotIndex hn₃)
  · rw [hset'.vars, Array.getElem?_setIfInBounds_ne hne, hlimit₃]

/-- **One round**: while the variable is not above the upper bound, the body is executed with its value,
and control comes back to the test with the next int in the variable. -/
theorem comes_round (hreg : l.Regular env r n lo hi s) (hr : l.Rounds env r n s is s₁)
    (hready : l.Ready env vars sink host r n m hi i s₁) (hle : ¬ hi < i) :
    Comes env s₁.frames.length l.head l.exit (fun c s' => c = ⟨r, l.head⟩ ∧
      s'.frames.length = s₁.frames.length ∧ l.Rounds env r n s (is ++ [i]) s' ∧
      l.Ready env vars sink host r n m hi (i + 1) s') ⟨r, l.head⟩ s₁ := by
  obtain ⟨-, -, -, -, h₅, h₆, h₇⟩ := hl.ordered
  obtain ⟨hv₁, hn₁, hm₁, hholds, hkeeps, hbase⟩ := hready
  refine (comes_test hl.test hm₁ hn₁ hkeeps hholds hbase).bind (Nat.le_refl _) (by omega) ?_
  rw [if_neg hle]
  rintro _ s₂ hrun ⟨rfl, hsame⟩
  have htest := hsame.passes hbase hrun
  have hv₂ := htest.visits hv₁
  have hn₂ := (htest.slotIndex_eq he.ids hv₁ l.var).trans hn₁
  have hm₂ := (htest.slotIndex_eq he.ids hv₁ l.limit).trans hm₁
  have hvar : s₂.vars[n]? = some (some (.int i)) := by rw [hsame.vars, hholds]
  obtain ⟨s₃, hbody⟩ := hreg.body is s₁ s₂ hr htest
  have hv₃ := hbody.visits hv₂
  have hn₃ := (hbody.slotIndex_eq he.ids hv₂ l.var).trans hn₂
  have hm₃ := (hbody.slotIndex_eq he.ids hv₂ l.limit).trans hm₂
  -- the body assigns neither to the variable nor, as its code spares it, to the upper bound
  have hvar₃ : s₃.vars[n]? = some (some (.int i)) :=
    (hbody.place_kept he hv₂ (.inl hl.var) hn₂ fun _ _ h => h).trans hvar
  have hlimit₃ : s₃.vars[m]? = some (some (.int hi)) := by
    have hspared := hbody.spares he hv₂ hl.sparesBody hl.owns hl.hidden hm₂
    rw [hspared.place_kept he hv₂ (.inr hl.owns) hm₂ fun _ _ h => h, hsame.vars, hkeeps]
  have hbody : Passes env Anyhow r l.body l.step l.step s₂ s₃ := hbody.mono fun _ _ _ => trivial
  rw [← htest.height]
  refine .after (hbody.run.widen (by omega) (by omega)) ?_
  rw [← hbody.height]
  refine (comes_step hl.back hn₃ hvar₃ hbody.base).bind (by omega) (Nat.le_refl _) ?_
  rintro _ s₄ hrun' ⟨rfl, hset⟩
  have hstep := hset.passes hbody.base hrun'
  have hne := hl.ne_of_slotIndex he hv₃ hn₃ hm₃
  refine .here ⟨rfl, hstep.height, .round hr htest hvar hbody hstep, hstep.visits hv₃,
    (hstep.slotIndex_eq he.ids hv₃ _).trans hn₃, (hstep.slotIndex_eq he.ids hv₃ _).trans hm₃, ?_, ?_,
    hstep.base⟩
  · rw [hset.vars]
    exact Array.getElem?_setIfInBounds_self_of_lt (State.lt_of_slotIndex hn₃)
  · rw [hset.vars, Array.getElem?_setIfInBounds_ne hne, hlimit₃]

variable (hv : Visits env vars sink host ⟨r, l.entry⟩ s) (hn : s.slotIndex l.var = .ok n)
  (hreg : l.Regular env r n lo hi s)

include hv hn hreg

/-- **All rounds**, as long as the variable is not above the upper bound in front of one. -/
theorem comes_rounds (hm : s.slotIndex l.limit = .ok m) (k : Nat)
    (hle : ∀ j < k, ¬ hi < lo + Int64.ofNat j) :
    Comes env s.frames.length l.entry l.exit (fun c s' => c = ⟨r, l.head⟩ ∧
      s'.frames.length = s.frames.length ∧ l.Rounds env r n s (intsFrom lo k) s' ∧
      l.Ready env vars sink host r n m hi (lo + Int64.ofNat k) s') ⟨r, l.entry⟩ s := by
  obtain ⟨h₁, h₂, h₃, h₄, -⟩ := hl.ordered
  induction k with
  | zero =>
    have hzero : lo + Int64.ofNat 0 = lo := Int64.add_zero lo
    rw [hzero]
    exact comes_enter he hl hv hn hm hreg
  | succ k ih =>
    refine (ih fun j hj => hle j (Nat.lt_succ_of_lt hj)).bind (Nat.le_refl _) (Nat.le_refl _) ?_
    rintro _ s₁ - ⟨rfl, hlen, hr, hready⟩
    rw [← hlen]
    refine (comes_round he hl hreg hr hready (hle k (Nat.lt_succ_self k))).bind (by omega)
      (Nat.le_refl _) ?_
    rintro _ s₂ - ⟨rfl, hlen', hr', hready'⟩
    have hnext : lo + Int64.ofNat k + 1 = lo + Int64.ofNat (k + 1) := by
      rw [Int64.add_assoc, Int64.ofNat_add]
      rfl
    exact .here ⟨rfl, hlen', intsFrom_succ lo k ▸ hr', hnext ▸ hready'⟩

/-- An upper bound below the greatest int is passed after the last round. -/
theorem leaves_after_rounds (hhi : hi ≠ Int64.maxValue) :
    HitsLimit env s.frames.length l.entry l.exit ⟨r, l.entry⟩ s ∨
      ∃ s' s'', l.Rounds env r n s (intsFrom lo (countTo lo hi)) s' ∧
        Passes env Anyhow r l.head l.body l.exit s' s'' := by
  obtain ⟨h₁, h₂, h₃, h₄, h₅, h₆, h₇⟩ := hl.ordered
  obtain ⟨m, hm⟩ := he.exists_slotIndex hv hl.owns
  have hmax := hi.toInt_le
  have hlt : hi.toInt < Int64.maxValue.toInt :=
    Int.lt_iff_le_and_ne.mpr ⟨hmax, fun heq => hhi (Int64.toInt_inj.mp heq)⟩
  have hlo := lo.toInt_le
  have hafter : hi < lo + Int64.ofNat (countTo lo hi) := by
    rw [Int64.lt_iff_toInt_lt, toInt_add_ofNat (by unfold countTo; omega)]
    unfold countTo
    omega
  have hbefore : ∀ j < countTo lo hi, ¬ hi < lo + Int64.ofNat j := fun j hj => by
    unfold countTo at hj
    rw [Int64.lt_iff_toInt_lt, toInt_add_ofNat (by omega)]
    omega
  have hcomes : Comes env s.frames.length l.entry l.exit (fun _ s'' => ∃ s',
      l.Rounds env r n s (intsFrom lo (countTo lo hi)) s' ∧
        Passes env Anyhow r l.head l.body l.exit s' s'') ⟨r, l.entry⟩ s := by
    refine (comes_rounds he hl hv hn hreg hm _ hbefore).bind (Nat.le_refl _) (Nat.le_refl _) ?_
    rintro _ s' - ⟨rfl, hlen, hr, hready⟩
    rw [← hlen]
    refine (comes_test hl.test hready.limit hready.var hready.keeps hready.holds hready.base).bind
      (by omega) (by omega) ?_
    rw [if_pos hafter]
    rintro _ s'' hrun ⟨rfl, hsame⟩
    exact .here ⟨s', hr, hsame.passes hready.base hrun⟩
  rcases hcomes with ⟨-, s'', -, s', hr, hexit⟩ | hlimit
  · exact .inr ⟨s', s'', hr, hexit⟩
  · exact .inl hlimit

/-- Nothing is above the greatest int. -/
theorem rounds_without_end (hhi : hi = Int64.maxValue) (k : Nat) :
    HitsLimit env s.frames.length l.entry l.exit ⟨r, l.entry⟩ s ∨
      ∃ s', l.Rounds env r n s (intsFrom lo k) s' := by
  obtain ⟨m, hm⟩ := he.exists_slotIndex hv hl.owns
  have hle : ∀ j < k, ¬ hi < lo + Int64.ofNat j := fun j _ => by
    rw [hhi]
    exact Int64.not_lt.mpr (Int64.le_maxValue _)
  rcases comes_rounds he hl hv hn hreg hm k hle with ⟨-, s', -, -, -, hr, -⟩ | hlimit
  · exact .inr ⟨s', hr⟩
  · exact .inl hlimit

end LoopCode

/-! ## Compiled programs -/

/-- The code of a loop of a function of the program, as the proofs need it. -/
theorem Made.sits {p : Program} {strict : Bool} {t t₀ t₁ : Compilation} {j : ScopeIndex}
    {f : FunctionDecl} (m : Made p strict t j f r t₀ t₁) {loop : ForLoop} {l : LoopCode}
    (h : ForLoop.CodeAt (Site.of ⟨p, f, strict⟩ t₀ t₁) loop l) :
    l.Sits (p.Declared t.symbols) r := by
  obtain ⟨hblock, ⟨info, hvar, -, haddr⟩, hhidden, hupper, hkeep, -, hinit, htest, -, hback, hlower,
    hbody⟩ := h
  have hcode := m.code.code_eq
  have hswept : (Site.of ⟨p, f, strict⟩ t₀ t₁).Swept (fun _ => true) l.entry l.upperEnd :=
    hupper.swept (p := p) hblock (.inr fun _ => rfl)
  obtain ⟨line, hline, -⟩ := hswept
  rw [hcode] at hkeep hinit htest hback hlower hbody
  exact ⟨haddr ▸ m.declared_of_var hvar, m.not_declared_of_hidden hhidden,
    m.owns_of_hidden hblock hhidden, hline.le, hkeep, hinit, htest, hback, hlower, hbody⟩

/-- **A loop visits the ints from its lower to its upper bound, one after the other.** In a compiled
program every loop has its code. Let a run come to where one begins, with the machine finding its variable at
`n`; let its bounds be `lo` and `hi`, and let its body come to its end whenever it is executed, without
anybody assigning to the variable. If `hi` is not the greatest int, then the body is executed once
for each int from `lo` to `hi`, in this order and with the int in the variable, and control comes to
what is behind the loop. If `hi` is the greatest int, the body is executed again and again, with the
ints from `lo` on, which begin anew with the least one behind the greatest. Either is so unless a limit ends
the run. -/
theorem forLoop_rounds {p : Program} {strict : Bool} {e : Executable}
    (h : p.compile strict = .ok e) {k : Nat} {x : ScopeIndex × FunctionDecl}
    (hx : (p.functionsFrom (p.scopeCount + 1) Program.root)[k]? = some x) :
    ∃ r t t₀ t₁, e.routines[k]? = some r ∧ Made p strict t x.1 x.2 r t₀ t₁ ∧
      (Site.of ⟨p, x.2, strict⟩ t₀ t₁).HasLoops x.2.body.loops ∧
      ∀ loop l, ForLoop.CodeAt (Site.of ⟨p, x.2, strict⟩ t₀ t₁) loop l →
        ∀ {σ : Type} (config : Config) (bridge : Bridge σ) (vars : List HostVar) (sink : Sink)
          (host : σ) (s : State σ) (n : Nat) (lo hi : Int64),
          Visits ⟨e, config, bridge⟩ vars sink host ⟨r, l.entry⟩ s → s.slotIndex l.var = .ok n →
            l.Regular ⟨e, config, bridge⟩ r n lo hi s →
            (hi ≠ Int64.maxValue →
              HitsLimit ⟨e, config, bridge⟩ s.frames.length l.entry l.exit ⟨r, l.entry⟩ s ∨
              ∃ s' s'', l.Rounds ⟨e, config, bridge⟩ r n s (intsFrom lo (countTo lo hi)) s' ∧
                Passes ⟨e, config, bridge⟩ Anyhow r l.head l.body l.exit s' s'') ∧
            (hi = Int64.maxValue → ∀ k,
              HitsLimit ⟨e, config, bridge⟩ s.frames.length l.entry l.exit ⟨r, l.entry⟩ s ∨
              ∃ s', l.Rounds ⟨e, config, bridge⟩ r n s (intsFrom lo k) s') := by
  obtain ⟨t, he, hmade⟩ := Program.compile_laidOut h
  obtain ⟨r, t₀, t₁, hr, m⟩ := hmade hx
  refine ⟨r, t, t₀, t₁, hr, m, ?_, fun loop l hcode σ config bridge vars sink host s n lo hi hv hn
    hreg => ?_⟩
  · obtain ⟨-, m₁, m₂, -, -, -, hbody, -⟩ := m.code.emitted
    have hloops := hbody.hasLoops (m.code.block _ x.2.body_mem_frameScopes)
    generalize x.2.body = body at hloops ⊢
    cases body
    exact hloops
  · exact ⟨LoopCode.leaves_after_rounds he (m.sits hcode) hv hn hreg,
      LoopCode.rounds_without_end he (m.sits hcode) hv hn hreg⟩

/-- Does nothing, for `i` from 1 to 3. -/
def idleLoop : Program :=
  let p := Program.empty.declareVar 1 ⟨"i", .int⟩
  let p := (p.addScope 1).2
  p.defineTop [.forLoop "i" (.binary .range (.int 1) (.int 3)) (.mk 2 [])]

/-- Where the parts of its code are. -/
def idleCode (var limit : VarAddr) : LoopCode where
  entry := 0
  upperEnd := 9
  lower := 14
  lowerEnd := 23
  head := 28
  body := 41
  step := 41
  exit := 56
  upperTy := .int
  lowerTy := .int
  var
  limit

/-- The only function of the program. -/
def idleTop : FunctionDecl where
  name := "<top>"
  result := .void
  params := []
  body := .mk 1 [.forLoop "i" (.binary .range (.int 1) (.int 3)) (.mk 2 [])]

theorem idleLoop_functions :
    (idleLoop.functionsFrom (idleLoop.scopeCount + 1) Program.root)[0]? = some (0, idleTop) := by
  cbv

theorem idleLoop_codeAt {t t₀ t₁ : Compilation} (m : Made idleLoop true t 0 idleTop r t₀ t₁) :
    ∃ loop var limit,
      ForLoop.CodeAt (Site.of ⟨idleLoop, idleTop, true⟩ t₀ t₁) loop (idleCode var limit) := by
  have hblock := m.code.block _ idleTop.body_mem_frameScopes
  obtain ⟨infos, _, _, hcount, -, hparams, hbody, -⟩ := m.code.emitted
  obtain rfl := List.eq_nil_of_length_eq_zero hcount
  cases hparams
  cases hbody with
  | stmtsCons hs hrest =>
    cases hs with
    | drop h => cases h
    | forLoop hvar hint hlimit hupper htu hu hlower htl hl htest hbody hback hsparel hspareb =>
      cases hupper with
      | int hthree =>
        obtain ⟨-, rfl⟩ := id hthree
        obtain ⟨-, rfl⟩ := id hu
        cases hlower with
        | int hone =>
          obtain ⟨-, rfl⟩ := id hone
          obtain ⟨-, rfl⟩ := id hl
          obtain ⟨-, -, -, rfl⟩ := id htest
          cases hbody with
          | blockMk hin hnil =>
            cases hnil
            obtain ⟨-, -, -, -, -, rfl⟩ := id hback
            exact ⟨⟨1, "i", .int 1, .int 3, .mk 2 []⟩, _, _, hblock, ⟨_, hvar, hint, rfl⟩, hlimit,
              .int hthree, hu, .int hone, hl, htest, .blockMk hin .stmtsNil, hback, hsparel, hspareb⟩

/-- A run of the program: where it is after some instructions, with the stack, the functions of the
frames and where the part of the innermost begins. -/
theorem idleLoop_runs : ∃ e, idleLoop.compile true = .ok e ∧
    ((e.routines[0]?).bind fun r => (r.code.decodeAt 33).toOption.map (·.operand)) =
      some (.var ⟨1, 0⟩) ∧
    ((visited? ⟨e, {}, noHost⟩ [] {} () 0).bind fun x => (x.2.slotIndex ⟨1, 0⟩).toOption) = some 0 ∧
    ([0, 1, 2, 3].map fun k => (visited? ⟨e, {}, noHost⟩ [] {} () k).map fun x =>
      (x.1.ip, x.2.stack, x.2.frames.map (·.function), x.2.frameBase)) =
        [some (0, #[], [0], 0), some (9, #[.int 3], [0], 0), some (14, #[], [0], 0),
          some (23, #[.int 1], [0], 0)] := by
  have hruns : (idleLoop.compile true).toOption.map (fun e =>
      ((e.routines[0]?).bind fun r => (r.code.decodeAt 33).toOption.map (·.operand),
        (visited? ⟨e, {}, noHost⟩ [] {} () 0).bind fun x => (x.2.slotIndex ⟨1, 0⟩).toOption,
        [0, 1, 2, 3].map fun k => (visited? ⟨e, {}, noHost⟩ [] {} () k).map fun x =>
          (x.1.ip, x.2.stack, x.2.frames.map (·.function), x.2.frameBase))) =
      some (some (.var ⟨1, 0⟩), some 0, [some (0, #[], [0], 0), some (9, #[.int 3], [0], 0),
        some (14, #[], [0], 0), some (23, #[.int 1], [0], 0)]) := by cbv
  cases hc : idleLoop.compile true with
  | error e =>
    rw [hc] at hruns
    cases hruns
  | ok e =>
    rw [hc] at hruns
    obtain ⟨hvar, hx⟩ := Prod.mk.inj (Option.some.inj hruns)
    exact ⟨e, rfl, hvar, Prod.mk.inj hx⟩

/-- Each state of the run is one of the only function. -/
theorem exists_state_of_visited? {e : Executable} (hids : e.IdsArePlaces)
    (hr : e.routines[0]? = some r) {k ip : Nat} {stack : Array Value}
    (h : (visited? ⟨e, {}, noHost⟩ [] {} () k).map (fun x =>
      (x.1.ip, x.2.stack, x.2.frames.map (·.function), x.2.frameBase)) = some (ip, stack, [0], 0)) :
    ∃ s, visited? ⟨e, {}, noHost⟩ [] {} () k = some (⟨r, ip⟩, s) ∧ s.stack = stack ∧
      s.frames.length = 1 ∧ s.frameBase = 0 := by
  obtain ⟨⟨⟨r', ip'⟩, s⟩, hs, h⟩ := Option.map_eq_some_iff.mp h
  simp only [Prod.mk.injEq] at h
  obtain ⟨rfl, rfl, hfunctions, hbase⟩ := h
  obtain ⟨frame, hhead, hr'⟩ := routine_of_visits hids (visits_of_visited? hs)
  have hzero : frame.function = 0 := by
    have hfirst := congrArg List.head? hfunctions
    rw [List.head?_map, hhead] at hfirst
    exact Option.some.inj hfirst
  rw [hzero] at hr'
  obtain rfl := Option.some.inj (hr.symm.trans hr')
  exact ⟨s, hs, rfl, by simpa using congrArg List.length hfunctions, hbase⟩

/-- The body of the loop is executed for 1, 2 and 3. -/
theorem idleLoop_rounds : ∃ (e : Executable) (r : Routine) (l : LoopCode) (s : State Unit) (n : Nat),
    idleLoop.compile true = .ok e ∧ e.routines[0]? = some r ∧
    Visits ⟨e, {}, noHost⟩ [] {} () ⟨r, l.entry⟩ s ∧ s.slotIndex l.var = .ok n ∧
    l.Regular ⟨e, {}, noHost⟩ r n 1 3 s ∧
    (HitsLimit ⟨e, {}, noHost⟩ s.frames.length l.entry l.exit ⟨r, l.entry⟩ s ∨
      ∃ s' s'', l.Rounds ⟨e, {}, noHost⟩ r n s [1, 2, 3] s' ∧
        Passes ⟨e, {}, noHost⟩ Anyhow r l.head l.body l.exit s' s'') := by
  obtain ⟨e, hc, hvar, hslot, hstates⟩ := idleLoop_runs
  obtain ⟨r, t, t₀, t₁, hr, m, -, hloops⟩ := forLoop_rounds hc idleLoop_functions
  obtain ⟨loop, var, limit, hcode⟩ := idleLoop_codeAt m
  have hload : r.code.decodeAt 33 = .ok ⟨33, .loadIntVar, .var var⟩ :=
    m.code.code_eq ▸ hcode.test.2.1
  obtain rfl : var = ⟨1, 0⟩ := by
    rw [hr, Option.bind_some, hload] at hvar
    exact Operand.var.inj (Option.some.inj hvar)
  obtain ⟨_, he, -⟩ := Program.compile_laidOut hc
  simp only [List.map_cons, List.map_nil, List.cons.injEq, and_true] at hstates
  obtain ⟨h₀, h₁, h₂, h₃⟩ := hstates
  obtain ⟨s₀, hs₀, -, hlen₀, -⟩ := exists_state_of_visited? he.ids hr h₀
  obtain ⟨s₁, hs₁, hstack₁, hlen₁, hbase₁⟩ := exists_state_of_visited? he.ids hr h₁
  obtain ⟨s₂, hs₂, hstack₂, hlen₂, hbase₂⟩ := exists_state_of_visited? he.ids hr h₂
  obtain ⟨s₃, hs₃, hstack₃, hlen₃, hbase₃⟩ := exists_state_of_visited? he.ids hr h₃
  have hv := visits_of_visited? hs₀
  have hslot₀ : s₀.slotIndex ⟨1, 0⟩ = .ok 0 := by
    rw [hs₀, Option.bind_some] at hslot
    cases h : s₀.slotIndex ⟨1, 0⟩ with
    | error fault =>
      rw [h] at hslot
      cases hslot
    | ok n =>
      rw [h] at hslot
      rw [Option.some.inj hslot]
  have hupper : Passes ⟨e, {}, noHost⟩ Anyhow r 0 9 9 s₀ s₁ :=
    .one (advance_of_visited? hs₀ hs₁) (by decide) (hlen₁.trans hlen₀.symm) (by omega)
  have hkeep : Passes ⟨e, {}, noHost⟩ Anyhow r 9 14 14 s₁ s₂ :=
    .one (advance_of_visited? hs₁ hs₂) (by decide) (hlen₂.trans hlen₁.symm) (by omega)
  have hlower : Passes ⟨e, {}, noHost⟩ Anyhow r 14 23 23 s₂ s₃ :=
    .one (advance_of_visited? hs₂ hs₃) (by decide) (hlen₃.trans hlen₂.symm) (by omega)
  have hregular : (idleCode ⟨1, 0⟩ limit).Regular ⟨e, {}, noHost⟩ r 0 1 3 s₀ := by
    refine ⟨⟨s₁, ⟨hupper, ⟨.int 3, by rw [hstack₁]; rfl, rfl⟩, ?_⟩, fun s₂' hkeep' => ?_⟩,
      fun is s s' _ htest => ⟨s', .here, rfl, htest.base⟩⟩
    · rw [hbase₁, hstack₁]
      decide
    · obtain rfl := hkeep.unique hkeep' (by decide)
      refine ⟨s₃, hlower, ⟨.int 1, by rw [hstack₃]; rfl, rfl⟩, ?_⟩
      rw [hbase₃, hstack₃]
      decide
  have hints : intsFrom 1 (countTo 1 3) = [1, 2, 3] := by decide
  have hrounds := (hloops loop _ hcode {} noHost [] {} () s₀ 0 1 3 hv hslot₀ hregular).1 (by decide)
  rw [hints] at hrounds
  exact ⟨e, r, idleCode ⟨1, 0⟩ limit, s₀, 0, hc, hr, hv, hslot₀, hregular, hrounds⟩

/-- Prints the ints from the greatest to the greatest. -/
def greatestLoop : Program :=
  let p := Program.empty.declareVar 1 ⟨"i", .int⟩
  let p := (p.addScope 1).2
  p.defineTop [.forLoop "i" (.binary .range (.int Int64.maxValue) (.int Int64.maxValue))
    (.mk 2 [.print [.load "i"]])]

/-- The loop goes on behind the greatest int: the least one is printed next. -/
theorem greatestLoop_goes_on : ∃ (e : Executable) (c : Cursor) (s : State Unit),
    greatestLoop.compile true = .ok e ∧ Visits ⟨e, {}, noHost⟩ [] {} () c s ∧
    s.sink.written = "9223372036854775807-9223372036854775808".toUTF8 := by
  have hwritten : (greatestLoop.compile true).toOption.bind (fun e =>
      (visited? ⟨e, {}, noHost⟩ [] {} () 19).map fun x => x.2.sink.written) =
        some "9223372036854775807-9223372036854775808".toUTF8 := by cbv
  cases hc : greatestLoop.compile true with
  | error e =>
    rw [hc] at hwritten
    cases hwritten
  | ok e =>
    rw [hc] at hwritten
    obtain ⟨⟨c, s⟩, hs, hs'⟩ := Option.map_eq_some_iff.mp hwritten
    exact ⟨e, c, s, rfl, visits_of_visited? hs, hs'⟩

end StackLang
