import StackLang.Executable.Verify
import StackLang.Proofs.Code.Decode

/-!
# Paths through a function, and what the search finds of them

`Reaches e r offset height` says that a path from the entry of `r` comes to `offset` with this
height of the operand stack. `verifyRoutine_ok`: a function that passes has `LowestHeights`, a
height for each offset that some path really has, that no path goes below, and from which every
instruction finds its operands; none of them leads above the depth that verification gives.
-/

namespace StackLang.Executable

/-- Where control may go from an instruction. -/
inductive Leads (i : Instr) : Nat → Prop
  | target {offset : Nat} (h : i.operand = .target offset) : Leads i offset
  | next (h : i.op.isTerminator = false) : Leads i i.next

/-- The instruction at an offset finds its operands on a stack of this height and leaves the stack
at `after`. -/
structure Passes (e : Executable) (code : Code) (offset height : Nat) (i : Instr)
    (after : Nat) : Prop where
  decode : code.decodeAt offset = .ok i
  effect : ∃ effect, e.effectOf i.op i.operand = .ok effect ∧ effect.pops ≤ height ∧
    after = height - effect.pops + effect.pushes

/-- A path from the entry of a function comes to an offset with this height of the stack. -/
inductive Reaches (e : Executable) (r : Routine) : Nat → Nat → Prop
  | entry : Reaches e r 0 r.arity
  | step {offset height offset' after : Nat} {i : Instr} (h : Reaches e r offset height)
      (hp : Passes e r.code offset height i after) (hl : Leads i offset') :
      Reaches e r offset' after

/-- The lowest height of the stack at each offset that a path reaches, none where none does. -/
structure LowestHeights (e : Executable) (r : Routine) (low : Nat → Option Nat)
    (deepest : Nat) : Prop where
  entry : ∃ k, low 0 = some k ∧ k ≤ r.arity
  arity_le : r.arity ≤ deepest
  real : ∀ {offset k}, low offset = some k → Reaches e r offset k
  passes : ∀ {offset k}, low offset = some k → ∃ i after, Passes e r.code offset k i after ∧
    after ≤ deepest ∧ ∀ offset', Leads i offset' → ∃ k', low offset' = some k' ∧ k' ≤ after

/-! ## One visit -/

theorem branchTarget_ok {code : Code} {boundaries : Std.TreeSet Nat} {operand : Operand}
    {targets : List Nat} (h : branchTarget code boundaries operand = .ok targets) :
    (∀ o, operand = .target o ↔ o ∈ targets) ∧ ∀ o ∈ targets, o < code.size := by
  cases operand with
  | target t =>
    simp only [branchTarget] at h
    split at h
    · cases h
    · split at h <;> cases h
      simp only [Operand.target.injEq, List.mem_singleton, eq_comm, implies_true, true_and]
      rintro o rfl
      omega
  | _ => cases h; simp

theorem fallThrough_ok {code : Code} {i : Instr} {targets : List Nat}
    (h : fallThrough code i = .ok targets) :
    (∀ o, i.op.isTerminator = false ∧ o = i.next ↔ o ∈ targets) ∧ ∀ o ∈ targets, o < code.size := by
  unfold fallThrough at h
  split at h
  · rename_i ht
    cases h
    simp [ht]
  · rename_i ht
    split at h <;> cases h
    simp only [ht, List.mem_singleton, true_and, implies_true, forall_eq]
    omega

/-- What a visit that raises no objection has made sure of. -/
theorem visit_ok {e : Executable} {code : Code} {boundaries : Std.TreeSet Nat}
    {offset height after : Nat} {successors : List Nat}
    (h : e.visit code boundaries offset height = .ok (after, successors)) :
    ∃ i, Passes e code offset height i after ∧ (∀ o, Leads i o ↔ o ∈ successors) ∧
      ∀ o ∈ successors, o < code.size := by
  unfold visit at h
  cases hi : code.decodeAt offset with
  | error err => rw [hi] at h; cases h
  | ok i =>
    simp only [hi, Except.mapError, bind, Except.bind] at h
    cases heff : e.effectOf i.op i.operand with
    | error o => rw [heff] at h; cases h
    | ok effect =>
      simp only [heff] at h
      split at h
      · cases h
      · rename_i hpops
        cases hb : branchTarget code boundaries i.operand with
        | error o => simp only [hb] at h; cases h
        | ok targets =>
          cases hf : fallThrough code i with
          | error o => simp only [hb, hf] at h; cases h
          | ok nexts =>
            simp only [hb, hf, pure, Except.pure, Except.ok.injEq, Prod.mk.injEq] at h
            obtain ⟨rfl, rfl⟩ := h
            obtain ⟨hb₁, hb₂⟩ := branchTarget_ok hb
            obtain ⟨hf₁, hf₂⟩ := fallThrough_ok hf
            refine ⟨i, ⟨hi, effect, heff, by omega, rfl⟩, fun o => ?_, fun o ho => ?_⟩
            · rw [List.mem_append, ← hb₁, ← hf₁]
              constructor
              · rintro (h | h)
                · exact .inl h
                · exact .inr ⟨h, rfl⟩
              · rintro (h | ⟨h, rfl⟩)
                · exact .target h
                · exact .next h
            · rcases List.mem_append.mp ho with ho | ho
              · exact hb₂ o ho
              · exact hf₂ o ho

/-! ## Arrivals -/

/-- What the arrivals at some offsets change: heights only go down, and what has changed is to be
visited. -/
structure Arrived (after : Nat) (offsets : List Nat) (search search' : Heights × List Nat) :
    Prop where
  size : search'.1.size = search.1.size
  pending : ∀ o ∈ search.2, o ∈ search'.2
  lower : ∀ {o k : Nat}, search.1[o]? = some (some k) →
    ∃ k', search'.1[o]? = some (some k') ∧ k' ≤ k
  changed : ∀ {o k : Nat}, search'.1[o]? = some (some k) →
    search.1[o]? = some (some k) ∨ o ∈ search'.2 ∧ o ∈ offsets ∧ k = after
  covers : ∀ o ∈ offsets, o < search.1.size → ∃ k, search'.1[o]? = some (some k) ∧ k ≤ after

theorem arrived_set {after offset : Nat} {search : Heights × List Nat}
    (hlt : offset < search.1.size)
    (hlow : ∀ k, search.1[offset]? = some (some k) → after < k) :
    Arrived after [offset] search
      (search.1.setIfInBounds offset (some after), offset :: search.2) := by
  refine ⟨by simp, fun o ho => List.mem_cons_of_mem _ ho, fun {o k} h => ?_, fun {o k} h => ?_,
    fun o ho _ => ?_⟩
  · by_cases ho : offset = o
    · subst ho
      exact ⟨after, by simp [hlt], Nat.le_of_lt (hlow k h)⟩
    · exact ⟨k, by simpa [Array.getElem?_setIfInBounds, ho] using h, Nat.le_refl k⟩
  · by_cases ho : offset = o
    · subst ho
      simp only [Array.getElem?_setIfInBounds, if_true, hlt, Option.some.injEq] at h
      exact .inr ⟨List.mem_cons_self, List.mem_singleton.mpr rfl, h.symm⟩
    · exact .inl (by simpa [Array.getElem?_setIfInBounds, ho] using h)
  · rw [List.mem_singleton.mp ho]
    exact ⟨after, by simp [hlt], Nat.le_refl after⟩

theorem arrived_arrive (after : Nat) (search : Heights × List Nat) (offset : Nat) :
    Arrived after [offset] search (Heights.arrive after search offset) := by
  have hsame : (offset < search.1.size → ∃ k, search.1[offset]? = some (some k) ∧ k ≤ after) →
      Arrived after [offset] search search := fun h =>
    ⟨rfl, fun _ h => h, fun {_ k} h => ⟨k, h, Nat.le_refl k⟩, fun h => .inl h,
      fun o ho hlt => by rw [List.mem_singleton.mp ho] at hlt ⊢; exact h hlt⟩
  unfold Heights.arrive
  split
  · rename_i h
    exact hsame fun hlt => absurd hlt (Nat.not_lt.mpr (Array.getElem?_eq_none_iff.mp h))
  · rename_i h
    exact arrived_set (Array.getElem?_eq_some_iff.mp h).1 fun k hk => by rw [h] at hk; cases hk
  · rename_i known h
    split
    · rename_i hle
      exact hsame fun _ => ⟨known, h, hle⟩
    · refine arrived_set (Array.getElem?_eq_some_iff.mp h).1 fun k hk => ?_
      rw [h] at hk
      cases hk
      omega

theorem arrived_foldl (after : Nat) (offsets : List Nat) (search : Heights × List Nat) :
    Arrived after offsets search (offsets.foldl (Heights.arrive after) search) := by
  induction offsets generalizing search with
  | nil =>
    exact ⟨rfl, fun _ h => h, fun {_ k} h => ⟨k, h, Nat.le_refl k⟩, fun h => .inl h,
      fun o ho => absurd ho List.not_mem_nil⟩
  | cons offset offsets ih =>
    have h₁ := arrived_arrive after search offset
    have h₂ := ih (Heights.arrive after search offset)
    rw [List.foldl_cons]
    refine ⟨h₂.size.trans h₁.size, fun o ho => h₂.pending o (h₁.pending o ho), fun h => ?_,
      fun h => ?_, fun o ho hlt => ?_⟩
    · obtain ⟨k₁, hk₁, hle₁⟩ := h₁.lower h
      obtain ⟨k₂, hk₂, hle₂⟩ := h₂.lower hk₁
      exact ⟨k₂, hk₂, Nat.le_trans hle₂ hle₁⟩
    · rcases h₂.changed h with h | ⟨hp, ho, hk⟩
      · rcases h₁.changed h with h | ⟨hp, ho, hk⟩
        · exact .inl h
        · exact .inr ⟨h₂.pending _ hp, List.mem_cons.mpr (.inl (List.mem_singleton.mp ho)), hk⟩
      · exact .inr ⟨hp, List.mem_cons_of_mem _ ho, hk⟩
    · rcases List.mem_cons.mp ho with rfl | ho
      · obtain ⟨k₁, hk₁, hle₁⟩ := h₁.covers o (List.mem_singleton.mpr rfl) hlt
        obtain ⟨k₂, hk₂, hle₂⟩ := h₂.lower hk₁
        exact ⟨k₂, hk₂, Nat.le_trans hle₂ hle₁⟩
      · exact h₂.covers o ho (h₁.size ▸ hlt)

/-! ## The search -/

/-- The instruction at an offset has been visited with height `k`, and what it leads to has been
reached at least as low. -/
def Settled (e : Executable) (r : Routine) (boundaries : Std.TreeSet Nat) (hs : Heights)
    (deepest offset k : Nat) : Prop :=
  ∃ after successors, e.visit r.code boundaries offset k = .ok (after, successors) ∧
    after ≤ deepest ∧ ∀ o ∈ successors, ∃ k' : Nat, hs[o]? = some (some k') ∧ k' ≤ after

/-- The invariant of the search: the heights are those of real paths, and each is settled unless
its offset is still to be visited. -/
structure SearchInv (e : Executable) (r : Routine) (boundaries : Std.TreeSet Nat) (hs : Heights)
    (pending : List Nat) (deepest : Nat) : Prop where
  size : hs.size = r.code.size
  entry : ∃ k : Nat, hs[0]? = some (some k) ∧ k ≤ r.arity
  arity_le : r.arity ≤ deepest
  real : ∀ {o k : Nat}, hs[o]? = some (some k) → Reaches e r o k
  closed : ∀ {o k : Nat}, hs[o]? = some (some k) →
    o ∈ pending ∨ Settled e r boundaries hs deepest o k

theorem SearchInv.visit {e : Executable} {r : Routine} {hs : Heights} {offset height after : Nat}
    {rest successors : List Nat} {deepest : Nat} {boundaries : Std.TreeSet Nat}
    (hinv : SearchInv e r boundaries hs (offset :: rest) deepest)
    (hheight : hs[offset]? = some (some height))
    (hvisit : e.visit r.code boundaries offset height = .ok (after, successors)) :
    SearchInv e r boundaries (successors.foldl (Heights.arrive after) (hs, rest)).1
      (successors.foldl (Heights.arrive after) (hs, rest)).2 (max deepest after) := by
  have harr := arrived_foldl after successors (hs, rest)
  obtain ⟨i, hpass, hleads, hlt⟩ := visit_ok hvisit
  refine ⟨harr.size.trans hinv.size, ?_, Nat.le_trans hinv.arity_le (Nat.le_max_left _ _),
    fun {o k} h => ?_, fun {o k} h => ?_⟩
  · obtain ⟨k, hk, hle⟩ := hinv.entry
    obtain ⟨k', hk', hle'⟩ := harr.lower hk
    exact ⟨k', hk', Nat.le_trans hle' hle⟩
  · rcases harr.changed h with h | ⟨-, ho, rfl⟩
    · exact hinv.real h
    · exact .step (hinv.real hheight) hpass ((hleads o).mpr ho)
  · rcases harr.changed h with h | ⟨hp, -, -⟩
    · rcases hinv.closed h with ho | ⟨after', successors', hvisit', hle', hnext⟩
      · rcases List.mem_cons.mp ho with rfl | ho
        · rw [hheight] at h
          cases h
          exact .inr ⟨after, successors, hvisit, Nat.le_max_right _ _, fun o' ho' =>
            harr.covers o' ho' (by rw [hinv.size]; exact hlt o' ho')⟩
        · exact .inl (harr.pending o ho)
      · refine .inr ⟨after', successors', hvisit', Nat.le_trans hle' (Nat.le_max_left _ _),
          fun o' ho' => ?_⟩
        obtain ⟨k', hk', hle⟩ := hnext o' ho'
        obtain ⟨k'', hk'', hle''⟩ := harr.lower hk'
        exact ⟨k'', hk'', Nat.le_trans hle'' hle⟩
    · exact .inl hp

theorem search_ok {e : Executable} {r : Routine} {boundaries : Std.TreeSet Nat} {hs : Heights}
    {pending : List Nat} {deepest d : Nat} (hinv : SearchInv e r boundaries hs pending deepest)
    (h : e.search r.code boundaries hs pending deepest = .ok d) :
    ∃ hs', SearchInv e r boundaries hs' [] d := by
  fun_induction e.search r.code boundaries hs pending deepest with
  | case1 hs deepest =>
    cases h
    exact ⟨hs, hinv⟩
  | case2 => cases h
  | case3 hs deepest offset rest height hheight after successors hvisit next ih =>
    exact ih (hinv.visit hheight hvisit) h
  | case4 hs deepest offset rest hno ih =>
    refine ih ⟨hinv.size, hinv.entry, hinv.arity_le, hinv.real, fun {o k} ho => ?_⟩ h
    rcases hinv.closed ho with hp | hs
    · rcases List.mem_cons.mp hp with rfl | hp
      · exact absurd ho (hno k)
      · exact .inl hp
    · exact .inr hs

theorem size_pos_of_instructions {code : Code} {instrs : Array Instr}
    (h : code.instructions = .ok instrs) (hne : instrs.isEmpty = false) : 0 < code.size := by
  by_cases hs : 0 < code.size
  · exact hs
  · rw [Code.instructions, Code.instructionsFrom, if_neg hs] at h
    cases h
    simp at hne

/-- The offsets where the instructions of a stream begin. -/
def boundariesOf (instrs : Array Instr) : Std.TreeSet Nat :=
  Std.TreeSet.ofList (instrs.toList.map (·.offset))

/-- Before the search, only the entry has been reached. -/
theorem entry_of_initial {size arity o k : Nat}
    (h : ((Array.replicate size (none : Option Nat)).setIfInBounds 0 (some arity))[o]? =
      some (some k)) : o = 0 ∧ k = arity := by
  rw [Array.getElem?_setIfInBounds] at h
  split at h
  · rename_i ho
    split at h
    · cases h
      exact ⟨ho.symm, rfl⟩
    · cases h
  · rw [Array.getElem?_replicate] at h
    split at h <;> cases h

/-- A function that passes has been searched to the end. -/
theorem searched_of_verifyRoutine {e : Executable} {r : Routine} {d : Nat}
    (h : e.verifyRoutine r = .ok d) : ∃ instrs hs, r.code.instructions = .ok instrs ∧
      0 < r.code.size ∧ SearchInv e r (boundariesOf instrs) hs [] d := by
  unfold verifyRoutine at h
  dsimp only at h
  split at h
  · cases h
  · rename_i instrs hi
    split at h
    · cases h
    · rename_i hne
      have hpos := size_pos_of_instructions hi (by simpa using hne)
      cases hs : e.search r.code (boundariesOf instrs)
          ((Array.replicate r.code.size none).setIfInBounds 0 (some r.arity)) [0] r.arity with
      | error o =>
        rw [boundariesOf] at hs
        rw [hs] at h
        cases h
      | ok d' =>
        obtain rfl : d' = d := by
          rw [boundariesOf] at hs
          rw [hs] at h
          cases h
          rfl
        obtain ⟨hs', hinv⟩ := search_ok (e := e) (r := r)
          ⟨by simp, ⟨r.arity, by simp [hpos], Nat.le_refl _⟩, Nat.le_refl _,
            fun hk => by obtain ⟨rfl, rfl⟩ := entry_of_initial hk; exact .entry,
            fun hk => .inl (by
              obtain ⟨rfl, -⟩ := entry_of_initial hk; exact List.mem_singleton.mpr rfl)⟩ hs
        exact ⟨instrs, hs', hi, hpos, hinv⟩

/-- **The search is sound**: a function that passes has its lowest heights below the depth that
verification gives. -/
theorem verifyRoutine_ok {e : Executable} {r : Routine} {d : Nat}
    (h : e.verifyRoutine r = .ok d) : ∃ low, LowestHeights e r low d := by
  obtain ⟨instrs, hs, -, -, hinv⟩ := searched_of_verifyRoutine h
  have hjoin : ∀ {o k : Nat}, hs[o]?.join = some k ↔ hs[o]? = some (some k) := by
    intro o k
    exact Option.join_eq_some_iff
  refine ⟨fun o => hs[o]?.join, ?_, hinv.arity_le, fun hk => hinv.real (hjoin.mp hk),
    fun hk => ?_⟩
  · obtain ⟨k, hk, hle⟩ := hinv.entry
    exact ⟨k, hjoin.mpr hk, hle⟩
  · rcases hinv.closed (hjoin.mp hk) with hp | ⟨after, successors, hvisit, hle, hnext⟩
    · exact absurd hp List.not_mem_nil
    · obtain ⟨i, hpass, hleads, -⟩ := visit_ok hvisit
      refine ⟨i, after, hpass, hle, fun o' ho' => ?_⟩
      obtain ⟨k', hk', hle'⟩ := hnext o' ((hleads o').mp ho')
      exact ⟨k', hjoin.mpr hk', hle'⟩

theorem forM_ok_iff {α ε : Type} {f : α → Except ε Unit} (l : List α) :
    l.forM f = .ok () ↔ ∀ a ∈ l, f a = .ok () := by
  induction l with
  | nil => exact ⟨fun _ _ h => absurd h List.not_mem_nil, fun _ => rfl⟩
  | cons a l ih =>
    change (f a >>= fun _ => l.forM f) = .ok () ↔ _
    rw [List.forall_mem_cons, ← ih]
    cases f a with
    | error err => exact ⟨fun h => (nomatch h), fun h => (nomatch h.1)⟩
    | ok u => exact ⟨fun h => ⟨rfl, h⟩, fun h => h.2⟩

/-- An executable passes if every function does. -/
theorem verify_ok_iff {e : Executable} :
    e.verify = .ok () ↔ ∀ r ∈ e.routines, ∃ d, e.verifyRoutine r = .ok d := by
  unfold verify
  rw [forM_ok_iff]
  refine forall_congr' fun r => ?_
  rw [Array.mem_toList_iff]
  refine imp_congr_right fun _ => ?_
  cases e.verifyRoutine r with
  | error err => exact ⟨fun h => (nomatch h), fun ⟨d, h⟩ => (nomatch h)⟩
  | ok d => exact ⟨fun _ => ⟨d, rfl⟩, fun _ => rfl⟩

/-- Below any height that a path really has, no path comes. -/
theorem LowestHeights.le_of_reaches {e : Executable} {r : Routine} {low : Nat → Option Nat}
    {d offset height : Nat} (hlow : LowestHeights e r low d) (h : Reaches e r offset height) :
    ∃ k, low offset = some k ∧ k ≤ height := by
  induction h with
  | entry => exact hlow.entry
  | step _ hp hl ih =>
    obtain ⟨k, hk, hle⟩ := ih
    obtain ⟨i, after, hpass, -, hnext⟩ := hlow.passes hk
    obtain ⟨effect, heff, hpops, rfl⟩ := hp.effect
    obtain ⟨effect', heff', hpops', rfl⟩ := hpass.effect
    obtain rfl : i = _ := Except.ok.inj (hpass.decode.symm.trans hp.decode)
    obtain rfl : effect' = effect := Except.ok.inj (heff'.symm.trans heff)
    obtain ⟨k', hk', hle'⟩ := hnext _ hl
    exact ⟨k', hk', by omega⟩

end StackLang.Executable
