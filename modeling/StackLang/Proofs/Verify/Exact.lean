import StackLang.Proofs.Verify.Certificates

/-!
# Verification is exact

`PathTo e r offset height` is the control flow of a function by itself: a path from the entry comes
to this offset with this height, whatever verification has to say about it. `Legal` is what an
instruction may do there. `verifyRoutine_exact`: verification ends, and a function passes exactly
if it is not empty, decodes as a whole and is legal wherever a path comes.

* Ending: `verifyRoutineWithin` is verification with a bound on the rounds of its two loops. Some
  bound is as good as none.
* Soundness: where the search has settled, no path comes with less than the lowest height, and what
  is legal with that height is legal with any greater one (`legal_of_visit`).
* Completeness: the heights of legal paths are closed (`closed_of_legal`), so that no visit objects.
-/

namespace StackLang

/-! ## Legal instructions -/

/-- The entry of a table that an operand names exists. -/
def Operand.Exists (e : Executable) : Operand → Prop
  | .function id => (e.routine? id).isSome
  | .native id => (e.native? id).isSome
  | .string id => (e.strings.get? id).isSome
  | .var addr => addr.scope.toNat < e.scopeCount
  | _ => True

/-- What an instruction takes from the operand stack and leaves on it. For a call, the signature of
the callee says it. -/
inductive Instr.Takes (e : Executable) (i : Instr) : Effect → Prop
  | call {id : UInt16} {callee : Routine} (hi : i.operand = .function id)
      (hc : e.routine? id = some callee) :
      Takes e i ⟨callee.arity, if callee.returnsValue then 1 else 0⟩
  | callNative {id : UInt16} {native : NativeDecl} (hi : i.operand = .native id)
      (hn : e.native? id = some native) :
      Takes e i ⟨native.params.length, if native.result.isValue then 1 else 0⟩
  | plain {effect : Effect} (h : i.op.effect = some effect) : Takes e i effect

namespace Executable

/-- A path of control flow from the entry of a function comes to this offset, and the operand stack
has this height there. -/
inductive PathTo (e : Executable) (r : Routine) : Nat → Nat → Prop
  | entry : PathTo e r 0 r.arity
  | step {offset height offset' : Nat} {i : Instr} {effect : Effect} (h : PathTo e r offset height)
      (hi : r.code.decodeAt offset = .ok i) (he : i.Takes e effect) (hl : Leads i offset') :
      PathTo e r offset' (height - effect.pops + effect.pushes)

/-- The instruction at an offset may be executed with this height of the stack: what it names
exists, it finds its operands, it branches to where an instruction of the stream begins, and it
does not run off the end. -/
structure Legal (e : Executable) (code : Code) (instrs : Array Instr) (offset height : Nat)
    (i : Instr) : Prop where
  decode : code.decodeAt offset = .ok i
  named : i.operand.Exists e
  operands : ∃ effect, i.Takes e effect ∧ effect.pops ≤ height
  target : ∀ t, i.operand = .target t → t < code.size ∧ ∃ j ∈ instrs, j.offset = t
  next : i.op.isTerminator = false → i.next < code.size

theorem plainEffect_ok_iff {op : Opcode} {effect : Effect} :
    plainEffect op = .ok effect ↔ op.effect = some effect := by
  unfold plainEffect
  split
  · rename_i effect' h
    rw [h, Except.ok.injEq, Option.some.injEq]
  · rename_i h
    simp only [h, reduceCtorEq]

theorem effect_none_of_call {op : Opcode} (h : op.operandKind = .function ∨ op.operandKind = .native) :
    op.effect = none := by
  cases op <;> simp [Opcode.operandKind] at h <;> rfl

/-- Verification takes for the effect of an instruction what it does, if what it names exists. -/
theorem effectOf_ok_iff {e : Executable} {i : Instr} {effect : Effect}
    (hkind : i.operand.kind = i.op.operandKind) :
    e.effectOf i.op i.operand = .ok effect ↔ i.operand.Exists e ∧ i.Takes e effect := by
  have hplain : (∀ id, i.operand ≠ .function id) → (∀ id, i.operand ≠ .native id) →
      (i.op.effect = some effect ↔ i.Takes e effect) := by
    intro hf hn
    refine ⟨.plain, fun h => ?_⟩
    cases h with
    | call hi => exact absurd hi (hf _)
    | callNative hi => exact absurd hi (hn _)
    | plain h => exact h
  cases hx : i.operand with
  | function id =>
    have hnone : i.op.effect = none := effect_none_of_call (.inl (by rw [← hkind, hx]; rfl))
    simp only [effectOf, Operand.Exists]
    constructor
    · intro h
      split at h
      · rename_i callee hc
        cases h
        exact ⟨by rw [hc]; rfl, .call hx hc⟩
      · cases h
    · rintro ⟨-, h⟩
      cases h with
      | call hi hc =>
        obtain rfl : id = _ := Operand.function.inj (hx.symm.trans hi)
        rw [hc]
      | callNative hi => cases hx.symm.trans hi
      | plain h => cases hnone.symm.trans h
  | native id =>
    have hnone : i.op.effect = none := effect_none_of_call (.inr (by rw [← hkind, hx]; rfl))
    simp only [effectOf, Operand.Exists]
    constructor
    · intro h
      split at h
      · rename_i native hn
        cases h
        exact ⟨by rw [hn]; rfl, .callNative hx hn⟩
      · cases h
    · rintro ⟨-, h⟩
      cases h with
      | call hi => cases hx.symm.trans hi
      | callNative hi hn =>
        obtain rfl : id = _ := Operand.native.inj (hx.symm.trans hi)
        rw [hn]
      | plain h => cases hnone.symm.trans h
  | string id =>
    have hp := hplain (by simp [hx]) (by simp [hx])
    simp only [effectOf, Operand.Exists]
    cases hs : e.strings.get? id with
    | none => simp
    | some text => simpa [plainEffect_ok_iff] using hp
  | var addr =>
    have hp := hplain (by simp [hx]) (by simp [hx])
    simp only [effectOf, Operand.Exists]
    split
    · rename_i h
      simp only [reduceCtorEq, false_iff, not_and]
      omega
    · rename_i h
      rw [plainEffect_ok_iff, hp]
      exact ⟨fun ht => ⟨by omega, ht⟩, And.right⟩
  | _ =>
    have hp := hplain (by simp [hx]) (by simp [hx])
    simp only [effectOf, Operand.Exists, plainEffect_ok_iff, hp, true_and]

theorem mem_boundariesOf {instrs : Array Instr} {o : Nat} :
    (boundariesOf instrs).contains o = true ↔ ∃ j ∈ instrs, j.offset = o := by
  rw [boundariesOf, Std.TreeSet.contains_ofList, List.contains_iff_mem]
  simp

variable {e : Executable} {r : Routine} {instrs : Array Instr} {offset height : Nat}

/-- What an instruction takes is settled. -/
theorem takes_unique {i : Instr} {effect effect' : Effect}
    (hkind : i.operand.kind = i.op.operandKind) (hnamed : i.operand.Exists e)
    (h : i.Takes e effect) (h' : i.Takes e effect') : effect = effect' :=
  Except.ok.inj (((effectOf_ok_iff hkind).mpr ⟨hnamed, h⟩).symm.trans
    ((effectOf_ok_iff hkind).mpr ⟨hnamed, h'⟩))

/-! ## Soundness -/

/-- What raises no objection is legal, also with a greater height. -/
theorem legal_of_visit {low after : Nat} {successors : List Nat}
    (h : e.visit r.code (boundariesOf instrs) offset low = .ok (after, successors))
    (hle : low ≤ height) :
    ∃ i, Legal e r.code instrs offset height i ∧ (∀ o, Leads i o → o ∈ successors) ∧
      ∀ effect, i.Takes e effect → after ≤ height - effect.pops + effect.pushes := by
  obtain ⟨i, hp, hleads, hlt⟩ := visit_ok h
  obtain ⟨-, hkind, -⟩ := Code.decodeAt_cases hp.decode
  obtain ⟨effect, heff, hpops, rfl⟩ := hp.effect
  obtain ⟨hnamed, htakes⟩ := (effectOf_ok_iff hkind).mp heff
  have htargets : ∀ t, i.operand = .target t → (boundariesOf instrs).contains t = true := by
    intro t ht
    unfold visit at h
    simp only [hp.decode, Except.mapError, bind, Except.bind, heff] at h
    rw [if_neg (Nat.not_lt.mpr hpops)] at h
    simp only [pure, Except.pure, ht, branchTarget] at h
    by_cases hsize : r.code.size ≤ t
    · rw [if_pos hsize] at h
      cases h
    · rw [if_neg hsize] at h
      by_cases hin : (boundariesOf instrs).contains t = true
      · exact hin
      · rw [if_neg hin] at h
        cases h
  refine ⟨i, ⟨hp.decode, hnamed, ⟨effect, htakes, by omega⟩, fun t ht => ?_, fun ht => ?_⟩,
    fun o ho => (hleads o).mp ho, fun effect' htakes' => ?_⟩
  · exact ⟨hlt t ((hleads t).mp (.target ht)), mem_boundariesOf.mp (htargets t ht)⟩
  · exact hlt _ ((hleads _).mp (.next ht))
  · obtain rfl := takes_unique hkind hnamed htakes htakes'
    omega

/-- No path comes below the heights of a search that has come to its end. -/
theorem SearchInv.le_of_pathTo {hs : Heights} {d : Nat}
    (hinv : SearchInv e r (boundariesOf instrs) hs [] d) (h : PathTo e r offset height) :
    ∃ k : Nat, hs[offset]? = some (some k) ∧ k ≤ height := by
  induction h with
  | entry => exact hinv.entry
  | step _ hi htakes hl ih =>
    obtain ⟨k, hk, hle⟩ := ih
    obtain ⟨after, successors, hvisit, -, hnext⟩ := (hinv.closed hk).resolve_left List.not_mem_nil
    obtain ⟨i, hlegal, hleads, hafter⟩ := legal_of_visit hvisit hle
    obtain rfl : i = _ := Except.ok.inj (hlegal.decode.symm.trans hi)
    obtain ⟨k', hk', hle'⟩ := hnext _ (hleads _ hl)
    exact ⟨k', hk', Nat.le_trans hle' (hafter _ htakes)⟩

/-- A search that has come to its end has found every path legal. -/
theorem SearchInv.legal {hs : Heights} {d : Nat}
    (hinv : SearchInv e r (boundariesOf instrs) hs [] d) (h : PathTo e r offset height) :
    ∃ i, Legal e r.code instrs offset height i := by
  obtain ⟨k, hk, hle⟩ := hinv.le_of_pathTo h
  obtain ⟨after, successors, hvisit, -, -⟩ := (hinv.closed hk).resolve_left List.not_mem_nil
  obtain ⟨i, hlegal, -, -⟩ := legal_of_visit hvisit hle
  exact ⟨i, hlegal⟩

/-! ## Completeness -/

/-- If every path is legal, the heights of the paths are closed. -/
theorem closed_of_legal
    (h : ∀ offset height, PathTo e r offset height → ∃ i, Legal e r.code instrs offset height i) :
    Closed e r.code (boundariesOf instrs) (PathTo e r) := by
  refine ⟨fun {o k} ho => ?_, fun {o k i t} ho hi ht => ?_, fun {o k i} ho hi ht => ?_⟩
  · obtain ⟨i, hlegal⟩ := h o k ho
    obtain ⟨-, hkind, -⟩ := Code.decodeAt_cases hlegal.decode
    obtain ⟨effect, htakes, hpops⟩ := hlegal.operands
    have heff := (effectOf_ok_iff hkind).mpr ⟨hlegal.named, htakes⟩
    exact ⟨i, _, ⟨hlegal.decode, effect, heff, hpops, rfl⟩,
      fun o' hl => ho.step hlegal.decode htakes hl⟩
  · obtain ⟨i', hlegal⟩ := h o k ho
    obtain rfl : i' = i := Except.ok.inj (hlegal.decode.symm.trans hi)
    obtain ⟨hlt, hmem⟩ := hlegal.target t ht
    exact ⟨hlt, mem_boundariesOf.mpr hmem⟩
  · obtain ⟨i', hlegal⟩ := h o k ho
    obtain rfl : i' = i := Except.ok.inj (hlegal.decode.symm.trans hi)
    exact hlegal.next ht

end Executable

theorem Code.size_le_of_instructionsFrom {c : Code} {offset : Nat} {read instrs : Array Instr}
    (h : c.instructionsFrom offset read = .ok instrs) : read.size ≤ instrs.size := by
  fun_induction c.instructionsFrom offset read with
  | case1 => cases h
  | case2 offset read _ i _ ih =>
    have := ih h
    rw [Array.size_push] at this
    omega
  | case3 => cases h; exact Nat.le_refl _

/-- A stream that is not empty has an instruction. -/
theorem Code.isEmpty_of_instructions {c : Code} {instrs : Array Instr}
    (h : c.instructions = .ok instrs) (hpos : 0 < c.size) : instrs.isEmpty = false := by
  rw [instructions, instructionsFrom, if_pos hpos] at h
  split at h
  · cases h
  · have := size_le_of_instructionsFrom h
    rw [Array.size_push, Array.size_empty] at this
    rw [Array.isEmpty_eq_false_iff, ← Array.size_pos_iff]
    omega

/-! ## Rounds -/

/-- Reading the stream in at most so many rounds; none if they are used up before. -/
def Code.instructionsWithin (c : Code) : Nat → Nat → Array Instr →
    Option (Except DecodeError (Array Instr))
  | 0, _, _ => none
  | rounds + 1, offset, read =>
    if offset < c.size then
      match c.decodeAt offset with
      | .error err => some (.error err)
      | .ok i => c.instructionsWithin rounds (offset + i.op.width) (read.push i)
    else some (.ok read)

/-- A round for each byte is enough. -/
theorem Code.instructionsWithin_eq (c : Code) {rounds offset : Nat} (read : Array Instr)
    (h : c.size - offset < rounds) :
    c.instructionsWithin rounds offset read = some (c.instructionsFrom offset read) := by
  induction rounds generalizing offset read with
  | zero => omega
  | succ rounds ih =>
    rw [instructionsWithin, instructionsFrom]
    split
    · cases hi : c.decodeAt offset with
      | error err => rfl
      | ok i =>
        have hpos := width_pos i.op
        exact ih (read.push i) (by omega)
    · rfl

namespace Executable

/-- The search in at most so many rounds. -/
def searchWithin (e : Executable) (code : Code) (boundaries : Std.TreeSet Nat) :
    Nat → Heights → List Nat → Nat → Option (Except (Nat × Objection) Nat)
  | 0, _, _, _ => none
  | _ + 1, _, [], deepest => some (.ok deepest)
  | rounds + 1, hs, offset :: rest, deepest =>
    match hs[offset]? with
    | some (some height) =>
      match e.visit code boundaries offset height with
      | .error objection => some (.error (offset, objection))
      | .ok (after, successors) =>
        let next := successors.foldl (Heights.arrive after) (hs, rest)
        e.searchWithin code boundaries rounds next.1 next.2 (max deepest after)
    | _ => e.searchWithin code boundaries rounds hs rest deepest

/-- The search ends. Each round makes the heights smaller or the pending offsets fewer. -/
theorem searchWithin_eq (e : Executable) (code : Code) (boundaries : Std.TreeSet Nat)
    (hs : Heights) (pending : List Nat) (deepest : Nat) :
    ∃ n, ∀ rounds, n ≤ rounds → e.searchWithin code boundaries rounds hs pending deepest =
      some (e.search code boundaries hs pending deepest) := by
  have hsucc : ∀ {n rounds : Nat}, n + 1 ≤ rounds → ∃ m, rounds = m + 1 ∧ n ≤ m := by
    intro n rounds h
    exact ⟨rounds - 1, by omega, by omega⟩
  fun_induction e.search code boundaries hs pending deepest with
  | case1 hs deepest =>
    refine ⟨1, fun rounds h => ?_⟩
    obtain ⟨m, rfl, -⟩ := hsucc h
    rfl
  | case2 hs deepest offset rest height hheight objection hvisit =>
    refine ⟨1, fun rounds h => ?_⟩
    obtain ⟨m, rfl, -⟩ := hsucc h
    simp only [searchWithin, hheight, hvisit]
  | case3 hs deepest offset rest height hheight after successors hvisit next ih =>
    obtain ⟨n, hn⟩ := ih
    refine ⟨n + 1, fun rounds h => ?_⟩
    obtain ⟨m, rfl, hm⟩ := hsucc h
    simp only [searchWithin, hheight, hvisit]
    exact hn m hm
  | case4 hs deepest offset rest hno ih =>
    obtain ⟨n, hn⟩ := ih
    refine ⟨n + 1, fun rounds h => ?_⟩
    obtain ⟨m, rfl, hm⟩ := hsucc h
    rw [searchWithin]
    split
    · rename_i height hheight
      exact absurd hheight (hno height)
    · exact hn m hm

/-- Verification of a function with at most so many rounds for each of its two loops, the reading of
the stream and the search. -/
def verifyRoutineWithin (e : Executable) (rounds : Nat) (r : Routine) :
    Option (Except VerifyError Nat) :=
  let fail (offset : Nat) (objection : Objection) : VerifyError := ⟨r.name, offset, objection⟩
  (r.code.instructionsWithin rounds 0 #[]).bind fun
    | .error err => some (.error (fail 0 (.undecodable err)))
    | .ok instrs =>
      if instrs.isEmpty then some (.error (fail 0 .empty))
      else
        let boundaries := Std.TreeSet.ofList (instrs.toList.map (·.offset))
        let heights := (Array.replicate r.code.size none).setIfInBounds 0 (some r.arity)
        (e.searchWithin r.code boundaries rounds heights [0] r.arity).map fun result =>
          result.mapError fun (offset, o) => fail offset o

theorem verifyRoutineWithin_eq (e : Executable) (r : Routine) :
    ∃ n, ∀ rounds, n ≤ rounds → e.verifyRoutineWithin rounds r = some (e.verifyRoutine r) := by
  cases hi : r.code.instructions with
  | error err =>
    refine ⟨r.code.size + 1, fun rounds h => ?_⟩
    rw [verifyRoutineWithin, Code.instructionsWithin_eq _ _ (by omega), verifyRoutine, hi]
    rw [Code.instructions] at hi
    rw [hi]
    rfl
  | ok instrs =>
    obtain ⟨n, hn⟩ := searchWithin_eq e r.code (Std.TreeSet.ofList (instrs.toList.map (·.offset)))
      ((Array.replicate r.code.size none).setIfInBounds 0 (some r.arity)) [0] r.arity
    refine ⟨max n (r.code.size + 1), fun rounds h => ?_⟩
    rw [verifyRoutineWithin, Code.instructionsWithin_eq _ _ (by omega), verifyRoutine, hi]
    rw [Code.instructions] at hi
    rw [hi, Option.bind_some]
    dsimp only
    rw [hn rounds (by omega), Option.map_some]
    split <;> rfl

/-- **Verification of a function ends, and it is exact**: the function passes if and only if its
code is not empty, decodes as a whole, and holds a legal instruction wherever a path comes, with
whatever height it comes there. -/
theorem verifyRoutine_exact (e : Executable) (r : Routine) :
    (∃ n, ∀ rounds, n ≤ rounds → e.verifyRoutineWithin rounds r = some (e.verifyRoutine r)) ∧
    ((∃ d, e.verifyRoutine r = .ok d) ↔
      0 < r.code.size ∧ ∃ instrs, r.code.instructions = .ok instrs ∧
        ∀ offset height, PathTo e r offset height →
          ∃ i, Legal e r.code instrs offset height i) := by
  refine ⟨verifyRoutineWithin_eq e r, ?_, ?_⟩
  · rintro ⟨d, h⟩
    obtain ⟨instrs, hs, hread, hpos, hinv⟩ := searched_of_verifyRoutine h
    exact ⟨hpos, instrs, hread, fun _ _ hpath => hinv.legal hpath⟩
  · rintro ⟨hpos, instrs, hread, hlegal⟩
    exact verifyRoutine_of_closed hread (Code.isEmpty_of_instructions hread hpos) .entry
      (closed_of_legal hlegal)

end Executable

end StackLang
