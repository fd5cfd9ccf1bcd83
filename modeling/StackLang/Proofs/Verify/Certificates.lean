import StackLang.Proofs.Code.Joints
import StackLang.Proofs.Verify.Paths

/-!
# Certificates for the search

A height for every instruction of a function, with which each passes and hands on just the height
of what it leads to (`Certifies`), decides the search: `verifyRoutine_of_certifies` says that it
raises no objection, and `Certifies.height_of_reaches` that every path has the certificate's height.

Certificates are made from pieces. `Balanced e c start h stop exits` says that the code from `start`
to `stop`, entered with height `h`, has a certificate of its own and is left only for an offset and
with a height in `exits`; `Balanced.append` joins two pieces that are entered from each other.
-/

namespace StackLang

namespace Executable

/-! ## Pieces -/

/-- The instructions from `start` to `stop` pass with these heights, and lead to each other with
these heights or to an exit. -/
structure Piece (e : Executable) (c : Code) (heights : Nat → Option Nat)
    (exits : Nat → Nat → Prop) (start stop : Nat) : Prop where
  line : ∃ line, c.Line start line stop ∧
    ∀ {o k}, heights o = some k → o ∈ Code.lineOffsets start line
  passes : ∀ {o k}, heights o = some k → ∃ i after, Passes e c o k i after ∧
    ∀ o', Leads i o' → heights o' = some after ∨ exits o' after

/-- Code that, entered at its start with height `h`, is left only through an exit. -/
def Balanced (e : Executable) (c : Code) (start h stop : Nat) (exits : Nat → Nat → Prop) : Prop :=
  ∃ heights, Piece e c heights exits start stop ∧ (heights start = some h ∨ exits start h)

/-- The one exit at this offset with this height. -/
def exitAt (stop h : Nat) : Nat → Nat → Prop := fun o k => o = stop ∧ k = h

variable {e : Executable} {c : Code} {start middle stop h h' : Nat}
  {exits exits₁ exits₂ : Nat → Nat → Prop}

/-- Two pieces one behind the other. The first is left for the second; the second may lead back to
the start of the first. -/
theorem Balanced.append (h₁ : Balanced e c start h middle exits₁)
    (h₂ : Balanced e c middle h' stop exits₂)
    (hx₁ : ∀ o k, exits₁ o k → exitAt middle h' o k ∨ exits o k)
    (hx₂ : ∀ o k, exits₂ o k → exitAt start h o k ∧ ¬ exits₁ o k ∨ exits o k) :
    Balanced e c start h stop exits := by
  obtain ⟨H₁, ⟨⟨line₁, hline₁, hdom₁⟩, hpass₁⟩, hopen₁⟩ := h₁
  obtain ⟨H₂, ⟨⟨line₂, hline₂, hdom₂⟩, hpass₂⟩, hopen₂⟩ := h₂
  have hleft : ∀ {o k}, H₁ o = some k → (H₁ o).or (H₂ o) = some k := fun h => by simp [h]
  have hright : ∀ {o k}, H₂ o = some k → (H₁ o).or (H₂ o) = some k := by
    intro o k h
    cases hn : H₁ o with
    | none => simpa using h
    | some k' =>
      have := hline₁.bounds (hdom₁ hn)
      have := hline₂.bounds (hdom₂ h)
      omega
  have hexit₂ : ∀ o k, exits₂ o k → (H₁ o).or (H₂ o) = some k ∨ exits o k := by
    intro o k hx
    rcases hx₂ o k hx with ⟨⟨rfl, rfl⟩, hnot⟩ | hx
    · exact .inl (hleft (hopen₁.resolve_right hnot))
    · exact .inr hx
  have hexit₁ : ∀ o k, exits₁ o k → (H₁ o).or (H₂ o) = some k ∨ exits o k := by
    intro o k hx
    rcases hx₁ o k hx with ⟨rfl, rfl⟩ | hx
    · rcases hopen₂ with h | h
      · exact .inl (hright h)
      · exact hexit₂ _ _ h
    · exact .inr hx
  refine ⟨fun o => (H₁ o).or (H₂ o), ⟨⟨line₁ ++ line₂, hline₁.append hline₂, fun {o k} h => ?_⟩,
    fun {o k} h => ?_⟩, ?_⟩
  · rw [Code.lineOffsets_append hline₁, List.mem_append]
    rcases Option.or_eq_some_iff.mp h with h | ⟨-, h⟩
    · exact .inl (hdom₁ h)
    · exact .inr (hdom₂ h)
  · rcases Option.or_eq_some_iff.mp h with h | ⟨-, h⟩
    · obtain ⟨i, after, hpass, hnext⟩ := hpass₁ h
      refine ⟨i, after, hpass, fun o' ho' => ?_⟩
      exact (hnext o' ho').elim (fun h => .inl (hleft h)) (hexit₁ _ _)
    · obtain ⟨i, after, hpass, hnext⟩ := hpass₂ h
      refine ⟨i, after, hpass, fun o' ho' => ?_⟩
      exact (hnext o' ho').elim (fun h => .inl (hright h)) (hexit₂ _ _)
  · exact hopen₁.elim (fun h => .inl (hleft h)) (hexit₁ _ _)

/-- Two pieces of which the second does not lead back. -/
theorem Balanced.seq (h₁ : Balanced e c start h middle (exitAt middle h'))
    (h₂ : Balanced e c middle h' stop exits) : Balanced e c start h stop exits :=
  h₁.append h₂ (fun _ _ => .inl) fun _ _ => .inr

theorem Balanced.mono (hb : Balanced e c start h stop exits₁)
    (hx : ∀ o k, exits₁ o k → exits o k) : Balanced e c start h stop exits := by
  obtain ⟨H, ⟨hline, hpass⟩, hopen⟩ := hb
  refine ⟨H, ⟨hline, fun ho => ?_⟩, hopen.imp_right (hx _ _)⟩
  obtain ⟨i, after, hp, hnext⟩ := hpass ho
  exact ⟨i, after, hp, fun o' ho' => (hnext o' ho').imp_right (hx _ _)⟩

theorem Balanced.le (hb : Balanced e c start h stop exits) : start ≤ stop := by
  obtain ⟨-, ⟨⟨line, hline, -⟩, -⟩, -⟩ := hb
  exact hline.le

theorem balanced_nil (start h : Nat) : Balanced e c start h start (exitAt start h) :=
  ⟨fun _ => none, ⟨⟨[], rfl, nofun⟩, nofun⟩, .inr ⟨rfl, rfl⟩⟩

/-- One instruction. -/
theorem balanced_instr {op : Opcode} {x : Operand} {effect : Effect} (hat : c.At start op x)
    (heffect : e.effectOf op x = .ok effect) (hpops : effect.pops ≤ h)
    (hnext : op.isTerminator = false → exits (start + op.width) (h - effect.pops + effect.pushes))
    (htarget : ∀ o, x = .target o → exits o (h - effect.pops + effect.pushes)) :
    Balanced e c start h (start + op.width) exits := by
  refine ⟨fun o => if o = start then some h else none, ⟨⟨[(op, x)], ⟨hat, rfl⟩, fun {o k} ho => ?_⟩,
    fun {o k} ho => ?_⟩, .inl (if_pos rfl)⟩
  · split at ho
    · rename_i heq
      exact List.mem_singleton.mpr heq
    · cases ho
  · split at ho
    · rename_i heq
      cases ho
      subst heq
      refine ⟨⟨o, op, x⟩, _, ⟨hat, effect, heffect, hpops, rfl⟩, fun o' ho' => .inr ?_⟩
      cases ho' with
      | target hx => exact htarget o' hx
      | next hterm => exact hnext hterm
    · cases ho

/-- A line of instructions takes the height from `h` to `h'`; its branches lead to exits. -/
inductive Steady (e : Executable) (exits : Nat → Nat → Prop) :
    Nat → List (Opcode × Operand) → Nat → Prop
  | nil {h : Nat} : Steady e exits h [] h
  | cons {h h' : Nat} {op : Opcode} {x : Operand} {line : List (Opcode × Operand)}
      {effect : Effect} (heffect : e.effectOf op x = .ok effect) (hpops : effect.pops ≤ h)
      (hterm : op.isTerminator = false)
      (htarget : ∀ o, x = .target o → exits o (h - effect.pops + effect.pushes))
      (hrest : Steady e exits (h - effect.pops + effect.pushes) line h') :
      Steady e exits h ((op, x) :: line) h'
  | last {h h' : Nat} {op : Opcode} {x : Operand} {effect : Effect}
      (heffect : e.effectOf op x = .ok effect) (hpops : effect.pops ≤ h)
      (hterm : op.isTerminator = true)
      (htarget : ∀ o, x = .target o → exits o (h - effect.pops + effect.pushes)) :
      Steady e exits h [(op, x)] h'

/-- An instruction without an operand, before a line. -/
theorem Steady.op {op : Opcode} {effect : Effect} {line : List (Opcode × Operand)} {h' : Nat}
    (heffect : op.effect = some effect) (hpops : effect.pops ≤ h)
    (hterm : op.isTerminator = false)
    (hrest : Steady e exits (h - effect.pops + effect.pushes) line h') :
    Steady e exits h ((op, .none) :: line) h' :=
  .cons (by simp only [effectOf, plainEffect, heffect]) hpops hterm nofun hrest

theorem Steady.append {xs ys : List (Opcode × Operand)} {h₁ h₂ h₃ : Nat}
    (hxs : Steady e exits h₁ xs h₂) (hterm : ∀ x ∈ xs, x.1.isTerminator = false)
    (hys : Steady e exits h₂ ys h₃) : Steady e exits h₁ (xs ++ ys) h₃ := by
  induction hxs with
  | nil => exact hys
  | cons heffect hpops hop htarget _ ih =>
    exact .cons heffect hpops hop htarget (ih (fun x hx => hterm x (List.mem_cons_of_mem _ hx)) hys)
  | last _ _ hop _ => exact absurd ((hterm _ List.mem_cons_self).symm.trans hop) nofun

/-- A line is left at its end or by a branch. -/
theorem balanced_line {line : List (Opcode × Operand)} (hline : c.Line start line stop)
    (hs : Steady e exits h line h') :
    Balanced e c start h stop (fun o k => exits o k ∨ exitAt stop h' o k) := by
  induction hs generalizing start with
  | nil =>
    cases hline
    exact (balanced_nil _ _).mono fun _ _ => .inr
  | @cons h h' op x line effect heffect hpops hop htarget _ ih =>
    have hfirst : Balanced e c _ h _ fun o k =>
        exits o k ∨ exitAt _ (h - effect.pops + effect.pushes) o k :=
      balanced_instr hline.1 heffect hpops (fun _ => .inr ⟨rfl, rfl⟩)
        fun o ho => .inl (htarget o ho)
    refine hfirst.append (ih hline.2) (fun o k hx => ?_) fun _ _ => .inr
    exact hx.elim (fun hx => .inr (.inl hx)) .inl
  | last heffect hpops hop htarget =>
    obtain rfl : _ = stop := hline.2
    exact balanced_instr hline.1 heffect hpops (fun hnot => absurd (hop.symm.trans hnot) nofun)
      fun o ho => .inl (htarget o ho)

/-- No branches. -/
theorem balanced_plain {line : List (Opcode × Operand)} (hline : c.Line start line stop)
    (hs : Steady e (fun _ _ => False) h line h') : Balanced e c start h stop (exitAt stop h') :=
  (balanced_line hline hs).mono fun _ _ hx => hx.resolve_left id

/-! ## Whole functions -/

/-- The heights of a function's instructions. -/
structure Certifies (e : Executable) (r : Routine) (heights : Nat → Option Nat) : Prop where
  entry : heights 0 = some r.arity
  line : ∃ line, r.code.Line 0 line r.code.size ∧
    ∀ {o k}, heights o = some k → o ∈ Code.lineOffsets 0 line
  passes : ∀ {o k}, heights o = some k → ∃ i after, Passes e r.code o k i after ∧
    ∀ o', Leads i o' → heights o' = some after

theorem certifies_of_balanced {r : Routine}
    (hb : Balanced e r.code 0 r.arity r.code.size fun _ _ => False) :
    ∃ heights, Certifies e r heights := by
  obtain ⟨H, ⟨hline, hpass⟩, hopen⟩ := hb
  refine ⟨H, hopen.resolve_right id, hline, fun ho => ?_⟩
  obtain ⟨i, after, hp, hnext⟩ := hpass ho
  exact ⟨i, after, hp, fun o' ho' => (hnext o' ho').resolve_right id⟩

/-- **All paths to an instruction come with the same height.** -/
theorem Certifies.height_of_reaches {r : Routine} {heights : Nat → Option Nat}
    (hc : Certifies e r heights) {offset height : Nat} (h : Reaches e r offset height) :
    heights offset = some height := by
  induction h with
  | entry => exact hc.entry
  | step _ hp hl ih =>
    obtain ⟨i, after, hpass, hnext⟩ := hc.passes ih
    obtain ⟨effect, heff, hpops, rfl⟩ := hp.effect
    obtain ⟨effect', heff', hpops', rfl⟩ := hpass.effect
    obtain rfl : i = _ := Except.ok.inj (hpass.decode.symm.trans hp.decode)
    obtain rfl : effect' = effect := Except.ok.inj (heff'.symm.trans heff)
    exact hnext _ hl

/-- Where all paths agree, none goes above the depth that verification gives. -/
theorem Certifies.le_depth_of_reaches {r : Routine} {heights : Nat → Option Nat} {d : Nat}
    (hc : Certifies e r heights) (hd : e.verifyRoutine r = .ok d) {offset height : Nat}
    (h : Reaches e r offset height) : height ≤ d := by
  obtain ⟨low, hlow⟩ := verifyRoutine_ok hd
  cases h with
  | entry => exact hlow.arity_le
  | @step offset' _ height' _ i h hp hl =>
    obtain ⟨k, hk, -⟩ := hlow.le_of_reaches h
    have hsame := (hc.height_of_reaches (hlow.real hk)).symm.trans (hc.height_of_reaches h)
    obtain rfl := Option.some.inj hsame
    obtain ⟨i', after, hpass, hle, -⟩ := hlow.passes hk
    obtain ⟨effect, heff, -, rfl⟩ := hp.effect
    obtain ⟨effect', heff', -, rfl⟩ := hpass.effect
    obtain rfl : i' = _ := Except.ok.inj (hpass.decode.symm.trans hp.decode)
    obtain rfl : effect' = effect := Except.ok.inj (heff'.symm.trans heff)
    exact hle

theorem visit_of_passes {boundaries : Std.TreeSet Nat} {offset height after : Nat} {i : Instr}
    (hp : Passes e c offset height i after)
    (htarget : ∀ o, i.operand = .target o → o < c.size ∧ boundaries.contains o = true)
    (hnext : i.op.isTerminator = false → i.next < c.size) :
    ∃ successors, e.visit c boundaries offset height = .ok (after, successors) ∧
      ∀ o ∈ successors, Leads i o := by
  obtain ⟨effect, heffect, hpops, rfl⟩ := hp.effect
  obtain ⟨branch, hbranch⟩ : ∃ branch, branchTarget c boundaries i.operand = .ok branch := by
    cases hx : i.operand with
    | target o =>
      obtain ⟨hlt, hmem⟩ := htarget o hx
      exact ⟨[o], by rw [branchTarget, if_neg (Nat.not_le.mpr hlt), if_pos hmem]⟩
    | _ => exact ⟨[], rfl⟩
  obtain ⟨next, hfall⟩ : ∃ next, fallThrough c i = .ok next := by
    unfold fallThrough
    cases hterm : i.op.isTerminator with
    | true => exact ⟨[], rfl⟩
    | false =>
      have := hnext hterm
      exact ⟨[i.next], by rw [if_neg Bool.false_ne_true, if_neg (Nat.not_le.mpr this)]⟩
  refine ⟨branch ++ next, ?_, fun o ho => ?_⟩
  · unfold visit
    simp only [hp.decode, Except.mapError, heffect, bind, Except.bind]
    rw [if_neg (Nat.not_lt.mpr hpops)]
    simp only [pure, Except.pure, hbranch, hfall]
  · rcases List.mem_append.mp ho with ho | ho
    · exact .target (((branchTarget_ok hbranch).1 o).mpr ho)
    · obtain ⟨hterm, rfl⟩ := ((fallThrough_ok hfall).1 o).mpr ho
      exact .next hterm

/-- Heights at offsets that no visit objects to, and that lead only to each other. -/
structure Closed (e : Executable) (c : Code) (boundaries : Std.TreeSet Nat)
    (heights : Nat → Nat → Prop) : Prop where
  passes : ∀ {o k}, heights o k → ∃ i after, Passes e c o k i after ∧
    ∀ o', Leads i o' → heights o' after
  targets : ∀ {o k i t}, heights o k → c.decodeAt o = .ok i → i.operand = .target t →
    t < c.size ∧ boundaries.contains t = true
  next : ∀ {o k i}, heights o k → c.decodeAt o = .ok i → i.op.isTerminator = false →
    i.next < c.size

/-- **The search raises no objection** among heights that are closed. -/
theorem search_of_closed {heights : Nat → Nat → Prop} {boundaries : Std.TreeSet Nat}
    (hc : Closed e c boundaries heights) {hs : Heights} {pending : List Nat} {deepest : Nat}
    (hinv : ∀ {o k : Nat}, hs[o]? = some (some k) → heights o k) :
    ∃ d, e.search c boundaries hs pending deepest = .ok d := by
  have hok : ∀ {o k : Nat}, heights o k → ∃ after successors,
      e.visit c boundaries o k = .ok (after, successors) ∧
      ∀ o' ∈ successors, heights o' after := by
    intro o k ho
    obtain ⟨i, after, hp, hnext⟩ := hc.passes ho
    obtain ⟨successors, hvisit, hleads⟩ := visit_of_passes hp
      (fun t => hc.targets ho hp.decode) (hc.next ho hp.decode)
    exact ⟨after, successors, hvisit, fun o' ho' => hnext o' (hleads o' ho')⟩
  fun_induction e.search c boundaries hs pending deepest with
  | case1 hs deepest => exact ⟨_, rfl⟩
  | case2 hs deepest offset rest height hheight objection hvisit =>
    obtain ⟨after, successors, hvisit', -⟩ := hok (hinv hheight)
    rw [hvisit] at hvisit'
    cases hvisit'
  | case3 hs deepest offset rest height hheight after successors hvisit next ih =>
    obtain ⟨after', successors', hvisit', hnext⟩ := hok (hinv hheight)
    rw [hvisit] at hvisit'
    cases hvisit'
    refine ih fun {o k} ho => ?_
    rcases (arrived_foldl after successors (hs, rest)).changed ho with ho | ⟨-, hmem, heq⟩
    · exact hinv ho
    · exact heq ▸ hnext o hmem
  | case4 hs deepest offset rest hno ih => exact ih hinv

/-- A function passes if heights that are closed hold its entry. -/
theorem verifyRoutine_of_closed {r : Routine} {instrs : Array Instr}
    {heights : Nat → Nat → Prop} (hread : r.code.instructions = .ok instrs)
    (hne : instrs.isEmpty = false) (hentry : heights 0 r.arity)
    (hc : Closed e r.code (boundariesOf instrs) heights) : ∃ d, e.verifyRoutine r = .ok d := by
  obtain ⟨d, hd⟩ : ∃ d, e.search r.code (boundariesOf instrs)
      ((Array.replicate r.code.size none).setIfInBounds 0 (some r.arity)) [0] r.arity = .ok d :=
    search_of_closed hc fun hk => by
      obtain ⟨rfl, rfl⟩ := entry_of_initial hk
      exact hentry
  refine ⟨d, ?_⟩
  rw [boundariesOf] at hd
  unfold verifyRoutine
  simp only [hread, hne, hd, Except.mapError]
  rfl

/-- **A function with a certificate passes.** -/
theorem verifyRoutine_of_certifies {r : Routine} {heights : Nat → Option Nat}
    (hc : Certifies e r heights) : ∃ d, e.verifyRoutine r = .ok d := by
  obtain ⟨line, hline, hdom⟩ := hc.line
  obtain ⟨instrs, hread, hoffsets, -⟩ := Code.instructionsFrom_of_line hline #[]
  rw [Array.empty_append] at hread
  have hzero := hdom hc.entry
  have hne : instrs.isEmpty = false := by
    cases hi : instrs.toList with
    | nil =>
      rw [hi] at hoffsets
      rw [← hoffsets] at hzero
      cases hzero
    | cons i is =>
      rw [Array.isEmpty_eq_false_iff]
      rintro rfl
      cases hi
  have hin : ∀ {o k}, heights o = some k → o < r.code.size ∧
      (boundariesOf instrs).contains o = true := by
    intro o k ho
    refine ⟨(hline.bounds (hdom ho)).2, ?_⟩
    rw [boundariesOf, Std.TreeSet.contains_ofList, hoffsets, List.contains_iff_mem]
    exact hdom ho
  have hleads : ∀ {o k i o'}, heights o = some k → r.code.decodeAt o = .ok i → Leads i o' →
      o' < r.code.size ∧ (boundariesOf instrs).contains o' = true := by
    intro o k i o' ho hi hl
    obtain ⟨i', after, hp, hnext⟩ := hc.passes ho
    obtain rfl : i' = i := Except.ok.inj (hp.decode.symm.trans hi)
    exact hin (hnext o' hl)
  exact verifyRoutine_of_closed hread hne hc.entry
    ⟨hc.passes, fun ho hi ht => hleads ho hi (.target ht), fun ho hi ht => (hleads ho hi (.next ht)).1⟩

end Executable

end StackLang
