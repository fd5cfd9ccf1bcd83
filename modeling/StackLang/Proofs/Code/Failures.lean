import StackLang.Proofs.Code.Calls

/-!
# Calls that fail

A call that fails may leave its mark on the builder, and the client may go on. `Fails` lists the
failures with what each of them leaves: a branch that cannot be finished leaves its opcode, and a
label that is too far from a branch has got its place all the same, while the branches that waited
for it wait no more. They have the distance zero for good, so each of them leads to its own operand.

`Tidy` is what all calls keep, those that fail included. As the branches that wait for a label are
in the order of their writing, the first one is the farthest (`forM_resolve_cases_of_sorted`): if
any of them is too far away no operand is filled in. `at_of_run` follows one branch through the
calls behind it.
-/

namespace StackLang.Builder

variable {b b' : Builder} {l : Label} {target source : Nat} {e : Cause} {made : List Label}

/-! ## Filling in -/

theorem distance_cases (source target : Nat) :
    (∃ d, distance source target = .ok d) ∨
      distance source target = .error (.branchTooFar source target) := by
  unfold distance
  dsimp only
  split_ifs
  · exact .inl ⟨_, rfl⟩
  · exact .inr rfl

/-- Between a place and one behind it the distance is the smaller. -/
theorem distance_ok_of_le {source' : Nat} {d : Int16} (h : distance source target = .ok d)
    (hle : source ≤ source') (hle' : source' ≤ target) : ∃ d', distance source' target = .ok d' := by
  unfold distance at h ⊢
  dsimp only at h ⊢
  split_ifs at h with hfit
  rw [Int16.toInt_maxValue, Int16.toInt_minValue] at *
  rw [if_pos (by omega)]
  exact ⟨_, rfl⟩

theorem forM_resolve_ok {uses : List Nat}
    (h : ∀ source ∈ uses, ∃ d, distance source target = .ok d) (b : Builder) :
    ∃ b', uses.forM (resolve target) b = .ok () b' := by
  induction uses generalizing b with
  | nil => exact ⟨b, rfl⟩
  | cons source uses ih =>
    obtain ⟨hd, hrest⟩ := List.forall_mem_cons.mp h
    obtain ⟨d, hd⟩ := hd
    change ∃ b', (resolve target source >>= fun _ => uses.forM (resolve target)) b = .ok () b'
    simp only [Bind.bind, EStateM.bind, resolve, hd]
    exact ih hrest _

/-- If any branch is too far away the oldest one is, and none is filled in. -/
theorem forM_resolve_cases_of_sorted {uses : List Nat} (hsorted : uses.Pairwise (· < ·))
    (hle : ∀ source ∈ uses, source ≤ target) (b : Builder) :
    ((∀ source ∈ uses, ∃ d, distance source target = .ok d) ∧
        ∃ b', uses.forM (resolve target) b = .ok () b') ∨
      ∃ source, source ∈ uses ∧ (∀ s ∈ uses, source ≤ s) ∧
        distance source target = .error (.branchTooFar source target) ∧
        uses.forM (resolve target) b = .error (.branchTooFar source target) b := by
  cases uses with
  | nil => exact .inl ⟨fun _ h => (nomatch h), b, rfl⟩
  | cons source uses =>
    have holdest : ∀ s ∈ source :: uses, source ≤ s := List.forall_mem_cons.mpr
      ⟨Nat.le_refl _, fun s hs => Nat.le_of_lt ((List.pairwise_cons.mp hsorted).1 s hs)⟩
    rcases distance_cases source target with ⟨d, hd⟩ | hd
    · have hfit : ∀ s ∈ source :: uses, ∃ d, distance s target = .ok d :=
        fun s hs => distance_ok_of_le hd (holdest s hs) (hle s hs)
      exact .inl ⟨hfit, forM_resolve_ok hfit b⟩
    · refine .inr ⟨source, List.mem_cons_self, holdest, hd, ?_⟩
      change (resolve target source >>= fun _ => uses.forM (resolve target)) b = _
      simp only [Bind.bind, EStateM.bind, resolve, hd]
      rfl

/-! ## What failing calls leave -/

/-- Branches that wait have the distance zero, and those that wait for one label stand in the order
of their writing. -/
structure Tidy (b : Builder) : Prop where
  sound : b.Sound
  sorted : ∀ {i : Nat} {slot : LabelSlot}, b.labels[i]? = some slot → slot.uses.Pairwise (· < ·)
  zero : ∀ {l source}, b.Waits l source →
    ∀ i < 2, b.bytes[source + i]? = (distanceBytes 0)[i]?

theorem tidy_empty : Tidy {} :=
  ⟨sound_empty, fun h => (nomatch h), fun ⟨_, h, _⟩ => (nomatch h)⟩

/-- The call fails in this way and leaves `b'`. -/
inductive Fails (b : Builder) : Call → Cause → Builder → Prop
  | bindUnknown {l : Label} (unknown : b.labels[l.index]? = none) :
    Fails b (.bind l) (unknownLabel l) b
  | bindTwice {l : Label} {target : Nat} (placed : b.position? l = some target) :
    Fails b (.bind l) (.internal s!"label {l.index} bound twice") b
  /-- The label has its place from now on, and no branch waits for it. -/
  | bindTooFar {l : Label} {source : Nat} (waits : b.Waits l source)
    (oldest : ∀ s, b.Waits l s → source ≤ s)
    (far : distance source b.position = .error (.branchTooFar source b.position)) :
    Fails b (.bind l) (.branchTooFar source b.position) (b.placing l)
  | notBranch {op : Opcode} {l : Label} (hop : op.isBranch = false) :
    Fails b (.branch op l) (.internal s!"{op.mnemonic} is not a branch") b
  /-- The opcode stays. -/
  | branchUnknown {op : Opcode} {l : Label} (hop : op.isBranch = true)
    (unknown : b.labels[l.index]? = none) :
    Fails b (.branch op l) (unknownLabel l) (b.pushing op)
  /-- The opcode stays. -/
  | branchTooFar {op : Opcode} {l : Label} {target : Nat} (hop : op.isBranch = true)
    (placed : b.position? l = some target)
    (far : distance (b.position + 1) target = .error (.branchTooFar (b.position + 1) target)) :
    Fails b (.branch op l) (.branchTooFar (b.position + 1) target) (b.pushing op)

/-- The call fails with this cause only after it has changed the builder. -/
def Call.marks : Call → Cause → Bool
  | .bind _, .branchTooFar .. => true
  | .branch o _, _ => o.isBranch
  | _, _ => false

theorem pushing_ne (b : Builder) (op : Opcode) : b.pushing op ≠ b := fun h => by
  have hsize := congrArg position h
  simp [position, pushing] at hsize

theorem placing_ne (h : b.Waits l source) : b.placing l ≠ b := by
  obtain ⟨slot, hslot, hpos, -⟩ := h
  intro heq
  have hplace := position?_placing hslot l
  rw [heq, position?, hslot, if_pos rfl] at hplace
  cases hpos.symm.trans hplace

theorem Fails.eq_iff {call : Call} (h : Fails b call e b') : b' = b ↔ call.marks e = false := by
  cases h with
  | bindUnknown | bindTwice => exact iff_of_true rfl rfl
  | notBranch hop => exact iff_of_true rfl hop
  | bindTooFar waits => exact iff_of_false (placing_ne waits) (ne_false_of_eq_true rfl)
  | branchUnknown hop | branchTooFar hop =>
    exact iff_of_false (pushing_ne _ _) (ne_false_of_eq_true hop)

theorem position?_eq_some_iff :
    b.position? l = some target ↔
      ∃ slot, b.labels[l.index]? = some slot ∧ slot.position = some target :=
  Option.bind_eq_some_iff

/-- A label that there is and that has no place is bound, or a branch is too far away. -/
theorem Tidy.bind_cases {slot : LabelSlot} (h : Tidy b) (hslot : b.labels[l.index]? = some slot)
    (hpos : slot.position = none) :
    ((∀ source, b.Waits l source → ∃ d, distance source b.position = .ok d) ∧
        ∃ b', bind l b = .ok () b') ∨
      ∃ source, bind l b = .error (.branchTooFar source b.position) (b.placing l) ∧
        Fails b (.bind l) (.branchTooFar source b.position) (b.placing l) := by
  have hwait : ∀ source, b.Waits l source ↔ source ∈ slot.uses := fun source =>
    ⟨fun ⟨slot', hslot', _, hs⟩ => by rwa [Option.some.inj (hslot.symm.trans hslot')],
      fun hs => ⟨slot, hslot, hpos, hs⟩⟩
  rw [bind_of_open hslot hpos]
  have hle : ∀ source ∈ slot.uses, source ≤ b.position := fun source hs => by
    have := h.sound.inside ((hwait source).mpr hs)
    omega
  rcases forM_resolve_cases_of_sorted (h.sorted hslot) hle (b.placing l) with
    ⟨hfit, hok⟩ | ⟨source, hs, holdest, hfar, herror⟩
  · exact .inl ⟨fun source hw => hfit source ((hwait source).mp hw), hok⟩
  · exact .inr ⟨source, herror, .bindTooFar ((hwait _).mpr hs)
      (fun s hw => holdest s ((hwait s).mp hw)) hfar⟩

theorem boundLabel_ok (b : Builder) : ∃ l b', boundLabel b = .ok l b' := by
  have hslot : (b.labels.push {})[b.labels.size]? = some {} := by simp
  have hbind := bind_of_open (b := { b with labels := b.labels.push {} })
    (l := ⟨b.labels.size⟩) hslot rfl
  unfold boundLabel
  simp only [Bind.bind, EStateM.bind, newLabel, modifyGet, MonadStateOf.modifyGet,
    EStateM.modifyGet, hbind]
  exact ⟨_, _, rfl⟩

theorem bind_error_iff (h : Tidy b) :
    bind l b = .error e b' ↔ Fails b (.bind l) e b' := by
  constructor
  · intro herror
    cases hslot : b.labels[l.index]? with
    | none =>
      rw [bind_of_unknown hslot] at herror
      cases herror
      exact .bindUnknown hslot
    | some slot =>
      cases hpos : slot.position with
      | some target =>
        rw [bind_of_placed hslot hpos] at herror
        cases herror
        exact .bindTwice (position?_eq_some_iff.mpr ⟨slot, hslot, hpos⟩)
      | none =>
        rcases h.bind_cases hslot hpos with ⟨-, b₁, hok⟩ | ⟨source, hfar, hfails⟩
        · rw [hok] at herror
          cases herror
        · rw [hfar] at herror
          cases herror
          exact hfails
  · intro hfails
    cases hfails with
    | bindUnknown unknown => exact bind_of_unknown unknown
    | bindTwice placed =>
      obtain ⟨slot, hslot, hpos⟩ := position?_eq_some_iff.mp placed
      exact bind_of_placed hslot hpos
    | bindTooFar waits oldest far =>
      obtain ⟨slot, hslot, hpos, -⟩ := id waits
      rcases h.bind_cases hslot hpos with ⟨hfit, -⟩ | ⟨source', hfar, hfails⟩
      · obtain ⟨d, hd⟩ := hfit _ waits
        rw [hd] at far
        cases far
      · cases hfails with
        | bindTooFar waits' oldest' =>
          rwa [Nat.le_antisymm (oldest _ waits') (oldest' _ waits)]

theorem addBranch_error_iff {op : Opcode} :
    addBranch op l b = .error e b' ↔ Fails b (.branch op l) e b' := by
  constructor
  · intro herror
    cases hop : op.isBranch with
    | false =>
      rw [addBranch_of_not_branch hop] at herror
      cases herror
      exact .notBranch hop
    | true =>
      rw [addBranch_of_branch hop] at herror
      cases hslot : b.labels[l.index]? with
      | none =>
        rw [hslot] at herror
        cases herror
        exact .branchUnknown hop hslot
      | some slot =>
        rw [hslot] at herror
        dsimp only at herror
        cases hpos : slot.position with
        | none => rw [hpos] at herror; cases herror
        | some target =>
          rw [hpos] at herror
          dsimp only at herror
          rcases distance_cases (b.position + 1) target with ⟨d, hd⟩ | hfar
          · rw [hd] at herror
            cases herror
          · rw [hfar] at herror
            cases herror
            exact .branchTooFar hop (position?_eq_some_iff.mpr ⟨slot, hslot, hpos⟩) hfar
  · intro hfails
    cases hfails with
    | notBranch hop => exact addBranch_of_not_branch hop
    | branchUnknown hop unknown => rw [addBranch_of_branch hop, unknown]
    | branchTooFar hop placed far =>
      obtain ⟨slot, hslot, hpos⟩ := position?_eq_some_iff.mp placed
      rw [addBranch_of_branch hop, hslot]
      dsimp only
      rw [hpos]
      dsimp only
      rw [far]

/-- A call fails in these ways only, and leaves what `Fails` says. -/
theorem Tidy.step_error_iff {call : Call} (h : Tidy b) :
    call.step b = .error e b' ↔ Fails b call e b' := by
  cases call with
  | op op => exact ⟨fun h => (nomatch h), fun h => (nomatch h)⟩
  | field f =>
    refine ⟨fun h => ?_, fun h => (nomatch h)⟩
    have := error_bind_pure_iff.mp h
    rw [Field.step_eq] at this
    cases this
  | newLabel => exact ⟨fun h => (nomatch h), fun h => (nomatch h)⟩
  | boundLabel =>
    refine ⟨fun h => ?_, fun h => (nomatch h)⟩
    obtain ⟨l, b₁, hok⟩ := boundLabel_ok b
    rw [error_bind_pure_iff.mp h] at hok
    cases hok
  | bind l => exact error_bind_pure_iff.trans (bind_error_iff h)
  | branch op l => exact error_bind_pure_iff.trans addBranch_error_iff

/-! ## What all calls keep -/

theorem Tidy.of_appends {bytes : List UInt8} (h : Tidy b) (happ : Appends b bytes b') : Tidy b' where
  sound := (happ.extends h.sound).after
  sorted hslot := h.sorted (happ.labels ▸ hslot)
  zero {l source} hw i hi := by
    have hw : b.Waits l source := by simpa only [Waits, happ.labels] using hw
    have := h.sound.inside hw
    have hlt : source + i < b.bytes.toList.length := by
      rw [Array.length_toList]
      exact Nat.lt_of_lt_of_le (Nat.add_lt_add_left hi source) this
    rw [← h.zero hw i hi, ← Array.getElem?_toList, happ.bytes, List.getElem?_append_left hlt,
      Array.getElem?_toList]

theorem Tidy.newLabel (h : Tidy b) (hl : newLabel b = .ok l b') : Tidy b' := by
  obtain ⟨hext, hpos⟩ := extends_newLabel h.sound hl
  refine ⟨hext.after, fun {i slot} hslot => ?_, fun {l' source} hw => ?_⟩
  · cases hl
    rw [Array.getElem?_push] at hslot
    split at hslot
    · cases hslot
      exact .nil
    · exact h.sorted hslot
  · have := hext.after.inside hw
    have hold := hext.old hw (by omega)
    cases hl
    exact h.zero hold

theorem Tidy.placing {slot : LabelSlot} (h : Tidy b) (hslot : b.labels[l.index]? = some slot)
    (hpos : slot.position = none) : Tidy (b.placing l) := by
  refine ⟨(keeps_placing h.sound hslot hpos).after, fun {i slot'} hslot' => ?_, fun hw =>
    h.zero ((waits_placing hslot _ _).mp hw).2⟩
  rw [getElem?_placing hslot] at hslot'
  split at hslot'
  · cases hslot'
    exact .nil
  · exact h.sorted hslot'

theorem Tidy.bind (h : Tidy b) (hl : bind l b = .ok () b') : Tidy b' := by
  obtain ⟨slot, hslot, hpos⟩ := open_of_bind hl
  have hf := filled_of_bind h.sound hslot hpos hl
  refine ⟨(extends_bind h.sound hl).1.after, fun hslot' => ?_, fun {l' source} hw i hi => ?_⟩
  · rw [hf.labels] at hslot'
    exact (h.placing hslot hpos).sorted hslot'
  · have hw : (b.placing l).Waits l' source := by simpa only [Waits, hf.labels] using hw
    obtain ⟨hne, hw⟩ := (waits_placing hslot _ _).mp hw
    rw [hf.others fun s hs => ?_]
    · exact h.zero hw i hi
    · rcases h.sound.apart hw ⟨slot, hslot, hpos, hs⟩ with ⟨hl, -⟩ | hap | hap
      · exact absurd hl hne
      · exact .inl (by omega)
      · exact .inr (by omega)

theorem Tidy.addBranch {op : Opcode} (h : Tidy b) (hl : addBranch op l b = .ok () b') : Tidy b' := by
  obtain ⟨-, slot, hslot, ⟨target, d, -, -, happ⟩ | ⟨hpos, rfl⟩⟩ := of_addBranch hl
  · exact h.of_appends happ
  have hpost := postpones_postponing hslot hpos op
  have hext := hpost.extends h.sound
  have hlt := (Array.getElem?_eq_some_iff.mp hslot).1
  refine ⟨hext.after, fun {i slot'} hslot' => ?_, fun {l' source} hw i hi => ?_⟩
  · simp only [postponing, Array.getElem?_setIfInBounds, hlt, if_true] at hslot'
    split at hslot'
    · cases hslot'
      refine List.pairwise_append.mpr ⟨h.sorted hslot, List.pairwise_singleton .., fun s hs s' hs' => ?_⟩
      cases List.mem_singleton.mp hs'
      have := h.sound.inside ⟨slot, hslot, hpos, hs⟩
      omega
    · exact h.sorted hslot'
  · have hlen : b.bytes.toList.length = b.position := Array.length_toList
    rw [← Array.getElem?_toList, hpost.bytes]
    rcases (hpost.waits _ _).mp hw with hw | ⟨-, rfl⟩
    · have := h.sound.inside hw
      rw [List.getElem?_append_left (by omega), Array.getElem?_toList, h.zero hw i hi]
    · rw [List.getElem?_append_right (by omega), hlen, Nat.add_right_comm, Nat.add_assoc,
        Nat.add_sub_cancel_left, List.getElem?_cons_succ]

/-- The builder after a call, whether it fails or not. -/
def Call.after (call : Call) (b : Builder) : Builder :=
  match call.step b with
  | .ok _ b' => b'
  | .error _ b' => b'

theorem Tidy.step_ok {call : Call} (h : Tidy b) (hstep : call.step b = .ok made b') :
    Tidy b' ∧ b.Extends b' := by
  cases call with
  | op op =>
    obtain ⟨_, hop, -⟩ := ok_of_bind_pure hstep
    have happ := appends_addOp hop
    exact ⟨h.of_appends happ, happ.extends h.sound⟩
  | field f =>
    obtain ⟨_, hf, -⟩ := ok_of_bind_pure hstep
    rw [Field.step_eq] at hf
    have happ := appends_addBytes hf
    exact ⟨h.of_appends happ, happ.extends h.sound⟩
  | newLabel =>
    obtain ⟨l, hl, -⟩ := ok_of_bind_pure hstep
    exact ⟨h.newLabel hl, (extends_newLabel h.sound hl).1⟩
  | boundLabel =>
    obtain ⟨l, hl, -⟩ := ok_of_bind_pure hstep
    obtain ⟨b₁, hn, hbind⟩ := bind_of_boundLabel hl
    exact ⟨(h.newLabel hn).bind hbind, (extends_boundLabel h.sound hl).1⟩
  | bind l =>
    obtain ⟨_, hl, -⟩ := ok_of_bind_pure hstep
    exact ⟨h.bind hl, (extends_bind h.sound hl).1⟩
  | branch op l =>
    obtain ⟨_, hl, -⟩ := ok_of_bind_pure hstep
    exact ⟨h.addBranch hl, (extends_addBranch h.sound hl).1⟩

theorem appends_pushing (b : Builder) (op : Opcode) : Appends b [op.toByte] (b.pushing op) :=
  ⟨by simp [pushing], rfl⟩

theorem Fails.tidy {call : Call} (hf : Fails b call e b') (h : Tidy b) : Tidy b' ∧ b.Keeps b' := by
  cases hf with
  | bindUnknown | bindTwice | notBranch => exact ⟨h, .refl h.sound⟩
  | bindTooFar waits =>
    obtain ⟨slot, hslot, hpos, -⟩ := waits
    exact ⟨h.placing hslot hpos, keeps_placing h.sound hslot hpos⟩
  | branchUnknown | branchTooFar =>
    exact ⟨h.of_appends (appends_pushing ..), ((appends_pushing ..).extends h.sound).keeps⟩

/-- A call, whether it fails or not. -/
theorem Tidy.after (h : Tidy b) (call : Call) : Tidy (call.after b) ∧ b.Keeps (call.after b) := by
  unfold Call.after
  cases hstep : call.step b with
  | ok made b' => exact (h.step_ok hstep).imp_right Extends.keeps
  | error e b' => exact (h.step_error_iff.mp hstep).tidy h

/-! ## Runs -/

/-- The builder after these calls, those that fail among them. -/
def run (b : Builder) (calls : List Call) : Builder := calls.foldl (fun b call => call.after b) b

theorem Tidy.run (h : Tidy b) (calls : List Call) : Tidy (b.run calls) ∧ b.Keeps (b.run calls) := by
  induction calls generalizing b with
  | nil => exact ⟨h, .refl h.sound⟩
  | cons call calls ih =>
    obtain ⟨hafter, hkeeps⟩ := h.after call
    exact (ih hafter).imp_right hkeeps.trans

/-- The call cannot bind `l`, as a branch is too far away. -/
def Call.misses (call : Call) (l : Label) (b : Builder) : Bool :=
  match call, call.step b with
  | .bind l', .error (.branchTooFar ..) _ => l' = l
  | _, _ => false

/-- One of the calls cannot bind `l`, as a branch is too far away. -/
def misses (l : Label) : Builder → List Call → Bool
  | _, [] => false
  | b, call :: calls => call.misses l b || misses l (call.after b) calls

/-! ## One branch -/

/-- These bytes stand at `start` for good. -/
def Fixed (b : Builder) (start : Nat) (bytes : List UInt8) : Prop :=
  ∀ k < bytes.length, start + k < b.position ∧ b.Settled (start + k) ∧
    b.bytes[start + k]? = bytes[k]?

theorem Fixed.keeps {start : Nat} {bytes : List UInt8} (h : b.Fixed start bytes)
    (hk : b.Keeps b') : b'.Fixed start bytes := by
  intro k hlt
  obtain ⟨hpos, hs, hbyte⟩ := h k hlt
  exact ⟨Nat.lt_of_lt_of_le hpos hk.size, hk.settled hpos hs, (hk.bytes hpos hs).trans hbyte⟩

variable {start : Nat} {op : Opcode} {d : Int16} {calls : List Call}

/-- The branch at `start` waits for its label. -/
structure Pending (b : Builder) (start : Nat) (op : Opcode) (l : Label) : Prop where
  code : b.Fixed start [op.toByte]
  waits : b.Waits l (start + 1)

/-- The branch at `start` has this distance for good, and its label is at `target`. -/
structure Closed (b : Builder) (start : Nat) (op : Opcode) (l : Label) (target : Nat)
    (d : Int16) : Prop where
  code : b.Fixed start (op.toByte :: distanceBytes d)
  placed : b.position? l = some target

theorem Closed.keeps (h : b.Closed start op l target d) (hk : b.Keeps b') :
    b'.Closed start op l target d :=
  ⟨h.code.keeps hk, hk.bound h.placed⟩

theorem fixed_cons {byte : UInt8} {bytes : List UInt8} (h : b.Fixed start [byte])
    (h' : b.Fixed (start + 1) bytes) : b.Fixed start (byte :: bytes) := by
  intro k hk
  cases k with
  | zero => exact h 0 Nat.zero_lt_one
  | succ k =>
    rw [← Nat.add_assoc, Nat.add_right_comm, List.getElem?_cons_succ]
    exact h' k (Nat.lt_of_succ_lt_succ hk)

theorem Call.misses_iff {call : Call} : call.misses l b = true ↔
    call = .bind l ∧ ∃ source target b', call.step b = .error (.branchTooFar source target) b' := by
  unfold Call.misses
  split
  · rename_i l' source target b' hstep
    simp only [decide_eq_true_eq, Call.bind.injEq]
    exact ⟨fun hl => ⟨hl, _, _, _, hstep⟩, And.left⟩
  · rename_i hother
    simp only [Bool.false_eq_true, false_iff]
    rintro ⟨rfl, source, target, b', hstep⟩
    exact hother _ _ _ _ rfl hstep

theorem not_waits_of_placed (hl : b.position? l = some target) : ¬ b.Waits l source := by
  rintro ⟨slot, hslot, hpos, -⟩
  simp [position?, hslot, hpos] at hl

/-- A label that has a place is not missed. -/
theorem Tidy.not_misses {call : Call} (h : Tidy b) (hl : b.position? l = some target) :
    call.misses l b = false := by
  by_contra hmiss
  obtain ⟨rfl, source, target', b', hstep⟩ := Call.misses_iff.mp (Bool.not_eq_false _ ▸ hmiss)
  cases h.step_error_iff.mp hstep with
  | bindTooFar waits => exact not_waits_of_placed hl waits

theorem Closed.run (h : Tidy b) (hc : b.Closed start op l target d) (calls : List Call) :
    (b.run calls).Closed start op l target d ∧ misses l b calls = false := by
  induction calls generalizing b with
  | nil => exact ⟨hc, rfl⟩
  | cons call calls ih =>
    obtain ⟨hafter, hkeeps⟩ := h.after call
    obtain ⟨hrun, hmiss⟩ := ih hafter (hc.keeps hkeeps)
    exact ⟨hrun, by rw [misses, h.not_misses hc.placed, hmiss]; rfl⟩

/-- A branch that its label is too far away from keeps the distance zero. -/
theorem Pending.missed (h : Tidy b) (hp : b.Pending start op l) :
    (b.placing l).Closed start op l b.position 0 := by
  obtain ⟨slot, hslot, hpos, -⟩ := id hp.waits
  have hcode := hp.code.keeps (keeps_placing h.sound hslot hpos)
  refine ⟨fixed_cons hcode fun k hk => ?_, ?_⟩
  · have hk : k < 2 := by simpa [distanceBytes] using hk
    have hin := h.sound.inside hp.waits
    refine ⟨Nat.lt_of_lt_of_le (Nat.add_lt_add_left hk _) hin, fun l' s hw => ?_,
      h.zero hp.waits k hk⟩
    -- No branch that still waits has its distance there.
    obtain ⟨hne, hw⟩ := (waits_placing hslot _ _).mp hw
    rcases h.sound.apart hp.waits hw with ⟨hl, -⟩ | hap | hap
    · exact absurd hl.symm hne
    · exact .inl (by omega)
    · exact .inr (by omega)
  · rw [position?_placing hslot, if_pos rfl]

/-- What comes of a branch that waits: its label is given a place within its reach, or one that is
too far away and leaves it as it is. -/
theorem Pending.after (h : Tidy b) (hp : b.Pending start op l) (call : Call) :
    (call.after b).Pending start op l ∧ call.misses l b = false ∨
      ∃ target d, (call.after b).Closed start op l target d ∧
        if call.misses l b then d = 0 else distance (start + 1) target = .ok d := by
  unfold Call.after
  cases hstep : call.step b with
  | ok made b' =>
    dsimp only
    have hext := (h.step_ok hstep).2
    have hmiss : call.misses l b = false := by
      by_contra hmiss
      obtain ⟨-, _, _, _, herror⟩ := Call.misses_iff.mp (Bool.not_eq_false _ ▸ hmiss)
      rw [hstep] at herror
      cases herror
    rcases hext.waits hp.waits with hw | hr
    · exact .inl ⟨⟨hp.code.keeps hext.keeps, hw⟩, hmiss⟩
    · obtain ⟨target, d, hplace, hd, hbytes⟩ := id hr
      refine .inr ⟨target, d, ⟨fixed_cons (hp.code.keeps hext.keeps) fun k hk => ?_, hplace⟩, ?_⟩
      · have hk : k < 2 := by simpa [distanceBytes] using hk
        have := h.sound.inside hp.waits
        have := hext.size
        exact ⟨by omega, hext.settled_of_resolved hp.waits hr hk, hbytes k hk⟩
      · rwa [hmiss, if_neg Bool.false_ne_true]
  | error e b' =>
    dsimp only
    have hfails := h.step_error_iff.mp hstep
    have hcode := hp.code.keeps (hfails.tidy h).2
    cases hfails with
    | bindUnknown | bindTwice =>
      exact .inl ⟨⟨hcode, hp.waits⟩, by simp [Call.misses, hstep, unknownLabel]⟩
    | notBranch | branchUnknown | branchTooFar =>
      exact .inl ⟨⟨hcode, hp.waits⟩, rfl⟩
    | @bindTooFar l' source waits _ _ =>
      obtain ⟨slot, hslot, hpos, -⟩ := waits
      by_cases hl : l = l'
      · subst hl
        refine .inr ⟨b.position, 0, hp.missed h, ?_⟩
        rw [if_pos (Call.misses_iff.mpr ⟨rfl, _, _, _, hstep⟩)]
      · refine .inl ⟨⟨hcode, (waits_placing hslot _ _).mpr ⟨hl, hp.waits⟩⟩, ?_⟩
        simp [Call.misses, hstep, Ne.symm hl]

/-- A branch that waits, and the calls behind it. -/
theorem Pending.run (h : Tidy b) (hp : b.Pending start op l) (calls : List Call) :
    (b.run calls).Pending start op l ∨
      ∃ target d, (b.run calls).Closed start op l target d ∧
        if misses l b calls then d = 0 else distance (start + 1) target = .ok d := by
  induction calls generalizing b with
  | nil => exact .inl hp
  | cons call calls ih =>
    have hafter := (h.after call).1
    rcases hp.after h call with ⟨hp', hmiss⟩ | ⟨target, d, hc, hd⟩
    · rw [misses, hmiss, Bool.false_or]
      exact ih hafter hp'
    · obtain ⟨hc', hmiss⟩ := hc.run hafter calls
      rw [misses, hmiss, Bool.or_false]
      exact .inr ⟨target, d, hc', hd⟩

theorem Appends.fixed {bytes : List UInt8} (hb : b.Sound) (h : Appends b bytes b') :
    b'.Fixed b.position bytes := by
  intro k hk
  refine ⟨by rw [h.position_eq]; omega, fun l source hw => ?_,
    h.getElem? hb (.refl (h.extends hb).after) hk⟩
  have hw : b.Waits l source := by simpa only [Waits, h.labels] using hw
  have := hb.inside hw
  exact .inr (by omega)

/-- A branch that has been written waits for its label or has its distance. -/
theorem pending_or_closed (hb : b.Sound) (h : addBranch op l b = .ok () b') :
    b'.Pending b.position op l ∨
      ∃ target d, b'.Closed b.position op l target d ∧ distance (b.position + 1) target = .ok d := by
  obtain ⟨-, ⟨target, d, hplace, hd, happ⟩ | hpost⟩ := addBranch_cases h
  · exact .inr ⟨target, d, ⟨happ.fixed hb, (happ.extends hb).bound hplace⟩, hd⟩
  · refine .inl ⟨fun k hk => ?_, (hpost.waits _ _).mpr (.inr ⟨rfl, rfl⟩)⟩
    obtain rfl : k = 0 := Nat.lt_one_iff.mp hk
    have hlen : b.bytes.toList.length = b.position := Array.length_toList
    refine ⟨by rw [hpost.position_eq]; omega, fun l' source hw => ?_, ?_⟩
    · rcases (hpost.waits _ _).mp hw with hw | ⟨-, rfl⟩
      · exact .inr (hb.inside hw)
      · exact .inl (Nat.lt_succ_self _)
    · rw [← Array.getElem?_toList, hpost.bytes, Nat.add_zero,
        List.getElem?_append_right (Nat.le_of_eq hlen), hlen, Nat.sub_self]
      rfl

theorem distance_self (source : Nat) : distance source source = .ok 0 := by
  unfold distance
  simp [Int16.toInt_maxValue]

/-- A branch is decoded by the distance that it has. -/
theorem Closed.at {target' : Nat} (h : b.Closed start op l target d)
    (hop : op.operandKind = .branch) (hd : distance (start + 1) target' = .ok d) :
    Code.At ⟨b.bytes⟩ start op (.target target') := by
  refine Code.at_of_bytes hop.symm (h.code 0 (Nat.zero_lt_succ _)).2.2 (fun k hk => ?_)
    (encodes_target hd)
  have := (h.code (k + 1) (Nat.succ_lt_succ hk)).2.2
  rwa [Nat.add_comm k 1, ← Nat.add_assoc, Nat.add_comm 1 k, List.getElem?_cons_succ] at this

/-- **What becomes of a branch.** In code that can be finished each branch is decoded where it was
written. It leads to the place of its label; if the label got that place by a call that failed, it
leads to its own operand. -/
theorem at_of_run (h : Tidy b) {c : Code} (hb : addBranch op l b = .ok () b')
    (hfinish : (b'.run calls).finish = .ok c) :
    ∃ target, (b'.run calls).position? l = some target ∧
      c.At b.position op (.target (if misses l b' calls then b.position + 1 else target)) := by
  have h' := h.addBranch hb
  have hop := (addBranch_cases hb).1
  obtain ⟨hdone, rfl⟩ := complete_of_finish hfinish
  rcases pending_or_closed h.sound hb with hp | ⟨target, d, hc, hd⟩
  · rcases hp.run h' calls with hp | ⟨target, d, hc, hd⟩
    · exact absurd hp.waits (hdone _ _)
    · refine ⟨target, hc.placed, hc.at hop ?_⟩
      split_ifs at hd ⊢
      · rw [hd]
        exact distance_self _
      · exact hd
  · obtain ⟨hc', hmiss⟩ := hc.run h' calls
    refine ⟨target, hc'.placed, hc'.at hop ?_⟩
    rwa [hmiss, if_neg Bool.false_ne_true]

/-- **What failing calls leave, and what becomes of branches.** After any calls, some of which may
have failed, the next call fails in the ways of `Fails` only, and leaves what `Fails` says: it
changes nothing unless it is a branch without its distance or a label too far from a branch. If the
code can be finished in the end, a branch that has been written leads to the place of its label,
unless a later call has failed to bind the label as a branch was too far away: then it leads to its
own operand. -/
theorem failures_of_calls (calls : List Call) :
    (∀ (call : Call) e b', call.step (run {} calls) = .error e b' ↔
      Fails (run {} calls) call e b') ∧
    (∀ (call : Call) e b', call.step (run {} calls) = .error e b' →
      (b' = run {} calls ↔ call.marks e = false)) ∧
    ∀ op l made b₁ rest c, (Call.branch op l).step (run {} calls) = .ok made b₁ →
      (b₁.run rest).finish = .ok c →
        ∃ target, (b₁.run rest).position? l = some target ∧
          c.At (run {} calls).position op
            (.target (if misses l b₁ rest then (run {} calls).position + 1 else target)) := by
  have h := (tidy_empty.run calls).1
  refine ⟨fun call e b' => h.step_error_iff,
    fun call e b' hstep => (h.step_error_iff.mp hstep).eq_iff, ?_⟩
  intro op l made b₁ rest c hstep hfinish
  obtain ⟨_, hb, -⟩ := ok_of_bind_pure hstep
  exact at_of_run h hb hfinish

/-- A branch with calls behind it that fail: one binds a label that there is not, one is no branch,
one binds the label again. -/
def recoveredCalls : List Call := [.bind ⟨7⟩, .branch .addInt ⟨0⟩, .bind ⟨0⟩, .bind ⟨0⟩]

/-- The builder after a branch to its only label. -/
def branchedBuilder : Builder :=
  { bytes := #[Opcode.jump.toByte, 0, 0], labels := #[{ uses := [1] }] }

theorem recoveredCalls_target :
    ∃ c, (branchedBuilder.run recoveredCalls).finish = .ok c ∧ c.At 0 .jump (.target 3) := by
  have hfinish : (branchedBuilder.run recoveredCalls).finish =
      .ok ⟨(branchedBuilder.run recoveredCalls).bytes⟩ := by cbv
  obtain ⟨target, htarget, hat⟩ :=
    (failures_of_calls [.newLabel]).2.2 .jump ⟨0⟩ [] branchedBuilder recoveredCalls _
      (by rfl) hfinish
  have hthree : (branchedBuilder.run recoveredCalls).position? ⟨0⟩ = some 3 := by rfl
  obtain rfl : 3 = target := Option.some.inj (hthree.symm.trans htarget)
  have hmiss : misses ⟨0⟩ branchedBuilder recoveredCalls = false := by rfl
  rw [hmiss] at hat
  exact ⟨_, hfinish, hat⟩

/-- A branch to a label, and `n` instructions of one byte. -/
def farCalls (n : Nat) : List Call :=
  [.newLabel, .branch .jump ⟨0⟩] ++ List.replicate n (.op .invalid)

theorem run_append (b : Builder) (calls calls' : List Call) :
    b.run (calls ++ calls') = (b.run calls).run calls' :=
  List.foldl_append

theorem run_replicate_op (b : Builder) (op : Opcode) (n : Nat) :
    b.run (List.replicate n (.op op)) =
      { b with bytes := b.bytes ++ Array.replicate n op.toByte } := by
  induction n generalizing b with
  | zero => simp [run]
  | succ n ih =>
    have hstep : b.run (List.replicate (n + 1) (.op op)) =
        Builder.run { b with bytes := b.bytes.push op.toByte } (List.replicate n (.op op)) := rfl
    rw [hstep, ih]
    congr 1
    exact Array.ext' (by simp [List.replicate_succ])

theorem run_farCalls (n : Nat) : run {} (farCalls n) =
    { bytes := branchedBuilder.bytes ++ Array.replicate n Opcode.invalid.toByte
      labels := branchedBuilder.labels } := by
  have hbegun : run {} [.newLabel, .branch .jump ⟨0⟩] = branchedBuilder := by rfl
  rw [farCalls, run_append, hbegun, run_replicate_op]

/-- The label cannot be bound behind so many instructions, but gets its place. -/
theorem bind_farCalls {n : Nat} (hn : 32766 ≤ n) : ∃ b' c,
    (Call.bind ⟨0⟩).step (run {} (farCalls n)) = .error (.branchTooFar 1 (n + 3)) b' ∧
    (run {} (farCalls n)).position? ⟨0⟩ = none ∧ b'.position? ⟨0⟩ = some (n + 3) ∧
    b'.finish = .ok c ∧ c.At 0 .jump (.target 1) := by
  have htidy := (tidy_empty.run (farCalls n)).1
  have hbytes : (run {} (farCalls n)).bytes =
      branchedBuilder.bytes ++ Array.replicate n Opcode.invalid.toByte := by rw [run_farCalls]
  have hlabels : (run {} (farCalls n)).labels = #[{ uses := [1] }] := by
    rw [run_farCalls, branchedBuilder]
  generalize run {} (farCalls n) = b at *
  have hpos : b.position = n + 3 := by
    rw [position, hbytes, Array.size_append, Array.size_replicate, Nat.add_comm]
    rfl
  have hslot : b.labels[0]? = some { uses := [1] } := by
    rw [hlabels]
    rfl
  have hfails : Fails b (.bind ⟨0⟩) (.branchTooFar 1 b.position) (b.placing ⟨0⟩) := by
    refine .bindTooFar ⟨_, hslot, rfl, List.mem_singleton_self 1⟩ ?_ ?_
    · rintro s ⟨slot, hslot', -, hs⟩
      obtain rfl := Option.some.inj (hslot.symm.trans hslot')
      rw [List.mem_singleton.mp hs]
    · unfold distance
      dsimp only
      rw [hpos, Int16.toInt_maxValue, if_neg (by omega)]
  have hstep := htidy.step_error_iff.mpr hfails
  rw [hpos] at hstep
  have hbyte : ∀ k < 3, b.bytes[k]? = branchedBuilder.bytes[k]? := fun k hk => by
    rw [hbytes, Array.getElem?_append_left hk]
  have hat : Code.At ⟨b.bytes⟩ 0 .jump (.target 1) := by
    refine Code.at_of_bytes rfl (hbyte 0 (by decide)) (fun k hk => ?_)
      (encodes_target (distance_self 1))
    have hk : k < 2 := by simpa [distanceBytes] using hk
    rw [hbyte _ (by omega)]
    obtain rfl | rfl : k = 0 ∨ k = 1 := by omega
    · rfl
    · rfl
  refine ⟨_, ⟨b.bytes⟩, hstep, ?_, ?_, ?_, hat⟩
  · rw [position?, hslot]
    rfl
  · rw [position?_placing (l := ⟨0⟩) hslot, if_pos rfl, hpos]
  · simp [finish, placing, hlabels, hpos]

/-- **A call that fails changes the builder**: the label gets its place though it cannot be bound,
the code can be finished, and the branch to the label leads elsewhere. -/
theorem failed_bind_places_label : ∃ b' c,
    (Call.bind ⟨0⟩).step (run {} (farCalls 32766)) = .error (.branchTooFar 1 32769) b' ∧
    (run {} (farCalls 32766)).position? ⟨0⟩ = none ∧ b'.position? ⟨0⟩ = some 32769 ∧
    b'.finish = .ok c ∧ c.At 0 .jump (.target 1) :=
  bind_farCalls (Nat.le_refl 32766)

end StackLang.Builder
