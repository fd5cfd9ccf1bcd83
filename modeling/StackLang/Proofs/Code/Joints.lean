import StackLang.Proofs.Code.Decode

/-!
# Between instructions

`Code.Leads` says that some instructions stand one behind the other; a place between two of them is a
`Code.Joint`. The instructions from one place to another are settled (`Line.unique`), so control that
goes on from joint to joint only ever meets these. `Code.Spares` says of a piece of code that no
branch leads out of it and that it never names a variable.
-/

namespace StackLang

namespace Code

/-- Where the instructions of a line begin. -/
def lineOffsets : Nat → List (Opcode × Operand) → List Nat
  | _, [] => []
  | start, (op, _) :: line => start :: lineOffsets (start + op.width) line

theorem lineOffsets_append {c : Code} {start middle : Nat} {xs : List (Opcode × Operand)}
    (h : c.Line start xs middle) (ys : List (Opcode × Operand)) :
    lineOffsets start (xs ++ ys) = lineOffsets start xs ++ lineOffsets middle ys := by
  induction xs generalizing start with
  | nil =>
    cases h
    rfl
  | cons i xs ih => exact congrArg (start :: ·) (ih h.2)

/-- The instructions of a line. -/
def lineInstrs : Nat → List (Opcode × Operand) → List Instr
  | _, [] => []
  | start, (op, x) :: line => ⟨start, op, x⟩ :: lineInstrs (start + op.width) line

theorem lineInstrs_append {c : Code} {start middle : Nat} {xs : List (Opcode × Operand)}
    (h : c.Line start xs middle) (ys : List (Opcode × Operand)) :
    lineInstrs start (xs ++ ys) = lineInstrs start xs ++ lineInstrs middle ys := by
  induction xs generalizing start with
  | nil =>
    cases h
    rfl
  | cons i xs ih => exact congrArg (⟨start, i.1, i.2⟩ :: ·) (ih h.2)

theorem map_offset_lineInstrs (start : Nat) (line : List (Opcode × Operand)) :
    (lineInstrs start line).map (·.offset) = lineOffsets start line := by
  induction line generalizing start with
  | nil => rfl
  | cons i line ih => exact congrArg (start :: ·) (ih _)

theorem map_pair_lineInstrs (start : Nat) (line : List (Opcode × Operand)) :
    (lineInstrs start line).map (fun i => (i.op, i.operand)) = line := by
  induction line generalizing start with
  | nil => rfl
  | cons i line ih => exact congrArg (i :: ·) (ih _)

theorem width_pos (op : Opcode) : 0 < op.width := by
  unfold Opcode.width
  omega

theorem Line.bounds {c : Code} {start stop o : Nat} {line : List (Opcode × Operand)}
    (h : c.Line start line stop) (ho : o ∈ lineOffsets start line) : start ≤ o ∧ o < stop := by
  induction line generalizing start with
  | nil => cases ho
  | cons i line ih =>
    have hpos := width_pos i.1
    rcases List.mem_cons.mp ho with rfl | ho
    · have := h.2.le
      omega
    · have := ih h.2 ho
      omega

theorem Line.lt {c : Code} {start stop : Nat} {i : Opcode × Operand}
    {line : List (Opcode × Operand)} (h : c.Line start (i :: line) stop) : start < stop :=
  (h.bounds List.mem_cons_self).2

/-! ## Reading a stream -/

/-- A line to the end of the stream is what reading the stream gives. -/
theorem instructionsFrom_eq_of_line {c : Code} {start : Nat} {line : List (Opcode × Operand)}
    (h : c.Line start line c.size) (read : Array Instr) :
    c.instructionsFrom start read = .ok (read ++ (lineInstrs start line).toArray) := by
  induction line generalizing start read with
  | nil =>
    cases h
    rw [instructionsFrom, if_neg (Nat.lt_irrefl _), lineInstrs, Array.append_empty]
  | cons i line ih =>
    obtain ⟨hat, hrest⟩ := h
    have hlt : start < c.size := (decodeAt_cases hat).2.2
    rw [instructionsFrom, if_pos hlt, hat]
    dsimp only
    rw [ih hrest, Array.push_eq_append, Array.append_assoc, lineInstrs]
    simp

/-- The same, by offsets, opcodes and operands. -/
theorem instructionsFrom_of_line {c : Code} {start : Nat} {line : List (Opcode × Operand)}
    (h : c.Line start line c.size) (read : Array Instr) :
    ∃ instrs, c.instructionsFrom start read = .ok (read ++ instrs) ∧
      instrs.toList.map (·.offset) = lineOffsets start line ∧
      instrs.toList.map (fun i => (i.op, i.operand)) = line :=
  ⟨_, instructionsFrom_eq_of_line h read, map_offset_lineInstrs .., map_pair_lineInstrs ..⟩

/-- Some instructions stand one behind the other from `a` to `b`. -/
def Leads (c : Code) (a b : Nat) : Prop := ∃ line, c.Line a line b

/-- `t` is between two of the instructions from `a` to `b`, or before or behind all of them. -/
def Joint (c : Code) (a b t : Nat) : Prop := c.Leads a t ∧ c.Leads t b

variable {c : Code} {a a' b b' m t : Nat} {line : List (Opcode × Operand)}

theorem Line.leads (h : c.Line a line b) : c.Leads a b := ⟨line, h⟩

theorem Leads.refl (a : Nat) : c.Leads a a := ⟨[], rfl⟩

theorem Leads.trans (h : c.Leads a m) (h' : c.Leads m b) : c.Leads a b := by
  obtain ⟨xs, hxs⟩ := h
  obtain ⟨ys, hys⟩ := h'
  exact ⟨xs ++ ys, hxs.append hys⟩

theorem Leads.joint_start (h : c.Leads a b) : c.Joint a b a := ⟨.refl a, h⟩

theorem Leads.joint_stop (h : c.Leads a b) : c.Joint a b b := ⟨h, .refl b⟩

theorem Joint.mono (h : c.Joint a b t) (ha : c.Leads a' a) (hb : c.Leads b b') : c.Joint a' b' t :=
  ⟨ha.trans h.1, h.2.trans hb⟩

/-- An instruction of a line has an operand of its opcode's kind. -/
theorem Line.kind (h : c.Line a line b) : ∀ i ∈ line, i.2.kind = i.1.operandKind := by
  induction line generalizing a with
  | nil => exact List.forall_mem_nil _
  | cons i line ih =>
    have hat : c.decodeAt a = .ok ⟨a, i.1, i.2⟩ := h.1
    exact List.forall_mem_cons.mpr ⟨(decodeAt_cases hat).2.1, ih h.2⟩

/-- There is one way to read instructions from an offset. -/
theorem Line.unique {line' : List (Opcode × Operand)} (h : c.Line a line b) (h' : c.Line a line' b) :
    line = line' := by
  induction line generalizing a line' with
  | nil =>
    cases h
    cases line' with
    | nil => rfl
    | cons i line' => exact absurd h'.lt (Nat.lt_irrefl _)
  | cons i line ih =>
    cases line' with
    | nil =>
      cases h'
      exact absurd h.lt (Nat.lt_irrefl _)
    | cons i' line' =>
      obtain ⟨op, x⟩ := i
      obtain ⟨op', x'⟩ := i'
      have hat : c.decodeAt a = .ok ⟨a, op, x⟩ := h.1
      obtain ⟨rfl, rfl⟩ : op = op' ∧ x = x' := by simpa using hat.symm.trans h'.1
      rw [ih h.2 h'.2]

/-- A joint in front of the last instructions is where an instruction begins. -/
theorem Joint.mem_lineOffsets (h : c.Joint a m t) {last : Opcode × Operand}
    (hlast : c.Line m [last] b) (hline : c.Line a line b) : t ∈ lineOffsets a line := by
  obtain ⟨⟨xs, hxs⟩, ys, hys⟩ := h
  obtain rfl := hline.unique (hxs.append (hys.append hlast))
  rw [lineOffsets_append hxs]
  refine List.mem_append_right _ ?_
  cases ys with
  | nil => exact List.mem_cons_self
  | cons i ys => exact List.mem_cons_self

variable {i : Instr}

theorem ne_size_of_decodeAt (hi : c.decodeAt t = .ok i) : t ≠ c.size := by
  rintro rfl
  exact absurd (decodeAt_cases hi).2.2 (Nat.lt_irrefl _)

/-- The instruction at a joint, and those behind it. -/
theorem Joint.exists_line (h : c.Joint a b t) (hne : t ≠ b) (hi : c.decodeAt t = .ok i) :
    ∃ line, c.Line t ((i.op, i.operand) :: line) b := by
  obtain ⟨-, ys, hys⟩ := h
  cases ys with
  | nil => exact absurd hys hne
  | cons y ys =>
    obtain rfl := Except.ok.inj (hys.1.symm.trans hi)
    exact ⟨ys, hys⟩

/-- Behind the instruction at a joint there is another joint. -/
theorem Joint.next (h : c.Joint a b t) (hne : t ≠ b) (hi : c.decodeAt t = .ok i) :
    c.Joint a b i.next := by
  obtain ⟨line, hat, hline⟩ := h.exists_line hne hi
  rw [Instr.next, (decodeAt_cases hi).1]
  exact ⟨h.1.trans ⟨[(i.op, i.operand)], hat, rfl⟩, line, hline⟩

/-- The instruction at a joint is one of those that stand there. -/
theorem Joint.mem_line (h : c.Joint a b t) (hne : t ≠ b) (hi : c.decodeAt t = .ok i)
    (hline : c.Line a line b) : (i.op, i.operand) ∈ line := by
  obtain ⟨rest, hrest⟩ := h.exists_line hne hi
  obtain ⟨xs, hxs⟩ := h.1
  rw [hline.unique (hxs.append hrest)]
  simp

/-- From `a` to `b` no instruction names the variable at `addr`, and no branch leads out. -/
def Spares (c : Code) (addr : VarAddr) (a b : Nat) : Prop :=
  ∃ line, c.Line a line b ∧
    ∀ i ∈ line, i.2 ≠ .var addr ∧ ∀ t, i.2 = .target t → c.Joint a b t

end Code

end StackLang
