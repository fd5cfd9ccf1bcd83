import Mathlib
import StackLang.Code.Instr

/-!
# What decoding gives

A decoded instruction stands at the offset asked for, and its operand is of the kind that its
opcode has. `Code.At` says that an instruction stands at an offset, `Code.Line` that several stand
one behind the other.
-/

namespace StackLang

/-- The kind of opcode that has this operand. -/
def Operand.kind : Operand → OperandKind
  | none => .none
  | int _ => .int
  | double _ => .double
  | string _ => .string
  | var _ => .var
  | target _ => .branch
  | function _ => .function
  | native _ => .native

namespace Code

/-- The instruction at an offset of the code has this opcode and this operand. -/
def At (c : Code) (offset : Nat) (op : Opcode) (operand : Operand) : Prop :=
  c.decodeAt offset = .ok ⟨offset, op, operand⟩

theorem kind_of_operand? {kind : OperandKind} {start n : Nat} {operand : Operand}
    (h : operand? kind start n = some operand) : operand.kind = kind := by
  cases kind with
  | branch =>
    simp only [operand?] at h
    split at h <;> cases h
    rfl
  | _ => cases h; rfl

theorem decodeAt_cases {c : Code} {offset : Nat} {i : Instr} (h : c.decodeAt offset = .ok i) :
    i.offset = offset ∧ i.operand.kind = i.op.operandKind ∧ offset < c.size := by
  unfold decodeAt at h
  cases hb : c.bytes[offset]? with
  | none => rw [hb] at h; cases h
  | some byte =>
    have hlt : offset < c.bytes.size := (Array.getElem?_eq_some_iff.mp hb).1
    rw [hb] at h
    dsimp only at h
    cases hop : Opcode.ofByte? byte with
    | none => rw [hop] at h; cases h
    | some op =>
      rw [hop] at h
      dsimp only at h
      split at h
      · cases h
      · split at h
        · cases h
        · rename_i operand hoperand
          cases h
          exact ⟨rfl, kind_of_operand? hoperand, hlt⟩

/-- These instructions stand one behind the other from `start` to `stop`. -/
def Line (c : Code) (start : Nat) : List (Opcode × Operand) → Nat → Prop
  | [], stop => start = stop
  | (op, operand) :: line, stop => c.At start op operand ∧ c.Line (start + op.width) line stop

theorem Line.append {c : Code} {start middle stop : Nat} {xs ys : List (Opcode × Operand)}
    (h : c.Line start xs middle) (h' : c.Line middle ys stop) : c.Line start (xs ++ ys) stop := by
  induction xs generalizing start with
  | nil =>
    cases h
    exact h'
  | cons i xs ih => exact ⟨h.1, ih h.2⟩

theorem Line.split {c : Code} {start stop : Nat} {xs ys : List (Opcode × Operand)}
    (h : c.Line start (xs ++ ys) stop) :
    ∃ middle, c.Line start xs middle ∧ c.Line middle ys stop := by
  induction xs generalizing start with
  | nil => exact ⟨start, rfl, h⟩
  | cons i xs ih =>
    obtain ⟨middle, hxs, hys⟩ := ih h.2
    exact ⟨middle, ⟨h.1, hxs⟩, hys⟩

theorem Line.le {c : Code} {start stop : Nat} {line : List (Opcode × Operand)}
    (h : c.Line start line stop) : start ≤ stop := by
  induction line generalizing start with
  | nil => exact Nat.le_of_eq h
  | cons i line ih => exact Nat.le_trans (Nat.le_add_right ..) (ih h.2)

end Code

end StackLang
