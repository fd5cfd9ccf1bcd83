import StackLang.Proofs.Code.Builder

/-!
# Calls of the builder

A client writes code by a sequence of `Call`s. The fields of an operand are written one by one;
labels are made, bound and branched to.
-/

namespace StackLang.Builder

/-- A number that is part of an operand. -/
inductive Field where
  | id (id : UInt16)
  | int (n : Int64)
  | double (d : Double)
  deriving DecidableEq

namespace Field

def step : Field → Step Unit
  | .id i => addId i
  | .int n => addInt n
  | .double d => addDouble d

def bytes : Field → List UInt8
  | .id i => littleEndian 2 i.toNat
  | .int n => littleEndian 8 n.toUInt64.toNat
  | .double d => littleEndian 8 d.bits.toNat

theorem step_eq (f : Field) : f.step = addBytes f.bytes := by
  cases f <;> rfl

end Field

inductive Call where
  | op (op : Opcode)
  | field (f : Field)
  | newLabel
  | boundLabel
  | bind (l : Label)
  | branch (op : Opcode) (l : Label)
  deriving DecidableEq

/-- What a call does. It returns the labels it has made. -/
def Call.step : Call → Step (List Label)
  | .op o => do
    addOp o
    return []
  | .field f => do
    f.step
    return []
  | .newLabel => return [← Builder.newLabel]
  | .boundLabel => return [← Builder.boundLabel]
  | .bind l => do
    Builder.bind l
    return []
  | .branch o l => do
    addBranch o l
    return []

variable {b b' : Builder}

theorem ok_of_bind_pure {α β : Type} {m : Step α} {f : α → β} {r : β}
    (h : (m >>= fun a => pure (f a)) b = .ok r b') : ∃ a, m b = .ok a b' ∧ r = f a := by
  simp only [Bind.bind, EStateM.bind, Pure.pure, EStateM.pure] at h
  cases hm : m b with
  | error e s => rw [hm] at h; cases h
  | ok a s =>
    rw [hm] at h
    cases h
    exact ⟨a, rfl, rfl⟩

theorem error_bind_pure_iff {α β : Type} {m : Step α} {f : α → β} {e : Cause} :
    (m >>= fun a => pure (f a)) b = .error e b' ↔ m b = .error e b' := by
  simp only [Bind.bind, EStateM.bind, Pure.pure, EStateM.pure]
  cases m b <;> simp

end StackLang.Builder
