import Mathlib
import StackLang.Executable

/-!
# The functions of an executable

`addRoutine` gives every function the id that is its place (`IdsArePlaces`); filling in a function
later on, which is what `modifyRoutine` is for, leaves ids where they are.
-/

namespace StackLang.Executable

/-- Every function's own id is its place, as `addRoutine` gives it. -/
def IdsArePlaces (e : Executable) : Prop :=
  ∀ (i : Nat) r, e.routines[i]? = some r → r.id.toNat = i

theorem idsArePlaces_empty : IdsArePlaces {} := fun _ _ h => nomatch h

theorem IdsArePlaces.addRoutine {e : Executable} (h : e.IdsArePlaces) (r : Routine) :
    (e.addRoutine r).2.IdsArePlaces := by
  unfold Executable.addRoutine
  split
  · rename_i hlt
    intro i r' hr
    dsimp only at hr
    rw [Array.getElem?_push] at hr
    split at hr
    · rename_i hi
      cases hr
      dsimp only
      rw [hi, Nat.toUInt16_eq, UInt16.toNat_ofNat', Nat.mod_eq_of_lt hlt]
    · exact h i r' hr
  · exact h

theorem IdsArePlaces.modifyRoutine {e : Executable} (h : e.IdsArePlaces) (id : UInt16)
    {f : Routine → Routine} (hf : ∀ r, (f r).id = r.id) : (e.modifyRoutine id f).IdsArePlaces := by
  intro i r hr
  simp only [Executable.modifyRoutine, Array.getElem?_modify] at hr
  split at hr
  · obtain ⟨r', hr', rfl⟩ := Option.map_eq_some_iff.mp hr
    rw [hf]
    exact h i r' hr'
  · exact h i r hr

/-- A function found under an id is found under its own. -/
theorem IdsArePlaces.routine? {e : Executable} (h : e.IdsArePlaces) {id : UInt16} {r : Routine}
    (hr : e.routine? id = some r) : e.routine? r.id = some r := by
  unfold Executable.routine? at *
  rwa [h _ _ hr]

theorem IdsArePlaces.routine?_of_mem {e : Executable} (h : e.IdsArePlaces) {r : Routine}
    (hr : r ∈ e.routines) : e.routine? r.id = some r := by
  obtain ⟨i, hi, hget⟩ := Array.mem_iff_getElem.mp hr
  have hr' : e.routines[i]? = some r := by rw [Array.getElem?_eq_getElem hi, hget]
  rw [Executable.routine?, h i r hr', hr']

/-- The function that a run starts with. -/
theorem IdsArePlaces.routine?_of_top? {e : Executable} (h : e.IdsArePlaces) {r : Routine}
    (htop : e.top? = some r) : e.routine? r.id = some r := by
  obtain ⟨id, -, hid⟩ := Option.bind_eq_some_iff.mp htop
  exact h.routine? hid

theorem mem_of_routine? {e : Executable} {id : UInt16} {r : Routine}
    (h : e.routine? id = some r) : r ∈ e.routines :=
  Array.mem_of_getElem? h

end StackLang.Executable
