/-!
# Heights of the operand stack

`Heights` maps each offset of a function to the lowest height with which a path has reached it.
`Heights.arrive` lowers one entry and remembers the offset; every lowering brings the map `Below`
what it was, and `Below` has no infinite descent (`foldl_arrive_eq_or_below`).
-/

namespace StackLang

/-- The lowest height that has arrived at each offset; none where no path has come. -/
abbrev Heights := Array (Option Nat)

namespace Heights

/-- Offsets that no path has reached. -/
def unvisited (hs : Heights) : Nat := hs.toList.countP (·.isNone)

/-- Sum of the heights that have arrived. -/
def total (hs : Heights) : Nat := hs.toList.foldr (fun h n => h.getD 0 + n) 0

/-- A path arrives at `offset` with the stack at `after`. Unless one has come as low before, the
height is lowered and the offset is to be visited. -/
def arrive (after : Nat) (search : Heights × List Nat) (offset : Nat) : Heights × List Nat :=
  match search.1[offset]? with
  | none => search
  | some none => (search.1.setIfInBounds offset (some after), offset :: search.2)
  | some (some known) =>
    if known ≤ after then search
    else (search.1.setIfInBounds offset (some after), offset :: search.2)

/-- `hs` has fewer unvisited offsets than `hs'`, or as many and a smaller sum. -/
def Below (hs hs' : Heights) : Prop :=
  hs.unvisited < hs'.unvisited ∨ hs.unvisited = hs'.unvisited ∧ hs.total < hs'.total

theorem Below.trans {a b c : Heights} (h : Below a b) (h' : Below b c) : Below a c := by
  unfold Below at *
  omega

theorem countP_set_of_none {l : List (Option Nat)} {i n : Nat} (h : l[i]? = some none) :
    (l.set i (some n)).countP (·.isNone) < l.countP (·.isNone) := by
  induction l generalizing i with
  | nil => simp at h
  | cons x l ih =>
    cases i with
    | zero => simp_all
    | succ i =>
      have := ih (i := i) (by simpa using h)
      simp only [List.set_cons_succ, List.countP_cons]
      omega

theorem countP_set_of_some {l : List (Option Nat)} {i n k : Nat} (h : l[i]? = some (some k)) :
    (l.set i (some n)).countP (·.isNone) = l.countP (·.isNone) := by
  induction l generalizing i with
  | nil => simp at h
  | cons x l ih =>
    cases i with
    | zero => simp_all
    | succ i =>
      have := ih (i := i) (by simpa using h)
      simp only [List.set_cons_succ, List.countP_cons]
      omega

theorem foldr_set_lt {l : List (Option Nat)} {i n k : Nat} (h : l[i]? = some (some k))
    (hn : n < k) :
    (l.set i (some n)).foldr (fun h n => h.getD 0 + n) 0 <
      l.foldr (fun h n => h.getD 0 + n) 0 := by
  induction l generalizing i with
  | nil => simp at h
  | cons x l ih =>
    cases i with
    | zero => simp_all
    | succ i =>
      have := ih (i := i) (by simpa using h)
      simp only [List.set_cons_succ, List.foldr_cons]
      omega

theorem arrive_eq_or_below (after : Nat) (search : Heights × List Nat) (offset : Nat) :
    arrive after search offset = search ∨ Below (arrive after search offset).1 search.1 := by
  unfold arrive
  split
  · exact .inl rfl
  · next h =>
    have h' : search.1.toList[offset]? = some none := by simpa using h
    right; left
    simpa [unvisited] using countP_set_of_none (n := after) h'
  · next known h =>
    split
    · exact .inl rfl
    · right; right
      have h' : search.1.toList[offset]? = some (some known) := by simpa using h
      exact ⟨by simpa [unvisited] using countP_set_of_some (n := after) h',
        by simpa [total] using foldr_set_lt (n := after) h' (by omega)⟩

theorem foldl_arrive_eq_or_below (after : Nat) (offsets : List Nat) (search : Heights × List Nat) :
    offsets.foldl (arrive after) search = search ∨
      Below (offsets.foldl (arrive after) search).1 search.1 := by
  induction offsets generalizing search with
  | nil => exact .inl rfl
  | cons o os ih =>
    rw [List.foldl_cons]
    rcases ih (arrive after search o) with h | h <;>
      rcases arrive_eq_or_below after search o with h' | h'
    · exact .inl (h.trans h')
    · right; rw [h]; exact h'
    · right; rw [h'] at h ⊢; exact h
    · exact .inr (h.trans h')

end Heights

end StackLang
