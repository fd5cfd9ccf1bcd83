import Mathlib
import StackLang.Proofs.Executable.Image

/-!
# Ids of texts

`ids_of_built`: in every pool there is, a text is found under the place where it stands first,
narrowed to 16 bits. The id gives the text back if and only if that place has 16 bits. Interning
keeps to such places, so all places of a pool have 16 bits unless it was made from a longer list
(`narrowed_id_has_other_text`).
-/

namespace StackLang.StringPool

variable {pool pool' : StringPool} {text : String} {id : UInt16}

/-! ## Where a text is found -/

/-- The place where a text stands first. -/
def firstPlace? (pool : StringPool) (text : String) : Option Nat := pool.strings.toList.idxOf? text

theorem strings_of_firstPlace? {i : Nat} (h : pool.firstPlace? text = some i) :
    pool.strings[i]? = some text ∧ ∀ j < i, pool.strings[j]? ≠ some text := by
  rw [firstPlace?, List.idxOf?_eq_some_iff] at h
  obtain ⟨hi, htext, hbefore⟩ := h
  simp only [Array.length_toList, Array.getElem_toList] at hi htext
  refine ⟨Array.getElem?_eq_some_iff.mpr ⟨hi, htext⟩, fun j hj hat => ?_⟩
  obtain ⟨_, hj'⟩ := Array.getElem?_eq_some_iff.mp hat
  exact hbefore j hj (by simpa using hj')

theorem lt_size_of_firstPlace? {i : Nat} (h : pool.firstPlace? text = some i) : i < pool.size :=
  (Array.getElem?_eq_some_iff.mp (strings_of_firstPlace? h).1).1

theorem firstPlace?_eq_none : pool.firstPlace? text = none ↔ text ∉ pool.strings := by
  rw [firstPlace?, List.idxOf?_eq_none_iff, Array.mem_toList_iff]

theorem exists_firstPlace? (h : text ∈ pool.strings) : ∃ i, pool.firstPlace? text = some i :=
  Option.ne_none_iff_exists'.mp fun hnone => firstPlace?_eq_none.mp hnone h

/-- Behind what the index has already, a text is found under the first of the numbered places. -/
theorem getElem?_firstPlaces (texts : List String) (n : Nat)
    (index : Std.ExtTreeMap String UInt16) (text : String) :
    (firstPlaces (texts.zipIdx n) index)[text]? =
      index[text]?.or ((texts.idxOf? text).map fun i => (n + i).toUInt16) := by
  induction texts generalizing n index with
  | nil => simp [firstPlaces]
  | cons first texts ih =>
    have hstep : firstPlaces ((first :: texts).zipIdx n) index =
        firstPlaces (texts.zipIdx (n + 1)) (index.insertIfNew first n.toUInt16) := rfl
    rw [hstep, ih, Std.ExtTreeMap.getElem?_insertIfNew, List.idxOf?_cons]
    simp only [Std.LawfulEqCmp.compare_eq_iff_eq, beq_iff_eq,
      Std.ExtTreeMap.mem_iff_isSome_getElem?]
    by_cases hfirst : first = text
    · subst hfirst
      cases index[first]? <;> simp
    · have hlater : ∀ i : Nat, n + 1 + i = n + (i + 1) := fun i => by omega
      rw [if_neg fun h => hfirst h.1, if_neg hfirst, Option.map_map]
      simp only [Function.comp_def, hlater]

/-- **A text is found under its first place**, narrowed to 16 bits. -/
theorem Canonical.lookup?_eq (h : pool.Canonical) (text : String) :
    pool.lookup? text = (pool.firstPlace? text).map Nat.toUInt16 := by
  have hindex : pool.index = firstPlaces pool.strings.toList.zipIdx ∅ :=
    congrArg StringPool.index (h.2.trans (ofList_of_head h.1))
  rw [lookup?, hindex, getElem?_firstPlaces, Std.ExtTreeMap.getElem?_empty, Option.none_or]
  simp only [Nat.zero_add]
  rfl

theorem Canonical.lookup?_eq_none (h : pool.Canonical) :
    pool.lookup? text = none ↔ text ∉ pool.strings := by
  rw [h.lookup?_eq, Option.map_eq_none_iff, firstPlace?_eq_none]

theorem Canonical.get?_zero (h : pool.Canonical) : pool.get? 0 = some "" := by
  have hhead := h.1
  rw [List.head?_eq_getElem?, Array.getElem?_toList] at hhead
  exact hhead

/-- An id gives its text back if and only if it is the first place of the text, not narrowed. -/
theorem get?_firstPlace? {i : Nat} (hi : pool.firstPlace? text = some i) :
    pool.get? i.toUInt16 = some text ↔ i < UInt16.size := by
  obtain ⟨htext, hbefore⟩ := strings_of_firstPlace? hi
  have hid : i.toUInt16.toNat = i % UInt16.size := UInt16.toNat_ofNat'
  rw [get?, hid]
  constructor
  · intro hat
    by_contra hlarge
    exact hbefore _ (Nat.lt_of_lt_of_le (Nat.mod_lt _ (by decide)) (Nat.le_of_not_lt hlarge)) hat
  · intro hsmall
    rw [Nat.mod_eq_of_lt hsmall]
    exact htext

/-! ## Interning -/

/-- Interns the texts, one after another. -/
def internAll (pool : StringPool) (texts : List String) : StringPool :=
  texts.foldl (fun pool text => (pool.intern text).2) pool

theorem Built.internAll (h : pool.Built) (texts : List String) : (pool.internAll texts).Built := by
  induction texts generalizing pool with
  | nil => exact h
  | cons text texts ih => exact ih (h.intern text)

theorem Canonical.intern_of_mem (h : pool.Canonical) (htext : text ∈ pool.strings) :
    pool.intern text = (pool.lookup? text, pool) := by
  obtain ⟨id, hid⟩ := Option.ne_none_iff_exists'.mp fun hnone => h.lookup?_eq_none.mp hnone htext
  rw [StringPool.intern, hid]

theorem Canonical.intern_of_not_mem (h : pool.Canonical) (htext : text ∉ pool.strings) :
    pool.intern text =
      if pool.size < UInt16.size then
        (some pool.size.toUInt16, { strings := pool.strings.push text
                                    index := pool.index.insert text pool.size.toUInt16 })
      else (none, pool) := by
  rw [StringPool.intern, h.lookup?_eq_none.mpr htext]

/-- Interning adds at most one text, behind all others. -/
theorem strings_intern (pool : StringPool) (text : String) :
    (pool.intern text).2.strings = pool.strings ∨
      (pool.intern text).2.strings = pool.strings.push text := by
  unfold intern
  split
  · exact .inl rfl
  · split
    · exact .inr rfl
    · exact .inl rfl

/-- What has a place keeps it when a text is interned. -/
theorem firstPlace?_intern {i : Nat} (h : pool.firstPlace? text = some i) (other : String) :
    (pool.intern other).2.firstPlace? text = some i := by
  obtain hsame | hpush := strings_intern pool other
  · rw [firstPlace?, hsame]
    exact h
  · rw [firstPlace?] at h ⊢
    rw [hpush, Array.toList_push, List.idxOf?_eq_some_iff]
    rw [List.idxOf?_eq_some_iff] at h
    obtain ⟨hi, htext, hbefore⟩ := h
    refine ⟨by rw [List.length_append]; omega, ?_, fun j hj => ?_⟩
    · rw [List.getElem_append_left hi]
      exact htext
    · rw [List.getElem_append_left (hj.trans hi)]
      exact hbefore j hj

/-- A text that is pushed is first at the end if it was not there before. -/
theorem firstPlace?_push (htext : text ∉ pool.strings) (index : Std.ExtTreeMap String UInt16) :
    firstPlace? { strings := pool.strings.push text, index } text = some pool.size := by
  have hlist : text ∉ pool.strings.toList := fun h => htext (Array.mem_toList_iff.mp h)
  rw [firstPlace?, Array.toList_push, List.idxOf?_eq_some_iff]
  refine ⟨by simp [size], by simp [size], fun j hj heq => hlist ?_⟩
  rw [List.getElem_append_left (by simpa [size] using hj)] at heq
  exact heq ▸ List.getElem_mem _

theorem get?_intern (h : pool.get? id = some text) (other : String) :
    (pool.intern other).2.get? id = some text := by
  obtain hsame | hpush := strings_intern pool other
  · rw [get?, hsame]
    exact h
  · have hlt := (Array.getElem?_eq_some_iff.mp h).1
    rw [get?, hpush, Array.getElem?_push, if_neg (Nat.ne_of_lt hlt)]
    exact h

theorem get?_internAll (h : pool.get? id = some text) (texts : List String) :
    (pool.internAll texts).get? id = some text := by
  induction texts generalizing pool with
  | nil => exact h
  | cons other texts ih => exact ih (get?_intern h other)

theorem firstPlace?_internAll {i : Nat} (h : pool.firstPlace? text = some i) (texts : List String) :
    (pool.internAll texts).firstPlace? text = some i := by
  induction texts generalizing pool with
  | nil => exact h
  | cons other texts ih => exact ih (firstPlace?_intern h other)

/-! ## The pools there are -/

/-- Ids and texts of a pool. -/
structure Numbered (pool : StringPool) : Prop where
  /-- Id 0 is the empty text. -/
  zero : pool.get? 0 = some ""
  /-- The texts of the pool, and no others, are found: under their first places, narrowed. -/
  lookup? : ∀ text, pool.lookup? text = (pool.firstPlace? text).map Nat.toUInt16
  mem_iff : ∀ text, text ∈ pool.strings ↔ ∃ i, pool.firstPlace? text = some i
  /-- What a text is found under gives it back exactly if nothing was lost by narrowing. -/
  get?_iff : ∀ {text i}, pool.firstPlace? text = some i →
    (pool.get? i.toUInt16 = some text ↔ i < UInt16.size)
  /-- With no more texts than there are ids, nothing is lost. -/
  inverse : pool.size ≤ UInt16.size → ∀ {text id}, pool.lookup? text = some id →
    pool.get? id = some text
  /-- A text that is there is interned under its id, and nothing changes. -/
  intern_old : ∀ text ∈ pool.strings, ∃ id, pool.lookup? text = some id ∧
    pool.intern text = (some id, pool)
  /-- A new text gets the next id and gives it back. -/
  intern_new : ∀ text ∉ pool.strings, pool.size < UInt16.size → ∃ pool',
    pool.intern text = (some pool.size.toUInt16, pool') ∧
      pool'.strings = pool.strings.push text ∧
      pool.size.toUInt16.toNat = pool.size ∧
      pool'.get? pool.size.toUInt16 = some text ∧
      pool'.lookup? text = some pool.size.toUInt16
  /-- With no id left, a new text gets none and nothing changes. -/
  intern_full : ∀ text ∉ pool.strings, UInt16.size ≤ pool.size → pool.intern text = (none, pool)
  /-- Whatever is interned, ids keep their texts and texts their ids. -/
  kept : ∀ texts,
    (∀ {id text}, pool.get? id = some text → (pool.internAll texts).get? id = some text) ∧
      ∀ {text id}, pool.lookup? text = some id → (pool.internAll texts).lookup? text = some id

/-- **Ids and texts are inverse to each other**, in every pool there is, as far as the texts' places
have 16 bits; and interning keeps to such places. -/
theorem numbered_of_built (h : pool.Built) : pool.Numbered where
  zero := h.canonical.get?_zero
  lookup? := h.canonical.lookup?_eq
  mem_iff text := ⟨exists_firstPlace?, fun ⟨i, hi⟩ => by
    by_contra hnone
    rw [firstPlace?_eq_none.mpr hnone] at hi
    cases hi⟩
  get?_iff := get?_firstPlace?
  inverse hsize text id hid := by
    rw [h.canonical.lookup?_eq, Option.map_eq_some_iff] at hid
    obtain ⟨i, hi, rfl⟩ := hid
    exact (get?_firstPlace? hi).mpr (Nat.lt_of_lt_of_le (lt_size_of_firstPlace? hi) hsize)
  intern_old text htext := by
    obtain ⟨id, hid⟩ :=
      Option.ne_none_iff_exists'.mp fun hnone => h.canonical.lookup?_eq_none.mp hnone htext
    exact ⟨id, hid, by rw [h.canonical.intern_of_mem htext, hid]⟩
  intern_new text htext hroom := by
    have hintern := h.canonical.intern_of_not_mem htext
    rw [if_pos hroom] at hintern
    have hplace := firstPlace?_push htext (pool.index.insert text pool.size.toUInt16)
    have hbuilt : Built { strings := pool.strings.push text
                          index := pool.index.insert text pool.size.toUInt16 } := by
      have := h.intern text
      rwa [hintern] at this
    refine ⟨_, hintern, rfl, Nat.mod_eq_of_lt hroom, (get?_firstPlace? hplace).mpr hroom, ?_⟩
    rw [hbuilt.canonical.lookup?_eq, hplace]
    rfl
  intern_full text htext hfull := by
    rw [h.canonical.intern_of_not_mem htext, if_neg (Nat.not_lt.mpr hfull)]
  kept texts := by
    refine ⟨fun hid => get?_internAll hid texts, fun {text id} hid => ?_⟩
    rw [h.canonical.lookup?_eq, Option.map_eq_some_iff] at hid
    obtain ⟨i, hi, rfl⟩ := hid
    rw [(h.internAll texts).canonical.lookup?_eq, firstPlace?_internAll hi]
    rfl

/-- Texts of which one stands twice, and one that is interned. -/
theorem numbered_of_repeated :
    let pool := ((ofList ["a", "b", "a"]).intern "c").2
    pool.Built ∧ pool.get? 0 = some "" ∧ pool.lookup? "a" = some 1 ∧ pool.get? 1 = some "a" ∧
      (pool.internAll ["d", "e"]).get? 4 = some "c" := by
  intro pool
  have hbuilt : pool.Built := .intern "c" (.ofList ["a", "b", "a"])
  have h := numbered_of_built hbuilt
  have hplace : pool.firstPlace? "a" = some 1 := by decide
  refine ⟨hbuilt, h.zero, ?_, (h.get?_iff hplace).mpr (by decide), (h.kept ["d", "e"]).1 (by decide)⟩
  rw [h.lookup?, hplace]
  rfl

/-- Behind as many empty texts as there are ids, a text is found under the id of the empty one. -/
theorem narrowed_id_has_other_text :
    let pool := ofList (List.replicate UInt16.size "" ++ ["x"])
    pool.Built ∧ "x" ∈ pool.strings ∧ pool.lookup? "x" = some 0 ∧ pool.get? 0 = some "" := by
  intro pool
  have hbuilt : pool.Built := .ofList _
  have hstrings : pool.strings = (List.replicate UInt16.size "" ++ ["x"]).toArray := by
    have hhead : (List.replicate UInt16.size "" ++ ["x"]).head? = some "" := by
      rw [List.head?_append, List.head?_replicate, if_neg (by decide)]
      rfl
    exact congrArg StringPool.strings (ofList_of_head hhead)
  have hplace : pool.firstPlace? "x" = some UInt16.size := by
    rw [firstPlace?, hstrings, List.idxOf?_eq_some_iff]
    refine ⟨by simp, by simp, fun j hj => ?_⟩
    rw [List.getElem_append_left (by simpa using hj), List.getElem_replicate]
    decide
  refine ⟨hbuilt, ?_, ?_, hbuilt.canonical.get?_zero⟩
  · rw [hstrings]
    simp
  · rw [hbuilt.canonical.lookup?_eq, hplace]
    rfl

end StackLang.StringPool
