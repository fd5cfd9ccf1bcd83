import Mathlib
import StackLang.Executable.StringPool

/-!
# String pools as they come to be

A pool is made from a list of texts and grows by interning (`Built`). `Built.sound` is what the
users of a pool rely on: id 0 has a text, and every id that a text is found under has a text. One that
has grown from the empty pool is `Distinct`: it has each text once, and finds it there.
-/

namespace StackLang.StringPool

/-- The pools there are: those made from a list, and those that interning makes of them. -/
inductive Built : StringPool → Prop
  | ofList (texts : List String) : Built (ofList texts)
  | intern {pool : StringPool} (text : String) (h : Built pool) : Built (pool.intern text).2

theorem built_empty : Built empty := .ofList []

/-- `pool'` is what interning texts has made of `pool`. -/
inductive Grown (pool : StringPool) : StringPool → Prop
  | refl : Grown pool pool
  | intern {pool' : StringPool} (text : String) (h : Grown pool pool') : Grown pool (pool'.intern text).2

theorem Grown.trans {a b c : StringPool} (h : Grown a b) (h' : Grown b c) : Grown a c := by
  induction h' with
  | refl => exact h
  | intern text _ ih => exact ih.intern text

theorem Built.of_grown {pool pool' : StringPool} (h : Built pool) (hg : Grown pool pool') :
    Built pool' := by
  induction hg with
  | refl => exact h
  | intern text _ ih => exact ih.intern text

/-- The ids that texts are found under have texts, and so has id 0. -/
structure Sound (pool : StringPool) : Prop where
  nonempty : 0 < pool.size
  lookup_lt : ∀ {text : String} {id : UInt16}, pool.lookup? text = some id → id.toNat < pool.size

theorem index_foldl_lt (l : List (String × Nat)) (index : Std.ExtTreeMap String UInt16) (n : Nat)
    (hindex : ∀ (text : String) (id : UInt16), index[text]? = some id → id.toNat < n) (hl : ∀ x ∈ l, x.2 < n) :
    ∀ (text : String) (id : UInt16),
      (l.foldl (fun index (text, i) => index.insertIfNew text i.toUInt16) index)[text]? = some id →
        id.toNat < n := by
  induction l generalizing index with
  | nil => exact hindex
  | cons x l ih =>
    rw [List.foldl_cons]
    refine ih _ (fun text id h => ?_) fun y hy => hl y (List.mem_cons_of_mem _ hy)
    obtain ⟨text', i⟩ := x
    rw [Std.ExtTreeMap.getElem?_insertIfNew] at h
    split at h
    · cases h
      have : i < n := hl (text', i) List.mem_cons_self
      simp only [UInt16.toNat_ofNat']
      exact Nat.lt_of_le_of_lt (Nat.mod_le _ _) this
    · exact hindex text id h

theorem sound_ofList (texts : List String) : Sound (ofList texts) := by
  have hlen : ∀ {l : List String}, ∀ x ∈ l.zipIdx, x.2 < l.toArray.size := by
    intro l x hx
    have := List.snd_lt_of_mem_zipIdx hx
    simpa using this
  refine ⟨?_, fun {text id} h => ?_⟩
  · unfold ofList size
    split
    · rename_i h
      cases texts with
      | nil => simp at h
      | cons => simp
    · simp
  · exact index_foldl_lt _ ∅ _ (by simp) hlen text id h

theorem Sound.intern {pool : StringPool} (h : Sound pool) (text : String) :
    Sound (pool.intern text).2 := by
  unfold StringPool.intern
  split
  · exact h
  · split
    · rename_i hnew hroom
      refine ⟨by simp [size], fun {t id} ht => ?_⟩
      unfold lookup? at ht
      rw [Std.ExtTreeMap.getElem?_insert] at ht
      split at ht
      · cases ht
        simp only [size, Array.size_push, UInt16.toNat_ofNat']
        exact Nat.lt_succ_of_le (Nat.mod_le _ _)
      · have := h.lookup_lt ht
        simp only [size, Array.size_push] at this ⊢
        omega
    · exact h

theorem Built.sound {pool : StringPool} (h : Built pool) : Sound pool := by
  induction h with
  | ofList texts => exact sound_ofList texts
  | intern text _ ih => exact ih.intern text

theorem Sound.get?_isSome {pool : StringPool} {id : UInt16} (h : id.toNat < pool.size) :
    ∃ text, pool.get? id = some text :=
  ⟨pool.strings[id.toNat], Array.getElem?_eq_getElem h⟩

/-! ## Pools that are found back -/

/-- What a text is found under has that text, and id 0 has the empty one. -/
structure Faithful (pool : StringPool) : Prop where
  zero : pool.get? 0 = some ""
  get?_of_lookup? : ∀ {text id}, pool.lookup? text = some id → pool.get? id = some text

/-- Ids keep their texts. -/
structure Extends (pool pool' : StringPool) : Prop where
  get? : ∀ {id text}, pool.get? id = some text → pool'.get? id = some text

theorem Extends.refl (pool : StringPool) : Extends pool pool := ⟨fun h => h⟩

theorem Extends.trans {a b c : StringPool} (h : Extends a b) (h' : Extends b c) : Extends a c :=
  ⟨fun ht => h'.get? (h.get? ht)⟩

theorem faithful_empty : Faithful empty := by
  refine ⟨rfl, fun {text id} h => ?_⟩
  have h' : ((∅ : Std.ExtTreeMap String UInt16).insertIfNew "" 0)[text]? = some id := h
  rw [Std.ExtTreeMap.getElem?_insertIfNew] at h'
  split at h'
  · rename_i heq
    cases h'
    rw [← Std.LawfulEqCmp.compare_eq_iff_eq.mp heq.1]
    rfl
  · simp at h'

theorem Faithful.sound {pool : StringPool} (h : Faithful pool) : Sound pool where
  nonempty := by
    have := (Array.getElem?_eq_some_iff.mp h.zero).1
    exact Nat.lt_of_le_of_lt (Nat.zero_le _) this
  lookup_lt ht := (Array.getElem?_eq_some_iff.mp (h.get?_of_lookup? ht)).1

/-- A text that has been interned is found under its id, and the other ids keep their texts. -/
theorem Faithful.intern {pool pool' : StringPool} {text : String} {id : UInt16}
    (h : Faithful pool) (hi : pool.intern text = (some id, pool')) :
    Faithful pool' ∧ Extends pool pool' ∧ pool'.get? id = some text := by
  unfold StringPool.intern at hi
  split at hi
  · rename_i id' hid
    cases hi
    exact ⟨h, Extends.refl _, h.get?_of_lookup? hid⟩
  · split at hi
    · rename_i hnew hroom
      cases hi
      have hid : pool.size.toUInt16.toNat = pool.size := by
        rw [Nat.toUInt16_eq, UInt16.toNat_ofNat', Nat.mod_eq_of_lt hroom]
      have hext : Extends pool
          { strings := pool.strings.push text, index := pool.index.insert text pool.size.toUInt16 } := by
        refine ⟨fun {id t} ht => ?_⟩
        have hlt := (Array.getElem?_eq_some_iff.mp ht).1
        rw [StringPool.get?, Array.getElem?_push, if_neg (by omega)]
        exact ht
      have hget : get?
          { strings := pool.strings.push text, index := pool.index.insert text pool.size.toUInt16 }
          pool.size.toUInt16 = some text := by
        rw [get?, hid, Array.getElem?_push, size, if_pos rfl]
      refine ⟨⟨hext.get? h.zero, fun {t id} ht => ?_⟩, hext, hget⟩
      rw [lookup?, Std.ExtTreeMap.getElem?_insert] at ht
      split at ht
      · rename_i heq
        cases ht
        rw [← Std.LawfulEqCmp.compare_eq_iff_eq.mp heq]
        exact hget
      · exact hext.get? (h.get?_of_lookup? ht)
    · cases hi

/-! ## Pools without repetitions -/

/-- There are no more texts than ids, and a text is found under every id that it has. -/
structure Distinct (pool : StringPool) : Prop extends Faithful pool where
  size_le : pool.size ≤ UInt16.size
  lookup?_of_get? : ∀ {text id}, pool.get? id = some text → pool.lookup? text = some id

theorem distinct_empty : Distinct empty where
  toFaithful := faithful_empty
  size_le := by decide
  lookup?_of_get? {text id} h := by
    have hlt : id.toNat < 1 := (Array.getElem?_eq_some_iff.mp h).1
    obtain rfl : id = 0 := UInt16.toNat_inj.mp (Nat.lt_one_iff.mp hlt)
    cases Option.some.inj (faithful_empty.zero.symm.trans h)
    rfl

/-- Interning repeats nothing. -/
theorem Distinct.intern {pool : StringPool} (h : Distinct pool) (text : String) :
    Distinct (pool.intern text).2 := by
  cases hnew : pool.lookup? text with
  | some id =>
    rw [StringPool.intern, hnew]
    exact h
  | none =>
    by_cases hroom : pool.size < UInt16.size
    · have hi : pool.intern text = (some pool.size.toUInt16,
          { strings := pool.strings.push text, index := pool.index.insert text pool.size.toUInt16 }) := by
        rw [StringPool.intern, hnew]
        exact if_pos hroom
      rw [hi]
      refine ⟨(h.toFaithful.intern hi).1, by simpa [size] using hroom, fun {t id} hid => ?_⟩
      rw [get?, Array.getElem?_push] at hid
      rw [lookup?, Std.ExtTreeMap.getElem?_insert]
      split at hid
      · rename_i hat
        cases hid
        have hlast : pool.size.toUInt16 = id := by
          rw [size, ← hat]
          exact UInt16.ofNat_toNat
        rw [if_pos Std.ReflCmp.compare_self, hlast]
      · have hold := h.lookup?_of_get? hid
        have hne : ¬ compare text t = .eq := fun heq => by
          rw [Std.LawfulEqCmp.compare_eq_iff_eq.mp heq, hold] at hnew
          cases hnew
        rw [if_neg hne]
        exact hold
    · rw [StringPool.intern, hnew]
      dsimp only
      rw [if_neg hroom]
      exact h

theorem Distinct.of_grown {pool pool' : StringPool} (h : Distinct pool) (hg : Grown pool pool') :
    Distinct pool' := by
  induction hg with
  | refl => exact h
  | intern text _ ih => exact ih.intern text

end StackLang.StringPool
