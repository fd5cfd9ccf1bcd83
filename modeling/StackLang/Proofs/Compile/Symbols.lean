import Mathlib
import StackLang.Compile.Symbols

/-!
# How the symbols grow

A scope that has a number keeps it, and its variables keep their slots; hidden slots come behind
them. `Symbols.Sound` ties the tables to the program, `Symbols.Extends` compares two tables, and
there is one lemma for each operation.
-/

namespace StackLang

theorem toNat_toUInt16 {n : Nat} (h : n < UInt16.size) : n.toUInt16.toNat = n := by
  rw [Nat.toUInt16_eq, UInt16.toNat_ofNat', Nat.mod_eq_of_lt h]

namespace Symbols

/-! ## Slots -/

/-- The first variable of this name has this slot. -/
def IsSlot (vars : List VarDecl) (name : String) (slot : Nat) (ty : Ty) : Prop :=
  vars[slot]? = some ⟨name, ty⟩ ∧ ∀ j < slot, ∀ var, vars[j]? = some var → var.name ≠ name

theorem IsSlot.lt {vars : Array VarDecl} {name : String} {slot : Nat} {ty : Ty}
    (h : IsSlot vars.toList name slot ty) : slot < vars.size := by
  have := (List.getElem?_eq_some_iff.mp h.1).1
  simpa using this

theorem slots_foldl (id : UInt16) (vars : List VarDecl) (k : Nat)
    (names : Std.TreeMap String VarInfo) (name : String) :
    ((vars.zipIdx k).foldl (fun (names : Std.TreeMap String VarInfo) (var, slot) =>
      names.insertIfNew var.name ⟨⟨id, slot.toUInt16⟩, var.ty⟩) names)[name]? =
      names[name]?.or ((vars.zipIdx k).find? (·.1.name = name) |>.map fun (var, slot) =>
        ⟨⟨id, slot.toUInt16⟩, var.ty⟩) := by
  induction vars generalizing k names with
  | nil => simp
  | cons var vars ih =>
    rw [List.zipIdx_cons, List.foldl_cons, ih, Std.TreeMap.getElem?_insertIfNew, List.find?_cons]
    by_cases hname : var.name = name
    · subst hname
      by_cases hmem : var.name ∈ names
      · simp [hmem]
      · simp [hmem]
    · simp [hname]

theorem getElem?_slots {id : UInt16} {vars : List VarDecl} {name : String} {info : VarInfo} :
    (slots id vars)[name]? = some info ↔
      ∃ slot, IsSlot vars name slot info.ty ∧ info.addr = ⟨id, slot.toUInt16⟩ := by
  have h := slots_foldl id vars 0 ∅ name
  have hempty : (∅ : Std.TreeMap String VarInfo)[name]? = none := by simp
  rw [slots, h, hempty, Option.none_or, Option.map_eq_some_iff]
  constructor
  · rintro ⟨⟨var, slot⟩, hfind, rfl⟩
    obtain ⟨hname, i, hi, hget, hmin⟩ := List.find?_eq_some_iff_getElem.mp hfind
    simp only [List.length_zipIdx] at hi
    simp only [List.getElem_zipIdx, Nat.zero_add, Prod.mk.injEq] at hget
    obtain ⟨rfl, rfl⟩ := hget
    have hname' : vars[i].name = name := by simpa using hname
    refine ⟨i, ⟨?_, fun j hj var hvar heq => ?_⟩, rfl⟩
    · rw [List.getElem?_eq_getElem hi, ← hname']
    · have := hmin j hj
      obtain ⟨hjl, rfl⟩ := List.getElem?_eq_some_iff.mp hvar
      simp [heq] at this
  · rintro ⟨slot, ⟨hget, hmin⟩, haddr⟩
    obtain ⟨hlt, hvar⟩ := List.getElem?_eq_some_iff.mp hget
    refine ⟨(⟨name, info.ty⟩, slot), List.find?_eq_some_iff_getElem.mpr
      ⟨by simp, slot, by simpa using hlt, by simp [hvar], fun j hj => ?_⟩, ?_⟩
    · have := hmin j hj _ (List.getElem?_eq_getElem (by omega))
      simpa using this
    · dsimp only
      rw [← haddr]

/-! ## Tables that belong to a program -/

theorem maxId_lt : maxId < UInt16.size := by decide

/-- The tables of a program: scopes are numbered one to one, and the variables of a numbered scope
have its first slots. -/
structure Sound (p : Program) (s : Symbols) : Prop where
  numbered : ∀ {i id}, s.scopeId? i = some id → ∃ scope, p.scope? i = some scope ∧
    id.toNat < s.scopeCount ∧ scope.vars.size ≤ maxId ∧ scope.vars.size ≤ s.scopeSize id ∧
    s.vars[i]? = some (slots id scope.vars.toList)
  injective : ∀ {i j id}, s.scopeId? i = some id → s.scopeId? j = some id → i = j
  owner : ∀ {i names}, s.vars[i]? = some names → ∃ id, s.scopeId? i = some id
  count : s.scopeCount ≤ UInt16.size
  size : ∀ id, s.scopeSize id ≤ UInt16.size

/-- `s'` is `s` after more scopes, slots and functions have been added. -/
structure Extends (p : Program) (s s' : Symbols) : Prop where
  before : s.Sound p
  after : s'.Sound p
  scopeIds : ∀ {i id}, s.scopeId? i = some id → s'.scopeId? i = some id
  count : s.scopeCount ≤ s'.scopeCount
  size : ∀ id, s.scopeSize id ≤ s'.scopeSize id

/-- From `s` to `s'` these slots, among others, have been made: all are new, and no two are the same. -/
structure AddsSlots (s : Symbols) (addrs : List VarAddr) (s' : Symbols) : Prop where
  size : ∀ id, s.scopeSize id ≤ s'.scopeSize id
  new : ∀ addr ∈ addrs, s.scopeSize addr.scope ≤ addr.slot.toNat ∧
    addr.slot.toNat < s'.scopeSize addr.scope
  nodup : addrs.Nodup

variable {p : Program} {s s' s'' : Symbols}

theorem AddsSlots.none (h : ∀ id, s.scopeSize id ≤ s'.scopeSize id) : AddsSlots s [] s' :=
  ⟨h, nofun, .nil⟩

/-- What is made later is something else. -/
theorem AddsSlots.append {addrs addrs' : List VarAddr} (h : AddsSlots s addrs s')
    (h' : AddsSlots s' addrs' s'') : AddsSlots s (addrs ++ addrs') s'' := by
  refine ⟨fun id => Nat.le_trans (h.size id) (h'.size id), fun addr haddr => ?_,
    List.nodup_append.mpr ⟨h.nodup, h'.nodup, fun addr haddr addr' haddr' heq => ?_⟩⟩
  · rcases List.mem_append.mp haddr with haddr | haddr
    · exact ⟨(h.new addr haddr).1, Nat.lt_of_lt_of_le (h.new addr haddr).2 (h'.size _)⟩
    · exact ⟨Nat.le_trans (h.size _) (h'.new addr haddr).1, (h'.new addr haddr).2⟩
  · subst heq
    exact absurd (h.new addr haddr).2 (Nat.not_lt.mpr (h'.new addr haddr').1)

theorem AddsSlots.perm {addrs addrs' : List VarAddr} (h : AddsSlots s addrs s')
    (hp : addrs.Perm addrs') : AddsSlots s addrs' s' :=
  ⟨h.size, fun addr haddr => h.new addr (hp.mem_iff.mpr haddr), hp.nodup_iff.mp h.nodup⟩

theorem sound_empty (p : Program) : Sound p {} :=
  ⟨fun h => by simp [scopeId?] at h, fun h => by simp [scopeId?] at h, fun h => by simp at h,
    Nat.zero_le _, fun _ => Nat.zero_le _⟩

theorem Extends.refl (h : s.Sound p) : Extends p s s :=
  ⟨h, h, id, Nat.le_refl _, fun _ => Nat.le_refl _⟩

theorem Extends.trans (h : Extends p s s') (h' : Extends p s' s'') : Extends p s s'' :=
  ⟨h.before, h'.after, fun hi => h'.scopeIds (h.scopeIds hi), Nat.le_trans h.count h'.count,
    fun id => Nat.le_trans (h.size id) (h'.size id)⟩

/-- What a numbered scope declares stays. -/
theorem Extends.declared? (h : Extends p s s') {i : ScopeIndex} {id : UInt16}
    (hi : s.scopeId? i = some id) (name : String) :
    s'.vars.declared? i name = s.vars.declared? i name := by
  obtain ⟨scope, hscope, -, -, -, hvars⟩ := h.before.numbered hi
  obtain ⟨scope', hscope', -, -, -, hvars'⟩ := h.after.numbered (h.scopeIds hi)
  rw [hscope] at hscope'
  cases hscope'
  rw [NameTable.declared?, NameTable.declared?, hvars, hvars']

/-- A declared variable is one of the program's, and its address is its place there. -/
theorem Sound.declared? (h : s.Sound p) {i : ScopeIndex} {name : String} {info : VarInfo}
    (hd : s.vars.declared? i name = some info) :
    ∃ scope, p.scope? i = some scope ∧ s.scopeId? i = some info.addr.scope ∧
      IsSlot scope.vars.toList name info.addr.slot.toNat info.ty ∧
      info.addr.slot.toNat < s.scopeSize info.addr.scope ∧
      info.addr.scope.toNat < s.scopeCount := by
  obtain ⟨names, hnames, hname⟩ := Option.bind_eq_some_iff.mp hd
  obtain ⟨id, hid⟩ := h.owner hnames
  obtain ⟨scope, hscope, hcount, hmax, hsize, hslots⟩ := h.numbered hid
  rw [hnames] at hslots
  cases hslots
  obtain ⟨slot, hslot, haddr⟩ := getElem?_slots.mp hname
  have hlt : slot < scope.vars.toList.length := (List.getElem?_eq_some_iff.mp hslot.1).1
  rw [Array.length_toList] at hlt
  have := maxId_lt
  have hnat : slot.toUInt16.toNat = slot := toNat_toUInt16 (by omega)
  rw [haddr]
  have hsize' : slot < s.scopeSize id := by omega
  exact ⟨scope, hscope, hid, by rw [hnat]; exact hslot, by rw [hnat]; exact hsize', hcount⟩

/-! ## Operations -/

/-- A scope without a number has been given the next one. -/
def numbering (s : Symbols) (i : ScopeIndex) (scope : Scope) : Symbols :=
  { s with
    scopeIds := s.scopeIds.insert i s.sizes.size.toUInt16
    sizes := s.sizes.push scope.vars.size
    vars := s.vars.insert i (slots s.sizes.size.toUInt16 scope.vars.toList) }

theorem enterScope_cases {i : ScopeIndex} {scope : Scope} {id : UInt16}
    (h : s.enterScope i scope = .ok (id, s')) :
    s.scopeId? i = some id ∧ s' = s ∨
      s.scopeId? i = none ∧ s.sizes.size ≤ maxId ∧ scope.vars.size ≤ maxId ∧
        id = s.sizes.size.toUInt16 ∧ s' = s.numbering i scope := by
  unfold enterScope at h
  split at h
  · rename_i id' hid
    cases h
    exact .inl ⟨hid, rfl⟩
  · rename_i hnone
    split at h
    · cases h
    · rename_i hroom
      split at h
      · cases h
      · rename_i hvars
        cases h
        exact .inr ⟨hnone, Nat.not_lt.mp hroom, Nat.not_lt.mp hvars, rfl, rfl⟩

section Numbering

variable {i : ScopeIndex} {scope : Scope}

theorem scopeId?_numbering (j : ScopeIndex) :
    (s.numbering i scope).scopeId? j =
      if i = j then some s.sizes.size.toUInt16 else s.scopeId? j := by
  unfold scopeId? numbering
  rw [Std.TreeMap.getElem?_insert]
  simp

theorem scopeSize_numbering (id : UInt16) :
    (s.numbering i scope).scopeSize id =
      if id.toNat = s.sizes.size then scope.vars.size else s.scopeSize id := by
  unfold scopeSize numbering
  rw [Array.getElem?_push]
  split <;> rfl

theorem scopeCount_numbering : (s.numbering i scope).scopeCount = s.scopeCount + 1 :=
  Array.size_push ..

theorem vars_numbering (j : ScopeIndex) :
    (s.numbering i scope).vars[j]? =
      if i = j then some (slots s.sizes.size.toUInt16 scope.vars.toList) else s.vars[j]? := by
  unfold numbering
  rw [Std.TreeMap.getElem?_insert]
  simp

theorem toNat_next (hroom : s.sizes.size ≤ maxId) :
    s.sizes.size.toUInt16.toNat = s.sizes.size :=
  toNat_toUInt16 (Nat.lt_of_le_of_lt hroom maxId_lt)

/-- The number of another scope is smaller. -/
theorem lt_of_scopeId? (hs : s.Sound p) {j : ScopeIndex} {id : UInt16}
    (h : s.scopeId? j = some id) : id.toNat < s.sizes.size := by
  obtain ⟨_, _, hlt, _⟩ := hs.numbered h
  exact hlt

theorem sound_numbering (hs : s.Sound p) (hscope : p.scope? i = some scope)
    (hroom : s.sizes.size ≤ maxId) (hvars : scope.vars.size ≤ maxId) :
    (s.numbering i scope).Sound p where
  numbered {j id} hj := by
    have hnew := toNat_next hroom
    rw [scopeId?_numbering] at hj
    rw [scopeSize_numbering, scopeCount_numbering, vars_numbering]
    split at hj
    · rename_i heq
      cases hj
      rw [← heq, if_pos rfl, if_pos hnew, hnew]
      exact ⟨scope, hscope, Nat.lt_succ_self _, hvars, Nat.le_refl _, rfl⟩
    · rename_i hne
      obtain ⟨scope', hscope', hlt, hmax, hle, hslots⟩ := hs.numbered hj
      rw [if_neg hne, if_neg (Nat.ne_of_lt (lt_of_scopeId? hs hj))]
      exact ⟨scope', hscope', Nat.lt_succ_of_lt hlt, hmax, hle, hslots⟩
  injective {j k id} hj hk := by
    have hnew := toNat_next hroom
    rw [scopeId?_numbering] at hj hk
    split at hj <;> split at hk
    · rename_i hij hik
      exact hij.symm.trans hik
    · cases hj
      have := lt_of_scopeId? hs hk
      omega
    · cases hk
      have := lt_of_scopeId? hs hj
      omega
    · exact hs.injective hj hk
  owner {j names} hj := by
    rw [vars_numbering] at hj
    rw [scopeId?_numbering]
    split at hj
    · rename_i heq
      rw [if_pos heq]
      exact ⟨_, rfl⟩
    · rename_i hne
      rw [if_neg hne]
      exact hs.owner hj
  count := by
    rw [scopeCount_numbering]
    exact Nat.lt_of_le_of_lt hroom maxId_lt
  size id := by
    rw [scopeSize_numbering]
    split
    · exact Nat.le_trans hvars (Nat.le_of_lt maxId_lt)
    · exact hs.size id

theorem extends_numbering (hs : s.Sound p) (hscope : p.scope? i = some scope)
    (hnone : s.scopeId? i = none) (hroom : s.sizes.size ≤ maxId) (hvars : scope.vars.size ≤ maxId) :
    Extends p s (s.numbering i scope) := by
  refine ⟨hs, sound_numbering hs hscope hroom hvars, fun {j id} hj => ?_, ?_, fun id => ?_⟩
  · rw [scopeId?_numbering, if_neg, hj]
    rintro rfl
    rw [hnone] at hj
    cases hj
  · rw [scopeCount_numbering]
    exact Nat.le_succ _
  · rw [scopeSize_numbering]
    split
    · rename_i heq
      rw [scopeSize, heq, Array.getElem?_eq_none (Nat.le_refl _)]
      exact Nat.zero_le _
    · exact Nat.le_refl _

end Numbering

/-- A scope that has been entered has a number. -/
theorem extends_enterScope {i : ScopeIndex} {scope : Scope} {id : UInt16} (hs : s.Sound p)
    (hscope : p.scope? i = some scope) (h : s.enterScope i scope = .ok (id, s')) :
    Extends p s s' ∧ s'.scopeId? i = some id ∧ s'.functions = s.functions := by
  rcases enterScope_cases h with ⟨hid, rfl⟩ | ⟨hnone, hroom, hvars, rfl, rfl⟩
  · exact ⟨.refl hs, hid, rfl⟩
  · exact ⟨extends_numbering hs hscope hnone hroom hvars,
      by rw [scopeId?_numbering, if_pos rfl], rfl⟩

/-- A hidden slot lies behind the variables of its scope and was no slot before. -/
theorem extends_allocScratch {id : UInt16} {addr : VarAddr} (hs : s.Sound p)
    (h : s.allocScratch id = .ok (addr, s')) :
    Extends p s s' ∧ addr.scope = id ∧ addr.slot.toNat = s.scopeSize id ∧
      s'.scopeSize id = s.scopeSize id + 1 ∧ s'.functions = s.functions := by
  unfold allocScratch at h
  cases hsize : s.sizes[id.toNat]? with
  | none => rw [hsize] at h; cases h
  | some size =>
    rw [hsize] at h
    dsimp only at h
    split at h
    · cases h
    · rename_i hmax
      cases h
      have := maxId_lt
      have hlt := (Array.getElem?_eq_some_iff.mp hsize).1
      have hold : s.scopeSize id = size := by rw [scopeSize, hsize]; rfl
      have hget : ∀ id' : UInt16,
          ((s.sizes.setIfInBounds id.toNat (size + 1))[id'.toNat]?).getD 0 =
            if id = id' then size + 1 else s.scopeSize id' := by
        intro id'
        rw [Array.getElem?_setIfInBounds]
        by_cases heq : id = id'
        · subst heq
          simp [hlt]
        · have hne : id.toNat ≠ id'.toNat := fun h => heq (UInt16.toNat_inj.mp h)
          simp [heq, hne, scopeSize]
      have hle : ∀ id' : UInt16, s.scopeSize id' ≤ if id = id' then size + 1 else s.scopeSize id' := by
        intro id'
        split
        · rename_i heq
          rw [← heq, hold]
          exact Nat.le_succ _
        · exact Nat.le_refl _
      refine ⟨⟨hs, ⟨fun hj => ?_, hs.injective, hs.owner, ?_, fun id' => ?_⟩, fun hj => hj, ?_,
        fun id' => ?_⟩, rfl, ?_, ?_, rfl⟩
      · obtain ⟨scope, hscope, hcount, hvars, hsize', hslots⟩ := hs.numbered hj
        refine ⟨scope, hscope, by simpa [scopeCount] using hcount, hvars, ?_, hslots⟩
        simp only [scopeSize, hget]
        exact Nat.le_trans hsize' (hle _)
      · simpa [scopeCount] using hs.count
      · simp only [scopeSize, hget]
        split
        · omega
        · exact hs.size id'
      · simp [scopeCount]
      · simp only [scopeSize, hget]
        exact hle id'
      · rw [toNat_toUInt16 (by omega), hold]
      · simp only [scopeSize, hget, if_true]
        rw [← scopeSize, hold]

end Symbols

end StackLang
