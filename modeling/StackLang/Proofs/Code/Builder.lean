import StackLang.Proofs.Code.Encode

/-!
# How code grows

A builder's bytes are final as soon as they are written, but for the operands of branches that wait
for their label. `Extends b b'` says what of `b` is still there in `b'`: bytes, places of labels,
and for every waiting branch that it waits still or has got its distance. Every operation of the
builder extends it (`Appends.extends` and its like), and `Extends.trans` joins operations, so
what an operation writes can be read off the finished code.
-/

namespace StackLang.Builder

variable {b b' b'' : Builder} {l : Label}

theorem label_ext {l l' : Label} (h : l.index = l'.index) : l = l' := by
  cases l
  cases l'
  simpa using h

/-- The place of a label, if it has one. -/
def position? (b : Builder) (l : Label) : Option Nat := b.labels[l.index]?.bind (·.position)

/-- A branch with its operand at `source` waits for a label. -/
def Waits (b : Builder) (l : Label) (source : Nat) : Prop :=
  ∃ slot, b.labels[l.index]? = some slot ∧ slot.position = none ∧ source ∈ slot.uses

/-- The operands that wait lie inside the code, and no two of them overlap. -/
structure Sound (b : Builder) : Prop where
  inside : ∀ {l source}, b.Waits l source → source + 2 ≤ b.position
  apart : ∀ {l source l' source'}, b.Waits l source → b.Waits l' source' →
    l = l' ∧ source = source' ∨ source + 2 ≤ source' ∨ source' + 2 ≤ source

theorem sound_empty : Sound {} :=
  ⟨fun ⟨_, h, _⟩ => (nomatch h), fun ⟨_, h, _⟩ => (nomatch h)⟩

/-- No part of an operand that waits. -/
def Settled (b : Builder) (i : Nat) : Prop :=
  ∀ l source, b.Waits l source → i < source ∨ source + 2 ≤ i

/-- A branch with its operand at `source` has got the distance to its label. -/
def Resolved (b : Builder) (l : Label) (source : Nat) : Prop :=
  ∃ target d, b.position? l = some target ∧ distance source target = .ok d ∧
    ∀ i < 2, b.bytes[source + i]? = (distanceBytes d)[i]?

/-- `b'` is `b` with more code; what was settled is as it was. -/
structure Keeps (b b' : Builder) : Prop where
  before : b.Sound
  after : b'.Sound
  size : b.position ≤ b'.position
  bytes : ∀ {i}, i < b.position → b.Settled i → b'.bytes[i]? = b.bytes[i]?
  bound : ∀ {l target}, b.position? l = some target → b'.position? l = some target
  old : ∀ {l source}, b'.Waits l source → source < b.position → b.Waits l source

theorem Keeps.refl (h : b.Sound) : Keeps b b :=
  ⟨h, h, Nat.le_refl _, fun _ _ => rfl, id, fun h _ => h⟩

/-- Bytes of an earlier state are settled unless a branch waited there. -/
theorem Keeps.settled (h : Keeps b b') {i : Nat} (hi : i < b.position) (hs : b.Settled i) :
    b'.Settled i := by
  intro l source hw
  by_cases hlt : source < b.position
  · exact hs l source (h.old hw hlt)
  · exact .inl (by omega)

theorem Keeps.trans (h : Keeps b b') (h' : Keeps b' b'') : Keeps b b'' where
  before := h.before
  after := h'.after
  size := Nat.le_trans h.size h'.size
  bytes hi hs := by
    rw [h'.bytes (Nat.lt_of_lt_of_le hi h.size) (h.settled hi hs), h.bytes hi hs]
  bound hp := h'.bound (h.bound hp)
  old hw hlt := h.old (h'.old hw (Nat.lt_of_lt_of_le hlt h.size)) hlt

/-- `b'` is `b` with more code; what had its final form in `b` has it in `b'`. -/
structure Extends (b b' : Builder) : Prop where
  before : b.Sound
  after : b'.Sound
  size : b.position ≤ b'.position
  bytes : ∀ {i}, i < b.position → b.Settled i → b'.bytes[i]? = b.bytes[i]?
  bound : ∀ {l target}, b.position? l = some target → b'.position? l = some target
  waits : ∀ {l source}, b.Waits l source → b'.Waits l source ∨ b'.Resolved l source
  old : ∀ {l source}, b'.Waits l source → source < b.position → b.Waits l source

theorem Extends.refl (h : b.Sound) : Extends b b :=
  ⟨h, h, Nat.le_refl _, fun _ _ => rfl, id, .inl, fun h _ => h⟩

theorem Extends.keeps (h : Extends b b') : Keeps b b' :=
  ⟨h.before, h.after, h.size, h.bytes, h.bound, h.old⟩

theorem Extends.settled (h : Extends b b') {i : Nat} (hi : i < b.position) (hs : b.Settled i) :
    b'.Settled i :=
  h.keeps.settled hi hs

theorem Extends.resolved (h : Extends b b') {l : Label} {source : Nat} (hr : b.Resolved l source)
    (hlt : source + 2 ≤ b.position) (hs : ∀ i < 2, b.Settled (source + i)) :
    b'.Resolved l source := by
  obtain ⟨target, d, hp, hd, hbytes⟩ := hr
  refine ⟨target, d, h.bound hp, hd, fun i hi => ?_⟩
  rw [h.bytes (by omega) (hs i hi), hbytes i hi]

/-- A branch that waited and has got its distance is settled. -/
theorem Extends.settled_of_resolved (h : Extends b b') {l : Label} {source i : Nat}
    (hw : b.Waits l source) (hr : b'.Resolved l source) (hi : i < 2) : b'.Settled (source + i) := by
  intro l' source' hw'
  have hin := h.before.inside hw
  by_cases hlt : source' < b.position
  · have hold := h.old hw' hlt
    rcases h.before.apart hw hold with ⟨rfl, -⟩ | hap | hap
    · obtain ⟨target, -, hp, -⟩ := hr
      obtain ⟨slot, hslot, hnone, -⟩ := hw'
      simp [position?, hslot, hnone] at hp
    · omega
    · omega
  · omega

theorem Extends.trans (h : Extends b b') (h' : Extends b' b'') : Extends b b'' where
  before := h.before
  after := h'.after
  size := (h.keeps.trans h'.keeps).size
  bytes := (h.keeps.trans h'.keeps).bytes
  bound := (h.keeps.trans h'.keeps).bound
  old := (h.keeps.trans h'.keeps).old
  waits hw := by
    rcases h.waits hw with hw' | hr
    · exact h'.waits hw'
    · have := h.before.inside hw
      have := h.size
      exact .inr (h'.resolved hr (by omega) fun i hi => h.settled_of_resolved hw hr hi)

/-! ## Bytes -/

/-- `b'` is `b` with these bytes behind it. -/
structure Appends (b : Builder) (bytes : List UInt8) (b' : Builder) : Prop where
  bytes : b'.bytes.toList = b.bytes.toList ++ bytes
  labels : b'.labels = b.labels

theorem Appends.trans {xs ys : List UInt8} (h : Appends b xs b') (h' : Appends b' ys b'') :
    Appends b (xs ++ ys) b'' :=
  ⟨by rw [h'.bytes, h.bytes, List.append_assoc], h'.labels.trans h.labels⟩

theorem Appends.position_eq {xs : List UInt8} (h : Appends b xs b') :
    b'.position = b.position + xs.length := by
  simp only [position, ← Array.length_toList, h.bytes, List.length_append]

theorem Appends.extends {xs : List UInt8} (h : Appends b xs b') (hb : b.Sound) :
    Extends b b' := by
  have hw : ∀ l source, b'.Waits l source ↔ b.Waits l source := by
    intro l source
    simp only [Waits, h.labels]
  have hp := h.position_eq
  refine ⟨hb, ⟨fun hw' => ?_, fun hw' hw'' => ?_⟩, by omega, fun {i} hi _ => ?_, ?_, ?_, ?_⟩
  · have := hb.inside ((hw _ _).mp hw')
    omega
  · exact hb.apart ((hw _ _).mp hw') ((hw _ _).mp hw'')
  · have hi' : i < b.bytes.toList.length := hi
    rw [← Array.getElem?_toList, h.bytes, List.getElem?_append_left hi', Array.getElem?_toList]
  · intro l target ht
    rwa [position?, h.labels]
  · exact fun hw' => .inl ((hw _ _).mpr hw')
  · exact fun hw' _ => (hw _ _).mp hw'

/-- Bytes that have been appended are in the code for good. -/
theorem Appends.getElem? {xs : List UInt8} (h : Appends b xs b') (hb : b.Sound)
    (h' : Extends b' b'') {i : Nat} (hi : i < xs.length) :
    b''.bytes[b.position + i]? = xs[i]? := by
  have hp := h.position_eq
  have hs : b'.Settled (b.position + i) := by
    intro l source hw
    have hw' : b.Waits l source := by simpa only [Waits, h.labels] using hw
    have := hb.inside hw'
    exact .inr (by omega)
  have hlen : b.bytes.toList.length ≤ b.position + i := by
    rw [Array.length_toList, position]
    omega
  rw [h'.bytes (by omega) hs, ← Array.getElem?_toList, h.bytes, List.getElem?_append_right hlen,
    Array.length_toList, position, Nat.add_sub_cancel_left]

theorem appends_addOp {op : Opcode} (h : addOp op b = .ok () b') :
    Appends b [op.toByte] b' := by
  cases h
  exact ⟨by simp, rfl⟩

theorem appends_addBytes {bytes : List UInt8} (h : addBytes bytes b = .ok () b') :
    Appends b bytes b' := by
  cases h
  exact ⟨by simp, rfl⟩

theorem appends_addAddr {addr : VarAddr} (h : addAddr addr b = .ok () b') :
    Appends b (littleEndian 2 addr.scope.toNat ++ littleEndian 2 addr.slot.toNat) b' := by
  cases h
  exact ⟨by simp, rfl⟩

/-! ## Labels -/

theorem extends_newLabel {l : Label} (hb : b.Sound) (h : newLabel b = .ok l b') :
    Extends b b' ∧ b'.position = b.position := by
  cases h
  have hw : ∀ l source, Waits { b with labels := b.labels.push {} } l source ↔
      b.Waits l source := by
    intro l source
    simp only [Waits, Array.getElem?_push]
    constructor
    · rintro ⟨slot, hslot, hnone, huse⟩
      split at hslot
      · cases hslot
        cases huse
      · exact ⟨slot, hslot, hnone, huse⟩
    · rintro ⟨slot, hslot, hnone, huse⟩
      have hlt := (Array.getElem?_eq_some_iff.mp hslot).1
      exact ⟨slot, by rw [if_neg (by omega)]; exact hslot, hnone, huse⟩
  refine ⟨⟨hb, ⟨fun h => hb.inside ((hw _ _).mp h), fun h h' => ?_⟩, Nat.le_refl _,
    fun _ _ => rfl, ?_, fun h => .inl ((hw _ _).mpr h), fun h _ => (hw _ _).mp h⟩, rfl⟩
  · exact hb.apart ((hw _ _).mp h) ((hw _ _).mp h')
  · intro l target ht
    obtain ⟨slot, hslot, hpos⟩ := Option.bind_eq_some_iff.mp ht
    have hlt := (Array.getElem?_eq_some_iff.mp hslot).1
    rw [position?, Array.getElem?_push, if_neg (by omega)]
    exact ht

theorem getElem?_patch (bytes : Array UInt8) (start : Nat) (bs : List UInt8) (i : Nat)
    (h : start + bs.length ≤ bytes.size) :
    (patch bytes start bs)[i]? =
      if start ≤ i ∧ i < start + bs.length then bs[i - start]? else bytes[i]? := by
  induction bs generalizing bytes start with
  | nil => rw [patch, if_neg (by simp only [List.length_nil]; omega)]
  | cons x bs ih =>
    simp only [List.length_cons] at h
    rw [patch, ih _ _ (by simp only [Array.size_setIfInBounds]; omega),
      Array.getElem?_setIfInBounds, List.length_cons]
    by_cases hi : i = start
    · rw [if_neg (by omega), if_pos hi.symm, if_pos (by omega), if_pos (by omega), hi]
      simp
    · by_cases hin : start + 1 ≤ i ∧ i < start + 1 + bs.length
      · rw [if_pos hin, if_pos (by omega), show i - start = i - (start + 1) + 1 by omega,
          List.getElem?_cons_succ]
      · rw [if_neg hin, if_neg (by omega), if_neg (by omega)]

@[simp] theorem size_patch (bytes : Array UInt8) (start : Nat) (bs : List UInt8) :
    (patch bytes start bs).size = bytes.size := by
  induction bs generalizing bytes start with
  | nil => rfl
  | cons x bs ih => rw [patch, ih, Array.size_setIfInBounds]

/-- All operands in `uses` have the distance to `target`, and no other byte has changed. -/
structure Filled (target : Nat) (uses : List Nat) (b b' : Builder) : Prop where
  labels : b'.labels = b.labels
  size : b'.position = b.position
  others : ∀ {i}, (∀ source ∈ uses, i < source ∨ source + 2 ≤ i) → b'.bytes[i]? = b.bytes[i]?
  uses : ∀ source ∈ uses, ∃ d, distance source target = .ok d ∧
    ∀ i < 2, b'.bytes[source + i]? = (distanceBytes d)[i]?

theorem filled_of_resolve {target source : Nat} (h : resolve target source b = .ok () b')
    (hin : source + 2 ≤ b.position) : Filled target [source] b b' := by
  unfold resolve at h
  cases hd : distance source target with
  | error e => rw [hd] at h; cases h
  | ok d =>
    rw [hd] at h
    cases h
    have hlen : (distanceBytes d).length = 2 := length_littleEndian _ _
    have hget := fun i => getElem?_patch b.bytes source (distanceBytes d) i
      (by rw [hlen]; exact hin)
    refine ⟨rfl, size_patch _ _ _, fun {i} hi => ?_, fun s hs => ?_⟩
    · have := hi source List.mem_cons_self
      rw [hget, if_neg (by omega)]
    · cases List.mem_singleton.mp hs
      refine ⟨d, hd, fun i hi => ?_⟩
      rw [hget, if_pos (by omega), Nat.add_sub_cancel_left]

theorem filled_of_forM {target : Nat} {uses : List Nat}
    (h : uses.forM (resolve target) b = .ok () b')
    (hin : ∀ source ∈ uses, source + 2 ≤ b.position)
    (hapart : ∀ source ∈ uses, ∀ source' ∈ uses,
      source = source' ∨ source + 2 ≤ source' ∨ source' + 2 ≤ source) :
    Filled target uses b b' := by
  induction uses generalizing b with
  | nil =>
    cases h
    exact ⟨rfl, rfl, fun _ => rfl, fun _ h => (nomatch h)⟩
  | cons source uses ih =>
    change (resolve target source >>= fun _ => uses.forM (resolve target)) b = _ at h
    simp only [Bind.bind, EStateM.bind] at h
    cases hr : resolve target source b with
    | error e s => rw [hr] at h; cases h
    | ok u b₁ =>
      rw [hr] at h
      have h₁ := filled_of_resolve hr (hin source List.mem_cons_self)
      have h₂ := ih h (fun s hs => h₁.size ▸ hin s (List.mem_cons_of_mem _ hs))
        fun s hs s' hs' => hapart s (List.mem_cons_of_mem _ hs) s' (List.mem_cons_of_mem _ hs')
      refine ⟨h₂.labels.trans h₁.labels, h₂.size.trans h₁.size, fun {i} hi => ?_, fun s hs => ?_⟩
      · rw [h₂.others fun s hs => hi s (List.mem_cons_of_mem _ hs), h₁.others fun s hs => ?_]
        cases List.mem_singleton.mp hs
        exact hi source List.mem_cons_self
      · by_cases hmem : s ∈ uses
        · exact h₂.uses s hmem
        · have hs' : s = source := by simpa [hmem] using hs
          obtain ⟨d, hd, hbytes⟩ := h₁.uses s (List.mem_singleton.mpr hs')
          refine ⟨d, hd, fun i hi => ?_⟩
          rw [h₂.others fun s' hs'' => ?_, hbytes i hi]
          rcases hapart s hs s' (List.mem_cons_of_mem _ hs'') with rfl | hap | hap
          · exact absurd hs'' hmem
          · omega
          · omega

/-- The label has the current position and nothing waits for it. -/
def placing (b : Builder) (l : Label) : Builder :=
  { b with labels := b.labels.setIfInBounds l.index { position := b.position } }

theorem bind_of_unknown (h : b.labels[l.index]? = none) :
    bind l b = .error (unknownLabel l) b := by
  unfold bind
  simp only [Bind.bind, EStateM.bind, get, getThe, MonadStateOf.get, EStateM.get, h]
  rfl

theorem bind_of_placed {slot : LabelSlot} {target : Nat} (h : b.labels[l.index]? = some slot)
    (hp : slot.position = some target) :
    bind l b = .error (.internal s!"label {l.index} bound twice") b := by
  unfold bind
  simp only [Bind.bind, EStateM.bind, get, getThe, MonadStateOf.get, EStateM.get, h, hp,
    Option.isSome_some, if_true]
  rfl

theorem bind_of_open {slot : LabelSlot} (h : b.labels[l.index]? = some slot)
    (hp : slot.position = none) :
    bind l b = slot.uses.forM (resolve b.position) (b.placing l) := by
  unfold bind
  simp only [Bind.bind, EStateM.bind, get, getThe, MonadStateOf.get, EStateM.get, h, hp,
    Option.isSome_none, Bool.false_eq_true, if_false]
  rfl

/-- In `placing` the label has its place, all others are as they were. -/
theorem getElem?_placing {slot : LabelSlot} (h : b.labels[l.index]? = some slot) (i : Nat) :
    (b.placing l).labels[i]? =
      if l.index = i then some { position := some b.position } else b.labels[i]? := by
  have hlt := (Array.getElem?_eq_some_iff.mp h).1
  simp only [placing, Array.getElem?_setIfInBounds, hlt, if_true]

theorem position?_placing {slot : LabelSlot} (h : b.labels[l.index]? = some slot) (l' : Label) :
    (b.placing l).position? l' = if l' = l then some b.position else b.position? l' := by
  rw [position?, getElem?_placing h]
  by_cases hl : l.index = l'.index
  · rw [if_pos hl, if_pos (label_ext hl.symm)]
    rfl
  · rw [if_neg hl, if_neg fun h => hl (by rw [h])]
    rfl

theorem waits_placing {slot : LabelSlot} (h : b.labels[l.index]? = some slot) (l' : Label)
    (source : Nat) : (b.placing l).Waits l' source ↔ l' ≠ l ∧ b.Waits l' source := by
  unfold Waits
  rw [getElem?_placing h]
  by_cases hl : l.index = l'.index
  · simp [hl, label_ext hl.symm]
  · have hne : l' ≠ l := fun h => hl (by rw [h])
    simp [hl, hne]

theorem keeps_placing {slot : LabelSlot} (hb : b.Sound) (hslot : b.labels[l.index]? = some slot)
    (hpos : slot.position = none) : Keeps b (b.placing l) where
  before := hb
  after := by
    refine ⟨fun hw => ?_, fun hw hw' => ?_⟩
    · exact hb.inside ((waits_placing hslot _ _).mp hw).2
    · exact hb.apart ((waits_placing hslot _ _).mp hw).2 ((waits_placing hslot _ _).mp hw').2
  size := Nat.le_refl _
  bytes _ _ := rfl
  bound {l' target} ht := by
    have hne : l' ≠ l := by
      rintro rfl
      simp [position?, hslot, hpos] at ht
    rwa [position?_placing hslot, if_neg hne]
  old hw _ := ((waits_placing hslot _ _).mp hw).2

/-- A branch that waits for the label has got its distance, and no other byte has changed. -/
theorem filled_of_bind {slot : LabelSlot} (hb : b.Sound) (hslot : b.labels[l.index]? = some slot)
    (hpos : slot.position = none) (h : bind l b = .ok () b') :
    Filled b.position slot.uses (b.placing l) b' := by
  have hwait : ∀ source ∈ slot.uses, b.Waits l source :=
    fun source hs => ⟨slot, hslot, hpos, hs⟩
  rw [bind_of_open hslot hpos] at h
  refine filled_of_forM h (fun s hs => hb.inside (hwait s hs)) fun s hs s' hs' => ?_
  rcases hb.apart (hwait s hs) (hwait s' hs') with ⟨-, h⟩ | h
  · exact .inl h
  · exact .inr h

/-- Only a label that there is and that has no place can be bound. -/
theorem open_of_bind (h : bind l b = .ok () b') :
    ∃ slot, b.labels[l.index]? = some slot ∧ slot.position = none := by
  cases hslot : b.labels[l.index]? with
  | none => rw [bind_of_unknown hslot] at h; cases h
  | some slot =>
    cases hpos : slot.position with
    | some target => rw [bind_of_placed hslot hpos] at h; cases h
    | none => exact ⟨slot, rfl, hpos⟩

/-- A label gets the current position, and every branch that waited for it its distance. -/
theorem extends_bind {l : Label} (hb : b.Sound) (h : bind l b = .ok () b') :
    Extends b b' ∧ b'.position = b.position ∧ b'.position? l = some b.position := by
  obtain ⟨slot, hslot, hpos⟩ := open_of_bind h
  have hf := filled_of_bind hb hslot hpos h
  have hkeeps := keeps_placing hb hslot hpos
  have hsize : b'.position = b.position := hf.size
  have hwaits : ∀ l' source, b'.Waits l' source ↔ (b.placing l).Waits l' source := fun l' source => by
    simp only [Waits, hf.labels]
  have hplaces : ∀ l', b'.position? l' = (b.placing l).position? l' := fun l' => by
    rw [position?, hf.labels, position?]
  have hplace : b'.position? l = some b.position := by
    rw [hplaces, position?_placing hslot, if_pos rfl]
  refine ⟨⟨hb, ⟨fun hw => ?_, fun hw hw' => ?_⟩, Nat.le_of_eq hsize.symm, fun {i} _ hs => ?_,
    fun ht => ?_, fun {l' source} hw => ?_, fun hw => hkeeps.old ((hwaits _ _).mp hw)⟩, hsize, hplace⟩
  · rw [hsize]
    exact hkeeps.after.inside ((hwaits _ _).mp hw)
  · exact hkeeps.after.apart ((hwaits _ _).mp hw) ((hwaits _ _).mp hw')
  · exact hf.others fun source hsource => hs l source ⟨slot, hslot, hpos, hsource⟩
  · rw [hplaces]
    exact hkeeps.bound ht
  · by_cases hl : l' = l
    · subst hl
      obtain ⟨slot', hslot', -, huse⟩ := hw
      obtain rfl := Option.some.inj (hslot.symm.trans hslot')
      obtain ⟨d, hd, hbytes⟩ := hf.uses source huse
      exact .inr ⟨b.position, d, hplace, hd, hbytes⟩
    · exact .inl ((hwaits _ _).mpr ((waits_placing hslot _ _).mpr ⟨hl, hw⟩))

/-- A bound label is made and bound. -/
theorem bind_of_boundLabel (h : boundLabel b = .ok l b') :
    ∃ b₁, newLabel b = .ok l b₁ ∧ bind l b₁ = .ok () b' := by
  unfold boundLabel at h
  simp only [Bind.bind, EStateM.bind] at h
  cases hn : newLabel b with
  | error e s => rw [hn] at h; cases h
  | ok l' b₁ =>
    rw [hn] at h
    dsimp only at h
    cases hbind : bind l' b₁ with
    | error e s => rw [hbind] at h; cases h
    | ok u b₂ =>
      rw [hbind] at h
      cases h
      exact ⟨b₁, rfl, hbind⟩

theorem extends_boundLabel {l : Label} (hb : b.Sound) (h : boundLabel b = .ok l b') :
    Extends b b' ∧ b'.position = b.position ∧ b'.position? l = some b.position := by
  obtain ⟨b₁, hn, hbind⟩ := bind_of_boundLabel h
  obtain ⟨h₁, hpos₁⟩ := extends_newLabel hb hn
  obtain ⟨h₂, hpos₂, hplace⟩ := extends_bind h₁.after hbind
  exact ⟨h₁.trans h₂, hpos₂.trans hpos₁, hpos₁ ▸ hplace⟩

/-! ## Branches -/

/-- The opcode of a branch has been written. -/
def pushing (b : Builder) (op : Opcode) : Builder := { b with bytes := b.bytes.push op.toByte }

/-- A branch to a label without a place has been written. -/
def postponing (b : Builder) (op : Opcode) (l : Label) (slot : LabelSlot) : Builder where
  bytes := (b.pushing op).bytes ++ distanceBytes 0
  labels := b.labels.setIfInBounds l.index { slot with uses := slot.uses ++ [b.position + 1] }

theorem addBranch_of_not_branch {op : Opcode} (h : op.isBranch = false) :
    addBranch op l b = .error (.internal s!"{op.mnemonic} is not a branch") b := by
  unfold addBranch
  simp only [h, Bool.not_false, if_true]
  rfl

theorem addBranch_of_branch {op : Opcode} (h : op.isBranch = true) :
    addBranch op l b = match b.labels[l.index]? with
      | none => .error (unknownLabel l) (b.pushing op)
      | some slot => match slot.position with
        | some target => match distance (b.position + 1) target with
          | .error e => .error e (b.pushing op)
          | .ok d => .ok () { b.pushing op with bytes := (b.pushing op).bytes ++ distanceBytes d }
        | none => .ok () (b.postponing op l slot) := by
  have hpos : position { b with bytes := b.bytes.push op.toByte } = b.position + 1 := by
    simp [position]
  unfold addBranch
  simp only [Bind.bind, h, Bool.not_true, Bool.false_eq_true, if_false, addOp, get, getThe,
    MonadStateOf.get, modify, modifyGet, MonadStateOf.modifyGet, EStateM.modifyGet, EStateM.bind,
    EStateM.get, hpos]
  cases b.labels[l.index]? with
  | none => rfl
  | some slot =>
    dsimp only
    cases hplace : slot.position with
    | none =>
      rw [postponing, hplace]
      rfl
    | some target =>
      dsimp only
      cases distance (b.position + 1) target <;> rfl

/-- `b'` is `b` with a branch behind it whose operand waits for `l`. -/
structure Postpones (b : Builder) (op : Opcode) (l : Label) (b' : Builder) : Prop where
  bytes : b'.bytes.toList = b.bytes.toList ++ (op.toByte :: distanceBytes 0)
  waits : ∀ l' source, b'.Waits l' source ↔ b.Waits l' source ∨ l' = l ∧ source = b.position + 1
  bound : ∀ {l' target}, b.position? l' = some target → b'.position? l' = some target

/-- A branch that has been written is to a label that there is. -/
theorem of_addBranch {op : Opcode} (h : addBranch op l b = .ok () b') :
    op.isBranch = true ∧ ∃ slot, b.labels[l.index]? = some slot ∧
      ((∃ target d, slot.position = some target ∧ distance (b.position + 1) target = .ok d ∧
        Appends b (op.toByte :: distanceBytes d) b') ∨
      slot.position = none ∧ b' = b.postponing op l slot) := by
  cases hop : op.isBranch with
  | false => rw [addBranch_of_not_branch hop] at h; cases h
  | true =>
    refine ⟨rfl, ?_⟩
    rw [addBranch_of_branch hop] at h
    cases hslot : b.labels[l.index]? with
    | none => rw [hslot] at h; cases h
    | some slot =>
      rw [hslot] at h
      dsimp only at h
      refine ⟨slot, rfl, ?_⟩
      cases hplace : slot.position with
      | none =>
        rw [hplace] at h
        cases h
        exact .inr ⟨rfl, rfl⟩
      | some target =>
        rw [hplace] at h
        dsimp only at h
        cases hd : distance (b.position + 1) target with
        | error e => rw [hd] at h; cases h
        | ok d =>
          rw [hd] at h
          cases h
          exact .inl ⟨target, d, rfl, hd, by simp [pushing], rfl⟩

theorem postpones_postponing {slot : LabelSlot} (hslot : b.labels[l.index]? = some slot)
    (hpos : slot.position = none) (op : Opcode) : Postpones b op l (b.postponing op l slot) := by
  have hlt := (Array.getElem?_eq_some_iff.mp hslot).1
  refine ⟨by simp [postponing, pushing], fun l' source => ?_, fun {l' target} ht => ?_⟩
  · simp only [Waits, postponing, Array.getElem?_setIfInBounds, hlt, if_true]
    by_cases heq : l.index = l'.index
    · obtain rfl := label_ext heq
      simp [hslot, hpos]
    · have hl : l' ≠ l := fun h => heq (by rw [h])
      simp [heq, hl]
  · have heq : l.index ≠ l'.index := by
      intro heq
      rw [position?, ← heq, hslot] at ht
      simp [hpos] at ht
    simpa only [position?, postponing, Array.getElem?_setIfInBounds, heq, if_false] using ht

/-- A branch to a place that is known gets its distance at once, any other waits. -/
theorem addBranch_cases {op : Opcode} {l : Label} (h : addBranch op l b = .ok () b') :
    op.operandKind = .branch ∧
      ((∃ target d, b.position? l = some target ∧ distance (b.position + 1) target = .ok d ∧
        Appends b (op.toByte :: distanceBytes d) b') ∨ Postpones b op l b') := by
  obtain ⟨hop, slot, hslot, ⟨target, d, hpos, hd, happ⟩ | ⟨hpos, rfl⟩⟩ := of_addBranch h
  · refine ⟨by simpa [Opcode.isBranch] using hop, .inl ⟨target, d, ?_, hd, happ⟩⟩
    rw [position?, hslot]
    exact hpos
  · exact ⟨by simpa [Opcode.isBranch] using hop, .inr (postpones_postponing hslot hpos op)⟩

theorem Postpones.position_eq {op : Opcode} {l : Label} (h : Postpones b op l b') :
    b'.position = b.position + 3 := by
  rw [position, ← Array.length_toList, h.bytes, List.length_append, Array.length_toList,
    List.length_cons, distanceBytes, length_littleEndian]
  rfl

theorem Postpones.extends {op : Opcode} {l : Label} (h : Postpones b op l b') (hb : b.Sound) :
    Extends b b' := by
  have hsize := h.position_eq
  refine ⟨hb, ⟨fun hw => ?_, fun hw hw' => ?_⟩, by omega, fun {i} hi _ => ?_, h.bound,
    fun hw => .inl ((h.waits _ _).mpr (.inl hw)), fun hw hlt => ?_⟩
  · rcases (h.waits _ _).mp hw with hw | ⟨-, rfl⟩
    · have := hb.inside hw
      omega
    · omega
  · rcases (h.waits _ _).mp hw with hw | ⟨rfl, rfl⟩ <;>
      rcases (h.waits _ _).mp hw' with hw' | ⟨rfl, rfl⟩
    · exact hb.apart hw hw'
    · have := hb.inside hw
      omega
    · have := hb.inside hw'
      omega
    · exact .inl ⟨rfl, rfl⟩
  · have hi' : i < b.bytes.toList.length := hi
    rw [← Array.getElem?_toList, h.bytes, List.getElem?_append_left hi', Array.getElem?_toList]
  · rcases (h.waits _ _).mp hw with hw | ⟨-, rfl⟩
    · exact hw
    · omega

/-- A branch is three bytes. -/
theorem extends_addBranch {op : Opcode} {l : Label} (hb : b.Sound)
    (h : addBranch op l b = .ok () b') : Extends b b' ∧ b'.position = b.position + 3 := by
  obtain ⟨-, ⟨target, d, -, -, happ⟩ | hpost⟩ := addBranch_cases h
  · refine ⟨happ.extends hb, ?_⟩
    rw [happ.position_eq, List.length_cons, distanceBytes, length_littleEndian]
  · exact ⟨hpost.extends hb, hpost.position_eq⟩

/-! ## Finished code -/

/-- Every branch has its distance. -/
def Complete (b : Builder) : Prop := ∀ l source, ¬ b.Waits l source

theorem complete_of_finish {c : Code} (h : b.finish = .ok c) : b.Complete ∧ c = ⟨b.bytes⟩ := by
  unfold finish at h
  split at h
  · cases h
  · rename_i hnone
    cases h
    refine ⟨fun l source ⟨slot, hslot, hpos, _⟩ => ?_, rfl⟩
    have hmem : slot ∈ b.labels := Array.mem_of_getElem? hslot
    have := Array.findIdx?_eq_none_iff.mp hnone slot hmem
    simp [hpos] at this

/-- **What was written is decoded**: an opcode and its operand. -/
theorem Appends.at {op : Opcode} {x : Operand} {bytes : List UInt8}
    (h : Appends b (op.toByte :: bytes) b') (hb : b.Sound) (h' : Extends b' b'')
    (hkind : x.kind = op.operandKind) (hx : Encodes (b.position + 1) bytes x) :
    Code.At ⟨b''.bytes⟩ b.position op x := by
  have hget := fun i => h.getElem? hb h' (i := i)
  refine Code.at_of_bytes hkind (by simpa using hget 0 (by simp)) (fun i hi => ?_) hx
  have := hget (1 + i) (by simp only [List.length_cons]; omega)
  rw [Nat.add_comm 1 i, List.getElem?_cons_succ] at this
  rw [← this]
  congr 1
  omega

/-- **A branch is decoded as a branch to the place of its label.** -/
theorem at_of_addBranch {op : Opcode} {l : Label} {target : Nat} (hb : b.Sound)
    (h : addBranch op l b = .ok () b') (h' : Extends b' b'') (hdone : b''.Complete)
    (htarget : b''.position? l = some target) :
    Code.At ⟨b''.bytes⟩ b.position op (.target target) := by
  obtain ⟨hkind, ⟨target', d, hplace, hd, happ⟩ | hpost⟩ := addBranch_cases h
  · have hplace' := h'.bound ((happ.extends hb).bound hplace)
    rw [htarget] at hplace'
    cases hplace'
    exact happ.at hb h' hkind.symm (encodes_target hd)
  · have hwait : b'.Waits l (b.position + 1) := (hpost.waits _ _).mpr (.inr ⟨rfl, rfl⟩)
    obtain ⟨target', d, hplace, hd, hbytes⟩ : b''.Resolved l (b.position + 1) :=
      (h'.waits hwait).resolve_left (hdone _ _)
    rw [htarget] at hplace
    cases hplace
    have hsettled : b'.Settled b.position := by
      intro l' source hw
      rcases (hpost.waits _ _).mp hw with hw | ⟨-, rfl⟩
      · exact .inr (hb.inside hw)
      · exact .inl (Nat.lt_succ_self _)
    have hlen : b.bytes.toList.length = b.position := Array.length_toList
    have hop : b''.bytes[b.position]? = some op.toByte := by
      rw [h'.bytes (by rw [hpost.position_eq]; omega) hsettled, ← Array.getElem?_toList,
        hpost.bytes, List.getElem?_append_right (Nat.le_of_eq hlen), hlen, Nat.sub_self]
      rfl
    exact Code.at_of_bytes hkind.symm hop
      (fun i hi => hbytes i (by simpa [distanceBytes] using hi)) (encodes_target hd)

/-! ## Lines of code -/

/-- From `b` to `b'` these instructions have been written, one behind the other. -/
structure Emits (b : Builder) (line : List (Opcode × Operand)) (b' : Builder) : Prop where
  grows : b.Extends b'
  line : ∀ {b''}, b'.Extends b'' → (⟨b''.bytes⟩ : Code).Line b.position line b'.position

theorem Emits.nil (hb : b.Sound) : Emits b [] b := ⟨.refl hb, fun _ => rfl⟩

theorem Emits.append {xs ys : List (Opcode × Operand)} (h : Emits b xs b')
    (h' : Emits b' ys b'') : Emits b (xs ++ ys) b'' :=
  ⟨h.grows.trans h'.grows, fun hext => (h.line (h'.grows.trans hext)).append (h'.line hext)⟩

/-- One instruction, from its bytes. -/
theorem Appends.emits {op : Opcode} {x : Operand} {bytes : List UInt8}
    (h : Appends b (op.toByte :: bytes) b') (hb : b.Sound) (hkind : x.kind = op.operandKind)
    (hx : Encodes (b.position + 1) bytes x) : Emits b [(op, x)] b' := by
  refine ⟨h.extends hb, fun hext => ⟨h.at hb hext hkind hx, ?_⟩⟩
  rw [h.position_eq, List.length_cons, hx.length, hkind, Opcode.width, Nat.add_comm 1]
  rfl

end StackLang.Builder
