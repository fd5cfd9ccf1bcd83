import StackLang.Proofs.Code.Calls
import StackLang.Proofs.Code.Joints

/-!
# What is written is what is read

A client's calls amount to an `Account` of what it has written: the instructions with the offsets
that `position` gave for them, and the labels with the places they were bound at. Fields follow
their opcode until they make up the operand that its kind prescribes (`Operand.ofFields`); only
then may the next instruction begin or a label be bound.

Two results make up `instructions_of_account`. Whatever the calls, the finished code is read back
as the account has it (`Agrees.follow`, by one law for each call), with every branch at the place
of its label, bound before the branch or behind it. And an instruction's bytes are settled by what
it is decoded as (`At.bytes_eq`), so there is one stream only for a list of instructions.
-/

namespace StackLang

/-! ## Bytes from instructions -/

theorem Opcode.toByte_of_ofByte? {byte : UInt8} {op : Opcode} (h : ofByte? byte = some op) :
    op.toByte = byte := by
  have hall : ∀ i : Fin all.size, all[i].ctorIdx = i := by decide
  obtain ⟨hlt, rfl⟩ := Array.getElem?_eq_some_iff.mp h
  have hidx : all[byte.toNat].ctorIdx = byte.toNat := hall ⟨_, hlt⟩
  rw [toByte, hidx]
  exact UInt8.ofNat_toNat

theorem eq_of_toUInt16 {n m : Nat} (hn : n < 256 ^ 2) (hm : m < 256 ^ 2)
    (h : n.toUInt16 = m.toUInt16) : n = m := by
  have h := congrArg UInt16.toNat h
  simp only [Nat.toUInt16_eq, UInt16.toNat_ofNat'] at h
  omega

theorem eq_of_toUInt64 {n m : Nat} (hn : n < 256 ^ 8) (hm : m < 256 ^ 8)
    (h : n.toUInt64 = m.toUInt64) : n = m := by
  have h := congrArg UInt64.toNat h
  simp only [Nat.toUInt64_eq, UInt64.toNat_ofNat'] at h
  omega

/-- Two numbers that fit an operand and are read as the same one are equal. -/
theorem Code.operand?_inj {kind : OperandKind} {start n m : Nat} {x : Operand}
    (hn : operand? kind start n = some x) (hm : operand? kind start m = some x)
    (hn' : n < 256 ^ kind.width) (hm' : m < 256 ^ kind.width) : n = m := by
  cases kind with
  | none =>
    simp only [OperandKind.width] at hn' hm'
    omega
  | int =>
    cases hn
    have hbits : m.toUInt64.toInt64 = n.toUInt64.toInt64 := by simpa [operand?] using hm
    exact (eq_of_toUInt64 hm' hn' (by simpa using congrArg Int64.toUInt64 hbits)).symm
  | double =>
    cases hn
    exact (eq_of_toUInt64 hm' hn' (by simpa [operand?] using hm)).symm
  | var =>
    cases hn
    obtain ⟨hlow, hhigh⟩ : m.toUInt16 = n.toUInt16 ∧
        (m / UInt16.size).toUInt16 = (n / UInt16.size).toUInt16 := by simpa [operand?] using hm
    have hlow := congrArg UInt16.toNat hlow
    simp only [Nat.toUInt16_eq, UInt16.toNat_ofNat'] at hlow
    simp only [OperandKind.width] at hn' hm'
    have hhigh := eq_of_toUInt16 (by simp only [UInt16.size]; omega)
      (by simp only [UInt16.size]; omega) hhigh
    simp only [UInt16.size] at hhigh
    omega
  | branch =>
    simp only [operand?] at hn hm
    split at hn <;> cases hn
    split at hm
    · cases hm
    have htarget := Operand.target.inj (Option.some.inj hm)
    have hd : n.toUInt16.toInt16.toInt = m.toUInt16.toInt16.toInt := by omega
    exact eq_of_toUInt16 hn' hm' (by simpa using congrArg Int16.toUInt16 (Int16.toInt_inj.mp hd))
  | string | function | native =>
    cases hn
    exact (eq_of_toUInt16 hm' hn' (by simpa [operand?] using hm)).symm

theorem littleEndian_ofLittleEndian (bytes : List UInt8) :
    littleEndian bytes.length (ofLittleEndian bytes) = bytes := by
  induction bytes with
  | nil => rfl
  | cons byte bytes ih =>
    have hlt := byte.toNat_lt
    have hdiv : (byte.toNat + 256 * ofLittleEndian bytes) / 256 = ofLittleEndian bytes := by omega
    have hbyte : (byte.toNat + 256 * ofLittleEndian bytes).toUInt8 = byte := by
      apply UInt8.toNat_inj.mp
      simp only [Nat.toUInt8_eq, UInt8.toNat_ofNat']
      omega
    rw [ofLittleEndian, List.length_cons, littleEndian, hdiv, hbyte, ih]

theorem ofLittleEndian_lt (bytes : List UInt8) : ofLittleEndian bytes < 256 ^ bytes.length := by
  induction bytes with
  | nil => simp [ofLittleEndian]
  | cons byte bytes ih =>
    have := byte.toNat_lt
    rw [ofLittleEndian, List.length_cons, Nat.pow_succ]
    omega

/-- An operand is read from one sequence of bytes only. -/
theorem Encodes.unique {start : Nat} {xs ys : List UInt8} {x : Operand} (h : Encodes start xs x)
    (h' : Encodes start ys x) : xs = ys := by
  have hlen : xs.length = ys.length := h.length.trans h'.length.symm
  have hx := h.length ▸ ofLittleEndian_lt xs
  have hy := h'.length ▸ ofLittleEndian_lt ys
  rw [← littleEndian_ofLittleEndian xs, ← littleEndian_ofLittleEndian ys, hlen,
    Code.operand?_inj h.reads h'.reads hx hy]

namespace Code

variable {c c' : Code} {start stop stop' : Nat} {line : List (Opcode × Operand)}

/-- What is decoded as an instruction is its opcode and bytes of its operand. -/
theorem bytes_of_decodeAt {offset : Nat} {i : Instr} (h : c.decodeAt offset = .ok i) :
    c.bytes[offset]? = some i.op.toByte ∧ ∃ raw, Encodes (offset + 1) raw i.operand ∧
      raw.length = i.op.operandKind.width ∧
      ∀ k < raw.length, c.bytes[offset + 1 + k]? = raw[k]? := by
  unfold decodeAt at h
  cases hb : c.bytes[offset]? with
  | none => rw [hb] at h; cases h
  | some byte =>
    rw [hb] at h
    dsimp only at h
    cases hop : Opcode.ofByte? byte with
    | none => rw [hop] at h; cases h
    | some op =>
      rw [hop] at h
      dsimp only at h
      split at h
      · cases h
      · rename_i hsize
        split at h
        · cases h
        · rename_i operand hoperand
          cases h
          have hlen : (c.bytes.extract (offset + 1)
              (offset + 1 + op.operandKind.width)).toList.length = op.operandKind.width := by
            rw [Array.length_toList, Array.size_extract] at *
            omega
          refine ⟨by rw [Opcode.toByte_of_ofByte? hop], _, ⟨?_, ?_⟩, hlen, fun k hk => ?_⟩
          · rw [kind_of_operand? hoperand, hlen]
          · rw [kind_of_operand? hoperand, hoperand]
          · rw [Array.getElem?_toList, Array.getElem?_extract, if_pos (by
              rw [Array.length_toList, Array.size_extract] at hk
              omega)]

theorem next_le_of_decodeAt {offset : Nat} {i : Instr} (h : c.decodeAt offset = .ok i) :
    offset + i.op.width ≤ c.size := by
  obtain ⟨hop, raw, -, hlen, hraw⟩ := bytes_of_decodeAt h
  have hlt : offset < c.size := (Array.getElem?_eq_some_iff.mp hop).1
  unfold Opcode.width
  cases hw : raw.length with
  | zero => omega
  | succ n =>
    have hlast : c.bytes[offset + 1 + n]? = some raw[n] := by
      rw [hraw n (by omega), List.getElem?_eq_getElem]
    have : offset + 1 + n < c.size := (Array.getElem?_eq_some_iff.mp hlast).1
    omega

/-- What reading a stream gives is a line to its end. -/
theorem line_of_instructionsFrom {read instrs : Array Instr}
    (h : c.instructionsFrom start read = .ok instrs) (hle : start ≤ c.size) :
    ∃ line, c.Line start line c.size ∧ instrs = read ++ (lineInstrs start line).toArray := by
  fun_induction c.instructionsFrom start read with
  | case1 start read hlt e he => cases h
  | case2 start read hlt i hi ih =>
    obtain ⟨line, hline, rfl⟩ := ih h (next_le_of_decodeAt hi)
    have hoffset := (decodeAt_cases hi).1
    refine ⟨(i.op, i.operand) :: line, ⟨?_, hline⟩, ?_⟩
    · rw [At, hi, ← hoffset]
    · rw [lineInstrs, Array.push_eq_append, Array.append_assoc, ← hoffset]
      simp
  | case3 start read hlt =>
    cases h
    exact ⟨[], Nat.le_antisymm hle (Nat.le_of_not_lt hlt), by simp [lineInstrs]⟩

/-- An instruction's bytes are settled by what it is decoded as. -/
theorem At.bytes_eq {offset k : Nat} {op : Opcode} {x : Operand} (h : c.At offset op x)
    (h' : c'.At offset op x) (hk : offset ≤ k) (hk' : k < offset + op.width) :
    c.bytes[k]? = c'.bytes[k]? := by
  obtain ⟨hop, raw, hx, hlen, hraw⟩ := bytes_of_decodeAt h
  obtain ⟨hop', raw', hx', -, hraw'⟩ := bytes_of_decodeAt h'
  obtain rfl := hx.unique hx'
  obtain ⟨k, rfl⟩ := Nat.exists_eq_add_of_le hk
  cases k with
  | zero => exact hop.trans hop'.symm
  | succ k =>
    rw [Opcode.width] at hk'
    rw [← Nat.add_assoc, Nat.add_right_comm, hraw k (by simp only at hlen; omega),
      hraw' k (by simp only at hlen; omega)]

theorem Line.bytes_eq (h : c.Line start line stop) (h' : c'.Line start line stop') :
    stop = stop' ∧ ∀ k, start ≤ k → k < stop → c.bytes[k]? = c'.bytes[k]? := by
  induction line generalizing start with
  | nil =>
    cases h
    cases h'
    exact ⟨rfl, fun k hk hk' => absurd hk (Nat.not_le_of_lt hk')⟩
  | cons i line ih =>
    obtain ⟨hstop, hrest⟩ := ih h.2 h'.2
    refine ⟨hstop, fun k hk hk' => ?_⟩
    by_cases hin : k < start + i.1.width
    · exact At.bytes_eq h.1 h'.1 hk hin
    · exact hrest k (Nat.le_of_not_lt hin) hk'

/-- **There is one stream only for a list of instructions.** -/
theorem eq_of_instructions {instrs : Array Instr} (h : c.instructions = .ok instrs)
    (h' : c'.instructions = .ok instrs) : c = c' := by
  obtain ⟨line, hline, rfl⟩ := line_of_instructionsFrom h (Nat.zero_le _)
  obtain ⟨line', hline', heq⟩ := line_of_instructionsFrom h' (Nat.zero_le _)
  obtain rfl : line = line' := by
    simpa [map_pair_lineInstrs] using congrArg (fun is : Array Instr =>
      is.toList.map fun i => (i.op, i.operand)) heq
  obtain ⟨hsize, hbytes⟩ := hline.bytes_eq hline'
  obtain ⟨bytes⟩ := c
  obtain ⟨bytes'⟩ := c'
  congr 1
  refine Array.ext hsize fun k hk hk' => ?_
  have := hbytes k (Nat.zero_le _) hk
  rwa [Array.getElem?_eq_getElem hk, Array.getElem?_eq_getElem hk', Option.some_inj] at this

end Code

/-! ## Accounts -/

open Builder

/-- The operand of this kind that these fields make up. -/
def Operand.ofFields : OperandKind → List Field → Option Operand
  | .none, [] => some .none
  | .int, [.int n] => some (.int n)
  | .double, [.double d] => some (.double d)
  | .string, [.id id] => some (.string id)
  | .var, [.id scope, .id slot] => some (.var ⟨scope, slot⟩)
  | .function, [.id id] => some (.function id)
  | .native, [.id id] => some (.native id)
  | _, _ => .none

theorem Operand.encodes_ofFields {kind : OperandKind} {fields : List Field} {x : Operand}
    (h : ofFields kind fields = some x) (start : Nat) :
    x.kind = kind ∧ Encodes start (fields.flatMap Field.bytes) x := by
  unfold ofFields at h
  split at h <;> cases h
  · exact ⟨rfl, encodes_none start⟩
  · exact ⟨rfl, by simpa [Field.bytes] using encodes_int start _⟩
  · exact ⟨rfl, by simpa [Field.bytes] using encodes_double start _⟩
  · exact ⟨rfl, by simpa [Field.bytes] using encodes_string start _⟩
  · exact ⟨rfl, by simpa [Field.bytes] using encodes_var start ⟨_, _⟩⟩
  · exact ⟨rfl, by simpa [Field.bytes] using encodes_function start _⟩
  · exact ⟨rfl, by simpa [Field.bytes] using encodes_native start _⟩

namespace Builder

/-- An instruction as it was written: a branch with its label. -/
structure Written where
  offset : Nat
  op : Opcode
  operand : Operand ⊕ Label
  deriving DecidableEq

/-- The instruction, with the labels at these places. -/
def Written.instr (w : Written) (place : Label → Nat) : Instr where
  offset := w.offset
  op := w.op
  operand := w.operand.elim id fun l => .target (place l)

/-- An opcode and the fields of its operand that are there. -/
structure Draft where
  offset : Nat
  op : Opcode
  fields : List Field := []
  deriving DecidableEq

structure Account where
  draft : Option Draft := none
  written : List Written := []
  created : List Label := []
  /-- Where labels were bound. -/
  placed : List (Label × Nat) := []
  deriving DecidableEq

namespace Account

/-- The draft is an instruction as soon as its operand is there. -/
def put (a : Account) (d : Draft) : Account :=
  match Operand.ofFields d.op.operandKind d.fields with
  | none => { a with draft := d }
  | some x => { a with draft := none, written := a.written ++ [⟨d.offset, d.op, .inl x⟩] }

/-- The account after a call at this position that made these labels; none if the call breaks
into an instruction, or writes a field outside of one. -/
def next? (a : Account) (position : Nat) (made : List Label) (call : Call) : Option Account :=
  match a.draft, call with
  | none, .op op => some (a.put { offset := position, op })
  | some d, .field f => some (a.put { d with fields := d.fields ++ [f] })
  | _, .newLabel => some { a with created := a.created ++ made }
  | none, .boundLabel => some { a with
      created := a.created ++ made
      placed := a.placed ++ made.map (·, position) }
  | none, .bind l => some { a with placed := a.placed ++ [(l, position)] }
  | none, .branch op l => some { a with written := a.written ++ [⟨position, op, .inr l⟩] }
  | _, _ => none

/-- Where the instruction begins that is written next, or is being written. -/
def start (a : Account) (b : Builder) : Nat := (a.draft.map (·.offset)).getD b.position

end Account

/-- Keeps account of calls, none of which may fail or break into an instruction. -/
def follow? : List Call → Builder × Account → Option (Builder × Account)
  | [], s => some s
  | call :: calls, (b, a) =>
    match call.step b with
    | .error _ _ => none
    | .ok made b' => (a.next? b.position made call).bind fun a' => follow? calls (b', a')

/-! ## Labels -/

variable {b b' b'' : Builder} {l : Label} {made made' : List Label} {places places' : List (Label × Nat)}

/-- In `b'` there are these labels besides those of `b`, and these have got a place. -/
structure Relabels (b : Builder) (made : List Label) (places : List (Label × Nat))
    (b' : Builder) : Prop where
  created : ∀ l, l.index < b'.labels.size ↔ l.index < b.labels.size ∨ l ∈ made
  placed : ∀ l t, b'.position? l = some t ↔ b.position? l = some t ∨ (l, t) ∈ places

theorem Relabels.of_labels (h : b'.labels = b.labels) : Relabels b [] [] b' :=
  ⟨by simp [h], by simp [position?, h]⟩

theorem Relabels.trans (h : Relabels b made places b') (h' : Relabels b' made' places' b'') :
    Relabels b (made ++ made') (places ++ places') b'' :=
  ⟨fun l => by rw [h'.created, h.created, List.mem_append, or_assoc],
    fun l t => by rw [h'.placed, h.placed, List.mem_append, or_assoc]⟩

theorem relabels_newLabel (h : newLabel b = .ok l b') : Relabels b [l] [] b' := by
  cases h
  refine ⟨fun l' => ?_, fun l' t => ?_⟩
  · cases l'
    simp only [Array.size_push, List.mem_singleton, Label.mk.injEq]
    omega
  · simp only [position?, Array.getElem?_push, List.not_mem_nil, or_false]
    split
    · rename_i hl
      simp [hl]
    · rfl

theorem relabels_bind (hb : b.Sound) (h : bind l b = .ok () b') :
    Relabels b [] [(l, b.position)] b' := by
  obtain ⟨slot, hslot, hpos⟩ := open_of_bind h
  have hlabels := (filled_of_bind hb hslot hpos h).labels
  refine ⟨fun l' => ?_, fun l' t => ?_⟩
  · simp [hlabels, placing]
  · have hplace : b'.position? l' = (b.placing l).position? l' := by
      rw [position?, hlabels, position?]
    rw [hplace, position?_placing hslot]
    by_cases hl : l' = l
    · subst hl
      simp [position?, hslot, hpos, eq_comm]
    · simp [hl]

theorem relabels_boundLabel (hb : b.Sound) (h : boundLabel b = .ok l b') :
    Relabels b [l] [(l, b.position)] b' := by
  obtain ⟨b₁, hn, hbind⟩ := bind_of_boundLabel h
  obtain ⟨hext, hpos⟩ := extends_newLabel hb hn
  exact hpos ▸ (relabels_newLabel hn).trans (relabels_bind hext.after hbind)

/-- A branch is to a label that there is, and gives no label a place. -/
theorem relabels_addBranch {op : Opcode} (h : addBranch op l b = .ok () b') :
    l.index < b.labels.size ∧ Relabels b [] [] b' := by
  obtain ⟨-, slot, hslot, ⟨_, _, -, -, happ⟩ | ⟨hpos, rfl⟩⟩ := of_addBranch h
  · exact ⟨(Array.getElem?_eq_some_iff.mp hslot).1, .of_labels happ.labels⟩
  · have hlt := (Array.getElem?_eq_some_iff.mp hslot).1
    refine ⟨hlt, fun l' => by simp [postponing], fun l' t => ?_⟩
    simp only [position?, postponing, Array.getElem?_setIfInBounds, hlt, if_true, List.not_mem_nil,
      or_false]
    split
    · rename_i hl
      simp [← hl, hslot, hpos]
    · rfl

/-! ## Keeping account -/

/-- The bytes of a draft. -/
def Draft.bytes (d : Draft) : List UInt8 := d.op.toByte :: d.fields.flatMap Field.bytes

/-- The draft is the last of the code, and its bytes are there for good. -/
structure Draft.EndsAt (d : Draft) (b : Builder) : Prop where
  position : b.position = d.offset + d.bytes.length
  bytes : ∀ {b'}, b.Extends b' → ∀ k < d.bytes.length, b'.bytes[d.offset + k]? = d.bytes[k]?

theorem Draft.EndsAt.extends {d : Draft} (h : d.EndsAt b) (hext : b.Extends b')
    (hpos : b'.position = b.position) : d.EndsAt b' :=
  ⟨hpos.trans h.position, fun hext' => h.bytes (hext.trans hext')⟩

theorem Draft.endsAt_op {op : Opcode} (hb : b.Sound) (h : Appends b [op.toByte] b') :
    Draft.EndsAt { offset := b.position, op } b' :=
  ⟨h.position_eq, fun hext _ hk => h.getElem? hb hext hk⟩

theorem Draft.EndsAt.field {d : Draft} {f : Field} (hd : d.EndsAt b) (hb : b.Sound)
    (h : Appends b f.bytes b') : Draft.EndsAt { d with fields := d.fields ++ [f] } b' := by
  have hbytes : Draft.bytes { d with fields := d.fields ++ [f] } = d.bytes ++ f.bytes := by
    simp [Draft.bytes]
  refine ⟨?_, fun hext k hk => ?_⟩
  · rw [h.position_eq, hd.position, hbytes, List.length_append, Nat.add_assoc]
  · rw [hbytes] at hk ⊢
    by_cases hlt : k < d.bytes.length
    · rw [hd.bytes ((h.extends hb).trans hext) k hlt, List.getElem?_append_left hlt]
    · obtain ⟨k, rfl⟩ := Nat.exists_eq_add_of_le (Nat.le_of_not_lt hlt)
      rw [List.length_append] at hk
      rw [List.getElem?_append_right (Nat.le_add_right ..), Nat.add_sub_cancel_left,
        ← Nat.add_assoc, ← hd.position, h.getElem? hb hext (by omega)]

/-- A draft whose operand is there is decoded as an instruction. -/
theorem Draft.EndsAt.at {d : Draft} {x : Operand} (h : d.EndsAt b)
    (hx : Operand.ofFields d.op.operandKind d.fields = some x) (hext : b.Extends b') :
    Code.At ⟨b'.bytes⟩ d.offset d.op x ∧ b.position = d.offset + d.op.width := by
  obtain ⟨hkind, henc⟩ := Operand.encodes_ofFields hx (d.offset + 1)
  refine ⟨Code.at_of_bytes hkind (h.bytes hext 0 (by simp [Draft.bytes])) (fun k hk => ?_) henc, ?_⟩
  · have := h.bytes hext (k + 1) (by simpa [Draft.bytes] using hk)
    rwa [Nat.add_comm k 1, ← Nat.add_assoc, Nat.add_comm 1 k, Draft.bytes,
      List.getElem?_cons_succ] at this
  · rw [h.position, Draft.bytes, List.length_cons, henc.length, hkind, Opcode.width,
      Nat.add_comm 1]

/-- Where a label is, if it has a place. -/
def placeOf (b : Builder) (l : Label) : Nat := (b.position? l).getD 0

/-- The account is of this code: labels are where it has them, and once every branch has its
distance, what is decoded is what it has. -/
structure Agrees (b : Builder) (a : Account) : Prop where
  sound : b.Sound
  created : ∀ l, l ∈ a.created ↔ l.index < b.labels.size
  placed : ∀ l t, (l, t) ∈ a.placed ↔ b.position? l = some t
  targets : ∀ w ∈ a.written, ∀ l, w.operand = .inr l → l ∈ a.created
  draft : ∀ d, a.draft = some d → d.EndsAt b
  line : ∀ {b'}, b.Extends b' → b'.Complete → (∀ l ∈ a.created, ∃ t, b'.position? l = some t) →
    ∃ line, Code.Line ⟨b'.bytes⟩ 0 line (a.start b) ∧
      Code.lineInstrs 0 line = a.written.map (·.instr b'.placeOf)

theorem agrees_empty : Agrees {} {} where
  sound := sound_empty
  created := by simp
  placed := by simp [position?]
  targets := by simp
  draft := by simp
  line _ _ _ := ⟨[], rfl, rfl⟩

variable {a a' : Account}

/-- A call that makes labels or gives them a place. -/
theorem Agrees.relabel (h : Agrees b a) (hext : b.Extends b') (hpos : b'.position = b.position)
    (hl : Relabels b made places b') :
    Agrees b' { a with created := a.created ++ made, placed := a.placed ++ places } where
  sound := hext.after
  created l := by rw [List.mem_append, h.created, hl.created]
  placed l t := by rw [List.mem_append, h.placed, hl.placed]
  targets w hw l hl := List.mem_append_left _ (h.targets w hw l hl)
  draft d hd := (h.draft d hd).extends hext hpos
  line hext' hdone hplaced := by
    have := h.line (hext.trans hext') hdone fun l hl => hplaced l (List.mem_append_left _ hl)
    rwa [Account.start, ← hpos] at this

/-- A call that completes an instruction. -/
theorem Agrees.complete {w : Written} (h : Agrees b a) (hext : b.Extends b')
    (hl : Relabels b [] [] b') (hstart : a.start b = w.offset)
    (hpos : b'.position = w.offset + w.op.width)
    (htarget : ∀ l, w.operand = .inr l → l ∈ a.created)
    (hat : ∀ {b''}, b'.Extends b'' → b''.Complete →
      (∀ l ∈ a.created, ∃ t, b''.position? l = some t) →
      Code.At ⟨b''.bytes⟩ w.offset w.op (w.instr b''.placeOf).operand) :
    Agrees b' { a with draft := none, written := a.written ++ [w] } where
  sound := hext.after
  created l := by simpa using (h.created l).trans (by simpa using (hl.created l).symm)
  placed l t := by simpa using (h.placed l t).trans (by simpa using (hl.placed l t).symm)
  targets w' hw' l hl := by
    rcases List.mem_append.mp hw' with hw' | hw'
    · exact h.targets w' hw' l hl
    · cases List.mem_singleton.mp hw'
      exact htarget l hl
  draft d hd := by cases hd
  line hext' hdone hplaced := by
    obtain ⟨line, hline, hinstrs⟩ := h.line (hext.trans hext') hdone hplaced
    rw [hstart] at hline
    have hlast : Code.Line _ w.offset [(w.op, _)] _ := ⟨hat hext' hdone hplaced, hpos.symm⟩
    refine ⟨_, hline.append hlast, ?_⟩
    rw [Code.lineInstrs_append hline, hinstrs, List.map_append]
    rfl

/-- A call that writes bytes of an instruction. -/
theorem Agrees.put {d : Draft} (h : Agrees b a) (hext : b.Extends b') (hl : Relabels b [] [] b')
    (hstart : a.start b = d.offset) (hd : d.EndsAt b') : Agrees b' (a.put d) := by
  unfold Account.put
  cases hx : Operand.ofFields d.op.operandKind d.fields with
  | some x =>
    exact h.complete hext hl hstart (hd.at hx (.refl hext.after)).2 (fun _ h => by cases h)
      fun hext' _ _ => (hd.at hx hext').1
  | none =>
    refine ⟨hext.after, fun l => ?_, fun l t => ?_, h.targets, fun d' hd' => ?_, fun hext' => ?_⟩
    · simpa using (h.created l).trans (by simpa using (hl.created l).symm)
    · simpa using (h.placed l t).trans (by simpa using (hl.placed l t).symm)
    · cases hd'
      exact hd
    · rw [Account.start, Option.map_some, Option.getD_some, ← hstart]
      exact h.line (hext.trans hext')

theorem Agrees.branch {op : Opcode} (h : Agrees b a) (hd : a.draft = none)
    (hb : addBranch op l b = .ok () b') :
    Agrees b' { a with draft := none, written := a.written ++ [⟨b.position, op, .inr l⟩] } := by
  obtain ⟨hlt, hl⟩ := relabels_addBranch hb
  obtain ⟨hext, hpos⟩ := extends_addBranch h.sound hb
  have hcreated : l ∈ a.created := (h.created l).mpr hlt
  refine h.complete hext hl (by simp [Account.start, hd]) ?_ (fun l' hl' => ?_)
    fun hext' hdone hplaced => ?_
  · rw [hpos, Opcode.width, (addBranch_cases hb).1]
    rfl
  · cases hl'
    exact hcreated
  · obtain ⟨t, ht⟩ := hplaced l hcreated
    have hat := at_of_addBranch h.sound hb hext' hdone ht
    simpa [Written.instr, placeOf, ht] using hat

/-- **A call keeps the account.** -/
theorem Agrees.next {call : Call} (h : Agrees b a) (hstep : call.step b = .ok made b')
    (hnext : a.next? b.position made call = some a') : Agrees b' a' := by
  unfold Account.next? at hnext
  split at hnext <;> cases hnext
  · rename_i op hd
    obtain ⟨_, hop, -⟩ := ok_of_bind_pure hstep
    have happ := appends_addOp hop
    exact h.put (happ.extends h.sound) (.of_labels happ.labels) (by simp [Account.start, hd])
      (Draft.endsAt_op h.sound happ)
  · rename_i d f hd
    obtain ⟨_, hf, -⟩ := ok_of_bind_pure hstep
    rw [Field.step_eq] at hf
    have happ := appends_addBytes hf
    exact h.put (happ.extends h.sound) (.of_labels happ.labels) (by simp [Account.start, hd])
      ((h.draft d hd).field h.sound happ)
  · obtain ⟨l, hl, rfl⟩ := ok_of_bind_pure hstep
    obtain ⟨hext, hpos⟩ := extends_newLabel h.sound hl
    simpa using h.relabel hext hpos (relabels_newLabel hl)
  · obtain ⟨l, hl, rfl⟩ := ok_of_bind_pure hstep
    obtain ⟨hext, hpos, -⟩ := extends_boundLabel h.sound hl
    exact h.relabel hext hpos (relabels_boundLabel h.sound hl)
  · obtain ⟨_, hl, -⟩ := ok_of_bind_pure hstep
    obtain ⟨hext, hpos, -⟩ := extends_bind h.sound hl
    simpa using h.relabel hext hpos (relabels_bind h.sound hl)
  · rename_i op l hd
    obtain ⟨_, hb, -⟩ := ok_of_bind_pure hstep
    simpa [hd] using h.branch hd hb

/-- **Calls keep the account.** -/
theorem Agrees.follow {calls : List Call} (h : Agrees b a)
    (hf : follow? calls (b, a) = some (b', a')) : Agrees b' a' := by
  induction calls generalizing b a with
  | nil =>
    cases hf
    exact h
  | cons call calls ih =>
    rw [follow?] at hf
    cases hstep : call.step b with
    | error e s => rw [hstep] at hf; cases hf
    | ok made s =>
      rw [hstep] at hf
      obtain ⟨a₁, hnext, hf⟩ := Option.bind_eq_some_iff.mp hf
      exact ih (h.next hstep hnext) hf

/-- Code whose labels all have places can be finished. -/
theorem Agrees.finish (h : Agrees b a) (hplaced : ∀ l ∈ a.created, ∃ t, (l, t) ∈ a.placed) :
    b.finish = .ok ⟨b.bytes⟩ := by
  unfold Builder.finish
  have hnone : b.labels.findIdx? (·.position.isNone) = none := by
    refine Array.findIdx?_eq_none_iff.mpr fun slot hslot => ?_
    obtain ⟨i, hi, rfl⟩ := Array.mem_iff_getElem.mp hslot
    obtain ⟨t, ht⟩ := hplaced ⟨i⟩ ((h.created ⟨i⟩).mpr hi)
    obtain ⟨slot, hslot, hpos⟩ := Option.bind_eq_some_iff.mp ((h.placed _ _).mp ht)
    rw [Array.getElem?_eq_getElem hi, Option.some_inj] at hslot
    rw [hslot, hpos]
    rfl
  rw [hnone]

/-- **Decoding undoes building.** If no call fails, every instruction gets its operand and every
label a place between instructions, then the code can be finished and is read back as the
instructions that were written, at the offsets that `position` gave, each branch with the place of
its label. No other stream is read as these instructions. -/
theorem instructions_of_account :
    (∀ calls b a, follow? calls ({}, {}) = some (b, a) → a.draft = none →
      (∀ l ∈ a.created, ∃ t, (l, t) ∈ a.placed) →
      ∃ c place, b.finish = .ok c ∧
        (∀ l t, (l, t) ∈ a.placed → place l = t) ∧
        (∀ w ∈ a.written, ∀ l, w.operand = .inr l → (l, place l) ∈ a.placed) ∧
        c.instructions = .ok (a.written.map (·.instr place)).toArray) ∧
    ∀ (c c' : Code) instrs, c.instructions = .ok instrs → c'.instructions = .ok instrs → c = c' := by
  refine ⟨fun calls b a hf hd hplaced => ?_, fun c c' instrs => Code.eq_of_instructions⟩
  have h := agrees_empty.follow hf
  have hfinish := h.finish hplaced
  have hpos : ∀ l ∈ a.created, ∃ t, b.position? l = some t := fun l hl =>
    (hplaced l hl).imp fun t => (h.placed l t).mp
  obtain ⟨line, hline, hinstrs⟩ := h.line (.refl h.sound) (complete_of_finish hfinish).1 hpos
  refine ⟨_, b.placeOf, hfinish, fun l t ht => ?_, fun w hw l hl => ?_, ?_⟩
  · rw [placeOf, (h.placed l t).mp ht]
    rfl
  · obtain ⟨t, ht⟩ := hpos l (h.targets w hw l hl)
    rw [h.placed, placeOf, ht]
    rfl
  · rw [Account.start, hd] at hline
    rw [Code.instructions, Code.instructionsFrom_eq_of_line hline, hinstrs]
    simp

/-- A branch onward and a branch back. -/
def branchExample : List Call :=
  [.newLabel, .boundLabel, .op .loadIntVar, .field (.id 3), .field (.id 7), .branch .jump ⟨0⟩,
    .op .loadDouble, .field (.double .one), .branch .jumpLt ⟨1⟩, .bind ⟨0⟩, .op .stop]

theorem branchExample_read_back : ∃ b a c, follow? branchExample ({}, {}) = some (b, a) ∧
    b.finish = .ok c ∧ c.instructions = .ok #[⟨0, .loadIntVar, .var ⟨3, 7⟩⟩,
      ⟨5, .jump, .target 20⟩, ⟨8, .loadDouble, .double .one⟩, ⟨17, .jumpLt, .target 0⟩,
      ⟨20, .stop, .none⟩] := by
  have hf : (follow? branchExample ({}, {})).isSome = true := by decide
  obtain ⟨⟨b, a⟩, hf⟩ := Option.isSome_iff_exists.mp hf
  have ha : ((follow? branchExample ({}, {})).map (·.2)) = some
      { written := [⟨0, .loadIntVar, .inl (.var ⟨3, 7⟩)⟩, ⟨5, .jump, .inr ⟨0⟩⟩,
          ⟨8, .loadDouble, .inl (.double .one)⟩, ⟨17, .jumpLt, .inr ⟨1⟩⟩, ⟨20, .stop, .inl .none⟩]
        created := [⟨0⟩, ⟨1⟩]
        placed := [(⟨1⟩, 0), (⟨0⟩, 20)] } := by decide
  rw [hf, Option.map_some, Option.some_inj] at ha
  dsimp only at ha
  subst ha
  obtain ⟨c, place, hfinish, hplace, -, hinstrs⟩ :=
    instructions_of_account.1 branchExample _ _ hf rfl (by simp)
  have h0 : place ⟨0⟩ = 20 := hplace _ _ (by decide)
  have h1 : place ⟨1⟩ = 0 := hplace _ _ (by decide)
  exact ⟨b, _, c, hf, hfinish, by simpa [Written.instr, h0, h1] using hinstrs⟩

end Builder

end StackLang
