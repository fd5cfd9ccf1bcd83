import StackLang.Code.Builder
import StackLang.Proofs.Code.Decode

/-!
# Writing operands and reading them back

`Encodes start bytes operand`: bytes that stand from `start` on are read as this operand. There is
one lemma for each kind of operand that the builder writes; `Code.at_of_bytes` puts the opcode in
front.
-/

namespace StackLang

/-! ## Little-endian numbers -/

@[simp] theorem length_littleEndian (width n : Nat) : (littleEndian width n).length = width := by
  induction width generalizing n with
  | zero => rfl
  | succ width ih => simp [littleEndian, ih]

theorem ofLittleEndian_littleEndian {width n : Nat} (h : n < 256 ^ width) :
    ofLittleEndian (littleEndian width n) = n := by
  induction width generalizing n with
  | zero =>
    simp only [Nat.pow_zero, Nat.lt_one_iff] at h
    rw [h]
    rfl
  | succ width ih =>
    have hdiv : n / 256 < 256 ^ width := by
      rw [Nat.pow_succ] at h
      omega
    have hbyte : n.toUInt8.toNat = n % 256 := by simp
    rw [littleEndian, ofLittleEndian, ih hdiv, hbyte]
    omega

theorem ofLittleEndian_append (xs ys : List UInt8) :
    ofLittleEndian (xs ++ ys) = ofLittleEndian xs + 256 ^ xs.length * ofLittleEndian ys := by
  induction xs with
  | nil => simp [ofLittleEndian]
  | cons x xs ih =>
    simp only [List.cons_append, ofLittleEndian, ih, List.length_cons, Nat.pow_succ]
    rw [Nat.mul_add, Nat.add_assoc, Nat.mul_comm (256 ^ xs.length) 256, Nat.mul_assoc]

/-! ## Operands -/

/-- Bytes from `start` on that are read as this operand. -/
structure Encodes (start : Nat) (bytes : List UInt8) (x : Operand) : Prop where
  length : bytes.length = x.kind.width
  reads : Code.operand? x.kind start (ofLittleEndian bytes) = some x

theorem encodes_none (start : Nat) : Encodes start [] .none := ⟨rfl, rfl⟩

theorem encodes_int (start : Nat) (n : Int64) :
    Encodes start (littleEndian 8 n.toUInt64.toNat) (.int n) := by
  refine ⟨length_littleEndian _ _, ?_⟩
  have hlt : n.toUInt64.toNat < 256 ^ 8 := n.toUInt64.toNat_lt
  rw [ofLittleEndian_littleEndian hlt]
  simp [Operand.kind, Code.operand?]

theorem encodes_double (start : Nat) (d : Double) :
    Encodes start (littleEndian 8 d.bits.toNat) (.double d) := by
  refine ⟨length_littleEndian _ _, ?_⟩
  have hlt : d.bits.toNat < 256 ^ 8 := d.bits.toNat_lt
  rw [ofLittleEndian_littleEndian hlt]
  simp [Operand.kind, Code.operand?]

theorem ofLittleEndian_id (id : UInt16) : ofLittleEndian (littleEndian 2 id.toNat) = id.toNat :=
  ofLittleEndian_littleEndian id.toNat_lt

theorem encodes_string (start : Nat) (id : UInt16) :
    Encodes start (littleEndian 2 id.toNat) (.string id) :=
  ⟨length_littleEndian _ _, by simp [Operand.kind, Code.operand?, ofLittleEndian_id]⟩

theorem encodes_function (start : Nat) (id : UInt16) :
    Encodes start (littleEndian 2 id.toNat) (.function id) :=
  ⟨length_littleEndian _ _, by simp [Operand.kind, Code.operand?, ofLittleEndian_id]⟩

theorem encodes_native (start : Nat) (id : UInt16) :
    Encodes start (littleEndian 2 id.toNat) (.native id) :=
  ⟨length_littleEndian _ _, by simp [Operand.kind, Code.operand?, ofLittleEndian_id]⟩

theorem encodes_var (start : Nat) (addr : VarAddr) :
    Encodes start (littleEndian 2 addr.scope.toNat ++ littleEndian 2 addr.slot.toNat)
      (.var addr) := by
  refine ⟨by simp [Operand.kind, OperandKind.width], ?_⟩
  rw [ofLittleEndian_append, ofLittleEndian_id, ofLittleEndian_id, length_littleEndian]
  have hlt : addr.scope.toNat < 65536 := addr.scope.toNat_lt
  have hlow : (addr.scope.toNat + 256 ^ 2 * addr.slot.toNat).toUInt16 = addr.scope := by
    apply UInt16.toNat_inj.mp
    simp only [Nat.toUInt16_eq, UInt16.toNat_ofNat']
    omega
  have hhigh : (addr.scope.toNat + 256 ^ 2 * addr.slot.toNat) / UInt16.size = addr.slot.toNat := by
    simp only [UInt16.size]
    omega
  simp only [Operand.kind, Code.operand?, hlow, hhigh, Nat.toUInt16_eq, UInt16.ofNat_toNat]

/-- A branch is read back as the place it was written for. -/
theorem encodes_target {source target : Nat} {d : Int16}
    (h : Builder.distance source target = .ok d) :
    Encodes source (Builder.distanceBytes d) (.target target) := by
  refine ⟨length_littleEndian _ _, ?_⟩
  unfold Builder.distance at h
  dsimp only at h
  split at h
  · rename_i hrange
    cases h
    have hd : (Int16.ofInt ((target : Int) - source)).toInt = (target : Int) - source :=
      Int16.toInt_ofInt_of_le hrange.1 (by
        have := hrange.2
        rw [Int16.toInt_maxValue] at this
        omega)
    simp only [Operand.kind, Code.operand?, Builder.distanceBytes, ofLittleEndian_id,
      Nat.toUInt16_eq, UInt16.ofNat_toNat, Int16.toInt16_toUInt16, hd]
    rw [if_neg (by omega)]
    congr 2
    omega
  · cases h

/-! ## Instructions -/

/-- **An opcode and the bytes of its operand are decoded as that instruction.** -/
theorem Code.at_of_bytes {c : Code} {offset : Nat} {op : Opcode} {x : Operand}
    {bytes : List UInt8} (hkind : x.kind = op.operandKind)
    (hop : c.bytes[offset]? = some op.toByte)
    (hbytes : ∀ i, i < bytes.length → c.bytes[offset + 1 + i]? = bytes[i]?)
    (hx : Encodes (offset + 1) bytes x) : c.At offset op x := by
  have hlen : bytes.length = op.operandKind.width := by rw [hx.length, hkind]
  have hraw : (c.bytes.extract (offset + 1) (offset + 1 + op.operandKind.width)).toList = bytes := by
    apply List.ext_getElem?
    intro i
    rw [Array.getElem?_toList, Array.getElem?_extract]
    by_cases hi : i < bytes.length
    · have hsome : c.bytes[offset + 1 + i]? = some bytes[i] := by
        rw [hbytes i hi, List.getElem?_eq_getElem hi]
      have hlt : offset + 1 + i < c.bytes.size := (Array.getElem?_eq_some_iff.mp hsome).1
      rw [if_pos (by omega), hbytes i hi]
    · rw [if_neg (by omega), List.getElem?_eq_none (by omega)]
  have hsize : (c.bytes.extract (offset + 1) (offset + 1 + op.operandKind.width)).size =
      op.operandKind.width := by
    rw [← Array.length_toList, hraw, hlen]
  unfold Code.At Code.decodeAt
  simp only [hop, Opcode.ofByte?_toByte, hsize, Nat.lt_irrefl, if_false, hraw]
  rw [← hkind, hx.reads]

end StackLang
