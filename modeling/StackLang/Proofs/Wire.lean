import Mathlib
import StackLang.Wire

/-!
# What is written can be read

`Reads r bytes a` says that a reader takes exactly `bytes` from the front of whatever begins with
them, and gives `a`. There is one law for each way to put readers together and one for each kind of
item; the records of an image are read by taking their readers apart with these laws.
-/

namespace StackLang.Wire

variable {α β : Type}

/-- The reader takes these bytes and gives `a`, whatever comes behind them. -/
def Reads (r : Reader α) (bytes : List UInt8) (a : α) : Prop :=
  ∀ rest, r (bytes ++ rest) = .ok (a, rest)

theorem Reads.pure (a : α) : Reads (Pure.pure a) [] a := fun _ => rfl

theorem Reads.bind {r : Reader β} {f : β → Reader α} {bytes bytes' : List UInt8} {b : β} {a : α}
    (h : Reads r bytes b) (h' : Reads (f b) bytes' a) : Reads (r >>= f) (bytes ++ bytes') a := by
  intro rest
  change (r (bytes ++ bytes' ++ rest) >>= fun (b, rest) => f b rest) = _
  rw [List.append_assoc, h]
  exact h' rest

/-- A reader whose rest takes no more bytes. -/
theorem Reads.last {r : Reader β} {f : β → Reader α} {bytes : List UInt8} {b : β} {a : α}
    (h : Reads r bytes b) (h' : Reads (f b) [] a) : Reads (r >>= f) bytes a := by
  simpa using h.bind h'

/-- What is made of the item read last. -/
theorem Reads.map {r : Reader β} {bytes : List UInt8} {b : β} (h : Reads r bytes b) (f : β → α) :
    Reads (r >>= fun b => Pure.pure (f b)) bytes (f b) :=
  h.last (Reads.pure (f b))

/-- A reader that succeeds has read one item and then the next. -/
theorem bind_ok {r : Reader β} {f : β → Reader α} {bytes rest : List UInt8} {a : α}
    (h : (r >>= f) bytes = .ok (a, rest)) :
    ∃ b bytes', r bytes = .ok (b, bytes') ∧ f b bytes' = .ok (a, rest) := by
  change (r bytes >>= fun (b, bytes') => f b bytes') = _ at h
  cases hr : r bytes with
  | error e => rw [hr] at h; cases h
  | ok x =>
    rw [hr] at h
    exact ⟨x.1, x.2, rfl, h⟩

/-! ## Numbers -/

theorem reads_readByte (b : UInt8) : Reads readByte [b] b := fun _ => rfl

/-- A number is read back if it takes no more than the bytes allowed, the last one at most `top`. -/
theorem reads_readVarint {top width n : Nat} (htop : top < 128)
    (hn : n < 128 ^ width * (top + 1)) : Reads (readVarint top (width + 1)) (writeVarint n) n := by
  induction width generalizing n with
  | zero =>
    rw [pow_zero, one_mul] at hn
    have hbyte : n.toUInt8.toNat = n := Nat.mod_eq_of_lt (by omega)
    have hsmall : n.toUInt8 < 128 := by
      rw [UInt8.lt_iff_toNat_lt, hbyte]
      exact (by omega : n < 128)
    rw [writeVarint, if_pos (by omega)]
    refine (reads_readByte n.toUInt8).last ?_
    rw [if_pos hsmall, if_neg (by rw [hbyte]; omega), hbyte]
    exact .pure n
  | succ width ih =>
    rw [writeVarint]
    split
    · rename_i hlt
      have hbyte : n.toUInt8.toNat = n := Nat.mod_eq_of_lt (by omega)
      have hsmall : n.toUInt8 < 128 := by
        rw [UInt8.lt_iff_toNat_lt, hbyte]
        exact hlt
      refine (reads_readByte n.toUInt8).last ?_
      rw [if_pos hsmall, if_neg (by omega), hbyte]
      exact .pure n
    · have hbyte : (n % 128 + 128).toUInt8.toNat = n % 128 + 128 := Nat.mod_eq_of_lt (by omega)
      have hlarge : ¬ (n % 128 + 128).toUInt8 < 128 := by
        rw [UInt8.lt_iff_toNat_lt, hbyte]
        exact Nat.not_lt.mpr (Nat.le_add_left _ _)
      have hhigh : n / 128 < 128 ^ width * (top + 1) := by
        rw [pow_succ] at hn
        exact Nat.div_lt_of_lt_mul (by linarith)
      have hsum : (n % 128 + 128).toUInt8.toNat - 128 + 128 * (n / 128) = n := by
        rw [hbyte]
        omega
      refine (reads_readByte (n % 128 + 128).toUInt8).bind ?_
      rw [if_neg hlarge]
      have hrest := (ih hhigh).map fun high => (n % 128 + 128).toUInt8.toNat - 128 + 128 * high
      rwa [hsum] at hrest

/-- How many items there can be, or bytes: a count has 64 bits. -/
def maxCount : Nat := 2 ^ 64

theorem reads_readCount {n : Nat} (h : n < maxCount) : Reads readCount (writeVarint n) n := by
  have hn : n < 128 ^ 9 * (1 + 1) := by
    rw [show 128 ^ 9 * (1 + 1) = maxCount by norm_num [maxCount]]
    exact h
  exact reads_readVarint (by decide) hn

theorem reads_readId (id : UInt16) : Reads readId (writeId id) id := by
  have hn : id.toNat < 128 ^ 2 * (3 + 1) := id.toNat_lt
  have h := (reads_readVarint (by decide) hn).map Nat.toUInt16
  rwa [Nat.toUInt16_eq, UInt16.ofNat_toNat] at h

/-! ## Sequences -/

/-- The items of a sequence are read behind those already there. -/
theorem reads_readItems {item : Reader α} {write : α → List UInt8} (items : List α) (read : Array α)
    (h : ∀ a ∈ items, Reads item (write a) a) :
    Reads (readItems item items.length read) (items.flatMap write) (read ++ items) := by
  induction items generalizing read with
  | nil => simpa [readItems] using Reads.pure read
  | cons a items ih =>
    have hrest := ih (read.push a) fun b hb => h b (List.mem_cons_of_mem _ hb)
    rw [List.length_cons, readItems, List.flatMap_cons]
    refine (h a List.mem_cons_self).bind ?_
    simpa using hrest

theorem reads_readSeq {item : Reader α} {write : α → List UInt8} {items : List α}
    (hcount : items.length < maxCount) (h : ∀ a ∈ items, Reads item (write a) a) :
    Reads (readSeq item) (writeSeq write items) items.toArray := by
  have hitems := reads_readItems items #[] h
  have hread : (#[] : Array α) ++ items = items.toArray := by
    apply Array.toList_inj.mp
    simp
  rw [hread] at hitems
  exact (reads_readCount hcount).bind hitems

/-! ## Texts and types -/

theorem reads_readBytes (bytes : List UInt8) : Reads (readBytes bytes.length) bytes bytes := by
  intro rest
  have htake : (bytes ++ rest).take bytes.length = bytes := List.take_left
  have hdrop : (bytes ++ rest).drop bytes.length = rest := List.drop_left
  simp only [readBytes, get, getThe, MonadStateOf.get, StateT.get, bind, StateT.bind, Except.bind,
    pure, StateT.pure, Except.pure, set, MonadStateOf.set, StateT.set, htake, hdrop,
    Nat.lt_irrefl, if_false]

theorem toListLoop_eq (b : ByteArray) (i : Nat) (read : List UInt8) :
    ByteArray.toList.loop b i read = read.reverse ++ b.data.toList.drop i := by
  induction h : b.size - i generalizing i read with
  | zero =>
    have hlength : b.data.toList.length ≤ i := by
      change b.size ≤ i
      omega
    rw [ByteArray.toList.loop, if_neg (by omega), List.drop_of_length_le hlength, List.append_nil]
  | succ n ih =>
    have hi : i < b.size := by omega
    have hget : b.get! i = b.data.toList[i] := by
      change b.data[i]! = _
      rw [getElem!_pos b.data i hi, Array.getElem_toList]
    rw [ByteArray.toList.loop, if_pos hi, ih (i + 1) _ (by omega), List.reverse_cons,
      List.append_assoc, List.drop_eq_getElem_cons hi, hget, List.singleton_append]

theorem toList_eq_data (b : ByteArray) : b.toList = b.data.toList := toListLoop_eq b 0 []

theorem length_toList_toUTF8 (s : String) : s.toUTF8.toList.length = s.utf8ByteSize := by
  rw [toList_eq_data]
  rfl

theorem reads_readText {s : String} (h : s.utf8ByteSize < maxCount) :
    Reads readText (writeText s) s := by
  have hback : String.fromUTF8? ⟨s.toUTF8.toList.toArray⟩ = some s := by
    rw [toList_eq_data, Array.toArray_toList]
    exact dif_pos s.isValidUTF8
  refine (reads_readCount (length_toList_toUTF8 s ▸ h)).bind ?_
  refine (reads_readBytes s.toUTF8.toList).last ?_
  rw [hback]
  exact .pure s

theorem reads_readTy (ty : Ty) : Reads readTy (writeTy ty) ty := by
  have hn : ty.ctorIdx < 128 ^ 4 * (15 + 1) := by cases ty <;> decide
  refine (reads_readVarint (by decide) hn).last ?_
  cases ty <;> exact .pure _

end StackLang.Wire
