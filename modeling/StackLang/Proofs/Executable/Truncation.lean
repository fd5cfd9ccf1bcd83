import StackLang.Proofs.Executable.Image
import StackLang.Proofs.Executable.RoundTrip

/-!
# Truncated images

A reader never looks behind what it takes. So what it makes of some bytes it makes of longer ones as
well, unless it has come to the end of the bytes (`Stable`). One law for each way to put readers
together shows it of every reader of an image, and with what an image is read as it follows that no
part of the format can be mistaken for the whole: `ofImage_of_prefix`, wherever an image is cut, reading
it runs out of bytes.
-/

namespace StackLang

namespace Wire

variable {α β : Type}

/-- More bytes change nothing, but for a reader that has run out of them. -/
structure Stable (r : Reader α) : Prop where
  ok : ∀ {bytes a rest}, r bytes = .ok (a, rest) → ∀ more, r (bytes ++ more) = .ok (a, rest ++ more)
  error : ∀ {bytes e}, r bytes = .error e → e ≠ .unexpectedEnd →
    ∀ more, r (bytes ++ more) = .error e

/-- Where a reader would take all the bytes, it runs out of them in each beginning. -/
theorem Stable.unexpectedEnd {r : Reader α} (hr : Stable r) {bytes cut : List UInt8} {a : α}
    (h : Reads r bytes a) (hcut : cut <+: bytes) (hne : cut ≠ bytes) :
    r cut = .error .unexpectedEnd := by
  obtain ⟨more, rfl⟩ := hcut
  have hwhole : r (cut ++ more) = .ok (a, []) := by simpa using h []
  cases hread : r cut with
  | ok x =>
    obtain ⟨a', rest⟩ := x
    have hsame := (hr.ok hread more).symm.trans hwhole
    simp only [Except.ok.injEq, Prod.mk.injEq, List.append_eq_nil_iff] at hsame
    exact absurd (by rw [hsame.2.2, List.append_nil]) hne
  | error e =>
    by_cases he : e = .unexpectedEnd
    · rw [he]
    · have hsame := (hr.error hread he more).symm.trans hwhole
      cases hsame

namespace Stable

/-! ## Readers put together -/

theorem pure (a : α) : Stable (Pure.pure a : Reader α) where
  ok h more := by cases h; rfl
  error h := by cases h

theorem throw (e : WireError) : Stable (MonadExcept.throw e : Reader α) where
  ok h := by cases h
  error h _ more := by cases h; rfl

theorem bind {r : Reader β} {f : β → Reader α} (hr : Stable r) (hf : ∀ b, Stable (f b)) :
    Stable (r >>= f) := by
  have hbind : ∀ bytes, (r >>= f) bytes = r bytes >>= fun (b, rest) => f b rest := fun _ => rfl
  refine ⟨fun {bytes a rest} h more => ?_, fun {bytes e} h he more => ?_⟩
  · obtain ⟨b, bytes', hfirst, hthen⟩ := bind_ok h
    rw [hbind, hr.ok hfirst more]
    exact (hf b).ok hthen more
  · rw [hbind] at h ⊢
    cases hfirst : r bytes with
    | error e' =>
      rw [hfirst] at h
      cases h
      rw [hr.error hfirst he more]
      rfl
    | ok x =>
      rw [hfirst] at h
      rw [hr.ok hfirst more]
      exact (hf x.1).error h he more

theorem ite {p : Prop} [Decidable p] {r r' : Reader α} (h : Stable r) (h' : Stable r') :
    Stable (if p then r else r') := by
  split
  · exact h
  · exact h'

/-! ## Bytes and numbers -/

theorem readByte : Stable readByte where
  ok {bytes a rest} h more := by
    cases bytes with
    | nil => cases h
    | cons b bytes => cases h; rfl
  error {bytes e} h he := by
    cases bytes with
    | nil => cases h; exact absurd rfl he
    | cons b bytes => cases h

theorem readBytes_eq (count : Nat) (bytes : List UInt8) : Wire.readBytes count bytes =
    if bytes.length < count then .error .unexpectedEnd
    else .ok (bytes.take count, bytes.drop count) := by
  have hshort : (bytes.take count).length < count ↔ bytes.length < count := by
    rw [List.length_take]
    omega
  by_cases h : bytes.length < count
  · rw [if_pos h]
    simp only [Wire.readBytes, get, getThe, MonadStateOf.get, StateT.get, Bind.bind, StateT.bind,
      Except.bind, Pure.pure, Except.pure, if_pos (hshort.mpr h)]
    rfl
  · rw [if_neg h]
    simp only [Wire.readBytes, get, getThe, MonadStateOf.get, StateT.get, Bind.bind, StateT.bind,
      Except.bind, Pure.pure, Except.pure, if_neg (mt hshort.mp h)]
    rfl

theorem readBytes (count : Nat) : Stable (readBytes count) := by
  refine ⟨fun {bytes a rest} h more => ?_, fun {bytes e} h he => ?_⟩
  · rw [readBytes_eq] at h ⊢
    split at h
    · cases h
    · rename_i hlong
      cases h
      have hcount : count ≤ bytes.length := Nat.le_of_not_lt hlong
      rw [if_neg (by rw [List.length_append]; omega), List.take_append_of_le_length hcount,
        List.drop_append_of_le_length hcount]
  · rw [readBytes_eq] at h
    split at h
    · cases h
      exact absurd rfl he
    · cases h

theorem readVarint (top width : Nat) : Stable (readVarint top width) := by
  induction width with
  | zero => exact throw _
  | succ width ih =>
    refine readByte.bind fun b => ?_
    exact (ite ((throw _).bind fun _ => pure _) (pure _)).ite (ih.bind fun _ => pure _)

theorem readId : Stable readId := (readVarint 3 3).bind fun _ => pure _

theorem readCount : Stable readCount := readVarint 1 10

/-! ## Sequences, texts and types -/

theorem readItems {item : Reader α} (h : Stable item) (count : Nat) (read : Array α) :
    Stable (readItems item count read) := by
  induction count generalizing read with
  | zero => exact pure _
  | succ count ih => exact h.bind fun a => ih (read.push a)

theorem readSeq {item : Reader α} (h : Stable item) : Stable (readSeq item) :=
  readCount.bind fun count => readItems h count #[]

theorem readText : Stable readText := by
  refine readCount.bind fun count => (readBytes count).bind fun bytes => ?_
  cases String.fromUTF8? ⟨bytes.toArray⟩ with
  | none => exact throw _
  | some s => exact pure s

theorem readTy : Stable readTy := by
  refine (readVarint 15 5).bind fun n => ?_
  split
  · exact pure _
  · exact pure _
  · exact pure _
  · exact pure _
  · exact pure _
  · exact throw _

end Stable

end Wire

namespace Executable

open Wire

/-! ## Records -/

theorem stable_readLayout : Stable readLayout :=
  .bind .readId fun _ => .bind .readCount fun _ => .bind .readCount fun _ => .pure _

theorem stable_readRoutine : Stable readRoutine :=
  .bind .readId fun _ => .bind .readText fun _ => .bind .readId fun _ => .bind .readId fun _ =>
  .bind (.readSeq .readTy) fun _ => .bind .readTy fun _ => .bind .readCount fun _ =>
  .bind (.readSeq stable_readLayout) fun _ => .bind (.readSeq .readByte) fun _ => .pure _

theorem stable_readName : Stable readName :=
  .bind .readText fun _ => .bind .readId fun _ => .pure _

theorem stable_readNative : Stable readNative :=
  .bind .readText fun _ => .bind (.readSeq .readTy) fun _ => .bind .readTy fun _ => .pure _

theorem stable_readTopVar : Stable readTopVar :=
  .bind .readText fun _ => .bind .readTy fun _ => .bind .readId fun _ => .bind .readId fun _ => .pure _

theorem stable_readPool : Stable StringPool.read :=
  .bind (.readSeq .readText) fun _ => .pure _

/-! ## Whole images -/

theorem stable_read : Stable read :=
  .bind (.readSeq stable_readRoutine) fun _ => .bind (.readSeq stable_readName) fun _ =>
  .bind stable_readPool fun _ => .bind (.readSeq stable_readNative) fun _ =>
  .bind .readCount fun _ => .bind (.readSeq stable_readTopVar) fun _ => .pure _

/-- **No truncated image is accepted**, whatever the executable and wherever its image is cut: reading
what is left runs out of bytes, in whatever order the entries of the name map were written. So it gives
no executable, and verification does not come to say anything. -/
theorem ofImage_of_prefix (e : Executable) (hsize : e.Sized) (names : List (String × UInt16))
    (hnames : names.Perm e.byName.toList) (cut : List UInt8) (hcut : cut <+: e.imageWith names)
    (hne : cut ≠ e.imageWith names) : ofImage cut = .error (.unreadable .unexpectedEnd) := by
  have hread : read.run cut = .error .unexpectedEnd :=
    stable_read.unexpectedEnd (reads_read_ofList hsize hnames) hcut hne
  unfold ofImage
  rw [hread]

/-- An image cut inside a text, in the middle of a character. -/
theorem ofImage_of_halfText :
    ImageExample.exe.Sized ∧
      List.Perm [("twice", 1), ("<top>", 0)] ImageExample.exe.byName.toList ∧
      (ImageExample.exe.imageWith [("twice", 1), ("<top>", 0)]).length = 100 ∧
      ofImage ((ImageExample.exe.imageWith [("twice", 1), ("<top>", 0)]).take 79) =
        .error (.unreadable .unexpectedEnd) := by
  have hnames : List.Perm [("twice", 1), ("<top>", 0)] ImageExample.exe.byName.toList := by
    rw [ImageExample.names_exe]
    exact .swap _ _ _
  have hlength : (ImageExample.exe.imageWith [("twice", 1), ("<top>", 0)]).length = 100 := by cbv
  refine ⟨ImageExample.sized_exe, hnames, hlength, ?_⟩
  refine ofImage_of_prefix _ ImageExample.sized_exe _ hnames _ (List.take_prefix _ _) fun hsame => ?_
  have hshort := congrArg List.length hsame
  rw [List.length_take, hlength] at hshort
  cases hshort

end Executable

end StackLang
