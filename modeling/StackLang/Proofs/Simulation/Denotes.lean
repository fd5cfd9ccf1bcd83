import StackLang.Proofs.Executable.StringPool
import StackLang.Proofs.Machine.Wp
import StackLang.Proofs.Reference.Evaluator

/-!
# What values of the machine stand for

`Denotes e overlay v h` says that the machine's value `v` is what the program sees as `h`: a string
is known by an id, of the executable or of the run's own texts. Texts are only ever added, so what a
value stands for stays (`Denotes.mono`).
-/

namespace StackLang

open MachineM (wp)

/-- The text of an id. -/
def textOf? (e : Executable) (overlay : Array String) (id : UInt16) : Option String :=
  if id.toNat < e.strings.size then e.strings.get? id else overlay[id.toNat - e.strings.size]?

/-- A value of the machine and the value that the program sees. -/
inductive Denotes (e : Executable) (overlay : Array String) : Value → HostValue → Prop
  | int (n : Int64) : Denotes e overlay (.int n) (.int n)
  | double (d : Double) : Denotes e overlay (.double d) (.double d)
  | string {id : UInt16} {text : String} (h : textOf? e overlay id = some text) :
      Denotes e overlay (.string id) (.string text)

/-- `overlay'` has the texts of `overlay`, under the same ids. -/
structure Overlaid (overlay overlay' : Array String) : Prop where
  text : ∀ {i : Nat} {text : String}, overlay[i]? = some text → overlay'[i]? = some text

variable {σ : Type} {e : Executable} {overlay overlay' : Array String} {v : Value} {h : HostValue}

theorem Overlaid.refl (overlay : Array String) : Overlaid overlay overlay := ⟨id⟩

theorem Overlaid.trans {a b c : Array String} (h : Overlaid a b) (h' : Overlaid b c) : Overlaid a c :=
  ⟨fun ht => h'.text (h.text ht)⟩

/-- Ids keep their texts. -/
theorem Overlaid.textOf? (ho : Overlaid overlay overlay') {id : UInt16} {text : String}
    (ht : textOf? e overlay id = some text) : textOf? e overlay' id = some text := by
  unfold StackLang.textOf? at ht ⊢
  split at ht
  · rename_i hlt
    rwa [if_pos hlt]
  · rename_i hlt
    rw [if_neg hlt]
    exact ho.text ht

theorem overlaid_push (overlay : Array String) (text : String) :
    Overlaid overlay (overlay.push text) := by
  refine ⟨fun {i text'} hi => ?_⟩
  have hlt := (Array.getElem?_eq_some_iff.mp hi).1
  rw [Array.getElem?_push, if_neg (Nat.ne_of_lt hlt)]
  exact hi

namespace Denotes

theorem ty (hd : Denotes e overlay v h) : v.ty = h.ty := by cases hd <;> rfl

theorem mono (hd : Denotes e overlay v h) (ho : Overlaid overlay overlay') :
    Denotes e overlay' v h := by
  cases hd with
  | int n => exact .int n
  | double d => exact .double d
  | string ht => exact .string (ho.textOf? ht)

theorem stringText {s : State σ} {id : UInt16} {text : String}
    (ht : textOf? e s.overlay id = some text) : s.stringText e id = .ok text := by
  unfold textOf? at ht
  unfold State.stringText
  rw [ht]

theorem toHost {s : State σ} (hd : Denotes e s.overlay v h) : s.toHost e v = .ok h := by
  cases hd with
  | int n => rfl
  | double d => rfl
  | string ht =>
    rw [State.toHost, stringText ht]
    rfl

end Denotes

theorem textOf?_of_get? {id : UInt16} {text : String} (ht : e.strings.get? id = some text) :
    textOf? e overlay id = some text := by
  have hlt : id.toNat < e.strings.size := (Array.getElem?_eq_some_iff.mp ht).1
  unfold textOf?
  rwa [if_pos hlt]

/-- The ids of the run's own texts go on where those of the executable end. -/
theorem textOf?_nextId {i : Nat} (h : e.strings.size + i < UInt16.size) :
    textOf? e overlay (e.strings.size + i).toUInt16 = overlay[i]? := by
  unfold textOf?
  rw [Nat.toUInt16_eq, UInt16.toNat_ofNat', Nat.mod_eq_of_lt h, if_neg (by omega),
    Nat.add_sub_cancel_left]

/-- What a variable of the machine holds at first stands for what it holds for the program. -/
theorem denotes_zero (he : e.strings.Faithful) (ty : Ty) :
    Denotes e overlay (.zero ty) (.zero ty) := by
  cases ty with
  | double => exact .double _
  | string => exact .string (textOf?_of_get? he.zero)
  | _ => exact .int _

/-! ## Values from the host -/

namespace MachineM

variable {E : Trap → State σ → Prop} {s : State σ}

theorem wp_intern {Q : UInt16 → State σ → Prop} (he : e.strings.Faithful) (text : String)
    (hpool : ∀ s', E .poolExhausted s')
    (hQ : ∀ id overlay', Overlaid s.overlay overlay' → textOf? e overlay' id = some text →
      Q id { s with overlay := overlay' }) : wp (intern e text) Q E s := by
  have hnew : ∀ {i : Nat} {overlay' : Array String}, Overlaid s.overlay overlay' →
      overlay'[i]? = some text → wp (if e.strings.size + i < UInt16.size then
        pure (e.strings.size + i).toUInt16 else throw Trap.poolExhausted) Q E
        { s with overlay := overlay' } := by
    intro i overlay' ho ht
    rw [wp_ite]
    exact ⟨fun hlt => hQ _ _ ho ((textOf?_nextId hlt).trans ht), fun _ => hpool _⟩
  rw [intern]
  cases hl : e.strings.lookup? text with
  | some id =>
    have ht : textOf? e s.overlay id = some text := textOf?_of_get? (he.get?_of_lookup? hl)
    exact hQ id s.overlay (.refl _) ht
  | none =>
    simp only [wp_bind, wp_get]
    cases hi : s.overlay.findIdx? (· = text) with
    | some i =>
      obtain ⟨hlt, hp, -⟩ := Array.findIdx?_eq_some_iff_getElem.mp hi
      have ht : s.overlay[i]? = some text := by
        rw [Array.getElem?_eq_getElem hlt]
        exact congrArg some (of_decide_eq_true hp)
      exact hnew (.refl _) ht
    | none => exact hnew (overlaid_push _ text) (Array.getElem?_push_size)

/-- A value from the host, if it can be made one of the type wanted. -/
theorem wp_ofHost {Q : Value → State σ → Prop} (he : e.strings.Faithful) (hv : HostValue) (ty : Ty)
    (hpool : ∀ s', E .poolExhausted s')
    (hbad : (hv.coerce ty).ty ≠ ty → E (.typeMismatch ty hv.ty.name) s)
    (hQ : (hv.coerce ty).ty = ty → ∀ v overlay', Overlaid s.overlay overlay' →
      Denotes e overlay' v (hv.coerce ty) → Q v { s with overlay := overlay' }) :
    wp (ofHost e hv ty) Q E s := by
  cases hv with
  | int n =>
    cases ty with
    | int => exact hQ rfl _ _ (.refl _) (.int n)
    | double => exact hQ rfl _ _ (.refl _) (.double _)
    | _ => exact hbad (by rintro ⟨⟩)
  | double d =>
    cases ty with
    | int => exact hQ rfl _ _ (.refl _) (.int _)
    | double => exact hQ rfl _ _ (.refl _) (.double d)
    | _ => exact hbad (by rintro ⟨⟩)
  | string text =>
    cases ty with
    | string =>
      simp only [ofHost, wp_bind]
      refine wp_intern he text hpool fun id overlay' ho ht => ?_
      exact hQ rfl _ _ ho (.string ht)
    | _ => exact hbad (by rintro ⟨⟩)

end MachineM

end StackLang
