import StackLang.Proofs.Simulation.Denotes
import StackLang.Proofs.Verify.Runs

/-!
# Interning during a run

The ids of a run's own texts go on where those of the executable end. `Interned e overlay` says that
together they are all different and no more than there are ids; then interning a text gives the id that
it has, or the next one, and fails only where none is left (`intern_cases`).

A state is `Texted` if besides every string in it has a text. Each operation of the machine comes to such
a state again and keeps the texts there are (`Retains`), so an instruction does (`Advances.texted`).
Nothing is asked of the operand stack, and the executable need not verify: only what the code loads as a
string must be one of the executable's own.
-/

namespace StackLang

open MachineM (wp)
open RunM

variable {σ : Type} {e : Executable} {s s' : State σ} {id id' : UInt16} {text text' : String}
  {overlay overlay' : Array String}

/-! ## Ids and texts -/

theorem stringText_eq_ok : s.stringText e id = .ok text ↔ textOf? e s.overlay id = some text := by
  refine ⟨fun h => ?_, Denotes.stringText⟩
  unfold State.stringText at h
  unfold textOf?
  dsimp only at h
  split at h
  · cases h
    assumption
  · cases h

theorem known_of_textOf? (h : textOf? e s.overlay id = some text) : s.Known e (.string id) := by
  refine State.known_string ?_
  unfold textOf? at h
  split at h
  · omega
  · have := (Array.getElem?_eq_some_iff.mp h).1
    omega

/-- The executable's texts and those of the run are all different, and no more than there are ids. -/
structure Interned (e : Executable) (overlay : Array String) : Prop where
  pool : e.strings.Distinct
  room : e.strings.size + overlay.size ≤ UInt16.size
  unique : ∀ {id id' text}, textOf? e overlay id = some text → textOf? e overlay id' = some text →
    id = id'

/-- At first there are the executable's texts. -/
theorem interned_empty (h : e.strings.Distinct) : Interned e #[] := by
  refine ⟨h, h.size_le, fun {id id' text} ht ht' => ?_⟩
  have hpool : ∀ {id}, textOf? e #[] id = some text → e.strings.get? id = some text := fun ht => by
    unfold textOf? at ht
    split at ht
    · exact ht
    · cases ht
  have hid := h.lookup?_of_get? (hpool ht)
  rw [h.lookup?_of_get? (hpool ht')] at hid
  exact (Option.some.inj hid).symm

/-- The next text has the next id. -/
theorem textOf?_push : textOf? e (overlay.push text) id =
    if id.toNat = e.strings.size + overlay.size then some text else textOf? e overlay id := by
  unfold textOf?
  rw [Array.getElem?_push]
  split_ifs <;> first | rfl | omega

theorem Interned.push (h : Interned e overlay) (hnew : ∀ id, textOf? e overlay id ≠ some text)
    (hroom : e.strings.size + overlay.size < UInt16.size) : Interned e (overlay.push text) := by
  refine ⟨h.pool, by rw [Array.size_push]; omega, fun {id id' text'} ht ht' => ?_⟩
  rw [textOf?_push] at ht ht'
  split_ifs at ht ht' with hid hid' hid'
  · exact UInt16.toNat_inj.mp (hid.trans hid'.symm)
  · cases ht
    exact absurd ht' (hnew id')
  · cases ht'
    exact absurd ht (hnew id)
  · exact h.unique ht ht'

theorem Interned.id_iff (h : Interned e overlay) (ht : textOf? e overlay id = some text)
    (ht' : textOf? e overlay id' = some text') : id = id' ↔ text = text' :=
  ⟨fun heq => Option.some.inj (ht.symm.trans (heq ▸ ht')), fun heq => h.unique ht (heq ▸ ht')⟩

/-- Each of the run's own texts has an id. -/
theorem Interned.textOf?_own (h : Interned e overlay) {i : Nat} (hi : overlay[i]? = some text) :
    e.strings.size + i < UInt16.size ∧
      textOf? e overlay (e.strings.size + i).toUInt16 = some text := by
  have hlt := (Array.getElem?_eq_some_iff.mp hi).1
  have hsmall : e.strings.size + i < UInt16.size := by
    have := h.room
    omega
  exact ⟨hsmall, (textOf?_nextId hsmall).trans hi⟩

/-! ## What interning does -/

section Intern

variable (h : Interned e s.overlay)

include h

/-- A text that is there has its id, and nothing changes. -/
theorem intern_of_textOf? (ht : textOf? e s.overlay id = some text) :
    MachineM.intern e text s = .ok id s := by
  have hown : ∀ {id'}, textOf? e s.overlay id' = some text → id' = id := fun ht' => h.unique ht' ht
  unfold MachineM.intern
  cases hl : e.strings.lookup? text with
  | some id' =>
    obtain rfl := hown (textOf?_of_get? (h.pool.get?_of_lookup? hl))
    rfl
  | none =>
    -- so the text is one of the run's own
    have hlt : ¬ id.toNat < e.strings.size := fun hlt => by
      unfold textOf? at ht
      rw [if_pos hlt] at ht
      cases hl.symm.trans (h.pool.lookup?_of_get? ht)
    cases hi : s.overlay.findIdx? (· = text) with
    | none =>
      unfold textOf? at ht
      rw [if_neg hlt] at ht
      simpa using Array.findIdx?_eq_none_iff.mp hi text (Array.mem_of_getElem? ht)
    | some i =>
      obtain ⟨hlt', hp, -⟩ := Array.findIdx?_eq_some_iff_getElem.mp hi
      have hat : s.overlay[i]? = some text := by
        rw [Array.getElem?_eq_getElem hlt']
        exact congrArg some (of_decide_eq_true hp)
      obtain ⟨hsmall, hid⟩ := h.textOf?_own hat
      obtain rfl := hown hid
      simp only [get, getThe, MonadStateOf.get, EStateM.get, bind, EStateM.bind, hi, pure,
        EStateM.pure, if_pos hsmall]

/-- A new text is added, if an id is left. -/
theorem intern_of_new (hnew : ∀ id, textOf? e s.overlay id ≠ some text) :
    MachineM.intern e text s =
      if e.strings.size + s.overlay.size < UInt16.size then
        .ok (e.strings.size + s.overlay.size).toUInt16 { s with overlay := s.overlay.push text }
      else .error .poolExhausted { s with overlay := s.overlay.push text } := by
  have hl : e.strings.lookup? text = none := by
    by_contra hsome
    obtain ⟨id, hid⟩ := Option.ne_none_iff_exists'.mp hsome
    exact hnew id (textOf?_of_get? (h.pool.get?_of_lookup? hid))
  have hi : s.overlay.findIdx? (· = text) = none := by
    refine Array.findIdx?_eq_none_iff.mpr fun text' hmem => decide_eq_false ?_
    rintro rfl
    obtain ⟨i, hi⟩ := Array.getElem?_of_mem hmem
    exact hnew _ (h.textOf?_own hi).2
  unfold MachineM.intern
  rw [hl]
  simp only [get, getThe, MonadStateOf.get, EStateM.get, bind, EStateM.bind, hi, modifyGet,
    MonadStateOf.modifyGet, EStateM.modifyGet]
  split <;> rfl

/-- What becomes of a text that is interned: it is there, it is added, or no id is left for it. -/
theorem intern_cases (text : String) :
    (∃ id, textOf? e s.overlay id = some text ∧ MachineM.intern e text s = .ok id s) ∨
    (∀ id, textOf? e s.overlay id ≠ some text) ∧
      (e.strings.size + s.overlay.size < UInt16.size ∧
          MachineM.intern e text s = .ok (e.strings.size + s.overlay.size).toUInt16
            { s with overlay := s.overlay.push text } ∨
        e.strings.size + s.overlay.size = UInt16.size ∧
          MachineM.intern e text s =
            .error .poolExhausted { s with overlay := s.overlay.push text }) := by
  by_cases hold : ∃ id, textOf? e s.overlay id = some text
  · obtain ⟨id, ht⟩ := hold
    exact .inl ⟨id, ht, intern_of_textOf? h ht⟩
  · have hnew := not_exists.mp hold
    have hintern := intern_of_new h hnew
    refine .inr ⟨hnew, ?_⟩
    rcases Nat.lt_or_eq_of_le h.room with hroom | hfull
    · rw [if_pos hroom] at hintern
      exact .inl ⟨hroom, hintern⟩
    · rw [if_neg (Nat.not_lt.mpr hfull.ge)] at hintern
      exact .inr ⟨hfull, hintern⟩

/-- An interned text has its id from then on. -/
theorem interned_of_intern (hi : MachineM.intern e text s = .ok id s') :
    ∃ overlay, s' = { s with overlay } ∧ Interned e overlay ∧ Overlaid s.overlay overlay ∧
      textOf? e overlay id = some text := by
  rcases intern_cases h text with ⟨id', ht, hok⟩ | ⟨hnew, ⟨hroom, hok⟩ | ⟨-, herror⟩⟩
  · cases hi.symm.trans hok
    exact ⟨s.overlay, rfl, h, .refl _, ht⟩
  · cases hi.symm.trans hok
    exact ⟨_, rfl, h.push hnew hroom, overlaid_push _ _,
      (textOf?_nextId hroom).trans Array.getElem?_push_size⟩
  · cases hi.symm.trans herror

/-- **Interning fails only where the text is new and no id is left.** -/
theorem intern_error_iff {trap : Trap} : (∃ s', MachineM.intern e text s = .error trap s') ↔
    trap = .poolExhausted ∧ (∀ id, textOf? e s.overlay id ≠ some text) ∧
      e.strings.size + s.overlay.size = UInt16.size := by
  rcases intern_cases h text with ⟨id, ht, hok⟩ | ⟨hnew, ⟨hroom, hok⟩ | ⟨hfull, herror⟩⟩
  · constructor
    · rintro ⟨s', herror⟩
      cases hok.symm.trans herror
    · rintro ⟨-, hnew, -⟩
      exact absurd ht (hnew id)
  · constructor
    · rintro ⟨s', herror⟩
      cases hok.symm.trans herror
    · rintro ⟨-, -, hfull⟩
      exact absurd hfull hroom.ne
  · constructor
    · rintro ⟨s', herror'⟩
      cases herror.symm.trans herror'
      exact ⟨rfl, hnew, hfull⟩
    · rintro ⟨rfl, -, -⟩
      exact ⟨_, herror⟩

end Intern

/-! ## Steps that keep the texts -/

/-- Every string in the state has a text, and no other string has the same. -/
structure State.Texted (e : Executable) (s : State σ) : Prop where
  interned : Interned e s.overlay
  known : s.KnownValues e

/-- With another stack or other variables whose strings have texts. -/
theorem State.Texted.congr (h : s.Texted e) (hknown : s'.KnownValues e)
    (ho : s'.overlay = s.overlay) : s'.Texted e := ⟨ho ▸ h.interned, hknown⟩

theorem State.KnownValues.mono {overlay' : Array String} (h : s.KnownValues e)
    (ho : s.overlay.size ≤ overlay'.size) :
    State.KnownValues e { s with overlay := overlay' } :=
  ⟨fun v hv => (h.stack v hv).mono ho, fun i v hv => (h.vars i v hv).mono ho⟩

theorem Overlaid.size_le (h : Overlaid overlay overlay') : overlay.size ≤ overlay'.size := by
  by_contra hlt
  have hat := h.text (Array.getElem?_eq_getElem (Nat.lt_of_not_le hlt))
  have := (Array.getElem?_eq_some_iff.mp hat).1
  omega

namespace MachineM

/-- If the step succeeds, every string still has its text, and `Q` holds of what it returns. -/
def Retains {α : Type} (e : Executable) (s : State σ) (m : MachineM σ α) (Q : α → State σ → Prop) :
    Prop :=
  wp m (fun a s' => s'.Texted e ∧ Overlaid s.overlay s'.overlay ∧ Q a s') (fun _ _ => True) s

namespace Retains

variable {α β : Type} {Q : α → State σ → Prop}

theorem pure (hs : s.Texted e) {a : α} (hQ : Q a s) : Retains e s (Pure.pure a) Q :=
  ⟨hs, .refl _, hQ⟩

theorem throw (trap : Trap) : Retains e s (MonadExcept.throw trap : MachineM σ α) Q := trivial

theorem bind {m : MachineM σ β} {f : β → MachineM σ α} {P : β → State σ → Prop}
    (hm : Retains e s m P)
    (hf : ∀ b s', s'.Texted e → s.overlay.size ≤ s'.overlay.size → P b s' → Retains e s' (f b) Q) :
    Retains e s (m >>= f) Q := by
  refine (wp_bind m f).mpr (wp_mono hm (fun b s' h => ?_) fun _ _ h => h)
  obtain ⟨hs', ho, hP⟩ := h
  exact wp_mono (hf b s' hs' ho.size_le hP) (fun _ _ h => ⟨h.1, ho.trans h.2.1, h.2.2⟩) fun _ _ h => h

theorem ite {p : Prop} [Decidable p] {m m' : MachineM σ α} (h : Retains e s m Q)
    (h' : Retains e s m' Q) : Retains e s (if p then m else m') Q := by
  split
  · exact h
  · exact h'

/-! ### Operations -/

section Operations

variable (hs : s.Texted e)

include hs

theorem get : Retains e s MonadState.get fun a s' => a = s' := ⟨hs, .refl _, rfl⟩

theorem push {v : Value} (hv : s.Known e v) : Retains e s (push v) fun _ _ => True :=
  ⟨hs.congr (hs.known.push hv) rfl, .refl _, trivial⟩

theorem pop (op : Opcode) : Retains e s (pop op) fun v s' => s'.Known e v :=
  (wp_pop op).mpr ⟨fun _ => trivial, fun _ _ hv =>
    ⟨hs.congr hs.known.pop rfl, .refl _, (State.known_of_back? hs.known hv).mono (Nat.le_refl _)⟩⟩

theorem popInt (op : Opcode) : Retains e s (popInt op) fun _ _ => True :=
  (pop hs op).bind fun v _ hs' _ _ => by
    cases v with
    | int n => exact pure hs' trivial
    | double d => exact throw _
    | string id => exact throw _

theorem popDouble (op : Opcode) : Retains e s (popDouble op) fun _ _ => True :=
  (pop hs op).bind fun v _ hs' _ _ => by
    cases v with
    | int n => exact throw _
    | double d => exact pure hs' trivial
    | string id => exact throw _

theorem popString (op : Opcode) : Retains e s (popString op) fun _ _ => True :=
  (pop hs op).bind fun v _ hs' _ _ => by
    cases v with
    | int n => exact throw _
    | double d => exact throw _
    | string id => exact pure hs' trivial

theorem slotIndex (addr : VarAddr) : Retains e s (slotIndex addr) fun _ _ => True := by
  rw [Retains, wp_slotIndex]
  cases s.slotIndex addr with
  | ok index => exact ⟨hs, .refl _, trivial⟩
  | error trap => trivial

theorem setVar {v : Value} (hv : s.Known e v) (index : Nat) :
    Retains e s (setVar index v) fun _ _ => True :=
  ⟨hs.congr (hs.known.setVar hv index) rfl, .refl _, trivial⟩

theorem stringText (id : UInt16) : Retains e s (stringText e id) fun _ _ => True := by
  rw [Retains, wp_stringText]
  cases s.stringText e id with
  | ok text => exact ⟨hs, .refl _, trivial⟩
  | error trap => trivial

theorem toHost (v : Value) : Retains e s (toHost e v) fun _ _ => True := by
  rw [Retains, wp_toHost]
  cases s.toHost e v with
  | ok v => exact ⟨hs, .refl _, trivial⟩
  | error trap => trivial

theorem intern (text : String) :
    Retains e s (intern e text) fun id s' => textOf? e s'.overlay id = some text := by
  refine wp_of_cases (fun id s' hi => ?_) fun _ _ _ => trivial
  obtain ⟨overlay, rfl, hinterned, ho, ht⟩ := interned_of_intern hs.interned hi
  exact ⟨⟨hinterned, hs.known.mono ho.size_le⟩, ho, ht⟩

theorem ofHost (v : HostValue) (ty : Ty) :
    Retains e s (ofHost e v ty) fun x s' => s'.Known e x := by
  unfold MachineM.ofHost
  split
  · exact pure hs (State.known_int _)
  · exact pure hs (State.known_double _)
  · exact pure hs (State.known_double _)
  · exact pure hs (State.known_int _)
  · exact (intern hs _).bind fun id s' hs' _ ht => pure hs' (known_of_textOf? ht)
  · exact throw _

theorem print (text : String) : Retains e s (print text) fun _ _ => True := by
  rw [Retains, wp_print]
  split
  · exact ⟨hs.congr ⟨hs.known.stack, hs.known.vars⟩ rfl, .refl _, trivial⟩
  · trivial

theorem callHost (bridge : Bridge σ) (symbol : String) (args : List HostValue) :
    Retains e s (callHost bridge symbol args) fun _ _ => True := by
  rw [Retains, wp_callHost]
  split
  · trivial
  · trivial
  · exact ⟨hs.congr ⟨hs.known.stack, hs.known.vars⟩ rfl, .refl _, trivial⟩

/-! ### Instructions -/

theorem onInts (op : Opcode) (f : Int64 → Int64 → Int64) :
    Retains e s (onInts op f) fun _ _ => True :=
  (popInt hs op).bind fun _ _ hs _ _ => (popInt hs op).bind fun _ _ hs _ _ =>
    push hs (State.known_int _)

theorem divideInts (op : Opcode) (f : Int64 → Int64 → Int64) :
    Retains e s (divideInts op f) fun _ _ => True :=
  (popInt hs op).bind fun _ _ hs _ _ => (popInt hs op).bind fun _ _ hs _ _ =>
    ite (throw _) (push hs (State.known_int _))

theorem onDoubles (op : Opcode) {f : Double → Double → Value}
    (hf : ∀ a b (s : State σ), s.Known e (f a b)) : Retains e s (onDoubles op f) fun _ _ => True :=
  (popDouble hs op).bind fun _ _ hs _ _ => (popDouble hs op).bind fun _ _ hs _ _ =>
    push hs (hf _ _ _)

theorem loadVar (addr : VarAddr) (ty : Ty) : Retains e s (loadVar addr ty) fun _ _ => True :=
  (slotIndex hs addr).bind fun index _ hs _ _ => (get hs).bind fun _ s' hs _ heq => by
    subst heq
    exact ite (throw _) (push hs (State.known_readVar hs.interned.pool.sound hs.known index ty))

theorem storeVar (op : Opcode) (addr : VarAddr) (ty : Ty) :
    Retains e s (storeVar op addr ty) fun _ _ => True :=
  (pop hs op).bind fun _ _ hs _ hv => ite (throw _)
    ((slotIndex hs addr).bind fun _ _ hs hle _ => setVar hs (hv.mono hle) _)

theorem stepPlain (op : Opcode) : Retains e s (stepPlain e op) fun _ _ => True := by
  cases op with
  | invalid => exact pure hs trivial
  | int0 | int1 | intM1 => exact push hs (State.known_int _)
  | double0 | double1 | doubleM1 => exact push hs (State.known_double _)
  | string0 => exact push hs (State.known_zero hs.interned.pool.sound .string)
  | addDouble | subDouble | mulDouble | divDouble =>
    exact onDoubles hs _ fun _ _ _ => State.known_double _
  | compareDouble => exact onDoubles hs _ fun _ _ _ => known_orderingValue _
  | addInt | subInt | mulInt | orInt | andInt | xorInt | compareInt => exact onInts hs _ _
  | divInt | modInt => exact divideInts hs _ _
  | negDouble => exact (popDouble hs _).bind fun _ _ hs _ _ => push hs (State.known_double _)
  | doubleToInt => exact (popDouble hs _).bind fun _ _ hs _ _ => push hs (State.known_int _)
  | negInt => exact (popInt hs _).bind fun _ _ hs _ _ => push hs (State.known_int _)
  | intToDouble => exact (popInt hs _).bind fun _ _ hs _ _ => push hs (State.known_double _)
  | printInt => exact (popInt hs _).bind fun _ _ hs _ _ => print hs _
  | printDouble => exact (popDouble hs _).bind fun _ _ hs _ _ => print hs _
  | printString =>
    exact (popString hs _).bind fun _ _ hs _ _ => (stringText hs _).bind fun _ _ hs _ _ => print hs _
  | swap =>
    exact (pop hs _).bind fun _ _ hs _ hupper => (pop hs _).bind fun _ _ hs hle hlower =>
      (push hs (hupper.mono hle)).bind fun _ _ hs hle _ => push hs (hlower.mono hle)
  | pop => exact (pop hs _).bind fun _ _ hs _ _ => pure hs trivial
  | _ => exact throw _

theorem stepVar (op : Opcode) (addr : VarAddr) : Retains e s (stepVar op addr) fun _ _ => True := by
  cases op with
  | loadDoubleVar | loadIntVar | loadStringVar => exact loadVar hs _ _
  | storeDoubleVar | storeIntVar | storeStringVar => exact storeVar hs _ _ _
  | _ => exact throw _

theorem popArgs (params : List Ty) : Retains e s (popArgs e params) fun _ _ => True := by
  induction params generalizing s with
  | nil => exact pure hs trivial
  | cons ty params ih =>
    exact (pop hs _).bind fun _ _ hs _ _ => (toHost hs _).bind fun _ _ hs _ _ =>
      (ih hs).bind fun _ _ hs _ _ => pure hs trivial

theorem stepBranch (op : Opcode) (target next : Nat) :
    Retains e s (stepBranch op target next) fun _ _ => True := by
  refine ite (pure hs trivial) ?_
  cases jumpRelation op with
  | none => exact throw _
  | some relation =>
    exact (popInt hs _).bind fun _ _ hs _ _ => (popInt hs _).bind fun _ _ hs _ _ => pure hs trivial

end Operations

section Instructions

variable {env : Env σ} (hs : s.Texted env.exe)

include hs

theorem stepNative (id : UInt16) : Retains env.exe s (stepNative env id) fun _ _ => True := by
  unfold MachineM.stepNative
  cases env.exe.native? id with
  | none => exact throw _
  | some native =>
    refine (popArgs hs _).bind fun args _ hs _ _ => (callHost hs _ _ _).bind fun result? _ hs _ _ => ?_
    cases native.result.isValue with
    | false => exact pure hs trivial
    | true =>
      cases result? with
      | none => exact throw _
      | some v => exact (ofHost hs _ _).bind fun _ _ hs _ hv => push hs hv

theorem stepInstr {i : Instr}
    (hi : ∀ id, i.operand = .string id → ∃ text, env.exe.strings.get? id = some text) :
    Retains env.exe s (stepInstr env i) fun _ _ => True := by
  obtain ⟨offset, op, operand⟩ := i
  cases operand with
  | none =>
    cases op with
    | ret | stop => exact pure hs trivial
    | _ => exact (stepPlain hs _).bind fun _ _ hs _ _ => pure hs trivial
  | int n => exact (push hs (State.known_int n)).bind fun _ _ hs _ _ => pure hs trivial
  | double d => exact (push hs (State.known_double d)).bind fun _ _ hs _ _ => pure hs trivial
  | string id =>
    obtain ⟨text, ht⟩ := hi id rfl
    have hid : s.Known env.exe (.string id) := known_of_textOf? (textOf?_of_get? ht)
    exact (push hs hid).bind fun _ _ hs _ _ => pure hs trivial
  | var addr => exact (stepVar hs _ _).bind fun _ _ hs _ _ => pure hs trivial
  | target target => exact stepBranch hs _ _ _
  | function id => exact pure hs trivial
  | native id => exact (stepNative hs id).bind fun _ _ hs _ _ => pure hs trivial

end Instructions

theorem bindVars (hs : s.Texted e) (vars : List HostVar) :
    Retains e s (bindVars e vars) fun _ _ => True := by
  induction vars generalizing s with
  | nil => exact pure hs trivial
  | cons var vars ih =>
    unfold RunM.bindVars
    cases topVar? e var.name with
    | none => exact ih hs
    | some top =>
      exact ite (throw _) ((ofHost hs _ _).bind fun _ _ hs _ hv =>
        (slotIndex hs _).bind fun _ _ hs hle _ => (setVar hs (hv.mono hle) _).bind fun _ _ hs _ _ =>
          ih hs)

end Retains

end MachineM

/-! ## One instruction -/

/-- What the instruction at `c` loads as a string is one of the executable's own. -/
def Executable.LoadsOwn (e : Executable) (c : Cursor) : Prop :=
  ∀ i id, c.routine.code.decodeAt c.ip = .ok i → i.operand = .string id →
    ∃ text, e.strings.get? id = some text

theorem State.overlay_paused (s : State σ) (ip : Nat) : (paused s ip).overlay = s.overlay := by
  unfold paused
  split <;> rfl

/-- **An instruction that succeeds keeps the texts**, and every string still has one. -/
theorem Advances.texted {env : Env σ} {c c' : Cursor} (ha : Advances env c s c' s')
    (hs : s.Texted env.exe) (hc : env.exe.LoadsOwn c) :
    s'.Texted env.exe ∧ Overlaid s.overlay s'.overlay := by
  have hticked : State.Texted env.exe { s with steps := s.steps + 1 } :=
    hs.congr ⟨hs.known.stack, hs.known.vars⟩ rfl
  cases ha with
  | next hi hstep =>
    have hretains := MachineM.Retains.stepInstr hticked fun id => hc _ id hi
    obtain ⟨hs', ho, -⟩ := MachineM.wp_of_ok
      (Q := fun _ s' => s'.Texted env.exe ∧ Overlaid s.overlay s'.overlay ∧ True) hretains hstep
    exact ⟨hs', ho⟩
  | @call i id r hi hid hr hfits =>
    have hsame := State.overlay_paused { s with steps := s.steps + 1 } i.next
    refine ⟨hs.congr (State.knownValues_entered (State.knownValues_paused hticked.known _) r) hsame, ?_⟩
    rw [State.entered, hsame]
    exact .refl _
  | ret hi hop hframes hr hvalue =>
    exact ⟨hticked.congr (State.knownValues_left hticked.known _ _ _) rfl, .refl _⟩

end StackLang
