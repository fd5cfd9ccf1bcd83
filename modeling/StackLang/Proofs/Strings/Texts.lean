import StackLang.Proofs.Executable.RoundTrip
import StackLang.Proofs.Natives.Forwards
import StackLang.Proofs.Strings.Interning
import StackLang.Proofs.Strings.Moments

/-!
# The strings of a run keep their texts

The string constants of a compiled program are all different, and its code loads no other strings. So at
every moment of every run each string has one text and each text one id, from the moment at which it is
interned to the end; and what is printed, handed to the host or read back is that text
(`Program.compile_keepsTexts`). Whether the program verifies does not matter.
-/

namespace StackLang

open MachineM (wp)
open RunM

variable {σ : Type} {env : Env σ} {vars : List HostVar} {sink : Sink} {host : σ} {c c' : Cursor}
  {s s' : State σ} {e : Executable} {text text' : String} {id id' : UInt16} {x : Value} {ty : Ty}

/-! ## Strings that leave the machine, and strings that come in -/

/-- The string on top of the stack is printed, and the output answers so. -/
def State.Prints (e : Executable) (answer : Except String Unit) (s s' : State σ) : Prop :=
  ∃ id text, s.stack.back? = some (.string id) ∧ s.stringText e id = .ok text ∧
    s.sink.write text = (answer, s'.sink)

/-- These are the arguments of a call of the host that takes so many values, the first one from the top
of the stack: of a string its text. -/
def State.Hands (e : Executable) (s : State σ) (n : Nat) (args : List HostValue) : Prop :=
  args.length = n ∧ ∀ k id, k < n → s.stack.toList.reverse[k]? = some (.string id) →
    ∃ text, s.stringText e id = .ok text ∧ args[k]? = some (.string text)

/-- On the way from one state to another the text is interned, and has this id. -/
def State.Interns (e : Executable) (text : String) (id : UInt16) (s s' : State σ) : Prop :=
  ∃ t t' : State σ, t.overlay = s.overlay ∧ MachineM.intern e text t = .ok id t' ∧
    s'.overlay = t'.overlay

namespace MachineM

theorem wp_printString (s : State σ) :
    wp (stepPlain e .printString) (fun _ s' => s.Prints e (.ok ()) s')
      (fun _ s' => s'.sink = s.sink ∨ ∃ reason, s.Prints e (.error reason) s') s := by
  rw [stepPlain, wp_bind, wp_popString, wp_pop]
  refine ⟨fun _ => .inl rfl, fun _ v hv => ?_⟩
  cases v with
  | int n => exact .inl rfl
  | double d => exact .inl rfl
  | string id =>
    dsimp only
    rw [wp_bind, wp_stringText]
    cases ht : State.stringText { s with stack := s.stack.pop } e id with
    | error trap => exact .inl rfl
    | ok text =>
      dsimp only
      rw [wp_print]
      split
      · rename_i hw
        exact ⟨id, text, hv, ht, hw⟩
      · rename_i reason _ hw
        exact .inr ⟨reason, id, text, hv, ht, hw⟩

/-- Below the top of the stack. -/
theorem getElem?_reverse_pop {stack : Array Value} (k : Nat) :
    stack.pop.toList.reverse[k]? = stack.toList.reverse[k + 1]? := by
  rw [Array.toList_pop, ← List.getElem?_tail, List.tail_reverse]

theorem wp_popArgs_hands (params : List Ty) (s : State σ) :
    wp (popArgs e params)
      (fun args s' => s.Hands e params.length args ∧ s'.host = s.host ∧ s'.overlay = s.overlay)
      (fun _ s' => s'.host = s.host) s := by
  induction params generalizing s with
  | nil => exact ⟨⟨rfl, fun k _ hk => absurd hk (Nat.not_lt_zero k)⟩, rfl, rfl⟩
  | cons ty params ih =>
    rw [popArgs, wp_bind, wp_pop]
    refine ⟨fun _ => rfl, fun _ v hv => ?_⟩
    rw [wp_bind, wp_toHost]
    cases hhost : State.toHost { s with stack := s.stack.pop } e v with
    | error trap => rfl
    | ok arg =>
      dsimp only
      rw [wp_bind]
      refine wp_mono (ih { s with stack := s.stack.pop }) (fun args s' h => ?_) fun _ _ h => h
      obtain ⟨⟨hlen, htexts⟩, hhost', ho⟩ := h
      refine ⟨⟨congrArg (· + 1) hlen, fun k id hk hat => ?_⟩, hhost', ho⟩
      cases k with
      | zero =>
        have htop : v = .string id := by
          rw [← List.head?_eq_getElem?, List.head?_reverse, Array.getLast?_toList, hv] at hat
          exact Option.some.inj hat
        subst htop
        rw [State.toHost] at hhost
        cases ht : State.stringText { s with stack := s.stack.pop } e id with
        | error trap =>
          rw [ht] at hhost
          cases hhost
        | ok text =>
          rw [ht] at hhost
          cases hhost
          exact ⟨text, ht, rfl⟩
      | succ k =>
        rw [← getElem?_reverse_pop] at hat
        exact htexts k id (Nat.lt_of_succ_lt_succ hk) hat

/-- A string from the host is interned. -/
theorem intern_of_ofHost (h : ofHost e (.string text) ty s = .ok x s') :
    ∃ id, x = .string id ∧ intern e text s = .ok id s' := by
  have hwp : wp (ofHost e (.string text) ty)
      (fun x s' => ∃ id, x = .string id ∧ intern e text s = .ok id s') (fun _ _ => True) s := by
    cases ty with
    | string =>
      simp only [ofHost, wp_bind, wp_pure]
      exact wp_of_cases (fun id _ hi => ⟨id, rfl, hi⟩) fun _ _ _ => trivial
    | _ => trivial
  exact wp_of_ok hwp h

/-- The host is called with the texts of its arguments, and a string that it returns is interned. -/
theorem wp_stepNative_hands {nid : UInt16} {n : NativeDecl} (hn : env.exe.native? nid = some n)
    (s : State σ) :
    wp (stepNative env nid)
      (fun _ s' => ∃ args result, s.Hands env.exe n.params.length args ∧
        env.bridge.call n.symbol args s.host = (some (.ok result), s'.host) ∧
        ∀ text, n.result.isValue = true → result = some (.string text) →
          ∃ id, s.Interns env.exe text id s' ∧ s'.stack.back? = some (.string id))
      (fun _ s' => s'.host = s.host ∨ ∃ args, s.Hands env.exe n.params.length args ∧
        s'.host = (env.bridge.call n.symbol args s.host).2) s := by
  have hkept : ∀ {m : MachineM σ Value} {t t' : State σ} {x : Value}, Keeps hostKept m →
      m t = .ok x t' → t'.host = t.host := fun hm h =>
    wp_of_ok (Q := fun _ t' => t'.host = _) (hm _) h
  rw [stepNative, hn]
  dsimp only
  rw [wp_bind]
  refine wp_mono (wp_popArgs_hands n.params s) (fun args t h => ?_) fun _ _ h => .inl h
  obtain ⟨hands, hhost, ho⟩ := h
  rw [wp_bind, wp_callHost, hhost]
  have hcalled : ∀ {t' : State σ} {answer : Option NativeResult},
      env.bridge.call n.symbol args s.host = (answer, t'.host) →
        t'.host = (env.bridge.call n.symbol args s.host).2 := fun hc => by rw [hc]
  split
  · exact .inr ⟨args, hands, hcalled ‹_›⟩
  · exact .inr ⟨args, hands, hcalled ‹_›⟩
  · rename_i result host hcall
    rw [wp_ite]
    refine ⟨fun hvalue => ?_, fun hvalue => ⟨args, result, hands, hcall, fun _ h => absurd h hvalue⟩⟩
    cases result with
    | none => exact .inr ⟨args, hands, hcalled hcall⟩
    | some v =>
      dsimp only
      rw [wp_bind]
      have hhost' : Keeps hostKept (ofHost env.exe v n.result : MachineM σ Value) := .ofHost _ _ _
      refine wp_of_cases (fun x t' hx => ?_) fun trap t' hx => ?_
      · refine ⟨args, some v, hands, by rw [hcall]; exact congrArg _ (hkept hhost' hx).symm, ?_⟩
        rintro text - ⟨⟩
        obtain ⟨id, rfl, hi⟩ := intern_of_ofHost hx
        exact ⟨id, ⟨{ t with host }, t', ho, hi, rfl⟩, Array.back?_push⟩
      · have := wp_of_error (E := fun _ t' => t'.host = _) (hhost' _) hx
        exact .inr ⟨args, hands, hcalled (by rw [hcall, this])⟩

end MachineM

/-- An instruction that goes on behind itself, with the count of instructions. -/
theorem RunM.wpRun_advance_next {i : Instr} (hi : c.routine.code.decodeAt c.ip = .ok i)
    {m : MachineM σ Unit} (hstep : MachineM.stepInstr env i = m >>= fun _ => pure (.next i.next))
    {Q E : State σ → Prop} (hlimit : E { s with steps := s.steps + 1 })
    (hm : wp m (fun _ s' => Q s') (fun _ s' => E s') { s with steps := s.steps + 1 }) :
    wpRun (advance env c) (fun c? s' => c? = some { c with ip := i.next } ∧ Q s') (fun _ s' => E s')
      s := by
  refine wp_advance ?_
  rw [MachineM.step, MachineM.wp_bind]
  refine MachineM.wp_ticked (fun _ => hlimit) (fun _ => hlimit) ?_
  rw [hi]
  dsimp only
  rw [hstep, MachineM.wp_bind]
  exact MachineM.wp_mono hm (fun _ _ h => ⟨rfl, h⟩) fun _ _ h => h

/-! ## Every moment -/

/-- **The code of a compiled program loads only its own string constants.** -/
theorem loadsOwn_of_visits {p : Program} {strict : Bool} (h : p.compile strict = .ok env.exe)
    (hv : Visits env vars sink host c s) : env.exe.LoadsOwn c := by
  obtain ⟨t, ht, hexe⟩ := Program.compile_traversed h
  obtain ⟨_, he, -⟩ := Program.compile_laidOut h
  obtain ⟨frame, -, hr⟩ := routine_of_visits he.ids hv
  intro i id hi hid
  have hjoint := (onJoints_of_visits he hv).cursor
  have hmem := Executable.mem_of_routine? hr
  rw [hexe] at hmem ⊢
  obtain ⟨_, f, t₀, t₁, m⟩ := ht.exists_made hmem
  have hany : ∀ name : String, (fun _ : String => true) name = true := fun _ => rfl
  have hrefers := m.code.refers (.inr hany) hjoint hi
  rw [hid] at hrefers
  obtain ⟨text, htext⟩ := hrefers
  exact ⟨text, m.continues.strings.get? htext⟩

namespace Moment

variable {m m' : Moment σ}

/-- Every string still has its text at the next moment. -/
theorem Next.texted (h : m.Next env m') (hs : m.state.Texted env.exe)
    (hloads : ∀ c s, m = .running c s → env.exe.LoadsOwn c) :
    m'.state.Texted env.exe ∧ Overlaid m.state.overlay m'.state.overlay := by
  cases h with
  | bind h =>
    obtain ⟨hs', ho, -⟩ := MachineM.wp_of_ok
      (Q := fun _ s' => s'.Texted env.exe ∧ Overlaid _ s'.overlay ∧ True)
      (MachineM.Retains.bindVars hs _) h
    exact ⟨hs', ho⟩
  | begin _ => exact ⟨hs, .refl _⟩
  | advance h => exact (advances_of_advance h).texted hs (hloads _ _ rfl)
  | stop h =>
    rw [ended_of_advance h]
    exact ⟨hs.congr ⟨hs.known.stack, hs.known.vars⟩ rfl, .refl _⟩

/-- Between two moments, one right after the other, a text is interned under this id. -/
structure Interns (env : Env σ) (m : Moment σ) (text : String) (id : UInt16) (m' : Moment σ) : Prop where
  next : m.Next env m'
  made : m.state.Interns env.exe text id m'.state

section Compiled

variable {p : Program} {strict : Bool} (h : p.compile strict = .ok env.exe)

include h

theorem Reached.loadsOwn (hm : Reached env vars sink host m) :
    ∀ c s, m = .running c s → env.exe.LoadsOwn c := by
  rintro c s rfl
  exact loadsOwn_of_visits h (reached_running.mp hm)

/-- **At every moment of a run every string has a text and every text one id.** -/
theorem Reached.texted (hm : Reached env vars sink host m) : m.state.Texted env.exe := by
  induction hm with
  | @enter r s _ _ henter =>
    obtain ⟨rfl, -⟩ := MachineM.wp_of_ok MachineM.wp_enter_entered henter
    exact ⟨interned_empty (strings_distinct_of_compile h),
      State.knownValues_entered (State.knownValues_initial env.exe sink host) r⟩
  | next hm hnext ih => exact (hnext.texted ih (hm.loadsOwn h)).1

/-- **Texts are kept to the end of the run.** -/
theorem Reached.textOf?_later (hm : Reached env vars sink host m) (hl : Later env m m')
    (ht : textOf? env.exe m.state.overlay id = some text) :
    textOf? env.exe m'.state.overlay id = some text := by
  induction hl with
  | refl => exact ht
  | tail hl hnext ih =>
    have hm' := hm.later hl
    exact (hnext.texted (hm'.texted h) (hm'.loadsOwn h)).2.textOf? ih

theorem Reached.textOf?_interned (hm : Reached env vars sink host m)
    (hi : m.Interns env text id m') : textOf? env.exe m'.state.overlay id = some text := by
  obtain ⟨t, t', ho, hi, ho'⟩ := hi.made
  obtain ⟨overlay, rfl, -, -, ht⟩ := interned_of_intern (ho ▸ (hm.texted h).interned) hi
  rwa [ho']

end Compiled

/-- A string of the host is interned, and the variable holds its id. -/
theorem Next.bound {var : HostVar} {left : List HostVar} {top : TopVar}
    (hnext : (binding (var :: left) s).Next env m') (htop : topVar? env.exe var.name = some top)
    (hvar : var.value = .string text) : ∃ id n, (binding (var :: left) s).Interns env text id m' ∧
      m'.state.slotIndex top.addr = .ok n ∧ m'.state.vars[n]? = some (some (.string id)) := by
  have hnext' := hnext
  cases hnext with
  | bind hbind =>
    obtain ⟨x, t, n, hx, hn, hvars, ho⟩ := bindVar_ok htop hbind
    rw [hvar] at hx
    obtain ⟨id, rfl, hi⟩ := MachineM.intern_of_ofHost hx
    have hframed : s.Framed _ := MachineM.wp_of_ok (Q := fun _ t => s.Framed t)
      (MachineM.Keeps.bindVars (R := framed env.bridge) trivial env.exe [var] s) hbind
    obtain ⟨-, -, -, hlt⟩ := State.exists_base hn
    refine ⟨id, n, ⟨hnext', s, t, rfl, hi, ho⟩, (hframed.slotIndex _).trans hn, ?_⟩
    rw [state, hvars, Array.getElem?_setIfInBounds_self_of_lt hlt]

end Moment

/-- A string is printed as its text. -/
theorem wpRun_advance_prints {i : Instr} (hi : c.routine.code.decodeAt c.ip = .ok i)
    (hop : i.op = .printString) : wpRun (advance env c)
      (fun c? s' => c? = some { c with ip := i.next } ∧ s.Prints env.exe (.ok ()) s')
      (fun _ s' => s'.sink = s.sink ∨ ∃ reason, s.Prints env.exe (.error reason) s') s := by
  have hkind := (Code.decodeAt_cases hi).2.1
  obtain ⟨offset, op, operand⟩ := i
  obtain rfl := hop
  cases operand <;> cases hkind
  exact wpRun_advance_next hi rfl (.inl rfl)
    (MachineM.wp_printString { s with steps := s.steps + 1 })

/-- The host is handed the texts of strings, and one that it returns is interned. -/
theorem wpRun_advance_calls {i : Instr} (hi : c.routine.code.decodeAt c.ip = .ok i) {nid : UInt16}
    {n : NativeDecl} (hnid : i.operand = .native nid) (hn : env.exe.native? nid = some n) :
    wpRun (advance env c)
      (fun c? s' => c? = some { c with ip := i.next } ∧ ∃ args result,
        s.Hands env.exe n.params.length args ∧
        env.bridge.call n.symbol args s.host = (some (.ok result), s'.host) ∧
        ∀ text, n.result.isValue = true → result = some (.string text) →
          ∃ id, s.Interns env.exe text id s' ∧ s'.stack.back? = some (.string id))
      (fun _ s' => s'.host = s.host ∨ ∃ args, s.Hands env.exe n.params.length args ∧
        s'.host = (env.bridge.call n.symbol args s.host).2) s := by
  obtain ⟨offset, op, operand⟩ := i
  obtain rfl := hnid
  exact wpRun_advance_next hi rfl (.inl rfl)
    (MachineM.wp_stepNative_hands hn { s with steps := s.steps + 1 })

/-- A string is read back as its text. -/
theorem readVar_of_texted (hs : s.Texted e) {var : HostVar} {top : TopVar} {n : Nat}
    (htop : topVar? e var.name = some top) (hn : s.slotIndex top.addr = .ok n)
    (hread : s.readVar n (.zero top.ty) = .string id) : ∃ text, s.stringText e id = .ok text ∧
      RunM.readVar e s var = .ok { var with value := .string text } := by
  have hknown := State.known_readVar hs.interned.pool.sound hs.known n top.ty
  rw [hread] at hknown
  obtain ⟨text, ht⟩ := State.stringText_of_known hknown
  refine ⟨text, ht, ?_⟩
  simp only [RunM.readVar, htop, hn, hread, State.toHost, ht, bind, Except.bind, Except.map]
  rfl

/-! ## The strings of compiled programs -/

namespace Moment

variable {m m' : Moment σ}

/-- The strings of a run at a moment of it, and what becomes of them. -/
structure KeepsTexts (env : Env σ) (m : Moment σ) : Prop where
  /-- There are no more strings than ids. -/
  room : env.exe.strings.size + m.state.overlay.size ≤ UInt16.size
  /-- A string constant of the program has its text. -/
  constant : ∀ {id text}, env.exe.strings.get? id = some text →
    m.state.stringText env.exe id = .ok text
  /-- What the program loads is such a constant. -/
  loaded : ∀ {c s i id}, m = .running c s → c.routine.code.decodeAt c.ip = .ok i →
    i.operand = .string id → ∃ text, env.exe.strings.get? id = some text
  /-- Every string on the operand stack and in the variables has a text. -/
  held : ∀ {id : UInt16},
    (.string id ∈ m.state.stack ∨ ∃ n : Nat, m.state.vars[n]? = some (some (.string id))) →
      ∃ text, m.state.stringText env.exe id = .ok text
  /-- One id has one text, and one text one id. -/
  unique : ∀ {id id' text text'}, m.state.stringText env.exe id = .ok text →
    m.state.stringText env.exe id' = .ok text' → (id = id' ↔ text = text')
  /-- A text stays until the run ends. -/
  stays : ∀ {m' id text}, Later env m m' → m.state.stringText env.exe id = .ok text →
    m'.state.stringText env.exe id = .ok text
  /-- The id under which a text is interned has that text until the run ends. -/
  interned : ∀ {m₁ m₂ text id}, m.Interns env text id m₁ → Later env m₁ m₂ →
    m₂.state.stringText env.exe id = .ok text
  /-- Equal texts are interned under one id and different texts under different ids, however much
  later. -/
  again : ∀ {m₁ m₂ m₃ text text' id id'}, m.Interns env text id m₁ → Later env m₁ m₂ →
    m₂.Interns env text' id' m₃ → (id = id' ↔ text = text')
  /-- The same holds of an interned text and a string constant. -/
  likeConstant : ∀ {m₁ text text' id id'}, m.Interns env text id m₁ →
    env.exe.strings.get? id' = some text' → (id = id' ↔ text = text')
  /-- Interning has one way to fail. -/
  failure : ∀ {s s' : State σ} {text trap}, s.overlay = m.state.overlay →
    MachineM.intern env.exe text s = .error trap s' → trap.message = "string pool exhausted"
  /-- It fails where the text is new and no id is left, and only there. -/
  fails : ∀ {s : State σ} {text}, s.overlay = m.state.overlay →
    ((∃ trap s', MachineM.intern env.exe text s = .error trap s') ↔
      (∀ id, m.state.stringText env.exe id ≠ .ok text) ∧
        env.exe.strings.size + m.state.overlay.size = UInt16.size)
  /-- A string that the host binds is interned, and the variable holds its id. -/
  bound : ∀ {var left s m' top text}, m = .binding (var :: left) s → m.Next env m' →
    topVar? env.exe var.name = some top → var.value = .string text →
      ∃ id n, m.Interns env text id m' ∧ m'.state.slotIndex top.addr = .ok n ∧
        m'.state.vars[n]? = some (some (.string id))
  /-- What an instruction prints is the text of the string on top of the stack. If it fails, nothing is
  printed, or the output has not taken all of the text. -/
  printed : ∀ {c s i}, m = .running c s → c.routine.code.decodeAt c.ip = .ok i →
    i.op = .printString → wpRun (advance env c)
      (fun c? s' => c? = some { c with ip := i.next } ∧ s.Prints env.exe (.ok ()) s')
      (fun _ s' => s'.sink = s.sink ∨ ∃ reason, s.Prints env.exe (.error reason) s') s
  /-- The host is called with the texts of the strings among its arguments, whatever comes of it. A
  string that it returns is interned, and its id is on top of the stack. -/
  called : ∀ {c s i nid n}, m = .running c s → c.routine.code.decodeAt c.ip = .ok i →
    i.operand = .native nid → env.exe.native? nid = some n →
      wpRun (advance env c)
        (fun c? s' => c? = some { c with ip := i.next } ∧ ∃ args result,
          s.Hands env.exe n.params.length args ∧
          env.bridge.call n.symbol args s.host = (some (.ok result), s'.host) ∧
          ∀ text, n.result.isValue = true → result = some (.string text) →
            ∃ id, m.Interns env text id (.running { c with ip := i.next } s') ∧
              s'.stack.back? = some (.string id))
        (fun _ s' => s'.host = s.host ∨ ∃ args, s.Hands env.exe n.params.length args ∧
          s'.host = (env.bridge.call n.symbol args s.host).2) s
  /-- A variable of the host that holds a string is read back as its text. -/
  readBack : ∀ {var top n id}, topVar? env.exe var.name = some top →
    m.state.slotIndex top.addr = .ok n → m.state.readVar n (.zero top.ty) = .string id →
      ∃ text, m.state.stringText env.exe id = .ok text ∧
        RunM.readVar env.exe m.state var = .ok { var with value := .string text }

end Moment

open Moment in
/-- **The strings of a run keep their texts**, from the first variable of the host that is written to the
moment at which they are read back. -/
theorem Program.compile_keepsTexts {p : Program} {strict : Bool} (h : p.compile strict = .ok env.exe)
    {m : Moment σ} (hm : Reached env vars sink host m) : m.KeepsTexts env where
  room := (hm.texted h).interned.room
  constant hid := Denotes.stringText (textOf?_of_get? hid)
  loaded hc hi hid := hm.loadsOwn h _ _ hc _ _ hi hid
  held := by
    rintro id (hmem | ⟨n, hn⟩)
    · exact State.stringText_of_known ((hm.texted h).known.stack _ hmem)
    · exact State.stringText_of_known ((hm.texted h).known.vars n _ hn)
  unique ht ht' := (hm.texted h).interned.id_iff (stringText_eq_ok.mp ht) (stringText_eq_ok.mp ht')
  stays hl ht := Denotes.stringText (hm.textOf?_later h hl (stringText_eq_ok.mp ht))
  interned hi hl :=
    Denotes.stringText ((hm.next hi.next).textOf?_later h hl (hm.textOf?_interned h hi))
  again {m₁ m₂ m₃ text text' id id'} hi hl hi' := by
    have hm₁ := hm.next hi.next
    have hm₂ := hm₁.later hl
    have hlast : Later env m₁ m₃ := hl.tail hi'.next
    exact ((hm₂.next hi'.next).texted h).interned.id_iff
      (hm₁.textOf?_later h hlast (hm.textOf?_interned h hi)) (hm₂.textOf?_interned h hi')
  likeConstant hi hid := ((hm.next hi.next).texted h).interned.id_iff (hm.textOf?_interned h hi)
    (textOf?_of_get? hid)
  failure {s s' text trap} ho hfail := by
    rw [((intern_error_iff (ho ▸ (hm.texted h).interned)).mp ⟨s', hfail⟩).1]
    rfl
  fails {s text} ho := by
    have hiff : ∀ trap, (∃ s', MachineM.intern env.exe text s = .error trap s') ↔ _ :=
      fun _ => intern_error_iff (ho ▸ (hm.texted h).interned)
    simp only [hiff, exists_eq_left, ne_eq, stringText_eq_ok, ho]
  bound := by
    rintro var left s m' top text rfl hnext htop hvar
    exact hnext.bound htop hvar
  printed _ hi hop := wpRun_advance_prints hi hop
  called := by
    rintro c s i nid n rfl hi hnid hn
    have hcalls := wpRun_advance_calls (s := s) hi hnid hn
    refine wpRun_of_cases (fun c? s' hadvance => ?_) fun fault s' hadvance =>
      wpRun_of_error hcalls hadvance
    obtain ⟨rfl, args, result, hands, hcall, hresult⟩ := wpRun_of_ok hcalls hadvance
    refine ⟨rfl, args, result, hands, hcall, fun text hvalue htext => ?_⟩
    obtain ⟨id, hi, htop⟩ := hresult text hvalue htext
    exact ⟨id, ⟨.advance hadvance, hi⟩, htop⟩
  readBack := readVar_of_texted (hm.texted h)

/-- Has the host make something of its variable `a`, and prints that. -/
def echoing : Program :=
  let p := (Program.empty.declareNative Program.root "echo" .string [⟨"s", .string⟩] "h").2
  let p := p.declareVar 1 ⟨"a", .string⟩
  p.defineTop [.store "a" .assign (.call "echo" [.load "a"]), .print [.load "a", .string "!"]]

/-- Answers a string with the same text twice. -/
def doubling : Bridge Unit where
  call _ args host :=
    match args with
    | [.string text] => (some (.ok (some (.string (text ++ text)))), host)
    | _ => (none, host)

/-- The variables that a run of `echoing` is given. -/
def greeting : List HostVar := [⟨"a", .string "hi"⟩]

theorem run_echoing : ∃ e out, echoing.compile true = .ok e ∧
    Env.run ⟨e, {}, doubling⟩ greeting {} () 20 = some out ∧ out.result = .ok () ∧
    topVar? e "a" = some ⟨"a", .string, ⟨1, 0⟩⟩ ∧ out.state.overlay = #["hi", "hihi"] ∧
    out.state.slotIndex ⟨1, 0⟩ = .ok 0 ∧ out.state.readVar 0 (.zero .string) = .string 3 ∧
    out.state.stringText e 3 = .ok "hihi" := by
  have hruns : ((echoing.compile true).toOption.bind fun e =>
      (Env.run ⟨e, {}, doubling⟩ greeting {} () 20).map fun out =>
        (out.result, topVar? e "a", out.state.overlay, out.state.slotIndex ⟨1, 0⟩,
          out.state.readVar 0 (.zero .string), out.state.stringText e 3)) =
      some (.ok (), some ⟨"a", .string, ⟨1, 0⟩⟩, #["hi", "hihi"], .ok 0, .string 3, .ok "hihi") := by
    cbv
  cases hc : echoing.compile true with
  | error d =>
    rw [hc] at hruns
    cases hruns
  | ok e =>
    rw [hc] at hruns
    obtain ⟨out, hout, hfacts⟩ := Option.map_eq_some_iff.mp hruns
    simp only [Prod.mk.injEq] at hfacts
    exact ⟨e, out, rfl, hout, hfacts⟩

open Moment in
/-- The host's text is interned before the run, and what is read back is what the host has made of it. -/
theorem echoing_keepsTexts : ∃ e id t m out, echoing.compile true = .ok e ∧
    Reached ⟨e, {}, doubling⟩ greeting {} () (.binding greeting t) ∧
    (binding greeting t).Interns ⟨e, {}, doubling⟩ "hi" id m ∧ m.state.stringText e id = .ok "hi" ∧
    Env.run ⟨e, {}, doubling⟩ greeting {} () 20 = some out ∧ out.state.overlay = #["hi", "hihi"] ∧
    RunM.readVar e out.state ⟨"a", .string "hi"⟩ = .ok ⟨"a", .string "hihi"⟩ := by
  obtain ⟨e, out, hc, hrun, hok, htop, ho, hn, hread, ht⟩ := run_echoing
  have hlast := reached_of_run hrun hok
  obtain ⟨c, s, hv, -⟩ := reached_ended.mp hlast
  obtain ⟨c₀, s₀, hstart⟩ := exists_start_of_visits hv
  obtain ⟨hentry, -, t, henter, hbind⟩ := begun_of_start hstart
  have hfirst : Reached ⟨e, {}, doubling⟩ greeting {} () (.binding greeting t) :=
    .enter (verify_of_visits hv) hentry henter
  have hkeeps : (binding greeting t).KeepsTexts ⟨e, {}, doubling⟩ :=
    Program.compile_keepsTexts hc hfirst
  have hkeeps' : (ended out.state).KeepsTexts ⟨e, {}, doubling⟩ :=
    Program.compile_keepsTexts hc hlast
  obtain ⟨id, -, hinterned, -, -⟩ := hkeeps.bound rfl (.bind hbind) htop rfl
  obtain ⟨text, ht', hback⟩ : ∃ text, out.state.stringText e 3 = .ok text ∧
      RunM.readVar e out.state ⟨"a", .string "hi"⟩ = .ok ⟨"a", .string text⟩ :=
    hkeeps'.readBack htop hn hread
  obtain rfl := Except.ok.inj (ht.symm.trans ht')
  exact ⟨e, id, t, _, out, hc, hfirst, hinterned, hkeeps.interned hinterned .refl, hrun, ho, hback⟩

end StackLang
