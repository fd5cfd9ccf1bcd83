import StackLang.Proofs.Compile.Made

/-!
# Statements leave the stack as high as it was

`Path e c a b o k` says that a path through the code from `a` to `b` comes to the offset `o` with `k`
more operands than there were at `a`, by the effects that verification goes by; `Neutral e c a b`, that
no path takes what was there before, and that at `b` all of them have taken what they have left.
`statements_neutral`: so it is with the code of every statement, whatever types its names are declared
with, as long as these are backed by values where the code takes values for them. A statement of type
`<invalid>` is dropped though it has left nothing (`invalidCall_not_neutral`).
-/

namespace StackLang

open Executable

/-! ## Paths -/

/-- A path from `a`, through the code up to `b`, comes to an offset with so many more operands than
there were at `a`. -/
inductive Executable.Path (e : Executable) (c : Code) (a b : Nat) : Nat → Int → Prop
  | start : Path e c a b a 0
  | step {o o' : Nat} {k : Int} {i : Instr} {effect : Effect} (h : Path e c a b o k) (hlt : o < b)
      (hi : c.decodeAt o = .ok i) (heffect : e.effectOf i.op i.operand = .ok effect)
      (hleads : Leads i o') : Path e c a b o' (k - effect.pops + effect.pushes)

/-- The code from `a` to `b` leaves the stack as high as it was, and takes nothing that was there. -/
structure Executable.Neutral (e : Executable) (c : Code) (a b : Nat) : Prop where
  /-- No path leads out, but to the end. -/
  stays : ∀ {o k}, Path e c a b o k → a ≤ o ∧ o ≤ b
  /-- Every instruction finds what it takes among what the path has left. -/
  finds : ∀ {o k}, Path e c a b o k → o < b → ∃ i effect, c.decodeAt o = .ok i ∧
    e.effectOf i.op i.operand = .ok effect ∧ (effect.pops : Int) ≤ k
  level : ∀ {k}, Path e c a b b k → k = 0

theorem neutral_of_balanced {e : Executable} {c : Code} {a b : Nat}
    (h : Balanced e c a 0 b (exitAt b 0)) : e.Neutral c a b := by
  obtain ⟨heights, ⟨⟨line, hline, hin⟩, hpass⟩, hopen⟩ := h
  have hwithin : ∀ {o k}, heights o = some k → a ≤ o ∧ o < b := fun ho => hline.bounds (hin ho)
  have hat : ∀ {o k}, Path e c a b o k →
      (∃ n : Nat, heights o = some n ∧ k = n) ∨ o = b ∧ k = 0 := by
    intro o k hpath
    induction hpath with
    | start =>
      rcases hopen with hopen | ⟨rfl, -⟩
      · exact .inl ⟨0, hopen, rfl⟩
      · exact .inr ⟨rfl, rfl⟩
    | @step o o' k i effect _ hlt hi heffect hleads ih =>
      rcases ih with ⟨n, hn, rfl⟩ | ⟨rfl, -⟩
      · obtain ⟨i', after, ⟨hi', effect', heffect', hpops, rfl⟩, hnext⟩ := hpass hn
        obtain rfl := Except.ok.inj (hi.symm.trans hi')
        obtain rfl := Except.ok.inj (heffect.symm.trans heffect')
        rcases hnext o' hleads with ho' | ⟨rfl, hzero⟩
        · exact .inl ⟨_, ho', by omega⟩
        · exact .inr ⟨rfl, by omega⟩
      · exact absurd hlt (Nat.lt_irrefl _)
  refine ⟨fun hpath => ?_, fun hpath hlt => ?_, fun hpath => ?_⟩
  · rcases hat hpath with ⟨n, hn, -⟩ | ⟨rfl, -⟩
    · have := hwithin hn
      omega
    · exact ⟨hline.le, Nat.le_refl _⟩
  · rcases hat hpath with ⟨n, hn, rfl⟩ | ⟨rfl, -⟩
    · obtain ⟨i, after, ⟨hi, effect, heffect, hpops, -⟩, -⟩ := hpass hn
      exact ⟨i, effect, hi, heffect, by omega⟩
    · exact absurd hlt (Nat.lt_irrefl _)
  · rcases hat hpath with ⟨n, hn, -⟩ | ⟨-, hk⟩
    · exact absurd (hwithin hn).2 (Nat.lt_irrefl _)
    · exact hk

/-! ## Programs -/

/-- **Statements are neutral.** Every node in statement position in a function of a compiled program
has its code, and wherever code of a node in statement position stands it leaves the stack as high as
it was and takes nothing that was there, if the types of the node are backed by values: the functions
that it calls have no parameters of type `void` or `<invalid>`, it hands no variable of such a type to
the host, and neither the node nor a statement inside of it is a variable or a call of type
`<invalid>`. -/
theorem statements_neutral {p : Program} {strict : Bool} {e : Executable}
    (h : p.compile strict = .ok e) {k : Nat} {x : ScopeIndex × FunctionDecl}
    (hx : (p.functionsFrom (p.scopeCount + 1) Program.root)[k]? = some x) :
    ∃ r t t₀ t₁, e.routines[k]? = some r ∧ Made p strict t x.1 x.2 r t₀ t₁ ∧
      (Site.of ⟨p, x.2, strict⟩ t₀ t₁).HasPositions x.2.body.positions ∧
      ∀ sc n a b, Emitted (Site.of ⟨p, x.2, strict⟩ t₀ t₁) sc (.stmt n) a [] b →
        (Phrase.stmt n).Backed (Site.of ⟨p, x.2, strict⟩ t₀ t₁) sc → e.Neutral r.code a b := by
  obtain ⟨t, ht, rfl⟩ := Program.compile_traversed h
  obtain ⟨r, t₀, t₁, hr, m⟩ := ht.made hx
  refine ⟨r, t, t₀, t₁, hr, m, ?_, fun sc n a b hn hbacked => ?_⟩
  · obtain ⟨-, m₁, m₂, -, -, -, hbody, -⟩ := m.code.emitted
    have hpositions := hbody.hasInner
    generalize x.2.body = body at hpositions ⊢
    cases body
    exact hpositions
  · have htabled : (Site.of ⟨p, x.2, strict⟩ t₀ t₁).Tabled _ :=
      m.indexed.tabled m.code.grows m.continues
    have hraises := raises_of_emitted htabled hn hbacked 0
    rw [m.code.code_eq] at hraises
    exact neutral_of_balanced hraises

/-- The four statements of `<top>` in `doublingProgram`, the one in its loop included. -/
theorem doublingProgram_neutral : ∃ e f r, ∃ spans : List (Nat × Nat),
    doublingProgram.compile true = .ok e ∧
    (doublingProgram.functionsFrom (doublingProgram.scopeCount + 1) Program.root)[0]? = some (0, f) ∧
    e.routines[0]? = some r ∧ f.body.positions.length = 4 ∧
    List.Forall₂ (fun _ span => e.Neutral r.code span.1 span.2) f.body.positions spans := by
  obtain ⟨e, hc⟩ := doublingProgram_compiles
  have htop : ((doublingProgram.functionsFrom (doublingProgram.scopeCount + 1) Program.root)[0]?).map
      (fun x => (x.1, x.2.body.positions.length)) = some (0, 4) := by cbv
  obtain ⟨⟨i, f⟩, hx, hfacts⟩ := Option.map_eq_some_iff.mp htop
  obtain ⟨rfl, hlength⟩ := Prod.mk.inj hfacts
  obtain ⟨r, t, t₀, t₁, hr, m, ⟨spans, hspans⟩, hneutral⟩ := statements_neutral hc hx
  have hbacked : (Site.of ⟨doublingProgram, f, true⟩ t₀ t₁).Backed :=
    m.indexed.backed doublingProgram_built.linked.1 doublingProgram_typed
  exact ⟨e, f, r, spans, hc, hx, hr, hlength,
    hspans.imp fun x span h => hneutral _ _ _ _ h (hbacked.phrase _ _)⟩

/-- Its `<top>` calls a function of type `<invalid>`. -/
def invalidCallProgram : Program :=
  let p := (Program.empty.declareFunction Program.root "f" .invalid []).2
  p.defineTop [.call "f" []]

/-- `<top>` of the program. -/
def invalidCallTop : FunctionDecl where
  name := "<top>"
  result := .void
  params := []
  body := .mk 1 [.call "f" []]

/-- The code of `<top>`: the call leaves nothing, and a value is dropped. -/
theorem invalidCallProgram_code : ∃ e r, invalidCallProgram.compile true = .ok e ∧
    e.routines[0]? = some r ∧ r.code.size = 5 ∧
    r.code.decodeAt 0 = .ok ⟨0, .call, .function 1⟩ ∧ e.effectOf .call (.function 1) = .ok ⟨0, 0⟩ ∧
    r.code.decodeAt 3 = .ok ⟨3, .pop, .none⟩ := by
  have hfacts : ((invalidCallProgram.compile true).toOption.bind fun e =>
      e.routines[0]?.map fun r => (r.code.size, r.code.decodeAt 0,
        e.effectOf .call (.function 1), r.code.decodeAt 3)) =
      some (5, .ok ⟨0, .call, .function 1⟩, .ok ⟨0, 0⟩, .ok ⟨3, .pop, .none⟩) := by cbv
  cases hc : invalidCallProgram.compile true with
  | error e =>
    rw [hc] at hfacts
    cases hfacts
  | ok e =>
    rw [hc] at hfacts
    obtain ⟨r, hr, hfacts⟩ := Option.map_eq_some_iff.mp hfacts
    simp only [Prod.mk.injEq] at hfacts
    exact ⟨e, r, rfl, hr, hfacts⟩

/-- **A statement of type `<invalid>` is not neutral**: a value is dropped that it has not left. -/
theorem invalidCall_not_neutral : ¬ ∀ (p : Program) (strict : Bool) (e : Executable) (k : Nat)
    (x : ScopeIndex × FunctionDecl), p.compile strict = .ok e →
      (p.functionsFrom (p.scopeCount + 1) Program.root)[k]? = some x →
        ∃ r t t₀ t₁, e.routines[k]? = some r ∧ Made p strict t x.1 x.2 r t₀ t₁ ∧
          ∀ sc n a b, Emitted (Site.of ⟨p, x.2, strict⟩ t₀ t₁) sc (.stmt n) a [] b →
            e.Neutral r.code a b := by
  intro h
  obtain ⟨e, r, hc, hr, hsize, hcall, heffect, hpop⟩ := invalidCallProgram_code
  have hx : (invalidCallProgram.functionsFrom (invalidCallProgram.scopeCount + 1)
      Program.root)[0]? = some (0, invalidCallTop) := by cbv
  obtain ⟨r', t, t₀, t₁, hr', m, hneutral⟩ := h _ true e 0 _ hc hx
  obtain rfl := Option.some.inj (hr.symm.trans hr')
  obtain ⟨infos, m₁, m₂, hcount, -, hparams, hbody, hlast⟩ := m.code.emitted
  obtain rfl := List.eq_nil_of_length_eq_zero hcount
  cases hparams
  cases hbody with
  | stmtsCons hn hrest =>
    cases hrest
    -- Behind the statement stands the stop alone.
    have hend : m₂ + 1 = 5 := by
      rw [← hsize, ← m.code.code_eq]
      exact hlast.2
    obtain rfl : m₂ = 4 := by omega
    have hstmt := hneutral _ _ _ _ hn
    have hpath : Path e r.code 0 4 3 0 :=
      .step .start (by decide) hcall heffect (Leads.next rfl)
    obtain ⟨i, effect, hi, heffect', hpops⟩ := hstmt.finds hpath (by decide)
    obtain rfl := Except.ok.inj (hpop.symm.trans hi)
    obtain rfl : (⟨1, 0⟩ : Effect) = effect := Except.ok.inj heffect'
    exact absurd hpops (by decide)

end StackLang
