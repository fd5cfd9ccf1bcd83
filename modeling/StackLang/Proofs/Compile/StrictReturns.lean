import StackLang.Proofs.Compile.Resolution
import StackLang.Proofs.Compile.Returns

/-!
# Strict returns are a filter

With strict returns a program is compiled to the same, or it is refused because of a return that does
not fit (`Program.strictReturns_filter`). A body is compiled the same up to its first unfit return
(`compileStatements_checks`), so the walk through the scopes comes to the same functions with the same
tables, up to the first body that has one.
-/

namespace StackLang

namespace Filters

variable {ε α γ : Type}

/-- One element of a list after the other: what is refused is met in one of them, when those before it
have been taken. -/
theorem forM {refused : γ → Compilation → ε → Prop}
    {strict lax : γ → StateT Compilation (Except ε) PUnit} {l : List γ}
    (h : ∀ a ∈ l, Filters (refused a) (strict a) (lax a)) :
    Filters (fun t e => ∃ before a after t', l = before ++ a :: after ∧
      before.forM lax t = .ok (⟨⟩, t') ∧ refused a t' e) (l.forM strict) (l.forM lax) := by
  induction l with
  | nil =>
    refine (same (pure PUnit.unit : StateT Compilation (Except ε) PUnit)).congr fun _ e => ?_
    simp
  | cons a l ih =>
    refine ((h a List.mem_cons_self).bind fun _ =>
      ih fun b hb => h b (List.mem_cons_of_mem _ hb)).congr fun {t x} hok e => ?_
    constructor
    · rintro (he | ⟨u, t₁, hfirst, before, b, after, t₂, rfl, hbefore, he⟩)
      · exact ⟨[], a, l, t, rfl, rfl, he⟩
      · exact ⟨a :: before, b, after, t₂, rfl, (bind_of_ok hfirst).trans hbefore, he⟩
    · rintro ⟨before, b, after, t₂, hl, hbefore, he⟩
      cases before with
      | nil =>
        cases hl
        cases hbefore
        exact .inl he
      | cons a' before =>
        obtain ⟨rfl, rfl⟩ := List.cons.inj hl
        obtain ⟨u, t₁, hfirst, hrest⟩ := exists_of_bind hbefore
        exact .inr ⟨u, t₁, hfirst, before, b, after, t₂, rfl, hrest, he⟩

/-- Errors inside a function carry its name. -/
theorem inside {refused : Compilation → Cause → Prop} {strict lax : CompileM α} (name : String)
    (h : Filters refused strict lax) :
    Filters (fun t d => ∃ e, refused t e ∧ d = ⟨some name, e⟩) (ProgramM.inside name strict)
      (ProgramM.inside name lax) where
  sound {t x} hok := by
    unfold ProgramM.inside at hok ⊢
    cases hs : strict t with
    | error e => rw [hs] at hok; cases hok
    | ok y =>
      rw [hs] at hok
      rw [h.sound hs]
      exact hok
  exact {t x} hok := by
    unfold ProgramM.inside at hok ⊢
    cases hl : lax t with
    | error e => rw [hl] at hok; cases hok
    | ok y =>
      rw [hl] at hok
      rcases h.exact hl with ⟨hsame, hnone⟩ | ⟨e, he, herror⟩
      · rw [hsame]
        refine .inl ⟨hok, ?_⟩
        rintro d ⟨e, he, -⟩
        exact hnone e he
      · rw [herror]
        exact .inr ⟨_, ⟨e, he, rfl⟩, rfl⟩

end Filters

namespace ProgramM

open CompileM

/-- The returns in the body of a function that is compiled from a state on. -/
def returns (c : FunctionContext) : Compilation → List ReturnSite :=
  (openFunction c).listFrom fun _ =>
    (storeParams c.source c.function.params).listFrom fun _ =>
      Node.allReturns c c.function.body.statements

theorem compileFunction_checks (p : Program) (f : FunctionDecl) (id : UInt16) :
    Checks ⟨p, f, false⟩ (Node.allReturnValues f.body.statements) (returns ⟨p, f, false⟩)
      (compileFunction ⟨p, f, true⟩ id) (compileFunction ⟨p, f, false⟩ id) :=
  .next (openFunction ⟨p, f, false⟩) fun _ => .next (storeParams p f.params) fun _ =>
    (compileStatements_checks p f f.body.statements).last _

/-- Going through the scope `i` from `t` comes to a function with an unfit return, whose type is
`found`. -/
def ComesToUnfit (p : Program) (depth : Nat) (i : ScopeIndex) (t : Compilation) (f : FunctionDecl)
    (found : Ty) : Prop :=
  ∃ j id t', ComesTo p false depth i t j f id t' ∧
    ∃ r ∈ returns ⟨p, f, false⟩ t', Unfit ⟨p, f, false⟩ r found

/-- **Strict returns stop the walk through the scopes at the first unfit return.** -/
theorem compileScope_filters (p : Program) (depth : Nat) (i : ScopeIndex) :
    Filters (fun t d => ∃ f found, ComesToUnfit p depth i t f found ∧
      d = ⟨some f.name, .returnTypeMismatch f.result found⟩) (compileScope p true depth i)
      (compileScope p false depth i) := by
  induction depth generalizing i with
  | zero => exact (Filters.same _).congr fun hok => by cases hok
  | succ depth ih =>
    unfold compileScope
    cases hs : p.scope? i with
    | none => exact (Filters.same _).congr fun hok => by cases hok
    | some s =>
      dsimp only
      simp only [forM_children]
      refine (Filters.bind (.same _) fun number => .bind (.same _) fun ids =>
        .bind (.forM fun c _ => ih c) fun _ => .forM fun x _ =>
          (compileFunction_checks p x.1 x.2).filters.inside x.1.name).congr fun {t x} hok d => ?_
      constructor
      · rintro (h | ⟨number, t₁, henter, h | ⟨ids, t₂, hdeclare, hrest⟩⟩)
        · cases h
        · cases h
        have hentered : Entered p i s ids t t₂ := ⟨hs, number, t₁, henter, hdeclare⟩
        rcases hrest with ⟨before, c, after, t₃, hchildren, hbefore, f, found, hunfit, rfl⟩ |
          ⟨_, t₃, hchildren, before, ⟨f, id⟩, after, t₄, hwork, hbefore, _, ⟨r, hr, found, hunfit,
            rfl⟩, rfl⟩
        · obtain ⟨j, id, t', hcomes, r, hr, hunfit⟩ := hunfit
          exact ⟨f, found, ⟨j, id, t', .inside hentered hchildren hbefore hcomes, r, hr, hunfit⟩, rfl⟩
        · exact ⟨f, found, ⟨i, id, t₄, .own hentered hchildren hwork hbefore, r, hr, hunfit⟩, rfl⟩
      · rintro ⟨f, found, ⟨j, id, t', hcomes, r, hr, hunfit⟩, rfl⟩
        cases hcomes with
        | inside henter hchildren hbefore hcomes =>
          obtain ⟨hs', number, t₁, hscope, hdeclare⟩ := henter
          obtain rfl := Option.some.inj (hs.symm.trans hs')
          exact .inr ⟨number, t₁, hscope, .inr ⟨_, _, hdeclare, .inl ⟨_, _, _, _, hchildren, hbefore,
            f, found, ⟨j, id, t', hcomes, r, hr, hunfit⟩, rfl⟩⟩⟩
        | own henter hchildren hwork hbefore =>
          obtain ⟨hs', number, t₁, hscope, hdeclare⟩ := henter
          obtain rfl := Option.some.inj (hs.symm.trans hs')
          exact .inr ⟨number, t₁, hscope, .inr ⟨_, _, hdeclare, .inr ⟨_, _, hchildren, _, (f, id), _,
            _, hwork, hbefore, _, ⟨r, hr, found, hunfit, rfl⟩, rfl⟩⟩⟩

/-- If the walk succeeds, every function that it comes to is compiled. -/
theorem ComesTo.compiled {p : Program} {strict : Bool} {depth : Nat} {i j : ScopeIndex}
    {f : FunctionDecl} {id : UInt16} {t t' T : Compilation} {u : PUnit}
    (h : ComesTo p strict depth i t j f id t')
    (hT : compileScope p strict depth i t = .ok (u, T)) :
    ∃ x, compileFunction ⟨p, f, strict⟩ id t' = .ok x := by
  induction h generalizing u T with
  | inside henter hchildren hbefore h ih =>
    rw [henter.compileScope_eq] at hT
    obtain ⟨_, _, hall, -⟩ := bind_ok hT
    obtain ⟨_, _, hchild, -⟩ := bind_ok (forM_append_ok (hchildren ▸ hall) hbefore)
    exact ih hchild
  | own henter hchildren hwork hbefore =>
    rw [henter.compileScope_eq, bind_of_ok hchildren, hwork] at hT
    obtain ⟨_, _, hfunction, -⟩ := bind_ok (forM_append_ok hT hbefore)
    exact ⟨_, inside_ok hfunction⟩

end ProgramM

open ProgramM

namespace Program

/-- What a walk through a program that declares `<top>` makes of it. -/
theorem compile_eq {p : Program} (htop : p.top?.isNone = false) (strict : Bool) :
    p.compile strict = (compileScope p strict (p.scopeCount + 1) root {}).map fun r =>
      { r.2.exe with scopeCount := r.2.symbols.scopeCount, topVars := p.topVars r.2.symbols } := by
  unfold compile
  simp only [htop, Bool.false_eq_true, if_false, StateT.run]
  cases compileScope p strict (p.scopeCount + 1) root {} with
  | error d => rfl
  | ok r => rfl

theorem top_of_compile {p : Program} {strict : Bool} {e : Executable} (h : p.compile strict = .ok e) :
    p.top?.isNone = false := by
  cases htop : p.top?.isNone with
  | false => rfl
  | true =>
    unfold compile at h
    simp only [htop, if_true] at h
    cases h

/-- A body that is compiled with the program has a return that does not fit: it has no value where
`f` declares one, or a value of the type `found`, which cannot become the declared one. -/
def HasUnfit (p : Program) (f : FunctionDecl) (found : Ty) : Prop :=
  ComesToUnfit p (p.scopeCount + 1) root {} f found

/-- **Strict returns are a filter.** A program that compiles with them compiles without them, to the
same. One that compiles without them compiles with them to the same, if every return fits in every body
that is compiled; otherwise it is refused for a return that does not. All returns of a body count, those
that are never reached included. -/
theorem strictReturns_filter (p : Program) :
    (∀ e, p.compile true = .ok e → p.compile false = .ok e) ∧
      ∀ e, p.compile false = .ok e →
        ((p.compile true = .ok e ∧ ∀ f found, ¬ p.HasUnfit f found) ∨
          ∃ f found, p.HasUnfit f found ∧
            p.compile true = .error ⟨some f.name, .returnTypeMismatch f.result found⟩) ∧
        ∀ i f id t, ComesTo p false (p.scopeCount + 1) root {} i f id t →
          (returns ⟨p, f, false⟩ t).map (·.value?) = Node.allReturnValues f.body.statements := by
  have hfilters := compileScope_filters p (p.scopeCount + 1) root
  refine ⟨fun e he => ?_, fun e he => ?_⟩
  · obtain ⟨t, hscopes, rfl⟩ := compileScope_of_compile he
    rw [compile_eq (top_of_compile he), hfilters.sound hscopes]
    rfl
  · obtain ⟨t, hscopes, rfl⟩ := compileScope_of_compile he
    rw [compile_eq (top_of_compile he)]
    refine ⟨?_, fun i f id t hcomes => ?_⟩
    · rcases hfilters.exact hscopes with ⟨hsame, hnone⟩ | ⟨d, ⟨f, found, hunfit, rfl⟩, herror⟩
      · exact .inl ⟨by rw [hsame]; rfl, fun f found h => hnone _ ⟨f, found, h, rfl⟩⟩
      · exact .inr ⟨f, found, hunfit, by rw [herror]; rfl⟩
    · obtain ⟨x, hx⟩ := hcomes.compiled hscopes
      exact (compileFunction_checks p f id).all hx

/-- An int function whose second return, which is never reached, has a string. -/
def lateReturn : Program :=
  let p := (Program.empty.declareFunction Program.root "f" .int []).2
  let p := p.define 2 [.ret (some (.int 1)), .ret (some (.string "late"))]
  p.defineTop [.print [.call "f" []]]

/-- It compiles, but not with strict returns. -/
theorem lateReturn_refused : ∃ e, lateReturn.compile false = .ok e ∧
    lateReturn.compile true = .error ⟨some "f", .returnTypeMismatch .int .string⟩ ∧
    ∃ f, lateReturn.HasUnfit f .string ∧ f.name = "f" ∧ f.result = .int := by
  have hlax : (lateReturn.compile false).toOption.isSome = true := by cbv
  have hstrict : lateReturn.compile true =
      .error ⟨some "f", .returnTypeMismatch .int .string⟩ := by cbv
  cases he : lateReturn.compile false with
  | error d =>
    rw [he] at hlax
    cases hlax
  | ok e =>
    refine ⟨e, rfl, hstrict, ?_⟩
    rcases ((strictReturns_filter lateReturn).2 e he).1 with ⟨hok, -⟩ | ⟨f, found, hunfit, herror⟩
    · rw [hstrict] at hok
      cases hok
    · obtain ⟨hname, hcause⟩ := Diagnostic.mk.inj (Except.error.inj (hstrict.symm.trans herror))
      obtain ⟨hresult, rfl⟩ := Cause.returnTypeMismatch.inj hcause
      exact ⟨f, hunfit, (Option.some.inj hname).symm, hresult.symm⟩

end Program

end StackLang
