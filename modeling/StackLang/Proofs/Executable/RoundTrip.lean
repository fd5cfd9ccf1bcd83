import StackLang.Proofs.Compile.Owned
import StackLang.Proofs.Executable.Image

/-!
# Images of the executables there are

`ofImage_imageWith`: whether an executable has been compiled, put together by hand or loaded, what
its image is read as is the executable itself, if it verifies. All that the round trip needs of its
origin is a string pool made by the pool's own operations (`Available.pool`).
-/

namespace StackLang

open CompileM ProgramM

/-! ## The string constants of a compiled program -/

/-- A step that only interns texts. -/
structure KeepsPool {ε α : Type} (m : StateT Compilation (Except ε) α) : Prop where
  grown : ∀ {t : Compilation} {a : α} {t' : Compilation}, m t = .ok (a, t') →
    t.exe.strings.Grown t'.exe.strings

namespace KeepsPool

variable {ε α β : Type}

theorem pure (a : α) : KeepsPool (Pure.pure a : StateT Compilation (Except ε) α) :=
  ⟨fun h => by cases h; exact .refl⟩

theorem bind {m : StateT Compilation (Except ε) β} {f : β → StateT Compilation (Except ε) α}
    (hm : KeepsPool m) (hf : ∀ b, KeepsPool (f b)) : KeepsPool (m >>= f) := by
  refine ⟨fun {t a t'} h => ?_⟩
  change (m t >>= fun (b, t₁) => f b t₁) = _ at h
  cases hm' : m t with
  | error e => rw [hm'] at h; cases h
  | ok r =>
    rw [hm'] at h
    exact (hm.grown hm').trans ((hf r.1).grown h)

theorem forM {items : List β} {f : β → StateT Compilation (Except ε) PUnit}
    (hf : ∀ b, KeepsPool (f b)) : KeepsPool (items.forM f) := by
  induction items with
  | nil => exact pure _
  | cons b items ih => exact bind (hf b) fun _ => ih

theorem mapM {items : List β} {f : β → StateT Compilation (Except ε) α}
    (hf : ∀ b, KeepsPool (f b)) : KeepsPool (items.mapM f) := by
  induction items with
  | nil => exact pure _
  | cons b items ih =>
    rw [List.mapM_cons]
    exact bind (hf b) fun _ => bind ih fun _ => pure _

/-- A step inside a function that asks nothing of the scopes of blocks. -/
theorem of_owns {m : CompileM α} (h : Owns (fun _ => True) m) : KeepsPool m :=
  ⟨fun hm => (h.adds hm).strings⟩

theorem outside {m : CompileM α} (h : KeepsPool m) : KeepsPool (ProgramM.outside m) :=
  ⟨fun hm => h.grown (outside_ok hm)⟩

theorem inside {m : CompileM α} (h : KeepsPool m) (name : String) :
    KeepsPool (ProgramM.inside name m) :=
  ⟨fun hm => h.grown (inside_ok hm)⟩

end KeepsPool

theorem keepsPool_declareFunction (i : ScopeIndex) (number : UInt16) (f : FunctionDecl) :
    KeepsPool (declareFunction i number f) := by
  refine ⟨fun {t id t'} h => ?_⟩
  unfold declareFunction Executable.addRoutine at h
  dsimp only at h
  split at h
  · cases h
  · rename_i id' exe hadd
    cases h
    split at hadd <;> cases hadd
    exact .refl

theorem keepsPool_openFunction (c : FunctionContext) : KeepsPool (openFunction c) := by
  have hmodify : ∀ (owned : List UInt16) (scope : UInt16), KeepsPool (do
      modify fun t : Compilation =>
        { t with code := {}, types := [], owned, scope := c.function.body.scope }
      return scope : CompileM UInt16) :=
    fun _ _ => ⟨fun h => by cases h; exact .refl⟩
  unfold openFunction
  refine .bind (.of_owns (.numberScope _ _)) fun scope => ?_
  split
  · exact .bind (.of_owns (.numberScope _ _)) fun _ => hmodify _ _
  · exact hmodify _ _

theorem keepsPool_compileFunction (c : FunctionContext) (id : UInt16) :
    KeepsPool (compileFunction c id) := by
  have hsteps : Carries c (fun _ => True) fun _ _ m => Owns (fun _ => True) m := Owns.carries c _
  have hstores := hsteps.storeParams c.function.body.scope c.function.params
  have hbody := hsteps.compileStatements c.function.body.scope c.function.body.statements
    fun _ _ => trivial
  refine .bind (keepsPool_openFunction c) fun scope => .bind (.of_owns hstores) fun _ =>
    .bind (.of_owns hbody) fun _ => .bind (.of_owns (.write _)) fun _ => ⟨fun h => ?_⟩
  obtain ⟨code, -, rfl⟩ := closeFunction_ok h
  exact .refl

/-- Compiling a scope interns texts and does nothing else to the pool. -/
theorem keepsPool_compileScope (p : Program) (strict : Bool) (depth : Nat) (i : ScopeIndex) :
    KeepsPool (compileScope p strict depth i) := by
  induction depth generalizing i with
  | zero => exact ⟨fun h => by cases h⟩
  | succ depth ih =>
    unfold compileScope
    split
    · exact ⟨fun h => by cases h⟩
    · rename_i s _
      have hchildren : KeepsPool (s.children.forM fun child => compileScope p strict depth child) := by
        refine ⟨fun h => ?_⟩
        have hall : KeepsPool (s.children.toList.forM fun child => compileScope p strict depth child) :=
          .forM ih
        exact hall.grown (by rwa [← List.forM_toArray, Array.toArray_toList])
      refine .bind (.outside ⟨fun h => ?_⟩) fun number => .bind (.mapM fun f => ?_) fun ids =>
        .bind hchildren fun _ => .forM fun x => ?_
      · obtain ⟨_, _, rfl⟩ := onSymbols_ok h
        exact .refl
      · exact .outside (keepsPool_declareFunction _ _ _)
      · exact .inside (keepsPool_compileFunction _ _) _

theorem strings_grown_of_compile {p : Program} {strict : Bool} {e : Executable}
    (h : p.compile strict = .ok e) : StringPool.empty.Grown e.strings := by
  unfold Program.compile at h
  split at h
  · cases h
  · cases hc : (compileScope p strict (p.scopeCount + 1) Program.root).run {} with
    | error d => rw [hc] at h; cases h
    | ok r =>
      rw [hc] at h
      cases h
      exact (keepsPool_compileScope p strict _ _).grown hc

theorem strings_built_of_compile {p : Program} {strict : Bool} {e : Executable}
    (h : p.compile strict = .ok e) : e.strings.Built :=
  StringPool.built_empty.of_grown (strings_grown_of_compile h)

/-- The string constants of a compiled program are all different. -/
theorem strings_distinct_of_compile {p : Program} {strict : Bool} {e : Executable}
    (h : p.compile strict = .ok e) : e.strings.Distinct :=
  StringPool.distinct_empty.of_grown (strings_grown_of_compile h)

/-! ## The round trip -/

/-- Where an executable comes from: it has been compiled, put together from functions, host
functions and a string pool, or loaded from an image. -/
inductive Executable.Available : Executable → Prop
  | compiled {p : Program} {strict : Bool} {e : Executable} (h : p.compile strict = .ok e) :
      Available e
  | assembled {e : Executable} (h : e.strings.Built) : Available e
  | loaded {bytes : List UInt8} {e : Executable} (h : Executable.ofImage bytes = .ok e) :
      Available e

namespace Executable

theorem strings_built_of_ofImage {bytes : List UInt8} {e : Executable}
    (h : ofImage bytes = .ok e) : e.strings.Built := by
  unfold ofImage at h
  split at h
  · cases h
  · rename_i e' rest hread
    split at h
    · cases h
    · cases h
      obtain ⟨routines, _, -, hread⟩ := Wire.bind_ok hread
      obtain ⟨names, _, -, hread⟩ := Wire.bind_ok hread
      obtain ⟨strings, _, hpool, hread⟩ := Wire.bind_ok hread
      obtain ⟨natives, _, -, hread⟩ := Wire.bind_ok hread
      obtain ⟨scopeCount, _, -, hread⟩ := Wire.bind_ok hread
      obtain ⟨topVars, _, -, hread⟩ := Wire.bind_ok hread
      cases hread
      exact built_of_readPool hpool

theorem Available.pool {e : Executable} (h : e.Available) : e.strings.Built := by
  cases h with
  | compiled h => exact strings_built_of_compile h
  | assembled h => exact h
  | loaded h => exact strings_built_of_ofImage h

end Executable

/-- **An image is read back as the executable it was made of**, whatever follows it and in whatever
order the entries of the name map are written. -/
theorem ofImage_imageWith (e : Executable) (havailable : e.Available) (hverify : e.verify = .ok ())
    (hsize : e.Sized) (names : List (String × UInt16)) (hnames : names.Perm e.byName.toList)
    (t : List UInt8) : Executable.ofImage (e.imageWith names ++ t) = .ok e := by
  have hread : Executable.read.run (e.imageWith names ++ t) = .ok (e, t) :=
    Executable.reads_read havailable.pool hsize hnames t
  unfold Executable.ofImage
  rw [hread]
  dsimp only
  rw [hverify]

namespace ImageExample

/-- Stores a text to its variable and calls `twice` for nothing. -/
def top : Routine where
  id := 0
  name := "<top>"
  declaringScope := 0
  scope := 1
  params := []
  result := .void
  locals := 1
  layout := [⟨0, 0, 0⟩, ⟨1, 0, 1⟩]
  code := ⟨#[3, 1, 0, 37, 1, 0, 0, 0, 47, 1, 0, 31, 50]⟩

/-- Hands 1 to the host, in a frame that a count of one byte does not measure. -/
def twice : Routine where
  id := 1
  name := "twice"
  declaringScope := 0
  scope := 2
  params := []
  result := .double
  locals := 300
  layout := [⟨2, 0, 300⟩]
  code := ⟨#[7, 48, 0, 0, 49]⟩

def exe : Executable :=
  let e := (((({} : Executable).addRoutine top).2.addRoutine twice).2.intern "grüße").2
  { (e.addNative ⟨"twice", [.double], .double⟩).2 with
    scopeCount := 3
    topVars := [⟨"s", .string, ⟨1, 0⟩⟩] }

theorem names_exe : exe.byName.toList = [("<top>", 0), ("twice", 1)] := by cbv

theorem sized_exe : exe.Sized := by
  have hroutines : exe.routines.toList = [top, twice] := by cbv
  have hstrings : exe.strings.strings.toList = ["", "grüße"] := by cbv
  have hnatives : exe.natives.toList = [⟨"twice", [.double], .double⟩] := by cbv
  have hvars : exe.topVars = [⟨"s", .string, ⟨1, 0⟩⟩] := rfl
  have htop : top.Sized := by
    refine ⟨by decide, by decide, by decide, by decide, fun l hl => ?_, by decide⟩
    rcases List.mem_pair.mp hl with rfl | rfl <;> exact ⟨by decide, by decide⟩
  have htwice : twice.Sized := by
    refine ⟨by decide, by decide, by decide, by decide, fun l hl => ?_, by decide⟩
    obtain rfl := List.mem_singleton.mp hl
    exact ⟨by decide, by decide⟩
  exact {
    routines := by rw [hroutines]; decide
    routine := by rw [hroutines]; simpa using ⟨htop, htwice⟩
    names := by rw [names_exe]; decide
    name := by rw [names_exe]; decide
    strings := by rw [hstrings]; decide
    string := by rw [hstrings]; decide
    natives := by rw [hnatives]; decide
    native := by rw [hnatives]; simpa using ⟨by decide, by decide⟩
    scopeCount := by decide
    topVars := by rw [hvars]; decide
    topVar := by rw [hvars]; decide }

end ImageExample

/-- The names may be written in the other order, and anything may follow. -/
theorem imageExample_read_back :
    ImageExample.exe.Available ∧ ImageExample.exe.verify = .ok () ∧ ImageExample.exe.Sized ∧
      List.Perm [("twice", 1), ("<top>", 0)] ImageExample.exe.byName.toList ∧
      Executable.ofImage (ImageExample.exe.imageWith [("twice", 1), ("<top>", 0)] ++ [7, 200]) =
        .ok ImageExample.exe := by
  have havailable : ImageExample.exe.Available := by
    have hadd : ∀ (e : Executable) (r : Routine), (e.addRoutine r).2.strings = e.strings := by
      intro e r
      unfold Executable.addRoutine
      split <;> rfl
    have hpool : (((({} : Executable).addRoutine ImageExample.top).2.addRoutine
        ImageExample.twice).2.strings).Built := by
      rw [hadd, hadd]
      exact StringPool.built_empty
    refine .assembled ?_
    change (Executable.addNative _ _).2.strings.Built
    rw [Owns.strings_addNative]
    exact hpool.intern "grüße"
  have hverify : ImageExample.exe.verify = .ok () := by cbv
  have hnames : List.Perm [("twice", 1), ("<top>", 0)] ImageExample.exe.byName.toList := by
    rw [ImageExample.names_exe]
    exact .swap _ _ _
  exact ⟨havailable, hverify, ImageExample.sized_exe, hnames,
    ofImage_imageWith _ havailable hverify ImageExample.sized_exe _ hnames _⟩

end StackLang
