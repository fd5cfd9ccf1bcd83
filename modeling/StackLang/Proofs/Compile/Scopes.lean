import StackLang.Proofs.Compile.Functions
import StackLang.Proofs.Executable.Routines
import StackLang.Proofs.Tree.Scopes

/-!
# From scope to scope

`compileScope_ok`: going through the scopes keeps what has been compiled before, gives every
function its id before anything inside its scope is compiled, and leaves no function without code.
`Compiled` is what is known of a function afterwards: where its compilation began, `Seen` scopes
around and inside it, and that the tables have only grown since (`Compilation.Continues`).
-/

namespace StackLang

/-- `r'` is `r`, perhaps with its code filled in. -/
structure Routine.SameSignature (r r' : Routine) : Prop where
  id : r'.id = r.id
  name : r'.name = r.name
  declaringScope : r'.declaringScope = r.declaringScope
  params : r'.params = r.params
  result : r'.result = r.result

/-- `r` has the signature of a declared function. -/
structure Routine.Declares (r : Routine) (f : FunctionDecl) : Prop where
  name : r.name = f.name
  params : r.params = f.params.map (·.ty)
  result : r.result = f.result

theorem Routine.SameSignature.refl (r : Routine) : r.SameSignature r := ⟨rfl, rfl, rfl, rfl, rfl⟩

theorem Routine.SameSignature.trans {r r' r'' : Routine} (h : r.SameSignature r')
    (h' : r'.SameSignature r'') : r.SameSignature r'' :=
  ⟨h'.id.trans h.id, h'.name.trans h.name, h'.declaringScope.trans h.declaringScope,
    h'.params.trans h.params, h'.result.trans h.result⟩

theorem Routine.Declares.same {r r' : Routine} {f : FunctionDecl} (h : r.Declares f)
    (hs : r.SameSignature r') : r'.Declares f :=
  ⟨hs.name.trans h.name, hs.params.trans h.params, hs.result.trans h.result⟩

theorem NameTable.declared?_declare {α : Type} (t : NameTable α) (scope i : ScopeIndex)
    (name n : String) (a : α) :
    (t.declare scope name a).declared? i n =
      if scope = i ∧ name = n then (t.declared? i n).or (some a) else t.declared? i n := by
  unfold declare declared?
  rw [Std.TreeMap.getElem?_alter]
  by_cases hi : scope = i
  · subst hi
    simp only [Std.ReflCmp.compare_self, if_true, Option.bind_some, true_and]
    rw [Std.TreeMap.getElem?_insertIfNew]
    by_cases hn : name = n
    · subst hn
      cases ht : t[scope]? with
      | none => simp
      | some names =>
        cases hm : names[name]? with
        | none =>
          have hnot : name ∉ names := fun h => by
            have := Std.TreeMap.isSome_getElem?_iff_mem.mpr h
            rw [hm] at this
            cases this
          simp [hnot]
        | some b =>
          have hmem : name ∈ names := Std.TreeMap.isSome_getElem?_iff_mem.mp (by rw [hm]; rfl)
          simp [hmem]
    · cases ht : t[scope]? <;> simp [hn]
  · simp [hi]

namespace Compilation

variable {p : Program} {t t' t'' : Compilation}

/-- `t'` is `t` after more of the program has been compiled. -/
structure Continues (p : Program) (t t' : Compilation) : Prop where
  before : t.Tables p
  after : t'.Tables p
  strings : t.exe.strings.Extends t'.exe.strings
  natives : ∀ {id n}, t.exe.native? id = some n → t'.exe.native? id = some n
  symbols : t.symbols.Extends p t'.symbols
  routines : ∀ {id r}, t.exe.routine? id = some r →
    ∃ r', t'.exe.routine? id = some r' ∧ r.SameSignature r'
  byName : ∀ {name : String} {id : UInt16}, t.exe.byName[name]? = some id → t'.exe.byName[name]? = some id
  functions : ∀ {i name id}, t.symbols.functions.declared? i name = some id →
    t'.symbols.functions.declared? i name = some id

theorem Continues.refl (h : t.Tables p) : t.Continues p t :=
  ⟨h, h, .refl _, id, .refl h.symbols, fun hr => ⟨_, hr, .refl _⟩, id, id⟩

theorem Continues.trans (h : t.Continues p t') (h' : t'.Continues p t'') : t.Continues p t'' where
  before := h.before
  after := h'.after
  strings := h.strings.trans h'.strings
  natives hn := h'.natives (h.natives hn)
  symbols := h.symbols.trans h'.symbols
  routines hr := by
    obtain ⟨r', hr', h₁⟩ := h.routines hr
    obtain ⟨r'', hr'', h₂⟩ := h'.routines hr'
    exact ⟨r'', hr'', h₁.trans h₂⟩
  byName hn := h'.byName (h.byName hn)
  functions hf := h'.functions (h.functions hf)

theorem Grows.continues (h : t.Grows p t') : t.Continues p t' where
  before := ⟨h.before.strings, h.before.symbols⟩
  after := ⟨h.after.strings, h.after.symbols⟩
  strings := h.strings
  natives := h.natives
  symbols := h.symbols
  routines {id r} hr := ⟨r, by rw [Executable.routine?, h.routines]; exact hr, .refl r⟩
  byName hn := by rwa [h.byName]
  functions hf := by rwa [h.functions]

/-- Functions are found under their ids, and under their names with the right signature. -/
structure Indexed (p : Program) (t : Compilation) : Prop extends t.Tables p where
  ids : t.exe.IdsArePlaces
  room : t.exe.routines.size ≤ UInt16.size
  declared : ∀ {i name id}, t.symbols.functions.declared? i name = some id →
    ∃ f r, p.FirstNamed i name f ∧ t.exe.routine? id = some r ∧ r.Declares f
  byName : ∀ {name : String} {id : UInt16}, t.exe.byName[name]? = some id →
    ∃ r, t.exe.routine? id = some r ∧ r.name = name
  named : ∀ {id : UInt16} {r}, t.exe.routine? id = some r →
    ∃ id', t.exe.byName[r.name]? = some id' ∧ id'.toNat ≤ id.toNat

/-- Scopes that get their numbers change nothing else. -/
theorem Indexed.of_numbered (h : t.Indexed p) (hexe : t'.exe = t.exe)
    (hext : t.symbols.Extends p t'.symbols) (hf : t'.symbols.functions = t.symbols.functions) :
    t.Continues p t' ∧ t'.Indexed p := by
  have hc : t.Continues p t' := by
    refine ⟨h.toTables, ⟨hexe ▸ h.strings, hext.after⟩, hexe ▸ .refl _, fun hn => hexe ▸ hn, hext,
      fun {id r} hr => ⟨r, hexe ▸ hr, .refl r⟩, fun hn => hexe ▸ hn, fun hd => ?_⟩
    rwa [hf]
  refine ⟨hc, { toTables := hc.after, ids := hexe ▸ h.ids, room := hexe ▸ h.room,
                declared := fun hd => ?_, byName := hexe ▸ h.byName, named := hexe ▸ h.named }⟩
  rw [hf] at hd
  rw [hexe]
  exact h.declared hd

/-- A scope has its number, and its functions have their ids. -/
structure Seen (p : Program) (t : Compilation) (i : ScopeIndex) : Prop where
  numbered : ∃ id, t.symbols.scopeId? i = some id
  functions : ∀ f, p.DeclaredIn i f → ∃ id, t.symbols.functions.declared? i f.name = some id

theorem Seen.mono {i : ScopeIndex} (h : Seen p t i) (hc : t.Continues p t') : Seen p t' i := by
  obtain ⟨⟨id, hid⟩, hf⟩ := h
  refine ⟨⟨id, hc.symbols.scopeIds hid⟩, fun f hd => ?_⟩
  obtain ⟨id', hid'⟩ := hf f hd
  exact ⟨id', hc.functions hid'⟩

/-- The record of a finished function that the scope `i` declares. -/
structure Finished (c : FunctionContext) (i : ScopeIndex) (t₁ : Compilation) (code : Code)
    (r : Routine) : Prop extends r.Declares c.function where
  declaring : t₁.symbols.scopeId? i = some r.declaringScope
  scope : t₁.symbols.scopeId? c.function.body.scope = some r.scope
  locals : r.locals = (ProgramM.layOut t₁.symbols t₁.owned).2
  layout : r.layout = (ProgramM.layOut t₁.symbols t₁.owned).1
  code : r.code = code

/-- A function declared in the scope `i` has been compiled under this id. -/
structure Compiled (p : Program) (strict : Bool) (t : Compilation) (i : ScopeIndex)
    (f : FunctionDecl) (id : UInt16) : Prop where
  reached : p.Below Program.root i
  declared : p.DeclaredIn i f
  made : ∃ t₀ t₁ code r, FunctionCode ⟨p, f, strict⟩ t₀ t₁ code ∧
    (p.Linked → ∀ j, p.Below j i ∨ p.Below i j → Seen p t₀ j) ∧ t₀.Indexed p ∧
    t.exe.routine? id = some r ∧ Finished ⟨p, f, strict⟩ i t₁ code r ∧ t₁.Continues p t

theorem Compiled.mono {strict : Bool} {i : ScopeIndex} {f : FunctionDecl} {id : UInt16}
    (h : Compiled p strict t i f id) (hc : t.Continues p t')
    (hr : t'.exe.routine? id = t.exe.routine? id) : Compiled p strict t' i f id := by
  obtain ⟨hroot, hd, t₀, t₁, code, r, hcode, hseen, hindexed, hr', hfin, hcont⟩ := h
  exact ⟨hroot, hd, t₀, t₁, code, r, hcode, hseen, hindexed, hr.trans hr', hfin, hcont.trans hc⟩

end Compilation

open Compilation

namespace ProgramM

variable {p : Program} {t t' : Compilation} {strict : Bool}

/-! ## Taking steps apart -/

theorem bind_ok {α β : Type} {m : ProgramM β} {f : β → ProgramM α} {a : α}
    (h : (m >>= f) t = .ok (a, t')) : ∃ b t₁, m t = .ok (b, t₁) ∧ f b t₁ = .ok (a, t') := by
  change (m t >>= fun (b, t₁) => f b t₁) = _ at h
  cases hm : m t with
  | error e => rw [hm] at h; cases h
  | ok r =>
    rw [hm] at h
    exact ⟨r.1, r.2, rfl, h⟩

theorem outside_ok {α : Type} {step : CompileM α} {r : α × Compilation}
    (h : outside step t = .ok r) : step t = .ok r := by
  unfold outside at h
  cases hs : step t with
  | error e => rw [hs] at h; cases h
  | ok r' => rw [hs] at h; cases h; rfl

theorem inside_ok {α : Type} {name : String} {step : CompileM α} {r : α × Compilation}
    (h : inside name step t = .ok r) : step t = .ok r := by
  unfold inside at h
  cases hs : step t with
  | error e => rw [hs] at h; cases h
  | ok r' => rw [hs] at h; cases h; rfl

/-! ## Declaring functions -/

/-- The id that the next function gets. -/
def nextId (t : Compilation) : UInt16 := t.exe.routines.size.toUInt16

/-- The function is declared: it gets the next id, and is found under its name unless an earlier
one is. -/
def declaring (i : ScopeIndex) (number : UInt16) (f : FunctionDecl) (t : Compilation) :
    Compilation :=
  { t with
    exe := { t.exe with
      routines := t.exe.routines.push { signature number f with id := nextId t }
      byName := t.exe.byName.insertIfNew f.name (nextId t) }
    symbols := t.symbols.declareFunction i f.name (nextId t) }

/-- A function gets the next id. -/
theorem declareFunction_ok {i : ScopeIndex} {number id : UInt16} {f : FunctionDecl}
    (h : declareFunction i number f t = .ok (id, t')) :
    t.exe.routines.size < UInt16.size ∧ id = nextId t ∧ t' = declaring i number f t := by
  unfold declareFunction Executable.addRoutine at h
  dsimp only at h
  split at h
  · cases h
  · rename_i id' exe heq
    cases h
    split at heq
    · rename_i hroom
      cases heq
      exact ⟨hroom, rfl, rfl⟩
    · cases heq

section Declaring

variable {i : ScopeIndex} {number : UInt16} {f : FunctionDecl}

theorem lt_of_routine? {id : UInt16} {r : Routine} (h : t.exe.routine? id = some r) :
    id.toNat < t.exe.routines.size :=
  (Array.getElem?_eq_some_iff.mp h).1

theorem routine?_declaring_old {id : UInt16} (h : id.toNat < t.exe.routines.size) :
    (declaring i number f t).exe.routine? id = t.exe.routine? id := by
  unfold Executable.routine? declaring
  rw [Array.getElem?_push, if_neg (Nat.ne_of_lt h)]

theorem routine?_declaring {id : UInt16} {r : Routine} (h : t.exe.routine? id = some r) :
    (declaring i number f t).exe.routine? id = some r :=
  (routine?_declaring_old (lt_of_routine? h)).trans h

theorem routine?_declaring_new (hroom : t.exe.routines.size < UInt16.size) :
    (declaring i number f t).exe.routine? (nextId t) =
      some { signature number f with id := nextId t } := by
  unfold Executable.routine? declaring
  rw [nextId, toNat_toUInt16 hroom, Array.getElem?_push_size]

theorem routine?_of_declaring (hroom : t.exe.routines.size < UInt16.size) {id : UInt16}
    {r : Routine} (h : (declaring i number f t).exe.routine? id = some r) :
    t.exe.routine? id = some r ∨
      id = nextId t ∧ r = { signature number f with id := nextId t } := by
  by_cases hlt : id.toNat < t.exe.routines.size
  · exact .inl ((routine?_declaring_old hlt).symm.trans h)
  · have hsize := lt_of_routine? h
    simp only [declaring, Array.size_push] at hsize
    have hid : (nextId t).toNat = t.exe.routines.size := toNat_toUInt16 hroom
    obtain rfl : nextId t = id := UInt16.toNat_inj.mp (by omega)
    exact .inr ⟨rfl, Option.some.inj (h.symm.trans (routine?_declaring_new hroom))⟩

theorem declared?_declaring (j : ScopeIndex) (name : String) :
    (declaring i number f t).symbols.functions.declared? j name =
      if i = j ∧ f.name = name then
        (t.symbols.functions.declared? j name).or (some (nextId t))
      else t.symbols.functions.declared? j name :=
  NameTable.declared?_declare ..

theorem declared?_of_declaring {j : ScopeIndex} {name : String} {id : UInt16}
    (h : (declaring i number f t).symbols.functions.declared? j name = some id) :
    t.symbols.functions.declared? j name = some id ∨ j = i ∧ name = f.name ∧ id = nextId t ∧
      t.symbols.functions.declared? i f.name = none := by
  rw [declared?_declaring] at h
  split at h
  · rename_i heq
    obtain ⟨rfl, rfl⟩ := heq
    rcases Option.or_eq_some_iff.mp h with h | ⟨hnone, h⟩
    · exact .inl h
    · exact .inr ⟨rfl, rfl, (Option.some.inj h).symm, hnone⟩
  · exact .inl h

theorem byName_declaring_old {name : String} {id : UInt16} (h : t.exe.byName[name]? = some id) :
    (declaring i number f t).exe.byName[name]? = some id := by
  have hmem : name ∈ t.exe.byName := Std.ExtTreeMap.isSome_getElem?_iff_mem.mp (by rw [h]; rfl)
  refine (Std.ExtTreeMap.getElem?_insertIfNew ..).trans ((if_neg ?_).trans h)
  rintro ⟨heq, hnot⟩
  rw [Std.LawfulEqCmp.compare_eq_iff_eq.mp heq] at hnot
  exact hnot hmem

theorem byName_declaring_new (h : t.exe.byName[f.name]? = none) :
    (declaring i number f t).exe.byName[f.name]? = some (nextId t) := by
  have hnot : f.name ∉ t.exe.byName := fun hmem => by
    have := Std.ExtTreeMap.isSome_getElem?_iff_mem.mpr hmem
    rw [h] at this
    cases this
  exact (Std.ExtTreeMap.getElem?_insertIfNew ..).trans (by simp [hnot])

theorem byName_of_declaring {name : String} {id : UInt16}
    (h : (declaring i number f t).exe.byName[name]? = some id) :
    t.exe.byName[name]? = some id ∨ name = f.name ∧ id = nextId t := by
  have h := (Std.ExtTreeMap.getElem?_insertIfNew ..).symm.trans h
  split at h
  · rename_i heq
    exact .inr ⟨(Std.LawfulEqCmp.compare_eq_iff_eq.mp heq.1).symm, (Option.some.inj h).symm⟩
  · exact .inl h

theorem continues_declaring (h : t.Indexed p) : t.Continues p (declaring i number f t) := by
  have hs := h.symbols
  have hsymbols : t.symbols.Extends p (declaring i number f t).symbols :=
    ⟨hs, ⟨hs.numbered, hs.injective, hs.owner, hs.count, hs.size⟩, id, Nat.le_refl _,
      fun _ => Nat.le_refl _⟩
  refine ⟨h.toTables, ⟨h.strings, hsymbols.after⟩, .refl _, fun hn => hn, hsymbols,
    fun {id r} hr => ⟨r, routine?_declaring hr, .refl r⟩,
    byName_declaring_old, fun {j name id} hd => ?_⟩
  rw [declared?_declaring, hd]
  split <;> rfl

/-- The first function of its name is found under the name from then on. -/
theorem indexed_declaring (h : t.Indexed p) (hroom : t.exe.routines.size < UInt16.size)
    (hfirst : t.symbols.functions.declared? i f.name = none → p.FirstNamed i f.name f) :
    (declaring i number f t).Indexed p where
  toTables := (continues_declaring h).after
  ids := by
    have := Executable.IdsArePlaces.addRoutine h.ids (signature number f)
    rwa [Executable.addRoutine, if_pos hroom] at this
  room := by
    simp only [declaring, Array.size_push]
    omega
  declared {j name id} hd := by
    rcases declared?_of_declaring hd with hd | ⟨rfl, rfl, rfl, hnone⟩
    · obtain ⟨g, r, hg, hr, hdecl⟩ := h.declared hd
      exact ⟨g, r, hg, routine?_declaring hr, hdecl⟩
    · exact ⟨f, _, hfirst hnone, routine?_declaring_new hroom, rfl, rfl, rfl⟩
  byName {name id} hn := by
    rcases byName_of_declaring hn with hn | ⟨rfl, rfl⟩
    · obtain ⟨r, hr, hname⟩ := h.byName hn
      exact ⟨r, routine?_declaring hr, hname⟩
    · exact ⟨_, routine?_declaring_new hroom, rfl⟩
  named {id r} hr := by
    rcases routine?_of_declaring hroom hr with hr | ⟨rfl, rfl⟩
    · obtain ⟨id', hn, hle⟩ := h.named hr
      exact ⟨id', byName_declaring_old hn, hle⟩
    · cases hn : t.exe.byName[f.name]? with
      | some id' =>
        obtain ⟨r', hr', -⟩ := h.byName hn
        have hlt := lt_of_routine? hr'
        have hid : (nextId t).toNat = t.exe.routines.size := toNat_toUInt16 hroom
        exact ⟨id', byName_declaring_old hn, by omega⟩
      | none => exact ⟨_, byName_declaring_new hn, Nat.le_refl _⟩

end Declaring

/-- The tables after the functions `fs` of a scope have been declared. -/
structure Declared (p : Program) (i : ScopeIndex) (fs : List FunctionDecl) (ids : List UInt16)
    (t t' : Compilation) : Prop where
  continues : t.Continues p t'
  indexed : t'.Indexed p
  length : ids.length = fs.length
  size : t'.exe.routines.size = t.exe.routines.size + fs.length
  places : ∀ (k : Nat) id, ids[k]? = some id → id.toNat = t.exe.routines.size + k
  old : ∀ {id : UInt16}, id.toNat < t.exe.routines.size → t'.exe.routine? id = t.exe.routine? id
  signatures : ∀ x ∈ fs.zip ids, ∃ r, t'.exe.routine? x.2 = some r ∧ r.Declares x.1 ∧
    t'.symbols.scopeId? i = some r.declaringScope
  names : ∀ f ∈ fs, ∃ id, t'.symbols.functions.declared? i f.name = some id
  new : ∀ {j name id}, t'.symbols.functions.declared? j name = some id →
    t.symbols.functions.declared? j name = some id ∨
      j = i ∧ ∃ f, p.FirstNamed i name f ∧ (f, id) ∈ fs.zip ids
  scopeIds : t'.symbols.scopeIds = t.symbols.scopeIds
  count : t'.symbols.scopeCount = t.symbols.scopeCount

/-- Of the functions in front none has the name. -/
theorem firstNamed_of_undeclared {i : ScopeIndex} {s : Scope} {f : FunctionDecl}
    {before after : List FunctionDecl} (hs : p.scope? i = some s)
    (hfs : s.functions.toList = before ++ f :: after)
    (hbefore : ∀ g ∈ before, ∃ id, t.symbols.functions.declared? i g.name = some id)
    (hnone : t.symbols.functions.declared? i f.name = none) : p.FirstNamed i f.name f := by
  refine ⟨s, hs, ?_⟩
  rw [hfs, List.find?_append, List.find?_eq_none.mpr, Option.none_or, List.find?_cons]
  · simp
  · intro g hg heq
    obtain ⟨id, hid⟩ := hbefore g hg
    rw [of_decide_eq_true heq, hnone] at hid
    cases hid

theorem declared_step {i : ScopeIndex} {number id : UInt16} {s : Scope} {f : FunctionDecl}
    {before after : List FunctionDecl} (hi : t.Indexed p) (hs : p.scope? i = some s)
    (hfs : s.functions.toList = before ++ f :: after)
    (hbefore : ∀ g ∈ before, ∃ id, t.symbols.functions.declared? i g.name = some id)
    (hnumber : t.symbols.scopeId? i = some number)
    (h : declareFunction i number f t = .ok (id, t')) : Declared p i [f] [id] t t' := by
  obtain ⟨hroom, rfl, rfl⟩ := declareFunction_ok h
  have hfirst := firstNamed_of_undeclared hs hfs hbefore
  refine ⟨continues_declaring hi, indexed_declaring hi hroom hfirst, rfl, Array.size_push ..,
    fun k id hk => ?places, routine?_declaring_old, fun x hx => ?signatures, fun g hg => ?names,
    fun {j name id} hd => ?new, rfl, rfl⟩
  case places =>
    cases k with
    | zero =>
      cases hk
      exact toNat_toUInt16 hroom
    | succ k => cases hk
  case signatures =>
    obtain rfl : x = (f, nextId t) := by simpa using hx
    exact ⟨_, routine?_declaring_new hroom, ⟨rfl, rfl, rfl⟩, hnumber⟩
  case names =>
    obtain rfl := List.mem_singleton.mp hg
    rw [declared?_declaring, if_pos ⟨rfl, rfl⟩]
    cases t.symbols.functions.declared? i g.name <;> exact ⟨_, rfl⟩
  case new =>
    rcases declared?_of_declaring hd with hd | ⟨rfl, rfl, rfl, hnone⟩
    · exact .inl hd
    · exact .inr ⟨rfl, f, hfirst hnone, by simp⟩

theorem declared_all {i : ScopeIndex} {number : UInt16} {s : Scope} (hs : p.scope? i = some s)
    {fs before : List FunctionDecl} {ids : List UInt16} (hi : t.Indexed p)
    (hfs : s.functions.toList = before ++ fs)
    (hbefore : ∀ g ∈ before, ∃ id, t.symbols.functions.declared? i g.name = some id)
    (hnumber : t.symbols.scopeId? i = some number)
    (h : (fs.mapM fun f => outside (declareFunction i number f)) t = .ok (ids, t')) :
    Declared p i fs ids t t' := by
  induction fs generalizing before ids t with
  | nil =>
    cases h
    exact ⟨.refl hi.toTables, hi, rfl, rfl, nofun, fun _ => rfl, nofun, nofun, .inl, rfl, rfl⟩
  | cons f fs ih =>
    rw [List.mapM_cons] at h
    obtain ⟨id, t₁, hf, h⟩ := bind_ok h
    obtain ⟨ids', t₂, hrest, h⟩ := bind_ok h
    cases h
    have h₁ := declared_step hi hs hfs hbefore hnumber (outside_ok hf)
    have hfs' : s.functions.toList = (before ++ [f]) ++ fs := by simpa using hfs
    have h₂ := ih h₁.indexed hfs' (fun g hg => by
      rcases List.mem_append.mp hg with hg | hg
      · obtain ⟨id', hid'⟩ := hbefore g hg
        exact ⟨id', h₁.continues.functions hid'⟩
      · exact h₁.names g hg) (h₁.continues.symbols.scopeIds hnumber) hrest
    have hsize := h₁.size
    simp only [List.length_singleton] at hsize
    have hid : id.toNat = t.exe.routines.size := by simpa using h₁.places 0 id rfl
    refine ⟨h₁.continues.trans h₂.continues, h₂.indexed, by simp [h₂.length], ?_, fun k id' hk => ?_,
      fun {id'} hlt => ?_, fun x hx => ?_, fun g hg => ?_, fun {j name id'} hd => ?_,
      h₂.scopeIds.trans h₁.scopeIds, h₂.count.trans h₁.count⟩
    · rw [h₂.size, hsize, List.length_cons]
      omega
    · cases k with
      | zero =>
        cases hk
        exact hid
      | succ k =>
        have := h₂.places k id' (by simpa using hk)
        omega
    · rw [h₂.old (by omega), h₁.old hlt]
    · rcases List.mem_cons.mp hx with rfl | hx
      · obtain ⟨r, hr, hd, hdeclaring⟩ := h₁.signatures (f, id) (by simp)
        exact ⟨r, (h₂.old (by dsimp only; omega)).trans hr, hd,
          h₂.continues.symbols.scopeIds hdeclaring⟩
      · exact h₂.signatures x hx
    · rcases List.mem_cons.mp hg with rfl | hg
      · obtain ⟨id', hid'⟩ := h₁.names g (by simp)
        exact ⟨id', h₂.continues.functions hid'⟩
      · exact h₂.names g hg
    · rcases h₂.new hd with hd | ⟨rfl, g, hg, hmem⟩
      · rcases h₁.new hd with hd | ⟨rfl, g, hg, hmem⟩
        · exact .inl hd
        · obtain ⟨rfl, rfl⟩ : g = f ∧ id' = id := by simpa using hmem
          exact .inr ⟨rfl, g, hg, List.mem_cons_self⟩
      · exact .inr ⟨rfl, g, hg, List.mem_cons_of_mem _ hmem⟩

/-! ## Compiling functions -/

/-- Between `t` and `t'` one function has been compiled, with its code begun in `t₀` and finished in
`t₁`, and its record has been filled in. -/
structure Wrote (p : Program) (id : UInt16) (fill : Routine → Routine)
    (t t₀ t₁ t' : Compilation) : Prop where
  grows : t₀.Grows p t₁
  before : t₀.exe = t.exe
  symbols : t.symbols.Extends p t₀.symbols
  functions : t₀.symbols.functions = t.symbols.functions
  after : t'.symbols = t₁.symbols
  exe : t'.exe = t₁.exe.modifyRoutine id fill
  signature : ∀ r : Routine, r.SameSignature (fill r)

namespace Wrote

variable {t₀ t₁ : Compilation} {id : UInt16} {fill : Routine → Routine}

theorem routine? (h : Wrote p id fill t t₀ t₁ t') (id' : UInt16) :
    t'.exe.routine? id' = (t.exe.routine? id').map fun r => if id = id' then fill r else r := by
  have hroutines : t₁.exe.routines = t.exe.routines := by rw [h.grows.routines, h.before]
  rw [h.exe, Executable.routine?, Executable.modifyRoutine]
  dsimp only
  rw [Array.getElem?_modify, hroutines]
  by_cases heq : id = id'
  · subst heq
    simp [Executable.routine?]
  · have hne : id.toNat ≠ id'.toNat := fun h => heq (UInt16.toNat_inj.mp h)
    simp [hne, heq, Executable.routine?]

theorem routine?_of_ne (h : Wrote p id fill t t₀ t₁ t') {id' : UInt16} (hne : id' ≠ id) :
    t'.exe.routine? id' = t.exe.routine? id' := by
  rw [h.routine?]
  cases t.exe.routine? id' with
  | none => rfl
  | some r => rw [Option.map_some, if_neg (fun h => hne h.symm)]

theorem functions_eq (h : Wrote p id fill t t₀ t₁ t') :
    t'.symbols.functions = t.symbols.functions := by
  rw [h.after, h.grows.functions, h.functions]

theorem size_eq (h : Wrote p id fill t t₀ t₁ t') :
    t'.exe.routines.size = t.exe.routines.size := by
  rw [h.exe, Executable.modifyRoutine]
  simp [h.grows.routines, h.before]

/-- Up to where the code begins, only scopes get numbers. -/
theorem begun (h : Wrote p id fill t t₀ t₁ t') (hi : t.Indexed p) :
    t.Continues p t₀ ∧ t₀.Indexed p :=
  hi.of_numbered h.before h.symbols h.functions

theorem continues_finished (h : Wrote p id fill t t₀ t₁ t') : t₁.Continues p t' := by
  refine ⟨⟨h.grows.after.strings, h.grows.after.symbols⟩, ⟨?_, ?_⟩, ?_, ?_, ?_, fun {id' r'} hr' => ?_,
    ?_, ?_⟩
  · rw [h.exe]
    exact h.grows.after.strings
  · rw [h.after]
    exact h.grows.after.symbols
  · rw [h.exe]
    exact .refl _
  · rw [h.exe]
    exact fun hn => hn
  · rw [h.after]
    exact .refl h.grows.after.symbols
  · have hr'' : t.exe.routine? id' = some r' := by
      rwa [Executable.routine?, ← h.before, ← h.grows.routines]
    refine ⟨_, (h.routine? id').trans (congrArg (Option.map _) hr''), ?_⟩
    split
    · exact h.signature r'
    · exact .refl r'
  · rw [h.exe]
    exact fun hn => hn
  · rw [h.after]
    exact fun hf => hf

theorem continues (h : Wrote p id fill t t₀ t₁ t') (hi : t.Indexed p) : t.Continues p t' :=
  ((h.begun hi).1.trans h.grows.continues).trans h.continues_finished

theorem indexed (h : Wrote p id fill t t₀ t₁ t') (hi : t.Indexed p) : t'.Indexed p := by
  have hcont := h.continues hi
  have hbyName : t'.exe.byName = t.exe.byName := by
    rw [h.exe]
    exact h.grows.byName.trans (by rw [h.before])
  refine { toTables := hcont.after, ids := ?_, room := h.size_eq ▸ hi.room,
           declared := fun {j name id'} hd => ?_, byName := fun {name id'} hn => ?_,
           named := fun {id' r'} hr' => ?_ }
  · have hroutines : t₁.exe.routines = t.exe.routines := by rw [h.grows.routines, h.before]
    have hids : t₁.exe.IdsArePlaces := fun k r hr => hi.ids k r (hroutines ▸ hr)
    rw [h.exe]
    exact hids.modifyRoutine id fun r => (h.signature r).id
  · rw [h.functions_eq] at hd
    obtain ⟨g, r', hg, hr', hdecl'⟩ := hi.declared hd
    obtain ⟨r'', hr'', hsame⟩ := hcont.routines hr'
    exact ⟨g, r'', hg, hr'', hdecl'.same hsame⟩
  · rw [hbyName] at hn
    obtain ⟨r', hr', hname⟩ := hi.byName hn
    obtain ⟨r'', hr'', hsame⟩ := hcont.routines hr'
    exact ⟨r'', hr'', hsame.name.trans hname⟩
  · rw [h.routine?] at hr'
    obtain ⟨r'', hr'', rfl⟩ := Option.map_eq_some_iff.mp hr'
    rw [hbyName]
    have hname := hi.named hr''
    split
    · rw [(h.signature r'').name]
      exact hname
    · exact hname

end Wrote

/-- The compilation of a function fills in its record. -/
theorem Compiles.wrote {c : FunctionContext} {id scope : UInt16} {t₀ t₁ : Compilation} {code : Code}
    (h : Compiles c id t t₀ t₁ t' scope code) : Wrote c.source id (fun r =>
      { r with scope, locals := (layOut t₁.symbols t₁.owned).2,
               layout := (layOut t₁.symbols t₁.owned).1, code }) t t₀ t₁ t' :=
  ⟨h.function.grows, h.before, h.symbols, h.functions, h.after, h.exe,
    fun _ => ⟨rfl, rfl, rfl, rfl, rfl⟩⟩

theorem Compiles.finished {i : ScopeIndex} {f : FunctionDecl} {id scope : UInt16}
    {t₀ t₁ : Compilation} {code : Code} {r : Routine}
    (h : Compiles ⟨p, f, strict⟩ id t t₀ t₁ t' scope code) (hr : t.exe.routine? id = some r)
    (hdecl : r.Declares f) (hdeclaring : t.symbols.scopeId? i = some r.declaringScope) :
    ∃ r', t'.exe.routine? id = some r' ∧ Finished ⟨p, f, strict⟩ i t₁ code r' := by
  have hid := h.wrote.routine? id
  rw [hr, Option.map_some, if_pos rfl] at hid
  exact ⟨_, hid, ⟨hdecl.name, hdecl.params, hdecl.result⟩,
    h.function.grows.symbols.scopeIds (h.symbols.scopeIds hdeclaring), h.numbered, rfl, rfl, rfl⟩

/-- What the compilation of one function does to the tables. -/
theorem compiled_step {i : ScopeIndex} {f : FunctionDecl} {id : UInt16} {r : Routine} {u : Unit}
    (hi : t.Indexed p) (hroot : p.Below Program.root i) (hd : p.DeclaredIn i f)
    (hseen : p.Linked → ∀ j, p.Below j i ∨ p.Below i j → Seen p t j)
    (hr : t.exe.routine? id = some r) (hdecl : r.Declares f)
    (hdeclaring : t.symbols.scopeId? i = some r.declaringScope)
    (h : compileFunction ⟨p, f, strict⟩ id t = .ok (u, t')) :
    t.Continues p t' ∧ t'.Indexed p ∧ Compiled p strict t' i f id ∧
      (∀ id', id' ≠ id → t'.exe.routine? id' = t.exe.routine? id') ∧
      t'.symbols.functions = t.symbols.functions ∧
      t'.exe.routines.size = t.exe.routines.size := by
  obtain ⟨t₀, t₁, scope, code, hc⟩ := compileFunction_ok hi.toTables h
  obtain ⟨r', hr', hfinished⟩ := hc.finished hr hdecl hdeclaring
  have hw := hc.wrote
  exact ⟨hw.continues hi, hw.indexed hi, ⟨hroot, hd, t₀, t₁, code, r', hc.function,
    fun hl j hj => (hseen hl j hj).mono (hw.begun hi).1, (hw.begun hi).2, hr', hfinished,
    hw.continues_finished⟩,
    fun id' hne => hw.routine?_of_ne hne, hw.functions_eq, hw.size_eq⟩

/-- What the compilation of some functions of a scope does. -/
structure CompiledAll (p : Program) (strict : Bool) (i : ScopeIndex)
    (work : List (FunctionDecl × UInt16)) (t t' : Compilation) : Prop where
  continues : t.Continues p t'
  indexed : t'.Indexed p
  compiled : ∀ x ∈ work, Compiled p strict t' i x.1 x.2
  others : ∀ id, (∀ x ∈ work, id ≠ x.2) → t'.exe.routine? id = t.exe.routine? id
  functions : t'.symbols.functions = t.symbols.functions
  size : t'.exe.routines.size = t.exe.routines.size

theorem compiled_all {i : ScopeIndex} {work : List (FunctionDecl × UInt16)} {u : PUnit}
    (hi : t.Indexed p) (hroot : p.Below Program.root i)
    (hd : ∀ x ∈ work, p.DeclaredIn i x.1)
    (hseen : p.Linked → ∀ j, p.Below j i ∨ p.Below i j → Seen p t j)
    (hsig : ∀ x ∈ work, ∃ r, t.exe.routine? x.2 = some r ∧ r.Declares x.1 ∧
      t.symbols.scopeId? i = some r.declaringScope)
    (hnodup : (work.map (·.2)).Nodup)
    (h : (work.forM fun (f, id) =>
      inside f.name (compileFunction { source := p, function := f, strict } id)) t = .ok (u, t')) :
    CompiledAll p strict i work t t' := by
  induction work generalizing t with
  | nil =>
    cases h
    exact ⟨.refl hi.toTables, hi, nofun, fun _ _ => rfl, rfl, rfl⟩
  | cons x work ih =>
    obtain ⟨f, id⟩ := x
    obtain ⟨u, t₁, hf, h⟩ := bind_ok h
    obtain ⟨r, hr, hdecl, hdeclaring⟩ := hsig (f, id) List.mem_cons_self
    obtain ⟨hcont, hindexed, hcompiled, hothers, hfun, hsize⟩ :=
      compiled_step hi hroot (hd _ List.mem_cons_self) hseen hr hdecl hdeclaring (inside_ok hf)
    have hne : ∀ y ∈ work, id ≠ y.2 := by
      intro y hy heq
      exact (List.nodup_cons.mp hnodup).1 (List.mem_map.mpr ⟨y, hy, heq.symm⟩)
    have h' := ih hindexed (fun y hy => hd y (List.mem_cons_of_mem _ hy))
      (fun hl j hj => (hseen hl j hj).mono hcont) (fun y hy => ?_) (List.nodup_cons.mp hnodup).2 h
    · refine ⟨hcont.trans h'.continues, h'.indexed, fun y hy => ?_, fun id' hid' => ?_,
        h'.functions.trans hfun, h'.size.trans hsize⟩
      · rcases List.mem_cons.mp hy with rfl | hy
        · exact hcompiled.mono h'.continues (h'.others _ hne)
        · exact h'.compiled y hy
      · rw [h'.others _ fun y hy => hid' y (List.mem_cons_of_mem _ hy),
          hothers _ (hid' _ List.mem_cons_self)]
    · obtain ⟨r', hr', hdecl', hdeclaring'⟩ := hsig y (List.mem_cons_of_mem _ hy)
      exact ⟨r', (hothers _ fun h => hne y hy h.symm).trans hr', hdecl',
        hcont.symbols.scopeIds hdeclaring'⟩

/-! ## Going through the scopes -/

/-- What going through some scopes down to a depth, each with those inside it, does: their functions
get the next ids, in the order in which they are met. -/
structure Traversed (p : Program) (strict : Bool) (depth : Nat) (is : List ScopeIndex)
    (t t' : Compilation) : Prop where
  continues : t.Continues p t'
  indexed : t'.Indexed p
  old : ∀ {id : UInt16}, id.toNat < t.exe.routines.size → t'.exe.routine? id = t.exe.routine? id
  size : t'.exe.routines.size =
    t.exe.routines.size + (is.flatMap (p.functionsFrom depth)).length
  compiled : ∀ {n : Nat} {x} {id : UInt16}, (is.flatMap (p.functionsFrom depth))[n]? = some x →
    id.toNat = t.exe.routines.size + n → Compiled p strict t' x.1 x.2 id
  declared : ∀ {j name id}, t'.symbols.functions.declared? j name = some id →
    t.symbols.functions.declared? j name = some id ∨ t.exe.routines.size ≤ id.toNat ∧
      ∃ f, p.FirstNamed j name f ∧ Compiled p strict t' j f id
  seen : ∀ i ∈ is, ∀ k, p.Below i k → Seen p t' k

/-- No new id is left without a function. -/
theorem Traversed.exists_compiled {depth : Nat} {is : List ScopeIndex} {id : UInt16} {r : Routine}
    (h : Traversed p strict depth is t t') (hle : t.exe.routines.size ≤ id.toNat)
    (hr : t'.exe.routine? id = some r) :
    ∃ x, (is.flatMap (p.functionsFrom depth))[id.toNat - t.exe.routines.size]? = some x ∧
      Compiled p strict t' x.1 x.2 id := by
  have hlt := (Array.getElem?_eq_some_iff.mp hr).1
  have hsize := h.size
  have hx := List.getElem?_eq_getElem (l := is.flatMap (p.functionsFrom depth))
    (i := id.toNat - t.exe.routines.size) (by omega)
  exact ⟨_, hx, h.compiled hx (by omega)⟩

theorem traversed_all {depth : Nat} {f : ScopeIndex → ProgramM PUnit} {is : List ScopeIndex}
    {u : PUnit}
    (hstep : ∀ i ∈ is, ∀ {t t' : Compilation} {u : PUnit}, t.Indexed p →
      (p.Linked → ∀ j, p.Below j i → j ≠ i → Seen p t j) → f i t = .ok (u, t') →
        Traversed p strict depth [i] t t')
    (hi : t.Indexed p) (hseen : p.Linked → ∀ i ∈ is, ∀ j, p.Below j i → j ≠ i → Seen p t j)
    (h : is.forM f t = .ok (u, t')) : Traversed p strict depth is t t' := by
  induction is generalizing t with
  | nil =>
    cases h
    exact ⟨.refl hi.toTables, hi, fun _ => rfl, rfl, nofun, .inl, nofun⟩
  | cons i is ih =>
    obtain ⟨u', t₁, hf, h⟩ := bind_ok h
    have h₁ := hstep i List.mem_cons_self hi (fun hl => hseen hl i List.mem_cons_self) hf
    have h₂ := ih (fun j hj => hstep j (List.mem_cons_of_mem _ hj)) h₁.indexed
      (fun hl k hk j hj hne => (hseen hl k (List.mem_cons_of_mem _ hk) j hj hne).mono h₁.continues) h
    have hsize₁ : t₁.exe.routines.size = t.exe.routines.size + (p.functionsFrom depth i).length := by
      simpa using h₁.size
    have hsize₂ := h₂.size
    have hmono : ∀ {j f id}, Compiled p strict t₁ j f id → Compiled p strict t' j f id := by
      intro j f id hc
      obtain ⟨_, _, _, _, _, _, _, hr, _⟩ := hc.made
      exact hc.mono h₂.continues (h₂.old (Array.getElem?_eq_some_iff.mp hr).1)
    refine ⟨h₁.continues.trans h₂.continues, h₂.indexed, fun {id} hlt => ?_, ?_,
      fun {n x id} hx hid => ?_, fun {j name id} hd => ?_, fun k hk j hj => ?_⟩
    · rw [h₂.old (by omega), h₁.old hlt]
    · rw [List.flatMap_cons, List.length_append]
      omega
    · rw [List.flatMap_cons, List.getElem?_append] at hx
      split at hx
      · exact hmono (h₁.compiled (by simpa using hx) hid)
      · exact h₂.compiled hx (by omega)
    · rcases h₂.declared hd with hd | hd
      · rcases h₁.declared hd with hd | ⟨hle, f, hf, hc⟩
        · exact .inl hd
        · exact .inr ⟨hle, f, hf, hmono hc⟩
      · exact .inr ⟨by omega, hd.2⟩
    · rcases List.mem_cons.mp hk with rfl | hk
      · exact (h₁.seen k (by simp) j hj).mono h₂.continues
      · exact h₂.seen k hk j hj

/-- Going through the children of a scope goes through a list. -/
theorem forM_children (is : Array ScopeIndex) (f : ScopeIndex → ProgramM PUnit) :
    is.forM f = is.toList.forM f := by
  rw [Array.forM_eq_forM, ← List.forM_toArray, Array.toArray_toList]

/-- What entering a scope does to the tables. -/
theorem enterScope_ok {i : ScopeIndex} {s : Scope} {number : UInt16} (hi : t.Indexed p)
    (hs : p.scope? i = some s)
    (h : outside (CompileM.onSymbols (·.enterScope i s)) t = .ok (number, t')) :
    t.Continues p t' ∧ t'.Indexed p ∧ t'.symbols.scopeId? i = some number ∧ t'.exe = t.exe ∧
      t'.symbols.functions = t.symbols.functions := by
  obtain ⟨symbols, he, rfl⟩ := CompileM.onSymbols_ok (outside_ok h)
  obtain ⟨hext, hnumber, hf⟩ := Symbols.extends_enterScope hi.symbols hs he
  have hcont : t.Continues p { t with symbols } ∧ Compilation.Indexed p { t with symbols } :=
    hi.of_numbered rfl hext hf
  exact ⟨hcont.1, hcont.2, hnumber, rfl, hf⟩

/-- Ids given one after the other are distinct. -/
theorem Declared.nodup {i : ScopeIndex} {fs : List FunctionDecl} {ids : List UInt16}
    (h : Declared p i fs ids t t') : ((fs.zip ids).map (·.2)).Nodup := by
  have hzip : (fs.zip ids).map (·.2) = ids := by
    rw [List.map_snd_zip (Nat.le_of_eq h.length)]
  rw [hzip, List.Nodup, List.pairwise_iff_getElem]
  intro k l hk hl hkl heq
  have hk' := h.places k _ (List.getElem?_eq_getElem hk)
  have hl' := h.places l _ (List.getElem?_eq_getElem hl)
  rw [heq] at hk'
  omega

/-- The ids of the functions of a scope are the places behind those there were. -/
theorem Declared.place_of_mem {i : ScopeIndex} {fs : List FunctionDecl} {ids : List UInt16}
    (h : Declared p i fs ids t t') {x : FunctionDecl × UInt16} (hx : x ∈ fs.zip ids) :
    t.exe.routines.size ≤ x.2.toNat ∧ x.2.toNat < t.exe.routines.size + fs.length := by
  obtain ⟨k, hk⟩ := List.mem_iff_getElem?.mp (List.of_mem_zip hx).2
  have hlt := (List.getElem?_eq_some_iff.mp hk).1
  have hlen := h.length
  have hplace := h.places k x.2 hk
  omega

theorem Declared.mem_of_place {i : ScopeIndex} {fs : List FunctionDecl} {ids : List UInt16}
    {n : Nat} {f : FunctionDecl} {id : UInt16} (h : Declared p i fs ids t t')
    (hf : fs[n]? = some f) (hid : id.toNat = t.exe.routines.size + n) : (f, id) ∈ fs.zip ids := by
  have hlt : n < ids.length := h.length ▸ (List.getElem?_eq_some_iff.mp hf).1
  have hn : ids[n]? = some ids[n] := List.getElem?_eq_getElem hlt
  have heq : ids[n] = id := UInt16.toNat_inj.mp ((h.places n _ hn).trans hid.symm)
  exact List.mem_iff_getElem?.mpr ⟨n, List.getElem?_zip_eq_some.mpr ⟨hf, heq ▸ hn⟩⟩

/-- The functions of a scope stay what they have been declared to be. -/
theorem Declared.registered {i : ScopeIndex} {fs : List FunctionDecl} {ids : List UInt16}
    {t'' : Compilation} (h : Declared p i fs ids t t') (hc : t'.Continues p t'') :
    ∀ x ∈ fs.zip ids, ∃ r, t''.exe.routine? x.2 = some r ∧ r.Declares x.1 ∧
      t''.symbols.scopeId? i = some r.declaringScope := by
  intro x hx
  obtain ⟨r, hr, hdecl, hdeclaring⟩ := h.signatures x hx
  obtain ⟨r', hr', hsame⟩ := hc.routines hr
  exact ⟨r', hr', hdecl.same hsame, hsame.declaringScope ▸ hc.symbols.scopeIds hdeclaring⟩

/-- A scope has been seen when its functions have been declared. -/
theorem Declared.seen {i : ScopeIndex} {s : Scope} {ids : List UInt16} {number : UInt16}
    (h : Declared p i s.functions.toList ids t t') (hs : p.scope? i = some s)
    (hnumber : t.symbols.scopeId? i = some number) : Seen p t' i := by
  refine ⟨⟨number, h.continues.symbols.scopeIds hnumber⟩, fun f hd => ?_⟩
  obtain ⟨s', hs', hf⟩ := hd
  obtain rfl := Option.some.inj (hs.symm.trans hs')
  exact h.names f hf

theorem Declared.seen_around {i j : ScopeIndex} {s : Scope} {ids : List UInt16} {number : UInt16}
    (h : Declared p i s.functions.toList ids t t') (hs : p.scope? i = some s)
    (hnumber : t.symbols.scopeId? i = some number)
    (hseen : ∀ j, p.Below j i → j ≠ i → Seen p t j) (hj : p.Below j i) : Seen p t' j := by
  by_cases heq : j = i
  · exact heq ▸ h.seen hs hnumber
  · exact (hseen j hj heq).mono h.continues

/-- All inside a scope has been seen when its children have been gone through. -/
theorem Traversed.seen_inside {depth : Nat} {i j : ScopeIndex} {s : Scope}
    (h : Traversed p strict depth s.children.toList t t') (hs : p.scope? i = some s)
    (hhere : Seen p t i) (hj : p.Below i j) : Seen p t' j := by
  rcases hj.cases_head with rfl | ⟨s', c, hs', hc, hbelow⟩
  · exact hhere.mono h.continues
  · obtain rfl := Option.some.inj (hs.symm.trans hs')
    exact h.seen c (Array.mem_toList_iff.mpr hc) j hbelow

/-- Giving a scope its number changes no function. -/
theorem Traversed.of_numbered {depth : Nat} {is : List ScopeIndex} {t₁ : Compilation}
    (h : Traversed p strict depth is t₁ t') (hc : t.Continues p t₁) (hexe : t₁.exe = t.exe)
    (hf : t₁.symbols.functions = t.symbols.functions) : Traversed p strict depth is t t' where
  continues := hc.trans h.continues
  indexed := h.indexed
  old hlt := hexe ▸ h.old (hexe ▸ hlt)
  size := hexe ▸ h.size
  compiled hx hid := h.compiled hx (hexe ▸ hid)
  declared hd := by
    have := h.declared hd
    rwa [hexe, hf] at this
  seen := h.seen

/-- A scope is gone through: its functions are declared, the scopes inside it are gone through, and
its functions are compiled. -/
theorem traversed_scope {depth : Nat} {i : ScopeIndex} {s : Scope} {ids : List UInt16}
    {t₁ t₂ : Compilation} (hs : p.scope? i = some s)
    (hd : Declared p i s.functions.toList ids t t₁)
    (ht : Traversed p strict depth s.children.toList t₁ t₂)
    (hc : CompiledAll p strict i (s.functions.toList.zip ids) t₂ t')
    (hseen : ∀ j, p.Below i j → Seen p t₂ j) : Traversed p strict (depth + 1) [i] t t' := by
  have hothers : ∀ {id : UInt16}, id.toNat < t.exe.routines.size ∨
      t₁.exe.routines.size ≤ id.toNat → t'.exe.routine? id = t₂.exe.routine? id := by
    refine fun {id} hid => hc.others id fun x hx => ?_
    rintro rfl
    have := hd.place_of_mem hx
    rw [hd.size] at hid
    omega
  have hfunctions : [i].flatMap (p.functionsFrom (depth + 1)) =
      s.functions.toList.map (i, ·) ++ s.children.toList.flatMap (p.functionsFrom depth) := by
    rw [List.flatMap_singleton, Program.functionsFrom_succ hs]
  have hsize := hd.size
  refine ⟨(hd.continues.trans ht.continues).trans hc.continues, hc.indexed, fun {id} hlt => ?old,
    ?size, fun {n x id} hx hid => ?compiled, fun {j name id} hdecl => ?declared,
    fun k hk j hj => ?seen⟩
  case old => rw [hothers (.inl hlt), ht.old (by omega), hd.old hlt]
  case size =>
    have := ht.size
    rw [hfunctions, List.length_append, List.length_map, hc.size]
    omega
  case compiled =>
    rw [hfunctions, List.getElem?_append, List.length_map] at hx
    split at hx
    · rw [List.getElem?_map] at hx
      obtain ⟨f, hf, rfl⟩ := Option.map_eq_some_iff.mp hx
      exact hc.compiled _ (hd.mem_of_place hf hid)
    · exact (ht.compiled hx (by omega)).mono hc.continues (hothers (.inr (by omega)))
  case declared =>
    rw [hc.functions] at hdecl
    rcases ht.declared hdecl with hdecl | ⟨hle, f, hf, hcompiled⟩
    · rcases hd.new hdecl with hdecl | ⟨rfl, f, hf, hmem⟩
      · exact .inl hdecl
      · exact .inr ⟨(hd.place_of_mem hmem).1, f, hf, hc.compiled _ hmem⟩
    · exact .inr ⟨by omega, f, hf, hcompiled.mono hc.continues (hothers (.inr hle))⟩
  case seen =>
    obtain rfl := List.mem_singleton.mp hk
    exact (hseen j hj).mono hc.continues

/-- **Going through a scope** compiles every function inside it. -/
theorem compileScope_ok (depth : Nat) {i : ScopeIndex}
    {t t' : Compilation} {u : PUnit} (hi : t.Indexed p) (hroot : p.Below Program.root i)
    (hseen : p.Linked → ∀ j, p.Below j i → j ≠ i → Seen p t j)
    (h : compileScope p strict depth i t = .ok (u, t')) : Traversed p strict depth [i] t t' := by
  induction depth generalizing i t t' u with
  | zero => cases h
  | succ depth ih =>
    unfold compileScope at h
    cases hs : p.scope? i with
    | none => rw [hs] at h; cases h
    | some s =>
      rw [hs] at h
      dsimp only at h
      obtain ⟨number, t₁, henter, h⟩ := bind_ok h
      obtain ⟨hc₁, hi₁, hnumber, hexe, hfun⟩ := enterScope_ok hi hs henter
      obtain ⟨ids, t₂, hdeclare, h⟩ := bind_ok h
      have h₂ : Declared p i s.functions.toList ids t₁ t₂ :=
        declared_all hs hi₁ (List.nil_append _).symm nofun hnumber hdeclare
      have haround : p.Linked → ∀ j, p.Below j i → Seen p t₂ j := fun hl _ =>
        h₂.seen_around hs hnumber fun j hj hne => (hseen hl j hj hne).mono hc₁
      obtain ⟨u', t₃, hchildren, h⟩ := bind_ok h
      rw [forM_children] at hchildren
      have h₃ : Traversed p strict depth s.children.toList t₂ t₃ := traversed_all
        (fun c hc _ _ _ hi => ih hi (.child hroot hs (Array.mem_toList_iff.mp hc))) h₂.indexed
        (fun hl c hc j hj hne =>
          haround hl j (hl.below_parent hs (Array.mem_toList_iff.mp hc) hj hne)) hchildren
      have hinside : ∀ j, p.Below i j → Seen p t₃ j := fun _ =>
        h₃.seen_inside hs (h₂.seen hs hnumber)
      have h₄ : CompiledAll p strict i (s.functions.toList.zip ids) t₃ t' :=
        compiled_all h₃.indexed hroot (fun x hx => ⟨s, hs, (List.of_mem_zip hx).1⟩)
          (fun hl j hj => hj.elim (fun hj => (haround hl j hj).mono h₃.continues) (hinside j))
          (h₂.registered h₃.continues) h₂.nodup h
      exact (traversed_scope hs h₂ h₃ h₄ hinside).of_numbered hc₁ hexe hfun

end ProgramM

/-! ## Whole programs -/

namespace Program

open ProgramM

variable {p : Program} {strict : Bool} {e : Executable}

/-- The executable of a program, and the compilation `t` that has made it. -/
structure Output (p : Program) (strict : Bool) (t : Compilation) (e : Executable) : Prop where
  exe : e = { t.exe with scopeCount := t.symbols.scopeCount, topVars := p.topVars t.symbols }
  indexed : t.Indexed p
  source : ∀ {id r}, t.exe.routine? id = some r →
    ∃ x, (p.functionsFrom (p.scopeCount + 1) root)[id.toNat]? = some x ∧
      Compiled p strict t x.1 x.2 id
  compiled : ∀ {j f}, p.Below root j → p.DeclaredIn j f → ∃ id, Compiled p strict t j f id
  declared : ∀ {j name id}, t.symbols.functions.declared? j name = some id →
    ∃ f, p.FirstNamed j name f ∧ Compiled p strict t j f id
  seen : ∀ k, p.Below root k → Seen p t k
  top : ∃ f r, p.top? = some f ∧ Compiled p strict t root f 0 ∧ e.top? = some r ∧
    e.routine? 0 = some r ∧ f.name = topName ∧ f.params = [] ∧ f.result = .void ∧ r.Declares f

theorem indexed_empty (p : Program) : Indexed p {} where
  strings := StringPool.faithful_empty
  symbols := Symbols.sound_empty p
  ids := Executable.idsArePlaces_empty
  room := Nat.zero_le _
  declared h := by simp [NameTable.declared?] at h
  byName h := by simp at h
  named h := by simp [Executable.routine?] at h

/-- A program that compiles has been gone through from its root. -/
theorem compileScope_of_compile (h : p.compile strict = .ok e) : ∃ t : Compilation,
    compileScope p strict (p.scopeCount + 1) root {} = .ok (⟨⟩, t) ∧
      e = { t.exe with scopeCount := t.symbols.scopeCount, topVars := p.topVars t.symbols } := by
  unfold compile at h
  by_cases htop : p.top?.isNone = true
  · rw [if_pos htop] at h
    cases h
  · rw [if_neg htop] at h
    cases hc : compileScope p strict (p.scopeCount + 1) root {} with
    | error err =>
      simp only [StateT.run, hc] at h
      cases h
    | ok out =>
      simp only [StateT.run, hc] at h
      cases h
      exact ⟨out.2, rfl, rfl⟩

/-- **What compiling has gone through**, whatever the program. -/
theorem compile_traversed (h : p.compile strict = .ok e) :
    ∃ t : Compilation, Traversed p strict (p.scopeCount + 1) [root] {} t ∧
      e = { t.exe with scopeCount := t.symbols.scopeCount, topVars := p.topVars t.symbols } := by
  obtain ⟨t, hc, he⟩ := compileScope_of_compile h
  exact ⟨t, compileScope_ok _ (indexed_empty p) .refl
    (fun hl j hj hne => absurd (hl.below_root hj) hne) hc, he⟩

/-- **What a program that has been gone through has become.** -/
theorem output_of_traversed {t : Compilation} (hb : p.Built)
    (ht : Traversed p strict (p.scopeCount + 1) [root] {} t) : p.Output strict t
      { t.exe with scopeCount := t.symbols.scopeCount, topVars := p.topVars t.symbols } := by
  obtain ⟨hl, s, f, hs, hf, hname, hresult, hparams⟩ := hb.linked
  have hfrom : [root].flatMap (p.functionsFrom (p.scopeCount + 1)) =
      p.functionsFrom (p.scopeCount + 1) root := List.flatMap_singleton ..
  have hcompiled : ∀ {n : Nat} {x} {id : UInt16},
      (p.functionsFrom (p.scopeCount + 1) root)[n]? = some x → id.toNat = n →
        Compiled p strict t x.1 x.2 id := by
    intro n x id hx hid
    exact ht.compiled (hfrom ▸ hx) (hid.trans (Nat.zero_add n).symm)
  refine ⟨rfl, ht.indexed, fun {id r} hr => ?_, fun {j f} hj hd => ?_, fun hd => ?_,
    ht.seen root (by simp), ?_⟩
  · have hx := ht.exists_compiled (Nat.zero_le _) hr
    rwa [hfrom] at hx
  · have hdepth : p.scopeCount ≤ root + (p.scopeCount + 1) :=
      Nat.le_trans (Nat.le_succ _) (Nat.le_add_left _ _)
    obtain ⟨n, hn⟩ := List.mem_iff_getElem?.mp (hl.mem_functionsFrom .refl hdepth hj hd)
    have hsize : t.exe.routines.size = 0 + (p.functionsFrom (p.scopeCount + 1) root).length :=
      hfrom ▸ ht.size
    have hlt := (List.getElem?_eq_some_iff.mp hn).1
    have hroom := ht.indexed.room
    exact ⟨n.toUInt16, hcompiled hn (toNat_toUInt16 (by omega))⟩
  · rcases ht.declared hd with hd | ⟨-, hd⟩
    · simp [NameTable.declared?] at hd
    · exact hd
  · have hhead : s.functions.toList.head? = some f := by
      rw [List.head?_eq_getElem?, Array.getElem?_toList, hf]
    obtain ⟨fs, hfs⟩ := List.head?_eq_some_iff.mp hhead
    have hc : Compiled p strict t root f 0 := by
      refine hcompiled (n := 0) (x := (root, f)) ?_ rfl
      rw [functionsFrom_succ hs, hfs]
      rfl
    obtain ⟨_, _, _, r, -, -, -, hr, hfin, -⟩ := hc.made
    have hdecl := hfin.toDeclares
    obtain ⟨id', hbyName, hle⟩ := ht.indexed.named hr
    obtain rfl : id' = 0 := UInt16.toNat_inj.mp (Nat.le_zero.mp hle)
    rw [hdecl.name, hname] at hbyName
    have htop : p.top? = some f := by
      rw [top?, hs, Option.bind_some, ← Array.find?_toList, hfs,
        List.find?_cons_of_pos (by simpa using hname)]
    refine ⟨f, r, htop, hc, ?_, hr, hname, hparams, hresult, hdecl⟩
    exact Option.bind_eq_some_iff.mpr ⟨0, hbyName, hr⟩

theorem compile_ok (hb : p.Built) (h : p.compile strict = .ok e) : ∃ t, p.Output strict t e := by
  obtain ⟨t, ht, rfl⟩ := compile_traversed h
  exact ⟨t, output_of_traversed hb ht⟩

end Program

end StackLang
