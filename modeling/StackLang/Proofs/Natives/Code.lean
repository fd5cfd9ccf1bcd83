import StackLang.Proofs.Loops.Code
import StackLang.Proofs.Simulation.Calls

/-!
# The code of native calls

A native call in the body of a function loads the function's parameters, the last one first, calls the
host with them, and returns what the host gives. `NativeCall.CodeAt g call l`: `l` has the offsets of
these parts and the variables that are loaded. The code looks up the parameters by name, from where the
call stands; the variables are those of the parameters where the names mean the same as in the function's
body (`Made.info_of_param`).
-/

namespace StackLang

open Code

/-! ## Native calls of the tree -/

/-- A native call in a scope. -/
structure NativeCall where
  scope : ScopeIndex
  symbol : String

mutual

/-- The native calls in a node that stands in the scope `sc`. -/
def Node.natives (sc : ScopeIndex) : Node → List NativeCall
  | .store _ _ value => value.natives sc
  | .binary _ left right => left.natives sc ++ right.natives sc
  | .unary _ operand => operand.natives sc
  | .call _ args => Node.allNatives sc args
  | .block body => body.natives
  | .ifElse condition thenBlock none => condition.natives sc ++ thenBlock.natives
  | .ifElse condition thenBlock (some elseBlock) =>
    condition.natives sc ++ thenBlock.natives ++ elseBlock.natives
  | .whileLoop condition body => condition.natives sc ++ body.natives
  | .forLoop _ range body => range.natives sc ++ body.natives
  | .ret (some value) => value.natives sc
  | .print operands => Node.allNatives sc operands
  | .native symbol => [⟨sc, symbol⟩]
  | _ => []
termination_by structural node => node

def Node.allNatives (sc : ScopeIndex) : List Node → List NativeCall
  | [] => []
  | node :: nodes => node.natives sc ++ Node.allNatives sc nodes
termination_by structural nodes => nodes

/-- The native calls in a block, whose statements stand in its own scope. -/
def Block.natives : Block → List NativeCall
  | .mk scope statements => Node.allNatives scope statements
termination_by structural block => block

end

/-- The native calls in a phrase that stands in the scope `sc`. -/
def Phrase.natives (sc : ScopeIndex) : Phrase → List NativeCall
  | .expr node | .stmt node => node.natives sc
  | .args nodes | .stmts nodes | .operands nodes => Node.allNatives sc nodes
  | .block body => body.natives

/-! ## Native calls of the code -/

/-- Where the parts of a native call's code are. -/
structure NativeCode where
  /-- The parameters are loaded first. -/
  entry : Nat
  /-- The call of the host. -/
  call : Nat
  /-- The return. -/
  ret : Nat
  /-- The variables that are loaded, in the order of the parameters. -/
  infos : List VarInfo
  /-- The host's function. -/
  id : UInt16

/-- The code of a native call has its parts where `l` says. -/
structure NativeCall.CodeAt (g : Site) (call : NativeCall) (l : NativeCode) : Prop where
  count : l.infos.length = g.params.length
  vars : ∀ x ∈ g.params.zip l.infos, g.var call.scope x.1.name x.2
  loads : g.code.Line l.entry (l.infos.reverse.map loadInstr) l.call
  host : g.host { symbol := call.symbol, params := g.params.map (·.ty), result := g.result } l.id
  hostCall : g.code.Line l.call [(.callNative, .native l.id)] l.ret
  ret : g.code.At l.ret .ret .none

theorem Emitted.exists_codeAt {g : Site} {sc : ScopeIndex} {symbol : String} {a b : Nat}
    (h : Emitted g sc (.stmt (.native symbol)) a [] b) :
    ∃ l, l.entry = a ∧ NativeCall.CodeAt g ⟨sc, symbol⟩ l := by
  cases h with
  | drop h => cases h
  | @native _ _ infos id _ m _ hcount hvars hloads hhost h =>
    exact ⟨⟨a, m, m + Opcode.callNative.width, infos, id⟩, rfl, hcount, hvars, hloads, hhost,
      ⟨h.1, rfl⟩, h.2.1⟩

/-- **Every native call in a phrase has its code.** -/
theorem Emitted.hasNatives {g : Site} {sc : ScopeIndex} {phrase : Phrase} {a b : Nat}
    {types : List Ty} (h : Emitted g sc phrase a types b) :
    ∀ call ∈ phrase.natives sc, ∃ l, call.CodeAt g l := by
  induction h with
  | int | double | string | load | ret => exact List.forall_mem_nil _
  | argsNil | operandsNil | stmtsNil => exact List.forall_mem_nil _
  | unary _ _ _ ih | drop _ _ ih | assign _ _ _ _ ih | update _ _ _ _ _ _ ih | inner _ ih
  | retValue _ _ _ ih | print _ ih | call _ _ _ _ ih =>
    simpa only [Phrase.natives, Node.natives] using ih
  | blockMk _ _ ih => simpa only [Phrase.natives, Block.natives] using ih
  | binary _ _ _ ihright ihleft =>
    simpa only [Phrase.natives, Node.natives] using List.forall_mem_append.mpr ⟨ihleft, ihright⟩
  | argsCons _ _ _ _ ihargs iharg =>
    simpa only [Phrase.natives, Node.allNatives] using List.forall_mem_append.mpr ⟨iharg, ihargs⟩
  | operandsCons _ _ _ ih ihrest | stmtsCons _ _ ih ihrest =>
    simpa only [Phrase.natives, Node.allNatives] using List.forall_mem_append.mpr ⟨ih, ihrest⟩
  | ifThen _ _ _ ihcond ihthen | whileLoop _ _ _ _ ihcond ihthen =>
    simpa only [Phrase.natives, Node.natives] using List.forall_mem_append.mpr ⟨ihcond, ihthen⟩
  | ifElse _ _ _ _ _ ihcond ihthen ihelse =>
    simpa only [Phrase.natives, Node.natives] using
      List.forall_mem_append.mpr ⟨List.forall_mem_append.mpr ⟨ihcond, ihthen⟩, ihelse⟩
  | forLoop _ _ _ _ _ _ _ _ _ _ _ _ _ _ ihupper ihlower ihbody =>
    simpa only [Phrase.natives, Node.natives] using
      List.forall_mem_append.mpr ⟨List.forall_mem_append.mpr ⟨ihlower, ihupper⟩, ihbody⟩
  | native hcount hvars hloads hhost h =>
    obtain ⟨l, -, hcode⟩ := (Emitted.native hcount hvars hloads hhost h).exists_codeAt
    exact List.forall_mem_singleton.mpr ⟨l, hcode⟩

/-! ## Parameters -/

/-- Where a name means a variable of a scope that has a number, it is looked up as that. -/
theorem Symbols.Sound.isSlot_of_lookup {p : Program} {s : Symbols} (hs : s.Sound p)
    {sc x : ScopeIndex} {name : String} {ty : Ty} {info : VarInfo} {id : UInt16}
    (hvar : p.var? sc name = some (x, ty)) (hid : s.scopeId? x = some id)
    (hlook : s.lookupVar? p sc name = some info) :
    info.addr.scope = id ∧ ∃ scope, p.scope? x = some scope ∧
      IsSlot scope.vars.toList name info.addr.slot.toNat info.ty := by
  obtain ⟨inner, y, outer, hscopes, hy, hinner⟩ := List.findSome?_eq_some_iff.mp hvar
  obtain ⟨scope, hscope, hdecl⟩ := Option.bind_eq_some_iff.mp hy
  obtain ⟨var, -, heq⟩ := Option.map_eq_some_iff.mp hdecl
  obtain rfl : y = x := congrArg Prod.fst heq
  -- a scope further in declares the name neither in the tree nor in the tables
  have hnone : inner.findSome? (s.vars.declared? · name) = none := by
    refine List.findSome?_eq_none_iff.mpr fun z hz => ?_
    cases hz' : s.vars.declared? z name with
    | none => rfl
    | some found =>
      obtain ⟨scope, hscope, -, hslot, -, -⟩ := hs.declared? hz'
      have := hinner z hz
      rw [hscope, Option.bind_some, find?_of_isSlot hslot] at this
      cases this
  have hsome := hs.declared?_isSome hid name
  rw [hy] at hsome
  obtain ⟨found, hfound⟩ := Option.isSome_iff_exists.mp hsome
  have hlook' : s.lookupVar? p sc name = some found := by
    change (p.enclosing sc).findSome? (s.vars.declared? · name) = _
    rw [hscopes, List.findSome?_append, hnone, Option.none_or, List.findSome?_cons, hfound]
  obtain rfl := Option.some.inj (hlook.symm.trans hlook')
  obtain ⟨scope, hscope, hid', hslot, -, -⟩ := hs.declared? hfound
  exact ⟨Option.some.inj (hid'.symm.trans hid), scope, hscope, hslot⟩

/-- The parameters of a function are the first variables of its body's scope. -/
def Routine.paramAddr (r : Routine) (k : Nat) : VarAddr := ⟨r.scope, k.toUInt16⟩

/-- The parameters of a function, as variables. -/
def Routine.paramVars (r : Routine) (params : List VarDecl) : List VarInfo :=
  params.mapIdx fun k param => ⟨r.paramAddr k, param.ty⟩

section Parameters

variable {p : Program} {strict : Bool} {t t₀ t₁ : Compilation} {i sc : ScopeIndex}
  {f : FunctionDecl} {r : Routine} {k : Nat} {param : VarDecl} {info : VarInfo}

namespace Made

variable (m : Made p strict t i f r t₀ t₁) (hl : p.Linked) (hnodup : (f.params.map (·.name)).Nodup)

include m

/-- The body's scope has its number when the code begins. -/
theorem scopeId?_body : t₀.symbols.scopeId? f.body.scope = some r.scope := by
  obtain ⟨id, hid⟩ : ∃ id, t₀.symbols.scopeId? f.body.scope = some id := by
    have hfirst := m.code.owned
    generalize t₀.owned = first at hfirst
    cases hfirst with
    | plain _ h | top _ _ h => exact ⟨_, h⟩
  rw [hid, ← m.finished.scope, m.code.grows.symbols.scopeIds hid]

include hl hnodup

/-- A parameter has a slot of the body's scope. -/
theorem slot_param (hk : f.params[k]? = some param) :
    (r.paramAddr k).slot.toNat = k ∧ k < t₁.symbols.scopeSize r.scope := by
  obtain ⟨scope, hscope, hslot⟩ := hl.isSlot_param m.declared hnodup hk
  obtain ⟨scope', hscope', -, hmax, hsize, -⟩ :=
    m.code.grows.after.symbols.numbered m.finished.scope
  obtain rfl := Option.some.inj (hscope.symm.trans hscope')
  have := Symbols.maxId_lt
  have := hslot.lt
  exact ⟨toNat_toUInt16 (by omega), Nat.lt_of_lt_of_le hslot.lt hsize⟩

/-- The parameters of a function have their places in its frame. -/
theorem owns_param (hk : f.params[k]? = some param) : r.Owns (r.paramAddr k) := by
  obtain ⟨hslot, hlt⟩ := m.slot_param hl hnodup hk
  obtain ⟨id, hid, howned⟩ := m.code.block _ f.body_mem_frameScopes
  obtain rfl := Option.some.inj (m.finished.scope.symm.trans hid)
  exact m.owns_of_mem howned (hslot.symm ▸ hlt)

/-- **What a native call loads for a parameter is that parameter**, if its name means the same there as
in the function's body. -/
theorem info_of_param (hk : f.params[k]? = some param)
    (hmeans : p.var? sc param.name = p.var? f.body.scope param.name)
    (hvar : (Site.of ⟨p, f, strict⟩ t₀ t₁).var sc param.name info) :
    info = ⟨r.paramAddr k, param.ty⟩ := by
  obtain ⟨t', h₀, h₁, hlook⟩ := hvar
  rw [hl.var?_param m.declared hnodup (List.mem_of_getElem? hk)] at hmeans
  have hid := h₀.symbols.scopeIds m.scopeId?_body
  obtain ⟨hscope, scope, hdecl, hslot⟩ := h₀.after.symbols.isSlot_of_lookup hmeans hid hlook
  obtain ⟨scope', hdecl', hparam⟩ := hl.isSlot_param m.declared hnodup hk
  obtain rfl := Option.some.inj (hdecl.symm.trans hdecl')
  obtain ⟨heq, hty⟩ := hslot.unique hparam
  obtain ⟨⟨scope, slot⟩, ty⟩ := info
  obtain rfl : scope = _ := hscope
  obtain rfl : ty = _ := hty
  obtain rfl : slot = _ := UInt16.toNat_inj.mp (heq.trans (m.slot_param hl hnodup hk).1.symm)
  rfl

theorem owns_of_mem_paramVars (h : info ∈ r.paramVars f.params) :
    r.Owns info.addr ∧ ∃ param ∈ f.params, info.ty = param.ty := by
  obtain ⟨k, hk, rfl⟩ := List.mem_mapIdx.mp h
  have hparam := List.getElem?_eq_getElem hk
  exact ⟨m.owns_param hl hnodup hparam, f.params[k], List.getElem_mem hk, rfl⟩

/-- Variables looked up by the names of the parameters are the parameters, if the names mean the same
there as in the function's body. -/
theorem infos_eq_paramVars {infos : List VarInfo} (hcount : infos.length = f.params.length)
    (hvars : ∀ y ∈ f.params.zip infos, (Site.of ⟨p, f, strict⟩ t₀ t₁).var sc y.1.name y.2)
    (hmeans : ∀ param ∈ f.params, p.var? sc param.name = p.var? f.body.scope param.name) :
    infos = r.paramVars f.params := by
  refine List.ext_getElem? fun k => ?_
  rw [Routine.paramVars, List.getElem?_mapIdx]
  cases hparam : f.params[k]? with
  | none =>
    rw [Option.map_none, List.getElem?_eq_none_iff, hcount]
    exact List.getElem?_eq_none_iff.mp hparam
  | some param =>
    obtain ⟨hlt, -⟩ := List.getElem?_eq_some_iff.mp hparam
    have hinfo := List.getElem?_eq_getElem (hcount ▸ hlt : k < infos.length)
    have hzip : (param, infos[k]) ∈ f.params.zip infos :=
      List.mem_of_getElem? (List.getElem?_zip_eq_some.mpr ⟨hparam, hinfo⟩)
    rw [hinfo, Option.map_some]
    exact congrArg some (m.info_of_param hl hnodup hparam
      (hmeans param (List.mem_of_getElem? hparam)) (hvars _ hzip))

/-- The code of a function begins with storing the arguments to the parameters. -/
theorem stores_params : ∃ b, r.code.Line 0 ((r.paramVars f.params).map storeInstr) b := by
  obtain ⟨infos, b, -, hcount, hvars, hstores, -⟩ := m.code.emitted
  rw [m.infos_eq_paramVars hl hnodup hcount hvars fun _ _ => rfl, m.code.code_eq] at hstores
  exact ⟨b, hstores⟩

end Made

end Parameters

end StackLang
