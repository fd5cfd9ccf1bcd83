import StackLang.Proofs.Compile.Emitted
import StackLang.Proofs.Compile.Names

/-!
# What strict returns refuse

`Node.returns` lists the returns inside a node as its compilation comes to them, each with the state in
which that happens, and `Unfit` says which of them do not fit the function. Strict returns make no
difference to the compilation of a body but for the unfit ones, at which it stops
(`compileStatements_checks`). `Filters` is that relation between two runs that share their states; it
carries over from steps to sequences of them.
-/

namespace StackLang

open CompileM

/-! ## The returns of a body -/

mutual

/-- The values of the returns inside a node, in the order in which they are compiled. -/
def Node.returnValues : Node → List (Option Node)
  | .store _ _ value => value.returnValues
  | .binary _ left right => right.returnValues ++ left.returnValues
  | .unary _ operand => operand.returnValues
  | .call _ args => Node.argReturnValues args
  | .block body => body.returnValues
  | .ifElse condition thenBlock none => condition.returnValues ++ thenBlock.returnValues
  | .ifElse condition thenBlock (some elseBlock) =>
    condition.returnValues ++ (thenBlock.returnValues ++ elseBlock.returnValues)
  | .whileLoop condition body => condition.returnValues ++ body.returnValues
  | .forLoop _ range body => range.returnValues ++ body.returnValues
  | .ret none => [none]
  | .ret (some value) => value.returnValues ++ [some value]
  | .print operands => Node.allReturnValues operands
  | _ => []
termination_by structural node => node

def Node.argReturnValues : List Node → List (Option Node)
  | [] => []
  | arg :: args => Node.argReturnValues args ++ arg.returnValues
termination_by structural args => args

def Node.allReturnValues : List Node → List (Option Node)
  | [] => []
  | node :: nodes => node.returnValues ++ Node.allReturnValues nodes
termination_by structural nodes => nodes

def Block.returnValues : Block → List (Option Node)
  | .mk _ statements => Node.allReturnValues statements
termination_by structural block => block

end

/-- A return, and the state in which its compilation begins. -/
structure ReturnSite where
  value? : Option Node
  state : Compilation

namespace CompileM

variable {α β : Type}

/-- What is listed on the way through a step, and then from the state that it leads to. -/
def listThen (m : CompileM α) (here : Compilation → List β) (next : α → Compilation → List β) :
    Compilation → List β := fun t =>
  here t ++ match m t with
    | .ok (a, t') => next a t'
    | .error _ => []

/-- What is listed from the state that a step leads to. -/
def listFrom (m : CompileM α) (next : α → Compilation → List β) : Compilation → List β :=
  m.listThen (fun _ => []) next

end CompileM

/-! Steps between the parts of a node. -/

def openIf : CompileM Label := do
  requireInt (← popType)
  let no ← newLabel
  emit .int0
  emitBranch .jumpEq no
  return no

def openElse (no : Label) : CompileM Label := do
  let after ← newLabel
  emitBranch .jump after
  bindLabel no
  return after

def openWhile : CompileM (Label × Label) := do
  let start ← boundLabel
  let after ← newLabel
  return (start, after)

def testWhile (after : Label) : CompileM Unit := do
  requireInt (← popType)
  emit .int1
  emitBranch .jumpNe after

def openRange (c : FunctionContext) (name : String) : CompileM (VarInfo × VarAddr) := do
  let var ← resolveVar c.source name
  requireInt var.ty
  let limit ← allocScratch c
  return (var, limit)

def storeBound (addr : VarAddr) : CompileM Unit := do
  boundToInt
  emitVar .storeIntVar addr

def printTop : CompileM Unit := do
  emit (printOp (← popType))

/-- Drops what is left of a statement that began with this many types. -/
def dropAbove (depth : Nat) : CompileM Unit := do
  dropValues ((← get).types.length - depth)

mutual

/-- The returns inside a node, when it is compiled from a state on. -/
def Node.returns (c : FunctionContext) : Node → Compilation → List ReturnSite
  | .store name _ value => (resolveVar c.source name).listFrom fun _ => value.returns c
  | .binary _ left right => (compileNode c right).listThen (right.returns c) fun _ => left.returns c
  | .unary _ operand => operand.returns c
  | .call name args => (resolveFunction c name).listFrom fun found =>
    Node.argReturns c args found.2.params
  | .block body => body.returns c
  | .ifElse condition thenBlock none =>
    (compileNode c condition).listThen (condition.returns c) fun _ =>
      openIf.listFrom fun _ => thenBlock.returns c
  | .ifElse condition thenBlock (some elseBlock) =>
    (compileNode c condition).listThen (condition.returns c) fun _ =>
      openIf.listFrom fun no => (compileBlock c thenBlock).listThen (thenBlock.returns c) fun _ =>
        (openElse no).listFrom fun _ => elseBlock.returns c
  | .whileLoop condition body => openWhile.listFrom fun labels =>
    (compileNode c condition).listThen (condition.returns c) fun _ =>
      (testWhile labels.2).listFrom fun _ => body.returns c
  | .forLoop name (.binary .range lower upper) body => (openRange c name).listFrom fun range =>
    (compileNode c upper).listThen (upper.returns c) fun _ =>
      (storeBound range.2).listFrom fun _ =>
        (compileNode c lower).listThen (lower.returns c) fun _ =>
          (storeBound range.1.addr).listFrom fun _ =>
            (openFor range.1.addr range.2).listFrom fun _ => body.returns c
  | .ret none => fun t => [⟨none, t⟩]
  | .ret (some value) => fun t => value.returns c t ++ [⟨some value, t⟩]
  | .print operands => Node.operandReturns c operands
  | _ => fun _ => []
termination_by structural node => node

def Node.argReturns (c : FunctionContext) : List Node → List Ty → Compilation → List ReturnSite
  | arg :: args, _ :: tys => (compileArgs c args tys).listThen (Node.argReturns c args tys) fun _ =>
    arg.returns c
  | _, _ => fun _ => []
termination_by structural args => args

def Node.operandReturns (c : FunctionContext) : List Node → Compilation → List ReturnSite
  | [] => fun _ => []
  | operand :: operands => (compileNode c operand).listThen (operand.returns c) fun _ =>
    printTop.listFrom fun _ => Node.operandReturns c operands
termination_by structural operands => operands

def Block.returns (c : FunctionContext) : Block → Compilation → List ReturnSite
  | .mk scope statements => (enterBlock c scope).listFrom fun _ => Node.allReturns c statements
termination_by structural block => block

def Node.allReturns (c : FunctionContext) : List Node → Compilation → List ReturnSite
  | [] => fun _ => []
  | statement :: statements => fun t =>
    (compileNode c statement).listThen (statement.returns c) (fun _ =>
      (dropAbove t.types.length).listFrom fun _ => Node.allReturns c statements) t
termination_by structural statements => statements

end

/-- A return that does not fit its function: there is no value where one is declared, or its type is not
the declared one and cannot be made it. It counts as being of the second type. -/
inductive Unfit (c : FunctionContext) : ReturnSite → Ty → Prop
  | missing {t : Compilation} (h : c.function.result ≠ .void) : Unfit c ⟨none, t⟩ .void
  | mismatch {value : Node} {t t' : Compilation} {found : Ty} {types : List Ty}
      (hvalue : compileNode c value t = .ok ((), t')) (htypes : t'.types = found :: types)
      (h : coerced found c.function.result ≠ c.function.result) : Unfit c ⟨some value, t⟩ found

/-! ## Runs in step -/

section Filters

variable {ε α β : Type}

/-- Two runs from one state are the same, but for errors that only the first one raises: it does so at
what is `refused`, and not elsewhere. -/
structure Filters (refused : Compilation → ε → Prop)
    (strict lax : StateT Compilation (Except ε) α) : Prop where
  sound : ∀ {t x}, strict t = .ok x → lax t = .ok x
  exact : ∀ {t x}, lax t = .ok x → (strict t = .ok x ∧ ∀ e, ¬ refused t e) ∨
    ∃ e, refused t e ∧ strict t = .error e

namespace Filters

variable {refused refused' : Compilation → ε → Prop} {strict lax : StateT Compilation (Except ε) α}

theorem same (m : StateT Compilation (Except ε) α) : Filters (fun _ _ => False) m m :=
  ⟨id, fun h => .inl ⟨h, fun _ => id⟩⟩

theorem congr (h : Filters refused strict lax)
    (hiff : ∀ {t x}, lax t = .ok x → ∀ e, refused t e ↔ refused' t e) :
    Filters refused' strict lax where
  sound := h.sound
  exact hlax := by
    rcases h.exact hlax with ⟨hok, hnone⟩ | ⟨e, he, herror⟩
    · exact .inl ⟨hok, fun e he => hnone e ((hiff hlax e).mpr he)⟩
    · exact .inr ⟨e, (hiff hlax e).mp he, herror⟩

theorem exists_of_bind {m : StateT Compilation (Except ε) α}
    {k : α → StateT Compilation (Except ε) β} {t : Compilation} {x : β × Compilation}
    (h : (m >>= k) t = .ok x) : ∃ a t', m t = .ok (a, t') ∧ k a t' = .ok x := by
  cases hm : m t with
  | error e =>
    rw [bind_of_error hm] at h
    cases h
  | ok r =>
    rw [bind_of_ok hm] at h
    exact ⟨r.1, r.2, rfl, h⟩

/-- One step before another: what is refused is met in the first one or after it. -/
theorem bind {next : α → Compilation → ε → Prop}
    {strict' lax' : α → StateT Compilation (Except ε) β} (h : Filters refused strict lax)
    (h' : ∀ a, Filters (next a) (strict' a) (lax' a)) :
    Filters (fun t e => refused t e ∨ ∃ a t', lax t = .ok (a, t') ∧ next a t' e)
      (strict >>= strict') (lax >>= lax') where
  sound hok := by
    obtain ⟨a, t', hfirst, hnext⟩ := exists_of_bind hok
    rw [bind_of_ok (h.sound hfirst)]
    exact (h' a).sound hnext
  exact hok := by
    obtain ⟨a, t', hfirst, hnext⟩ := exists_of_bind hok
    rcases h.exact hfirst with ⟨hsame, hnone⟩ | ⟨e, he, herror⟩
    · rw [bind_of_ok hsame]
      rcases (h' a).exact hnext with ⟨hsame', hnone'⟩ | ⟨e, he, herror⟩
      · refine .inl ⟨hsame', ?_⟩
        rintro e (he | ⟨a', t'', hfirst', he⟩)
        · exact hnone e he
        · cases hfirst.symm.trans hfirst'
          exact hnone' e he
      · exact .inr ⟨e, .inr ⟨a, t', hfirst, he⟩, herror⟩
    · exact .inr ⟨e, .inl he, bind_of_error herror⟩

end Filters

end Filters

/-! ## Bodies -/

/-- Of two compilations from one state, the first stops at the first of these returns that is unfit. If
the second succeeds, the returns are those with these values. -/
structure Checks (c : FunctionContext) (values : List (Option Node))
    (sites : Compilation → List ReturnSite) {α : Type} (strict lax : CompileM α) : Prop where
  filters : Filters (fun t e => ∃ r ∈ sites t, ∃ found, Unfit c r found ∧
    e = .returnTypeMismatch c.function.result found) strict lax
  all : ∀ {t x}, lax t = .ok x → (sites t).map (·.value?) = values

namespace Checks

variable {α β : Type} {c : FunctionContext} {values values' : List (Option Node)}
  {sites : Compilation → List ReturnSite} {strict lax : CompileM α}

/-- A step that does not depend on it. -/
theorem same (m : CompileM α) : Checks c [] (fun _ => []) m m where
  filters := (Filters.same m).congr (by simp)
  all _ := rfl

theorem bind {next : α → Compilation → List ReturnSite} {strict' lax' : α → CompileM β}
    (h : Checks c values sites strict lax)
    (h' : ∀ a, Checks c values' (next a) (strict' a) (lax' a)) :
    Checks c (values ++ values') (lax.listThen sites next) (strict >>= strict')
      (lax >>= lax') where
  filters := (h.filters.bind fun a => (h' a).filters).congr fun {t x} hok e => by
    obtain ⟨a, t', hfirst, -⟩ := bind_ok hok
    simp [CompileM.listThen, hfirst, or_and_right, exists_or]
  all {t x} hok := by
    obtain ⟨a, t', hfirst, hnext⟩ := bind_ok hok
    simp only [CompileM.listThen, hfirst, List.map_append, h.all hfirst, (h' a).all hnext]

theorem throw (cause : Cause) :
    Checks c values sites (MonadExcept.throw cause : CompileM α) (MonadExcept.throw cause) :=
  ⟨⟨nofun, nofun⟩, nofun⟩

/-- After a step that does not depend on it. -/
theorem next {next : α → Compilation → List ReturnSite} {strict lax : α → CompileM β}
    (m : CompileM α) (h : ∀ a, Checks c values (next a) (strict a) (lax a)) :
    Checks c values (m.listFrom next) (m >>= strict) (m >>= lax) :=
  (same m).bind h

/-- Before steps that do not depend on it. -/
theorem last (h : Checks c values sites strict lax) (k : α → CompileM β) :
    Checks c values sites (strict >>= k) (lax >>= k) := by
  have hbind := h.bind fun a => same (k a)
  have hsites : lax.listThen sites (fun _ _ => []) = sites := by
    funext t
    unfold CompileM.listThen
    split <;> exact List.append_nil _
  rwa [hsites, List.append_nil] at hbind

/-- A step that is refused if `q` holds. -/
theorem refuse {q : Prop} [Decidable q] {cause : Cause} (h : ¬ q → Checks c values sites strict lax) :
    Checks c values sites
      (if q then (MonadExcept.throw cause : CompileM PUnit) >>= fun _ => strict else strict)
      (if q then (MonadExcept.throw cause : CompileM PUnit) >>= fun _ => lax else lax) := by
  by_cases hq : q
  · simp only [if_pos hq]
    exact ⟨⟨nofun, nofun⟩, nofun⟩
  · simp only [if_neg hq]
    exact h hq

end Checks

/-! ### Steps between the parts -/

section Parts

variable (c : FunctionContext)

theorem compileNode_ifThen (condition : Node) (thenBlock : Block) :
    compileNode c (.ifElse condition thenBlock none) = (do
      compileNode c condition
      let no ← openIf
      compileBlock c thenBlock
      bindLabel no) := by
  simp only [compileNode, openIf, bind_assoc, pure_bind]

theorem compileNode_ifElse (condition : Node) (thenBlock elseBlock : Block) :
    compileNode c (.ifElse condition thenBlock (some elseBlock)) = (do
      compileNode c condition
      let no ← openIf
      compileBlock c thenBlock
      let after ← openElse no
      compileBlock c elseBlock
      bindLabel after) := by
  simp only [compileNode, openIf, openElse, bind_assoc, pure_bind]

theorem compileNode_whileLoop (condition : Node) (body : Block) :
    compileNode c (.whileLoop condition body) = (do
      let labels ← openWhile
      compileNode c condition
      testWhile labels.2
      compileBlock c body
      emitBranch .jump labels.1
      bindLabel labels.2) := by
  simp only [compileNode, openWhile, testWhile, bind_assoc, pure_bind]

theorem compileNode_forLoop (name : String) (lower upper : Node) (body : Block) :
    compileNode c (.forLoop name (.binary .range lower upper) body) = (do
      let range ← openRange c name
      compileNode c upper
      storeBound range.2
      compileNode c lower
      storeBound range.1.addr
      let labels ← openFor range.1.addr range.2
      compileBlock c body
      closeFor range.1.addr labels.1 labels.2) := by
  simp only [compileNode, openRange, storeBound, bind_assoc, pure_bind]

theorem compileOperands_cons (operand : Node) (operands : List Node) :
    compileOperands c (operand :: operands) = (do
      compileNode c operand
      printTop
      compileOperands c operands) := by
  simp only [compileOperands, printTop, bind_assoc]

theorem compileStatements_cons (statement : Node) (statements : List Node) :
    compileStatements c (statement :: statements) = (do
      let t ← get
      compileNode c statement
      dropAbove t.types.length
      compileStatements c statements) := by
  simp only [compileStatements, dropAbove, bind_assoc]

end Parts

/-! ### The return of a value -/

section Body

variable {p : Program} {f : FunctionDecl}

/-- Only with strict returns the type of the value makes a difference. -/
theorem compileReturnValue_cases {t : Compilation} {found : Ty} {types : List Ty}
    (h : t.types = found :: types) : ∃ t', compileReturnValue ⟨p, f, false⟩ t = .ok ((), t') ∧
      compileReturnValue ⟨p, f, true⟩ t = if coerced found f.result = f.result then .ok ((), t')
        else .error (.returnTypeMismatch f.result found) := by
  obtain ⟨exe, symbols, code, types', owned, scope⟩ := t
  obtain ⟨name, result, params, body⟩ := f
  cases h
  cases result <;> cases found <;> exact ⟨_, rfl, rfl⟩

theorem exists_types_of_return {c : FunctionContext} {t : Compilation} {x : Unit × Compilation}
    (h : compileReturnValue c t = .ok x) : ∃ found types, t.types = found :: types := by
  obtain ⟨found, _, htop, -⟩ := bind_ok h
  obtain ⟨types, htypes, -⟩ := topType_ok htop
  exact ⟨found, types, htypes⟩

/-- The value of a return has been compiled; what is left depends on its type. -/
theorem compileReturnValue_filters :
    Filters (fun t e => ∃ found types, t.types = found :: types ∧
      coerced found f.result ≠ f.result ∧ e = .returnTypeMismatch f.result found)
      (compileReturnValue ⟨p, f, true⟩) (compileReturnValue ⟨p, f, false⟩) where
  sound {t x} hok := by
    obtain ⟨found, types, htypes⟩ := exists_types_of_return hok
    obtain ⟨t', hlax, hstrict⟩ := compileReturnValue_cases htypes
    rw [hstrict] at hok
    split at hok
    · rw [hlax, hok]
    · cases hok
  exact {t x} hok := by
    obtain ⟨found, types, htypes⟩ := exists_types_of_return hok
    obtain ⟨t', hlax, hstrict⟩ := compileReturnValue_cases htypes
    rw [hstrict]
    by_cases hfits : coerced found f.result = f.result
    · rw [if_pos hfits, ← hlax]
      refine .inl ⟨hok, ?_⟩
      rintro e ⟨found', types', htypes', hunfit, -⟩
      cases htypes.symm.trans htypes'
      exact hunfit hfits
    · rw [if_neg hfits]
      exact .inr ⟨_, ⟨found, types, htypes, hfits, rfl⟩, rfl⟩

/-- A return without a value. -/
theorem compileNode_ret_checks : Checks ⟨p, f, false⟩ [none] (fun t => [⟨none, t⟩])
    (compileNode ⟨p, f, true⟩ (.ret none)) (compileNode ⟨p, f, false⟩ (.ret none)) := by
  by_cases hvoid : f.result = .void
  · have hsame : compileNode ⟨p, f, true⟩ (.ret none) = compileNode ⟨p, f, false⟩ (.ret none) := by
      simp [compileNode, hvoid]
    rw [hsame]
    refine ⟨⟨id, fun hok => .inl ⟨hok, ?_⟩⟩, fun _ => rfl⟩
    rintro e ⟨r, hr, found, hunfit, -⟩
    cases List.mem_singleton.mp hr
    cases hunfit with
    | missing h => exact h hvoid
  · have hrefused : compileNode ⟨p, f, true⟩ (.ret none) =
        throw (.returnTypeMismatch f.result .void) >>= fun _ : PUnit => emit .ret := by
      simp [compileNode, hvoid]
    rw [hrefused]
    exact ⟨⟨nofun, fun _ => .inr ⟨_, ⟨_, List.mem_singleton_self _, _, .missing hvoid, rfl⟩, rfl⟩⟩,
      fun _ => rfl⟩

/-- The return of a value. -/
theorem Checks.returnValue {value : Node} (h : Checks ⟨p, f, false⟩ value.returnValues
    (value.returns ⟨p, f, false⟩) (compileNode ⟨p, f, true⟩ value)
    (compileNode ⟨p, f, false⟩ value)) :
    Checks ⟨p, f, false⟩ (value.returnValues ++ [some value])
      (fun t => value.returns ⟨p, f, false⟩ t ++ [⟨some value, t⟩])
      (compileNode ⟨p, f, true⟩ (.ret (some value)))
      (compileNode ⟨p, f, false⟩ (.ret (some value))) := by
  rw [compileNode, compileNode]
  refine ⟨(h.filters.bind fun _ => compileReturnValue_filters).congr fun {t x} hok e => ?_,
    fun {t x} hok => ?_⟩
  · obtain ⟨_, t', hvalue, -⟩ := bind_ok hok
    simp only [List.mem_append, List.mem_singleton, or_and_right, exists_or, exists_eq_left]
    refine or_congr Iff.rfl ⟨?_, ?_⟩
    · rintro ⟨_, t₁, hvalue', found, types, htypes, hunfit, rfl⟩
      exact ⟨found, .mismatch hvalue' htypes hunfit, rfl⟩
    · rintro ⟨found, hunfit, rfl⟩
      cases hunfit with
      | mismatch hvalue' htypes h => exact ⟨_, _, hvalue', _, _, htypes, h, rfl⟩
  · obtain ⟨_, t', hvalue, -⟩ := bind_ok hok
    rw [List.map_append, h.all hvalue]
    rfl

variable (p f)

mutual

/-- **Strict returns stop the compilation of a node at the first unfit return** and make no other
difference. -/
theorem compileNode_checks : (n : Node) → Checks ⟨p, f, false⟩ n.returnValues
    (n.returns ⟨p, f, false⟩) (compileNode ⟨p, f, true⟩ n) (compileNode ⟨p, f, false⟩ n)
  | .int _ | .double _ | .string _ | .load _ | .native _ => .same _
  | .store name op value => by
    rw [compileNode, compileNode]
    exact .next (resolveVar p name) fun _ => (compileNode_checks value).last _
  | .binary op left right => by
    rw [compileNode, compileNode]
    exact .refuse fun _ => (compileNode_checks right).bind fun _ =>
      (compileNode_checks left).last _
  | .unary op operand => by
    rw [compileNode, compileNode]
    exact (compileNode_checks operand).last _
  | .call name args => by
    rw [compileNode, compileNode]
    exact .next (resolveFunction ⟨p, f, false⟩ name) fun (id, callee) =>
      .refuse fun hcount => (compileArgs_checks args callee.params
        (Classical.not_not.mp hcount).symm).last _
  | .block body => by
    rw [compileNode, compileNode]
    exact compileBlock_checks body
  | .ifElse condition thenBlock none => by
    rw [compileNode_ifThen, compileNode_ifThen]
    exact (compileNode_checks condition).bind fun _ => .next openIf fun _ =>
      (compileBlock_checks thenBlock).last _
  | .ifElse condition thenBlock (some elseBlock) => by
    rw [compileNode_ifElse, compileNode_ifElse]
    exact (compileNode_checks condition).bind fun _ => .next openIf fun no =>
      (compileBlock_checks thenBlock).bind fun _ => .next (openElse no) fun _ =>
        (compileBlock_checks elseBlock).last _
  | .whileLoop condition body => by
    rw [compileNode_whileLoop, compileNode_whileLoop]
    exact .next openWhile fun labels => (compileNode_checks condition).bind fun _ =>
      .next (testWhile labels.2) fun _ => (compileBlock_checks body).last _
  | .forLoop name (.binary op lower upper) body => by
    cases op with
    | range =>
      rw [compileNode_forLoop, compileNode_forLoop, Node.returnValues, Node.returnValues,
        List.append_assoc]
      exact .next (openRange ⟨p, f, false⟩ name) fun range => (compileNode_checks upper).bind fun _ =>
        .next (storeBound range.2) fun _ => (compileNode_checks lower).bind fun _ =>
        .next (storeBound range.1.addr) fun _ => .next (openFor range.1.addr range.2) fun _ =>
        (compileBlock_checks body).last _
    | _ => exact .throw _
  -- Any other range is refused.
  | .forLoop _ (.int _) _ | .forLoop _ (.double _) _ | .forLoop _ (.string _) _
  | .forLoop _ (.load _) _ | .forLoop _ (.store _ _ _) _ | .forLoop _ (.unary _ _) _
  | .forLoop _ (.call _ _) _ | .forLoop _ (.block _) _ | .forLoop _ (.ifElse _ _ _) _
  | .forLoop _ (.whileLoop _ _) _ | .forLoop _ (.forLoop _ _ _) _ | .forLoop _ (.ret _) _
  | .forLoop _ (.print _) _ | .forLoop _ (.native _) _ => .throw _
  | .ret none => compileNode_ret_checks
  | .ret (some value) => (compileNode_checks value).returnValue
  | .print operands => by
    rw [compileNode, compileNode]
    exact compileOperands_checks operands
termination_by structural n => n

theorem compileArgs_checks : (args : List Node) → (tys : List Ty) → args.length = tys.length →
    Checks ⟨p, f, false⟩ (Node.argReturnValues args) (Node.argReturns ⟨p, f, false⟩ args tys)
      (compileArgs ⟨p, f, true⟩ args tys) (compileArgs ⟨p, f, false⟩ args tys)
  | [], _, _ => by
    rw [compileArgs.eq_def, compileArgs.eq_def]
    exact .same _
  | arg :: args, ty :: tys, h => by
    rw [compileArgs, compileArgs]
    exact (compileArgs_checks args tys (Nat.succ.inj h)).bind fun _ =>
      (compileNode_checks arg).last _
termination_by structural args => args

theorem compileOperands_checks : (operands : List Node) →
    Checks ⟨p, f, false⟩ (Node.allReturnValues operands)
      (Node.operandReturns ⟨p, f, false⟩ operands) (compileOperands ⟨p, f, true⟩ operands)
      (compileOperands ⟨p, f, false⟩ operands)
  | [] => .same _
  | operand :: operands => by
    rw [compileOperands_cons, compileOperands_cons]
    exact (compileNode_checks operand).bind fun _ => .next printTop fun _ =>
      compileOperands_checks operands
termination_by structural operands => operands

theorem compileBlock_checks : (body : Block) →
    Checks ⟨p, f, false⟩ body.returnValues (body.returns ⟨p, f, false⟩)
      (compileBlock ⟨p, f, true⟩ body) (compileBlock ⟨p, f, false⟩ body)
  | .mk scope statements => by
    rw [compileBlock, compileBlock]
    exact .next (enterBlock ⟨p, f, false⟩ scope) fun _ =>
      (compileStatements_checks statements).last _
termination_by structural body => body

theorem compileStatements_checks : (statements : List Node) →
    Checks ⟨p, f, false⟩ (Node.allReturnValues statements)
      (Node.allReturns ⟨p, f, false⟩ statements) (compileStatements ⟨p, f, true⟩ statements)
      (compileStatements ⟨p, f, false⟩ statements)
  | [] => .same _
  | statement :: statements => by
    rw [compileStatements_cons, compileStatements_cons]
    exact .next get fun t => (compileNode_checks statement).bind fun _ =>
      .next (dropAbove t.types.length) fun _ => compileStatements_checks statements
termination_by structural statements => statements

end

end Body

end StackLang
