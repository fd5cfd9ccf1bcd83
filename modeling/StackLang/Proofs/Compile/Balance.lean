import StackLang.Proofs.Compile.Backed
import StackLang.Proofs.Verify.Certificates

/-!
# The code of a phrase is balanced

`raises_of_emitted`: entered with any height of the stack, the code of a phrase whose types are backed
by values is left only at its end, with as many values more as it leaves types of values. All branches
of a phrase lead to its own code or to its end, so the induction is on `Emitted`, one lemma for each
shape of code.
-/

namespace StackLang

open Executable

/-- How many values are on the stack for these types. What a call without a result leaves is a type
alone. -/
def held (types : List Ty) : Nat := types.countP (·.isValue)

theorem held_value {ty : Ty} (h : ty.isValue = true) : held [ty] = 1 := by
  simp [held, h]

theorem Ty.isValue_of_isNumeric {ty : Ty} (h : ty.isNumeric = true) : ty.isValue = true := by
  cases ty <;> first | rfl | cases h

/-- The tables of an executable have what the code of a function refers to. -/
structure Site.Tabled (g : Site) (e : Executable) : Prop where
  var : ∀ {sc name info}, g.var sc name info → info.addr.scope.toNat < e.scopeCount
  function : ∀ {sc name id r}, g.function sc name id r →
    ∃ r', e.routine? id = some r' ∧ r'.params = r.params ∧ r'.result = r.result
  text : ∀ {s id}, g.text s id → (e.strings.get? id).isNone = false
  host : ∀ {n id}, g.host n id → e.native? id = some n
  hidden : ∀ {sc addr}, g.hidden sc addr → addr.scope.toNat < e.scopeCount

variable {e : Executable} {g : Site} {h : Nat} {exits : Nat → Nat → Prop}

/-! ## Lines -/

theorem effectOf_var {op : Opcode} {effect : Effect} {addr : VarAddr}
    (haddr : addr.scope.toNat < e.scopeCount) (heffect : op.effect = some effect) :
    e.effectOf op (.var addr) = .ok effect := by
  simp only [effectOf, plainEffect, heffect]
  rw [if_neg (Nat.not_le.mpr haddr)]

theorem effectOf_string {op : Opcode} {effect : Effect} {id : UInt16}
    (hid : (e.strings.get? id).isNone = false) (heffect : op.effect = some effect) :
    e.effectOf op (.string id) = .ok effect := by
  simp only [effectOf, plainEffect, heffect, hid]
  rfl

theorem steady_load {ty : Ty} {addr : VarAddr} {line : List (Opcode × Operand)} {h' : Nat}
    (hty : ty.isValue = true) (haddr : addr.scope.toNat < e.scopeCount)
    (hrest : Steady e exits (h + 1) line h') :
    Steady e exits h ((loadOp ty, .var addr) :: line) h' := by
  cases ty with
  | void | invalid => cases hty
  | _ => exact .cons (effectOf_var haddr rfl) (Nat.zero_le _) rfl nofun hrest

theorem steady_store {ty : Ty} {addr : VarAddr} {line : List (Opcode × Operand)} {h' : Nat}
    (hty : ty.isValue = true) (haddr : addr.scope.toNat < e.scopeCount)
    (hrest : Steady e exits h line h') :
    Steady e exits (h + 1) ((storeOp ty, .var addr) :: line) h' := by
  cases ty with
  | void | invalid => cases hty
  | _ => exact .cons (effectOf_var haddr rfl) (Nat.le_add_left 1 h) rfl nofun hrest

theorem held_of_not_isValue {ty : Ty} (h : ty.isValue = false) : held [ty] = 0 := by
  simp [held, h]

/-- A variable that cannot hold a value leaves nothing when it is loaded. -/
theorem steady_loadInstr {info : VarInfo} (haddr : info.addr.scope.toNat < e.scopeCount) :
    Steady e exits h [loadInstr info] (h + held [info.ty]) := by
  cases hty : info.ty.isValue with
  | true =>
    rw [loadInstr_of_isValue hty, held_value hty]
    exact steady_load hty haddr .nil
  | false =>
    rw [loadInstr, hty, held_of_not_isValue hty]
    exact .op rfl (Nat.zero_le _) rfl .nil

theorem steady_storeInstr {info : VarInfo} (haddr : info.addr.scope.toNat < e.scopeCount) :
    Steady e exits (h + held [info.ty]) [storeInstr info] h := by
  cases hty : info.ty.isValue with
  | true =>
    rw [storeInstr_of_isValue hty, held_value hty]
    exact steady_store hty haddr .nil
  | false =>
    rw [storeInstr, hty, held_of_not_isValue hty]
    exact .op rfl (Nat.zero_le _) rfl .nil

theorem held_coerced (found target : Ty) : held [coerced found target] = held [found] := by
  unfold coerced
  split <;> rfl

theorem steady_coercion (found target : Ty) :
    Steady e exits (h + held [found]) (coercion found target) (h + held [found]) := by
  unfold coercion
  split
  · exact .op rfl (Nat.le_add_left 1 h) rfl .nil
  · exact .op rfl (Nat.le_add_left 1 h) rfl .nil
  · exact .nil

theorem coercion_not_terminator (found target : Ty) :
    ∀ x ∈ coercion found target, x.1.isTerminator = false := by
  unfold coercion
  split <;> simp [Opcode.isTerminator]

theorem steady_boundCode (ty : Ty) :
    Steady e exits (h + held [ty]) (boundCode ty) (h + held [ty]) := by
  cases ty with
  | double => exact .op rfl (Nat.le_add_left 1 h) rfl .nil
  | _ => exact .nil

theorem boundCode_not_terminator (ty : Ty) : ∀ x ∈ boundCode ty, x.1.isTerminator = false := by
  cases ty <;> simp [boundCode, Opcode.isTerminator]

theorem steady_promotion (left right : Ty) :
    Steady e exits (h + 2) (promotion left right) (h + 2) := by
  have hone : 1 ≤ h + 2 := by omega
  have htwo : 2 ≤ h + 2 := Nat.le_add_left 2 h
  unfold promotion
  split
  · exact .nil
  · have hleft : Steady e exits (h + 2) (if left = .int then [(.intToDouble, .none)] else [])
        (h + 2) := by
      split
      · exact .op rfl hone rfl .nil
      · exact .nil
    refine hleft.append (by split <;> simp [Opcode.isTerminator]) ?_
    split
    · exact .op rfl htwo rfl (.op rfl hone rfl (.op rfl htwo rfl .nil))
    · exact .nil

theorem promotion_not_terminator (left right : Ty) :
    ∀ x ∈ promotion left right, x.1.isTerminator = false := by
  unfold promotion
  split
  · simp
  · intro x hx
    rcases List.mem_append.mp hx with hx | hx <;> split at hx <;> simp at hx
    · rw [hx]; rfl
    · rcases hx with rfl | rfl | rfl <;> rfl

theorem steady_drop {ty : Ty} (hty : ty ≠ .invalid) :
    Steady e exits (h + held [ty]) (dropCode ty) h := by
  cases ty with
  | void => exact .nil
  | invalid => exact absurd rfl hty
  | _ => exact .op rfl (Nat.le_add_left 1 h) rfl .nil

theorem steady_print (ty : Ty) : Steady e exits (h + held [ty]) [(printOp ty, .none)] h := by
  cases ty with
  | void | invalid => exact .op rfl (Nat.zero_le _) rfl .nil
  | _ => exact .op rfl (Nat.le_add_left 1 h) rfl .nil

/-- The slots of a for loop hold ints. -/
theorem steady_loadInt {addr : VarAddr} {line : List (Opcode × Operand)} {h' : Nat}
    (haddr : addr.scope.toNat < e.scopeCount) (hrest : Steady e exits (h + 1) line h') :
    Steady e exits h ((.loadIntVar, .var addr) :: line) h' :=
  .cons (effectOf_var haddr rfl) (Nat.zero_le _) rfl nofun hrest

theorem steady_storeInt {addr : VarAddr} {line : List (Opcode × Operand)} {h' : Nat}
    (haddr : addr.scope.toNat < e.scopeCount) (hrest : Steady e exits h line h') :
    Steady e exits (h + 1) ((.storeIntVar, .var addr) :: line) h' :=
  .cons (effectOf_var haddr rfl) (Nat.le_add_left 1 h) rfl nofun hrest

/-- A return, whatever is on the stack. -/
theorem steady_ret (h' : Nat) : Steady e exits h [(.ret, .none)] h' :=
  .last rfl (Nat.zero_le _) rfl nofun

/-- The arguments of a call to the host are loaded one by one. -/
theorem steady_loads {infos : List VarInfo} {line : List (Opcode × Operand)} {h' : Nat}
    (hinfos : ∀ info ∈ infos, info.ty.isValue = true ∧ info.addr.scope.toNat < e.scopeCount)
    (hrest : Steady e exits (h + infos.length) line h') :
    Steady e exits h (infos.map loadInstr ++ line) h' := by
  induction infos generalizing h with
  | nil => exact hrest
  | cons info infos ih =>
    obtain ⟨hty, haddr⟩ := hinfos info List.mem_cons_self
    rw [List.map_cons, loadInstr_of_isValue hty]
    refine steady_load hty haddr (ih (fun i hi => hinfos i (List.mem_cons_of_mem _ hi)) ?_)
    rw [Nat.add_assoc, Nat.add_comm 1, ← List.length_cons (a := info)]
    exact hrest

/-- The parameters are stored one by one. -/
theorem steady_stores {infos : List VarInfo} {line : List (Opcode × Operand)} {h' : Nat}
    (hinfos : ∀ info ∈ infos, info.ty.isValue = true ∧ info.addr.scope.toNat < e.scopeCount)
    (hrest : Steady e exits h line h') :
    Steady e exits (h + infos.length) (infos.map storeInstr ++ line) h' := by
  induction infos with
  | nil => exact hrest
  | cons info infos ih =>
    obtain ⟨hty, haddr⟩ := hinfos info List.mem_cons_self
    rw [List.map_cons, storeInstr_of_isValue hty]
    exact steady_store hty haddr (ih fun i hi => hinfos i (List.mem_cons_of_mem _ hi))

/-! ## Operators -/

theorem steady_arithmetic (op : BinaryOp) (ty : Ty) :
    Steady e exits (h + 2) [(arithmeticOp op ty, .none)] (h + 1) := by
  have htwo : 2 ≤ h + 2 := Nat.le_add_left 2 h
  unfold arithmeticOp
  split <;> exact .op rfl htwo rfl .nil

theorem isNumeric_promoted {left right : Ty} : (promoted left right).isNumeric = true := by
  unfold promoted
  split <;> rfl

/-- The code of an operator takes two values and leaves one. -/
theorem balanced_of_binaryCode {op : BinaryOp} {left right ty : Ty} {a b : Nat} {c : Code}
    (hc : BinaryCode c op left right a ty b) :
    left.isNumeric = true ∧ right.isNumeric = true ∧ ty.isNumeric = true ∧
      ∀ h, Balanced e c a (h + 2) b (exitAt b (h + 1)) := by
  cases hc with
  | arithmetic _ hl hr hline =>
    exact ⟨hl, hr, isNumeric_promoted, fun h => balanced_plain hline
      ((steady_promotion _ _).append (promotion_not_terminator _ _) (steady_arithmetic _ _))⟩
  | @ints opcode _ _ hop hline =>
    refine ⟨rfl, rfl, rfl, fun h => balanced_plain hline ?_⟩
    have htwo : 2 ≤ h + 2 := Nat.le_add_left 2 h
    cases op <;> cases hop <;> exact .op rfl htwo rfl .nil
  | @comparison _ _ negated _ no _ hop hl hr hline hline' =>
    refine ⟨hl, hr, rfl, fun h => ?_⟩
    have htwo : 2 ≤ h + 2 := Nat.le_add_left 2 h
    have hnegated : e.effectOf negated (.target no) = .ok ⟨2, 0⟩ ∧ negated.isTerminator = false := by
      cases op <;> cases hop <;> exact ⟨rfl, rfl⟩
    have hcompare : (compareOp (promoted left right)).effect = some ⟨2, 1⟩ ∧
        (compareOp (promoted left right)).isTerminator = false := by
      unfold compareOp
      split <;> exact ⟨rfl, rfl⟩
    have h₁ : Balanced e c a (h + 2) no fun o k =>
        (exitAt no h o k ∨ exitAt b (h + 1) o k) ∨ exitAt no h o k := by
      refine balanced_line hline ((steady_promotion _ _).append (promotion_not_terminator _ _)
        (.op hcompare.1 htwo hcompare.2 (.op rfl (Nat.zero_le _) rfl
          (.cons hnegated.1 (Nat.le_add_left 2 h) hnegated.2 ?_
            (.op rfl (Nat.zero_le _) rfl (.last rfl (Nat.zero_le _) rfl ?_))))))
      · rintro o ⟨⟩
        exact .inl ⟨rfl, rfl⟩
      · rintro o ⟨⟩
        exact .inr ⟨rfl, rfl⟩
    have h₂ : Balanced e c no h b (exitAt b (h + 1)) :=
      balanced_plain hline' (.op rfl (Nat.zero_le _) rfl .nil)
    refine h₁.append h₂ (fun o k hx => ?_) fun _ _ => .inr
    rcases hx with (hx | hx) | hx
    · exact .inl hx
    · exact .inr hx
    · exact .inl hx

theorem isNumeric_of_takes {op : UnaryOp} {ty : Ty} (h : op.takes ty = true) :
    ty.isNumeric = true := by
  cases op with
  | not => rw [of_decide_eq_true h]; rfl
  | _ => exact h

theorem steady_unary (op : UnaryOp) (ty : Ty) :
    Steady e exits (h + 1) (unaryCode op ty) (h + 1) := by
  have hone : 1 ≤ h + 1 := Nat.le_add_left 1 h
  cases op with
  | plus => exact .nil
  | minus =>
    have hneg : (if ty = .double then Opcode.negDouble else .negInt).effect = some ⟨1, 1⟩ ∧
        (if ty = .double then Opcode.negDouble else .negInt).isTerminator = false := by
      split <;> exact ⟨rfl, rfl⟩
    exact .op hneg.1 hone hneg.2 .nil
  | not => exact .op rfl (Nat.zero_le _) rfl (.op rfl (Nat.le_add_left 2 h) rfl .nil)

/-! ## Phrases -/

theorem held_cons (ty : Ty) (tys : List Ty) : held (ty :: tys) = held tys + held [ty] := by
  simp only [held, List.countP_cons, List.countP_nil, Nat.zero_add]

theorem held_eq_length {tys : List Ty} (h : ∀ ty ∈ tys, ty.isValue = true) :
    held tys = tys.length :=
  List.countP_eq_length.mpr h

/-- The code from `a` to `b` takes the height from any `h` to `h + n`. -/
def Raises (e : Executable) (c : Code) (a n b : Nat) : Prop :=
  ∀ h, Balanced e c a h b (exitAt b (h + n))

section Raises

variable {c : Code} {a m b n k : Nat}

theorem raises_nil : Raises e c a 0 a := fun h => balanced_nil a h

theorem Raises.line {line : List (Opcode × Operand)} (hr : Raises e c a n m)
    (hline : c.Line m line b)
    (hs : ∀ h, Steady e (fun _ _ => False) (h + n) line (h + k)) : Raises e c a k b :=
  fun h => (hr h).seq (balanced_plain hline (hs h))

theorem Raises.seq (hr : Raises e c a n m) (hr' : Raises e c m k b) : Raises e c a (n + k) b := by
  intro h
  have := (hr h).seq (hr' (h + n))
  rwa [Nat.add_assoc] at this

end Raises

/-- A jump; nothing goes on behind it. -/
theorem steady_jump (h target h' : Nat) :
    Steady e (exitAt target h) h [(.jump, .target target)] h' :=
  .last rfl (Nat.zero_le _) rfl (by rintro o ⟨⟩; exact ⟨rfl, rfl⟩)

/-- The test of an if. -/
theorem steady_testZero (h target : Nat) :
    Steady e (exitAt target h) (h + 1) [(.int0, .none), (.jumpEq, .target target)] h :=
  .op rfl (Nat.zero_le _) rfl
    (.cons rfl (Nat.le_add_left 2 h) rfl (by rintro o ⟨⟩; exact ⟨rfl, rfl⟩) .nil)

/-- The test of a while. -/
theorem steady_testOne (h target : Nat) :
    Steady e (exitAt target h) (h + 1) [(.int1, .none), (.jumpNe, .target target)] h :=
  .op rfl (Nat.zero_le _) rfl
    (.cons rfl (Nat.le_add_left 2 h) rfl (by rintro o ⟨⟩; exact ⟨rfl, rfl⟩) .nil)

/-- The test of a for. -/
theorem steady_upTo (h target : Nat) :
    Steady e (exitAt target h) (h + 2) [(.jumpGt, .target target)] h :=
  .cons rfl (Nat.le_add_left 2 h) rfl (by rintro o ⟨⟩; exact ⟨rfl, rfl⟩) .nil

section Control

variable {c : Code} {a m₁ m₂ m₃ b : Nat}

/-- A value is made an int and kept in a slot of a for loop. -/
theorem Raises.bound {ty : Ty} {addr : VarAddr} (hty : ty.isNumeric = true)
    (haddr : addr.scope.toNat < e.scopeCount) (hvalue : Raises e c a (held [ty]) m₁)
    (hline : c.Line m₁ (boundCode ty ++ [(.storeIntVar, .var addr)]) b) : Raises e c a 0 b := by
  refine hvalue.line hline fun h => ?_
  refine (steady_boundCode ty).append (boundCode_not_terminator ty) ?_
  rw [held_value (Ty.isValue_of_isNumeric hty)]
  exact steady_storeInt haddr .nil

theorem Raises.ifThen (hcond : Raises e c a 1 m₁)
    (htest : c.Line m₁ [(.int0, .none), (.jumpEq, .target b)] m₂) (hthen : Raises e c m₂ 0 b) :
    Raises e c a 0 b := by
  intro h
  have hboth : Balanced e c m₁ (h + 1) b (exitAt b h) :=
    (balanced_line htest (steady_testZero h b)).append (hthen h) (fun o k hx => hx.symm)
      fun _ _ => .inr
  exact (hcond h).seq hboth

theorem Raises.ifElse {no : Nat} (hcond : Raises e c a 1 m₁)
    (htest : c.Line m₁ [(.int0, .none), (.jumpEq, .target no)] m₂) (hthen : Raises e c m₂ 0 m₃)
    (hskip : c.Line m₃ [(.jump, .target b)] no) (helse : Raises e c no 0 b) :
    Raises e c a 0 b := by
  intro h
  have hskipped := (hthen h).seq (balanced_line hskip (steady_jump h b h))
  have hboth : Balanced e c m₁ (h + 1) no fun o k => exitAt b h o k ∨ exitAt no h o k :=
    (balanced_line htest (steady_testZero h no)).append hskipped
      (fun o k hx => hx.symm.imp_right .inr) fun _ _ => .inr
  exact (hcond h).seq (hboth.append (helse h) (fun o k hx => hx.symm) fun _ _ => .inr)

/-- A test that goes on to the body or leaves, and a body that goes back to the test. -/
theorem Raises.loop (hlt : a < m₁)
    (htest : ∀ h, Balanced e c a h m₁ fun o k => exitAt b h o k ∨ exitAt m₁ h o k)
    (hbody : ∀ h, Balanced e c m₁ h b fun o k => exitAt a h o k ∨ exitAt b h o k) :
    Raises e c a 0 b := by
  intro h
  have hle := (hbody h).le
  refine (htest h).append (hbody h) (fun o k hx => hx.symm) fun o k hx => ?_
  refine hx.imp_left fun hx => ⟨hx, ?_⟩
  obtain ⟨rfl, rfl⟩ := hx
  rintro (⟨h, -⟩ | ⟨h, -⟩) <;> omega

end Control

/-- What a call takes and leaves. -/
theorem steady_call {id : UInt16} {r r' : Routine} (hr : e.routine? id = some r')
    (hparams : r'.params = r.params) (hresult : r'.result = r.result) :
    Steady e exits (h + r.params.length) [(.call, .function id)] (h + held [r.result]) := by
  have heffect : e.effectOf .call (.function id) = .ok ⟨r.params.length, held [r.result]⟩ := by
    simp only [effectOf, hr, Routine.arity, Routine.returnsValue, hparams, hresult, held,
      List.countP_cons, List.countP_nil, Nat.zero_add]
  refine .cons heffect (Nat.le_add_left _ _) rfl (by rintro _ ⟨⟩) ?_
  dsimp only
  rw [Nat.add_sub_cancel]
  exact .nil

/-- What a call to the host takes and leaves. -/
theorem steady_native {id : UInt16} {n : NativeDecl} {line : List (Opcode × Operand)} {h' : Nat}
    (hn : e.native? id = some n)
    (hrest : Steady e exits (h + held [n.result]) line h') :
    Steady e exits (h + n.params.length) ((.callNative, .native id) :: line) h' := by
  have heffect : e.effectOf .callNative (.native id) = .ok ⟨n.params.length, held [n.result]⟩ := by
    simp only [effectOf, hn, held, List.countP_cons, List.countP_nil, Nat.zero_add]
  refine .cons heffect (Nat.le_add_left _ _) rfl (by rintro _ ⟨⟩) ?_
  dsimp only
  rwa [Nat.add_sub_cancel]

/-- What the code of an expression leaves is not of type `<invalid>` if it may be dropped. -/
theorem Emitted.ne_invalid {sc : ScopeIndex} {n : Node} {a b : Nat} {ty : Ty}
    (hc : Emitted g sc (.expr n) a [ty] b) (hn : n.Settled g sc) : ty ≠ .invalid := by
  cases hc with
  | int | double | string => nofun
  | load hvar => exact hn _ hvar
  | binary _ _ hcode =>
    obtain ⟨-, -, hty, -⟩ := balanced_of_binaryCode (e := {}) hcode
    exact Ty.ne_invalid_of_isValue (Ty.isValue_of_isNumeric hty)
  | unary _ hty => exact Ty.ne_invalid_of_isValue (Ty.isValue_of_isNumeric (isNumeric_of_takes hty))
  | call hfun => exact hn _ _ hfun

/-- **The code of a phrase is balanced** if its types are backed. -/
theorem raises_of_emitted (hg : g.Tabled e) {sc : ScopeIndex} {phrase : Phrase} {a b : Nat}
    {types : List Ty} (hc : Emitted g sc phrase a types b) (hb : phrase.Backed g sc) :
    Raises e g.code a (held types) b := by
  induction hc with
  | int hline | double hline =>
    exact raises_nil.line hline fun h => .cons rfl (Nat.zero_le _) rfl nofun .nil
  | string hid hline =>
    refine raises_nil.line hline fun h => ?_
    exact .cons (effectOf_string (hg.text hid) rfl) (Nat.zero_le _) rfl nofun .nil
  | load hvar hline => exact raises_nil.line hline fun h => steady_loadInstr (hg.var hvar)
  | binary _ _ hcode ihr ihl =>
    obtain ⟨hl, hr, hty, hbal⟩ := balanced_of_binaryCode hcode
    have hright := ihr hb.part
    have hleft := ihl hb.part
    intro h
    have hboth := hright.seq hleft h
    rw [held_value (Ty.isValue_of_isNumeric hl), held_value (Ty.isValue_of_isNumeric hr)] at hboth
    rw [held_value (Ty.isValue_of_isNumeric hty)]
    exact hboth.seq (hbal h)
  | unary _ hty hline ih =>
    have hoperand := ih hb.part
    refine hoperand.line hline fun h => ?_
    rw [held_value (Ty.isValue_of_isNumeric (isNumeric_of_takes hty))]
    exact steady_unary _ _
  | call hfun hcount _ hline ih =>
    have hargs := ih hb.part
    have hparams := hb.calls _ List.mem_cons_self _ _ hfun
    obtain ⟨r', hr', hp, hres⟩ := hg.function hfun
    refine hargs.line hline fun h => ?_
    rw [held_eq_length hparams]
    exact steady_call hr' hp hres
  | argsNil => exact raises_nil
  | @argsCons _ _ _ ty found _ _ _ _ _ _ _ hty hline ih ih' =>
    have hrest := ih hb.part
    have hfirst := ih' hb.part
    have hheld : held [found] = held [ty] := by rw [← held_coerced found ty, hty]
    rw [held_cons, ← hheld]
    refine (hrest.seq hfirst).line hline fun h => ?_
    rw [← Nat.add_assoc]
    exact steady_coercion _ _
  | drop hn hline ih =>
    have hsettled := hb.positions _ List.mem_cons_self
    have hvalue := ih hb.part
    exact hvalue.line hline fun h => steady_drop (hn.ne_invalid hsettled)
  | @assign _ _ _ info found _ _ _ hvar _ hty hline ih =>
    have hvalue := ih hb.part
    have hheld : held [found] = held [info.ty] := by rw [← held_coerced found info.ty, hty]
    refine hvalue.line hline fun h => ?_
    refine (steady_coercion _ _).append (coercion_not_terminator _ _) ?_
    rw [hheld]
    exact steady_storeInstr (hg.var hvar)
  | update _ hvar _ hload hcode hline ih =>
    have hvalue := ih hb.part
    obtain ⟨hl, hr, -, hbal⟩ := balanced_of_binaryCode hcode
    intro h
    have hfound := hvalue h
    have hloads := balanced_plain hload (steady_loadInstr (h := h + 1) (hg.var hvar))
    have hstores := balanced_plain hline (steady_storeInstr (h := h) (hg.var hvar))
    rw [held_value (Ty.isValue_of_isNumeric hr)] at hfound
    rw [held_value (Ty.isValue_of_isNumeric hl)] at hloads hstores
    exact ((hfound.seq hloads).seq (hbal h)).seq hstores
  | inner _ ih => exact ih hb.part
  | ifThen _ htest _ ih ih' =>
    have hcond := ih hb.part
    have hthen := ih' hb.part
    exact hcond.ifThen htest hthen
  | ifElse _ htest _ hskip _ ih ih' ih'' =>
    have hcond := ih hb.part
    have hthen := ih' hb.part
    have helse := ih'' hb.part
    exact hcond.ifElse htest hthen hskip helse
  | @whileLoop _ _ _ a _ _ _ b _ htest _ hback ih ih' =>
    have hcond := ih hb.part
    have hbody := ih' hb.part
    refine .loop (Nat.lt_of_le_of_lt (hcond 0).le htest.lt) (fun h => ?_) fun h => ?_
    · exact (hcond h).seq (balanced_line htest (steady_testOne h b))
    · exact (hbody h).seq (balanced_line hback (steady_jump h a h))
  | @forLoop _ _ _ _ _ _ _ _ _ _ _ _ _ m₄ _ _ b hvar _ hlimit _ htu hu _ htl hl htest _ hback _ _
      ihu ihl ih =>
    have haddr := hg.var hvar
    have hlim := hg.hidden hlimit
    have hupper := Raises.bound htu hlim (ihu hb.part) hu
    have hlower := Raises.bound htl haddr (ihl hb.part) hl
    have hbody := ih hb.part
    refine (hupper.seq hlower).seq (.loop htest.lt (fun h => ?_) fun h => ?_)
    · exact balanced_line htest (steady_loadInt hlim (steady_loadInt haddr (steady_upTo h b)))
    · exact (hbody h).seq (balanced_line hback (.op rfl (Nat.zero_le _) rfl (steady_loadInt haddr
        (.op rfl (Nat.le_add_left 2 h) rfl (steady_storeInt haddr (steady_jump h m₄ h))))))
  | ret _ hline => exact raises_nil.line hline fun h => steady_ret _
  | retValue _ _ hline ih =>
    have hvalue := ih hb.part
    refine hvalue.line hline fun h => ?_
    split
    · exact steady_ret _
    · exact (steady_coercion _ _).append (coercion_not_terminator _ _) (steady_ret _)
  | print _ ih => exact ih hb.part
  | @native _ _ infos _ _ _ _ hcount hvars hloads hhost hline =>
    have hsettled := hb.positions _ List.mem_cons_self
    have hinfos : ∀ info ∈ infos.reverse,
        info.ty.isValue = true ∧ info.addr.scope.toNat < e.scopeCount := fun info hinfo => by
      obtain ⟨param, hparam, hvar⟩ :=
        Site.exists_param_of_zip hcount hvars info (List.mem_reverse.mp hinfo)
      exact ⟨hsettled param hparam info hvar, hg.var hvar⟩
    intro h
    have hloads' : Balanced e g.code _ h _ (exitAt _ (h + infos.reverse.length)) :=
      balanced_plain hloads (by simpa using steady_loads hinfos .nil)
    refine hloads'.seq (balanced_plain hline ?_)
    rw [List.length_reverse, hcount, ← List.length_map VarDecl.ty]
    exact steady_native (hg.host hhost) (steady_ret _)
  | operandsNil | stmtsNil => exact raises_nil
  | operandsCons _ hline _ ih ih' =>
    have hfirst := ih hb.part
    have hrest := ih' hb.part
    exact (hfirst.line (k := 0) hline fun h => steady_print _).seq hrest
  | blockMk _ _ ih => exact ih hb.part
  | stmtsCons _ _ ih ih' =>
    have hfirst := ih hb.part
    have hrest := ih' hb.part
    exact hfirst.seq hrest

end StackLang
