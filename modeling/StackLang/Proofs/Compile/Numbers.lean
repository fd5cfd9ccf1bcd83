import StackLang.Proofs.Compile.Resolution

/-!
# Ids in the order of the tree

The walk through a program gives every scope the next number as it comes to it, and its functions the
next ids. Compiling a function numbers no scope, as all in it have been numbered before, but makes
hidden slots for its loops. `NumberedFrom` says what the walk through some scopes has numbered, and that
the hidden slots it has made are apart. `Program.compile_numbers`: in a compiled program ids are places in
the order of the tree, and no two variables or loops have one address.
-/

namespace StackLang

open Compilation ProgramM

variable {p : Program} {strict : Bool} {t t' t'' : Compilation} {i : ScopeIndex} {f : FunctionDecl}
  {id : UInt16}

/-! ## The slots of loops -/

/-- A loop has its code, and its hidden slot lies behind the variables of the scope it stands in. -/
structure ForLoop.Slotted (p : Program) (t : Compilation) (g : Site) (loop : ForLoop)
    (l : LoopCode) : Prop where
  code : loop.CodeAt g l
  behind : ∃ scope, p.scope? loop.scope = some scope ∧
    t.symbols.scopeId? loop.scope = some l.limit.scope ∧ scope.vars.size ≤ l.limit.slot.toNat

theorem ForLoop.Slotted.mono {g : Site} {loop : ForLoop} {l : LoopCode} (h : loop.Slotted p t g l)
    (hc : t.Continues p t') : loop.Slotted p t' g l := by
  obtain ⟨scope, hscope, hid, hle⟩ := h.behind
  exact ⟨h.code, scope, hscope, hc.symbols.scopeIds hid, hle⟩

/-- The function `f`, which the scope `i` declares, has been compiled under the id `k`, and its loops
have the codes `ls`. -/
def Compilation.Looped (p : Program) (strict : Bool) (t : Compilation) :
    (ScopeIndex × FunctionDecl) × Nat → List LoopCode → Prop
  | ((i, f), k), ls => ∃ (id : UInt16) (r : Routine) (t₀ t₁ : Compilation), id.toNat = k ∧
      t.exe.routine? id = some r ∧ Made p strict t i f r t₀ t₁ ∧
        List.Forall₂ (ForLoop.Slotted p t (Site.of ⟨p, f, strict⟩ t₀ t₁)) f.body.loops ls

theorem Compilation.Looped.mono {x : (ScopeIndex × FunctionDecl) × Nat} {ls : List LoopCode}
    (h : Looped p strict t x ls) (hc : t.Continues p t')
    (hr : ∀ id : UInt16, id.toNat = x.2 → t'.exe.routine? id = t.exe.routine? id) :
    Looped p strict t' x ls := by
  obtain ⟨id, r, t₀, t₁, hid, hr', m, hls⟩ := h
  exact ⟨id, r, t₀, t₁, hid, (hr id hid).trans hr',
    ⟨m.reached, m.declared, m.code, m.seen, m.indexed, m.finished, m.continues.trans hc⟩,
    hls.imp fun _ _ h => h.mono hc⟩

/-- Between `t` and `t'` the functions `xs` have been compiled, with ids from `base` on, and the hidden
slots of their loops have been made. -/
def LoopsSlotted (p : Program) (strict : Bool) (t t' : Compilation)
    (xs : List (ScopeIndex × FunctionDecl)) (base : Nat) : Prop :=
  ∃ lss, List.Forall₂ (Looped p strict t') (xs.zipIdx base) lss ∧
    t.symbols.AddsSlots (lss.flatten.map (·.limit)) t'.symbols

theorem looped_mono {xs : List (ScopeIndex × FunctionDecl)} {base : Nat} {lss : List (List LoopCode)}
    (h : List.Forall₂ (Looped p strict t) (xs.zipIdx base) lss) (hc : t.Continues p t')
    (hr : ∀ id : UInt16, base ≤ id.toNat → id.toNat < base + xs.length →
      t'.exe.routine? id = t.exe.routine? id) :
    List.Forall₂ (Looped p strict t') (xs.zipIdx base) lss := by
  refine List.forall₂_iff_get.mpr ⟨h.length_eq, fun k hk hk' => (h.get hk hk').mono hc ?_⟩
  intro id hid
  rw [List.length_zipIdx] at hk
  simp only [List.get_eq_getElem, List.getElem_zipIdx] at hid
  exact hr id (by omega) (by omega)

/-- What is compiled next gets the next ids. -/
theorem LoopsSlotted.append {xs ys : List (ScopeIndex × FunctionDecl)} {base : Nat}
    (hxs : LoopsSlotted p strict t t' xs base)
    (hys : LoopsSlotted p strict t' t'' ys (base + xs.length)) (hc : t'.Continues p t'')
    (hr : ∀ id : UInt16, id.toNat < base + xs.length → t''.exe.routine? id = t'.exe.routine? id) :
    LoopsSlotted p strict t t'' (xs ++ ys) base := by
  obtain ⟨lss, hlss, hadds⟩ := hxs
  obtain ⟨lss', hlss', hadds'⟩ := hys
  refine ⟨lss ++ lss', ?_, ?_⟩
  · rw [List.zipIdx_append]
    exact List.rel_append (looped_mono hlss hc fun id _ => hr id) hlss'
  · rw [List.flatten_append, List.map_append]
    exact hadds.append hadds'

/-- What is compiled next may have got its ids before. -/
theorem LoopsSlotted.prepend {xs ys : List (ScopeIndex × FunctionDecl)} {base : Nat}
    (hxs : LoopsSlotted p strict t' t'' xs base)
    (hys : LoopsSlotted p strict t t' ys (base + xs.length)) (hc : t'.Continues p t'')
    (hr : ∀ id : UInt16, base + xs.length ≤ id.toNat →
      t''.exe.routine? id = t'.exe.routine? id) : LoopsSlotted p strict t t'' (xs ++ ys) base := by
  obtain ⟨lss, hlss, hadds⟩ := hxs
  obtain ⟨lss', hlss', hadds'⟩ := hys
  refine ⟨lss ++ lss', ?_, ?_⟩
  · rw [List.zipIdx_append]
    exact List.rel_append hlss (looped_mono hlss' hc fun id hle _ => hr id hle)
  · rw [List.flatten_append, List.map_append]
    exact (hadds'.append hadds).perm List.perm_append_comm

theorem LoopsSlotted.after {xs : List (ScopeIndex × FunctionDecl)} {base : Nat}
    (h : LoopsSlotted p strict t' t'' xs base) (hc : t.Continues p t') :
    LoopsSlotted p strict t t'' xs base := by
  obtain ⟨lss, hlss, hadds⟩ := h
  have hall := (Symbols.AddsSlots.none hc.symbols.size).append hadds
  exact ⟨lss, hlss, by rwa [List.nil_append] at hall⟩

namespace ProgramM

/-! ## The functions of a scope -/

/-- A function that is compiled. -/
theorem Opened.looped {s : Scope} {ids : List UInt16} {u : PUnit} (h : Opened p i s ids t)
    (hmem : (f, id) ∈ s.functions.toList.zip ids)
    (hok : compileFunction ⟨p, f, strict⟩ id t = .ok (u, t')) :
    ∃ ls, Looped p strict t' ((i, f), id.toNat) ls ∧
      t.symbols.AddsSlots (ls.map (·.limit)) t'.symbols := by
  obtain ⟨r, hr, hdecl, hdeclaring⟩ := h.registered _ hmem
  obtain ⟨t₀, t₁, scope, code, hc⟩ := compileFunction_ok h.indexed.toTables hok
  obtain ⟨r', hr', hfinished⟩ := hc.finished hr hdecl hdeclaring
  have hw := hc.wrote
  have m : Made p strict t' i f r' t₀ t₁ :=
    ⟨h.reached, ⟨s, h.scope, (List.of_mem_zip hmem).1⟩, hfinished.code ▸ hc.function,
      fun _ {j} hj => (h.seen j hj).mono (hw.begun h.indexed).1, (hw.begun h.indexed).2,
      hfinished.code ▸ hfinished, hw.continues_finished⟩
  obtain ⟨ls, hls, hadds⟩ := hc.loops
  have hslotted : ∀ loop l, ForLoop.CodeAt (Site.of ⟨p, f, strict⟩ t₀ t₁) loop l →
      loop.Slotted p t' (Site.of ⟨p, f, strict⟩ t₀ t₁) l := by
    intro loop l hcode
    obtain ⟨scope, hscope, hid, hle, -⟩ := hcode.limit
    exact ⟨hcode, scope, hscope, m.continues.symbols.scopeIds hid, hle⟩
  have hall := (Symbols.AddsSlots.none hc.symbols.size).append hadds
  rw [List.nil_append, ← hc.after] at hall
  exact ⟨ls, ⟨id, r', t₀, t₁, rfl, hr', m, hls.imp hslotted⟩, hall⟩

/-- The functions of a scope are compiled one after the other. -/
theorem Opened.loopsSlotted {s : Scope} {ids : List UInt16} {work : List (FunctionDecl × UInt16)}
    {base : Nat} {u : PUnit} (h : Opened p i s ids t) (hl : p.Linked) (hn : p.NestedBlocks)
    (hwork : work.Sublist (s.functions.toList.zip ids))
    (hbase : ∀ (k : Nat) x, work[k]? = some x → x.2.toNat = base + k)
    (hok : (work.forM fun (f, id) =>
      inside f.name (compileFunction { source := p, function := f, strict } id)) t = .ok (u, t')) :
    t.SameNames t' ∧ LoopsSlotted p strict t t' (work.map fun x => (i, x.1)) base := by
  induction work generalizing t base with
  | nil =>
    cases hok
    exact ⟨.refl _, [], .nil, .none fun _ => Nat.le_refl _⟩
  | cons x work ih =>
    obtain ⟨f, id⟩ := x
    have hmem : (f, id) ∈ s.functions.toList.zip ids := hwork.subset List.mem_cons_self
    have htail : work.Sublist (s.functions.toList.zip ids) := (List.sublist_cons_self _ _).trans hwork
    have hid : id.toNat = base := hbase 0 _ rfl
    obtain ⟨_, t₁, hf, hrest⟩ := bind_ok hok
    have hf := inside_ok hf
    have hnames : t.SameNames t₁ := ((h.ready hmem).resolved hl hn).settled hf
    obtain ⟨ls, hls, hadds⟩ := h.looped hmem hf
    obtain ⟨r, hr, hdecl, hdeclaring⟩ := h.registered _ hmem
    obtain ⟨hc, hi, -⟩ := compiled_step h.indexed h.reached (h.ready hmem).declared (fun _ => h.seen)
      hr hdecl hdeclaring hf
    have h₁ := h.mono hc hi
    have hafter := h₁.compiled htail hrest
    have hbase' : ∀ (k : Nat) x, work[k]? = some x → x.2.toNat = base + 1 + k := fun k x hx => by
      have := hbase (k + 1) x hx
      omega
    obtain ⟨hnames', lss, hlss, hadds'⟩ := ih h₁ htail hbase' hrest
    have hnew : ∀ y ∈ work, id ≠ y.2 := by
      intro y hy heq
      obtain ⟨k, hk⟩ := List.mem_iff_getElem?.mp hy
      have := hbase' k y hk
      rw [← heq] at this
      omega
    refine ⟨hnames.trans hnames', ls :: lss, .cons ?_ hlss, ?_⟩
    · rw [← hid]
      refine hls.mono hafter.continues fun id' hid' => hafter.others id' fun y hy => ?_
      rw [UInt16.toNat_inj.mp hid']
      exact hnew y hy
    · rw [List.flatten_cons, List.map_append]
      exact hadds.append hadds'

/-! ## Scopes in their order -/

/-- What has been numbered between `t` and `t'`, while some scopes were gone through down to a depth. -/
structure NumberedFrom (p : Program) (strict : Bool) (depth : Nat) (is : List ScopeIndex)
    (t t' : Compilation) : Prop where
  /-- The scopes that are met get the next numbers, in this order. -/
  places : ∀ {k sc}, (is.flatMap (p.preorder depth))[k]? = some sc →
    t'.symbols.scopeId? sc = some (t.symbols.scopeCount + k).toUInt16
  count : t'.symbols.scopeCount = t.symbols.scopeCount + (is.flatMap (p.preorder depth)).length
  /-- No other scope gets a number. -/
  others : ∀ {sc id}, t'.symbols.scopeId? sc = some id →
    t.symbols.scopeId? sc = some id ∨ sc ∈ is.flatMap (p.preorder depth)
  loops : LoopsSlotted p strict t t' (is.flatMap (p.functionsFrom depth)) t.exe.routines.size

/-- Going through scopes one after the other. -/
theorem NumberedFrom.append {depth : Nat} {is js : List ScopeIndex} (h : NumberedFrom p strict depth is t t')
    (h' : NumberedFrom p strict depth js t' t'') (ht : Traversed p strict depth is t t')
    (ht' : Traversed p strict depth js t' t'') : NumberedFrom p strict depth (is ++ js) t t'' := by
  have hsize := ht.size
  refine ⟨fun {k sc} hk => ?_, ?_, fun {sc id} hid => ?_, ?_⟩ <;> rw [List.flatMap_append] at *
  · rw [List.getElem?_append] at hk
    split at hk
    · exact ht'.continues.symbols.scopeIds (h.places hk)
    · rw [h'.places hk, h.count]
      congr 2
      omega
  · rw [h'.count, h.count, List.length_append]
    omega
  · rw [List.mem_append]
    rcases h'.others hid with hid | hmem
    · exact (h.others hid).imp_right .inl
    · exact .inr (.inr hmem)
  · exact h.loops.append (hsize ▸ h'.loops) ht'.continues fun id hid => ht'.old (hsize ▸ hid)

theorem numbered_all {depth : Nat} {is : List ScopeIndex} {u : PUnit}
    (hstep : ∀ c ∈ is, ∀ {t t' : Compilation} {u : PUnit}, t.Indexed p →
      (∀ k, p.Below k c → k ≠ c → Seen p t k) →
      (∀ sc ∈ p.preorder depth c, t.symbols.scopeId? sc = none) →
      compileScope p strict depth c t = .ok (u, t') → NumberedFrom p strict depth [c] t t')
    (hroot : ∀ c ∈ is, p.Below Program.root c) (hi : t.Indexed p)
    (hseen : ∀ c ∈ is, ∀ k, p.Below k c → k ≠ c → Seen p t k)
    (hnodup : (is.flatMap (p.preorder depth)).Nodup)
    (hnone : ∀ sc ∈ is.flatMap (p.preorder depth), t.symbols.scopeId? sc = none)
    (h : is.forM (compileScope p strict depth) t = .ok (u, t')) :
    NumberedFrom p strict depth is t t' := by
  induction is generalizing t with
  | nil =>
    cases h
    exact ⟨nofun, rfl, .inl, [], .nil, .none fun _ => Nat.le_refl _⟩
  | cons c is ih =>
    obtain ⟨_, t₁, hc, hrest⟩ := bind_ok h
    rw [List.flatMap_cons] at hnodup hnone
    obtain ⟨-, hnodup', hapart⟩ := List.nodup_append.mp hnodup
    have htail : ∀ x ∈ is, x ∈ c :: is := fun _ => List.mem_cons_of_mem c
    have t₁' := compileScope_ok depth hi (hroot c List.mem_cons_self)
      (fun _ => hseen c List.mem_cons_self) hc
    have n₁ := hstep c List.mem_cons_self hi (hseen c List.mem_cons_self)
      (fun sc hsc => hnone sc (List.mem_append_left _ hsc)) hc
    have hseen₁ : ∀ x ∈ is, ∀ k, p.Below k x → k ≠ x → Seen p t₁ k := fun x hx k hk hne =>
      (hseen x (htail x hx) k hk hne).mono t₁'.continues
    have t₂' := traversed_all (fun x hx _ _ _ hi hs => compileScope_ok depth hi (hroot x (htail x hx)) hs)
      t₁'.indexed (fun _ => hseen₁) hrest
    have n₂ := ih (fun x hx => hstep x (htail x hx)) (fun x hx => hroot x (htail x hx)) t₁'.indexed
      hseen₁ hnodup' (fun sc hsc => ?_) hrest
    · exact n₁.append n₂ t₁' t₂'
    · cases hid : t₁.symbols.scopeId? sc with
      | none => rfl
      | some id =>
        rcases n₁.others hid with hid | hmem
        · rw [hnone sc (List.mem_append_right _ hsc)] at hid
          cases hid
        · rw [List.flatMap_singleton] at hmem
          exact absurd rfl (hapart sc hmem sc hsc)

/-- A scope that has been entered has got the next number, and no other scope has got one. -/
theorem Entered.numbered {s : Scope} {ids : List UInt16} (h : Entered p i s ids t t')
    (hi : t.Indexed p) (hnone : t.symbols.scopeId? i = none) :
    (∀ j, t'.symbols.scopeId? j =
      if i = j then some t.symbols.scopeCount.toUInt16 else t.symbols.scopeId? j) ∧
      t'.symbols.scopeCount = t.symbols.scopeCount + 1 ∧
      t'.exe.routines.size = t.exe.routines.size + s.functions.toList.length ∧
      ∀ (k : Nat) x, (s.functions.toList.zip ids)[k]? = some x →
        x.2.toNat = t.exe.routines.size + k := by
  obtain ⟨hs, number, t₁, henter, hdeclare⟩ := h
  obtain ⟨-, hi₁, hnumber, hexe, -⟩ := enterScope_ok hi hs henter
  have h₂ : Declared p i s.functions.toList ids t₁ t' :=
    declared_all hs hi₁ (List.nil_append _).symm nofun hnumber hdeclare
  obtain ⟨symbols, he, rfl⟩ := CompileM.onSymbols_ok (outside_ok henter)
  rcases Symbols.enterScope_cases he with ⟨hid, -⟩ | ⟨-, -, -, rfl, rfl⟩
  · rw [hnone] at hid
    cases hid
  · refine ⟨fun j => ?_, h₂.count.trans Symbols.scopeCount_numbering, h₂.size, fun k x hx => ?_⟩
    · rw [Symbols.scopeId?, h₂.scopeIds]
      exact Symbols.scopeId?_numbering j
    · exact h₂.places k x.2 (List.getElem?_zip_eq_some.mp hx).2

/-- **The walk through a scope numbers what it meets, in the order of the tree.** -/
theorem numbered_scope (hl : p.Linked) (hn : p.NestedBlocks) (depth : Nat) {u : PUnit}
    (hi : t.Indexed p) (hroot : p.Below Program.root i)
    (hseen : ∀ k, p.Below k i → k ≠ i → Seen p t k)
    (hnone : ∀ sc ∈ p.preorder depth i, t.symbols.scopeId? sc = none)
    (h : compileScope p strict depth i t = .ok (u, t')) : NumberedFrom p strict depth [i] t t' := by
  induction depth generalizing i t t' u with
  | zero => cases h
  | succ depth ih =>
    obtain ⟨s, hs⟩ := hl.exists_scope? hroot
    obtain ⟨ids, t₁, t₂, hentered, hchildren, hown⟩ := exists_entered hs h
    have hpre : p.preorder (depth + 1) i = i :: s.children.toList.flatMap (p.preorder depth) := by
      rw [Program.preorder, hs]
    have hnodup : (p.preorder (depth + 1) i).Nodup := hl.nodup_preorder hroot
    rw [hpre, List.forall_mem_cons] at hnone
    rw [hpre] at hnodup
    obtain ⟨hnot, hnodup⟩ := List.nodup_cons.mp hnodup
    obtain ⟨hids, hcount, hsize, hplaces⟩ := hentered.numbered hi hnone.1
    obtain ⟨_, hc₀, h₁, -, haround⟩ := hentered.ok hi hseen
    have hmem : ∀ c ∈ s.children.toList, c ∈ s.children := fun _ => Array.mem_toList_iff.mp
    have t₂' := traversed_children hl hs hroot (fun _ hk => hk) h₁.indexed haround hchildren
    have n₂ := numbered_all (fun c hc _ _ _ hi hseen hnone => ih hi (hroot.child hs (hmem c hc)) hseen hnone)
      (fun c hc => hroot.child hs (hmem c hc)) h₁.indexed
      (fun c hc k hk hne => haround k (hl.below_parent hs (hmem c hc) hk hne)) hnodup
      (fun sc hsc => by
        rw [hids, if_neg (by rintro rfl; exact hnot hsc)]
        exact hnone.2 sc hsc) hchildren
    have hopened := hentered.opened hl hi hroot hseen hchildren
    obtain ⟨hnames, hloops⟩ := hopened.loopsSlotted hl hn (List.Sublist.refl _) hplaces hown
    have hsame : ∀ j, t'.symbols.scopeId? j = t₂.symbols.scopeId? j := fun j => by
      rw [Symbols.scopeId?, Symbols.scopeId?, hnames.scopeIds]
    have hi₂ : t₂.symbols.scopeId? i = some t.symbols.scopeCount.toUInt16 :=
      t₂'.continues.symbols.scopeIds ((hids i).trans (if_pos rfl))
    have hcompiled := hopened.compiled (List.Sublist.refl _) hown
    have hfunctions : (s.functions.toList.zip ids).map (fun x => (i, x.1)) =
        s.functions.toList.map (i, ·) := by
      have hfirst := congrArg (List.map (i, ·)) (List.map_fst_zip (Nat.le_of_eq h₁.length.symm))
      rwa [List.map_map] at hfirst
    refine ⟨fun {k sc} hk => ?places, ?count, fun {sc id} hid => ?others, ?loops⟩
    case places =>
      rw [List.flatMap_singleton, hpre] at hk
      rw [hsame]
      cases k with
      | zero =>
        obtain rfl := Option.some.inj hk
        exact hi₂
      | succ k =>
        rw [n₂.places hk, hcount]
        congr 2
        omega
    case count =>
      rw [List.flatMap_singleton, hpre, hnames.count, n₂.count, hcount, List.length_cons]
      omega
    case others =>
      rw [List.flatMap_singleton, hpre]
      rw [hsame] at hid
      rcases n₂.others hid with hid | hmem
      · rw [hids] at hid
        split at hid
        · rename_i heq
          exact .inr (heq ▸ List.mem_cons_self)
        · exact .inl hid
      · exact .inr (List.mem_cons_of_mem _ hmem)
    case loops =>
      rw [hfunctions] at hloops
      rw [List.flatMap_singleton, Program.functionsFrom_succ hs]
      have hlength : (s.functions.toList.map (i, ·)).length = s.functions.toList.length :=
        List.length_map _
      refine hloops.prepend (hlength ▸ hsize ▸ n₂.loops.after (hc₀.trans h₁.continues))
        hcompiled.continues fun id hle => hcompiled.others id fun x hx heq => ?_
      obtain ⟨k, hk⟩ := List.mem_iff_getElem?.mp hx
      have hplace := hplaces k x hk
      have hlt := (List.getElem?_eq_some_iff.mp (List.getElem?_zip_eq_some.mp hk).1).1
      rw [heq] at hle
      omega

end ProgramM

/-! ## Addresses -/

namespace Symbols.Sound

variable {s : Symbols} {j j' : ScopeIndex} {name name' : String}

/-- The variables of a numbered scope have their places. -/
theorem exists_declared? (hs : s.Sound p) {scope : Scope} {slot : Nat} {ty : Ty}
    (hid : s.scopeId? j = some id) (hscope : p.scope? j = some scope)
    (hslot : IsSlot scope.vars.toList name slot ty) : ∃ addr,
      s.vars.declared? j name = some ⟨addr, ty⟩ ∧ s.scopeId? j = some addr.scope ∧
        addr.slot.toNat = slot := by
  obtain ⟨scope', hscope', -, hmax, -, hvars⟩ := hs.numbered hid
  obtain rfl := Option.some.inj (hscope.symm.trans hscope')
  have hinfo : (slots id scope.vars.toList)[name]? = some ⟨⟨id, slot.toUInt16⟩, ty⟩ :=
    getElem?_slots.mpr ⟨slot, hslot, rfl⟩
  refine ⟨⟨id, slot.toUInt16⟩, ?_, hid, toNat_toUInt16 ?_⟩
  · rw [NameTable.declared?, hvars]
    exact hinfo
  · exact Nat.lt_trans hslot.lt (Nat.lt_of_le_of_lt hmax maxId_lt)

/-- Variables of one address are one. -/
theorem declared?_inj (hs : s.Sound p) {info info' : VarInfo}
    (h : s.vars.declared? j name = some info) (h' : s.vars.declared? j' name' = some info')
    (haddr : info.addr = info'.addr) : j = j' ∧ name = name' := by
  obtain ⟨scope, hscope, hid, hslot, -⟩ := hs.declared? h
  obtain ⟨scope', hscope', hid', hslot', -⟩ := hs.declared? h'
  rw [haddr] at hid hslot
  obtain rfl := hs.injective hid hid'
  obtain rfl := Option.some.inj (hscope.symm.trans hscope')
  have heq := Option.some.inj (hslot.1.symm.trans hslot'.1)
  exact ⟨rfl, congrArg VarDecl.name heq⟩

end Symbols.Sound

/-- No variable has the address of a hidden slot. -/
theorem ForLoop.Slotted.apart {g : Site} {loop : ForLoop} {l : LoopCode} (h : loop.Slotted p t g l)
    (hs : t.symbols.Sound p) {j : ScopeIndex} {name : String} {info : VarInfo}
    (hdecl : t.symbols.vars.declared? j name = some info) : info.addr ≠ l.limit := by
  intro haddr
  obtain ⟨scope, hscope, hid, hle⟩ := h.behind
  obtain ⟨scope', hscope', hid', hslot, -⟩ := hs.declared? hdecl
  rw [haddr] at hid' hslot
  obtain rfl := hs.injective hid hid'
  obtain rfl := Option.some.inj (hscope.symm.trans hscope')
  exact absurd hslot.lt (Nat.not_lt.mpr hle)

/-- The code of a loop is that of one function's. -/
theorem Compilation.exists_slotted {xs : List ((ScopeIndex × FunctionDecl) × Nat)}
    {lss : List (List LoopCode)} (h : List.Forall₂ (Looped p strict t) xs lss) {l : LoopCode}
    (hl : l ∈ lss.flatten) : ∃ g loop, ForLoop.Slotted p t g loop l := by
  obtain ⟨ls, hls, hl⟩ := List.mem_flatten.mp hl
  obtain ⟨k, hk, rfl⟩ := List.mem_iff_getElem.mp hls
  obtain ⟨id, r, t₀, t₁, -, -, -, hslotted⟩ := h.get (h.length_eq ▸ hk) hk
  obtain ⟨m, hm, rfl⟩ := List.mem_iff_getElem.mp hl
  exact ⟨_, _, hslotted.get (hslotted.length_eq ▸ hm) hm⟩

/-! ## Compiled programs -/

namespace Program

/-- The ids in the tables `t` of a compiled program. `order` lists the scopes of the tree, each in front of
those inside it, and `fs` the functions as they are declared along this order. -/
structure NumberedInOrder (p : Program) (strict : Bool) (t : Compilation) (order : List ScopeIndex)
    (fs : List (ScopeIndex × FunctionDecl)) : Prop where
  /-- The number of a scope is its place in the order. -/
  scopes : ∀ {j} {id : UInt16}, t.symbols.scopeId? j = some id ↔ order[id.toNat]? = some j
  count : t.symbols.scopeCount = order.length
  /-- The id of a function is its place. -/
  functions : ∀ {k : Nat} {i f}, fs[k]? = some (i, f) → ∃ r : Routine,
    t.exe.routines[k]? = some r ∧ r.id.toNat = k ∧ r.Declares f ∧
      t.symbols.scopeId? i = some r.declaringScope ∧
      t.symbols.scopeId? f.body.scope = some r.scope
  size : t.exe.routines.size = fs.length
  /-- The first variable of its name in a scope has the scope's number and its place in the scope. -/
  vars : ∀ {j scope name slot ty}, j ∈ order → p.scope? j = some scope →
    Symbols.IsSlot scope.vars.toList name slot ty → ∃ addr,
      t.symbols.vars.declared? j name = some ⟨addr, ty⟩ ∧
        t.symbols.scopeId? j = some addr.scope ∧ addr.slot.toNat = slot
  /-- No two variables have one address. -/
  varsApart : ∀ {j j' name name' info info'}, t.symbols.vars.declared? j name = some info →
    t.symbols.vars.declared? j' name' = some info' → info.addr = info'.addr → j = j' ∧ name = name'
  /-- Each loop has a hidden slot behind the variables of its scope, no two loops have the same, and no
  variable has it. -/
  loops : ∃ lss, List.Forall₂ (Looped p strict t) fs.zipIdx lss ∧
    (lss.flatten.map (·.limit)).Nodup ∧ ∀ l ∈ lss.flatten, ∀ {j name info},
      t.symbols.vars.declared? j name = some info → info.addr ≠ l.limit

/-- **The ids of a compiled program are places in the order of its tree**, however many there are: none is
left out, none is cut off to 16 bits, and no two variables or loops share an address. -/
theorem compile_numbers (hb : p.Built) (hn : p.NestedBlocks) {e : Executable}
    (h : p.compile strict = .ok e) :
    (p.preorder (p.scopeCount + 1) root).Nodup ∧
      (∀ j, j ∈ p.preorder (p.scopeCount + 1) root ↔ p.Below root j) ∧
      ∃ t, compileScope p strict (p.scopeCount + 1) root {} = .ok (⟨⟩, t) ∧
        e = { t.exe with scopeCount := t.symbols.scopeCount, topVars := p.topVars t.symbols } ∧
        p.NumberedInOrder strict t (p.preorder (p.scopeCount + 1) root)
          ((p.preorder (p.scopeCount + 1) root).flatMap fun j => (p.functionsAt j).map (j, ·)) := by
  have hl := hb.linked.1
  have hdepth : p.scopeCount ≤ root + (p.scopeCount + 1) :=
    Nat.le_trans (Nat.le_succ _) (Nat.le_add_left _ _)
  have hmem : ∀ j, j ∈ p.preorder (p.scopeCount + 1) root ↔ p.Below root j := fun j =>
    ⟨fun hj => (below_of_mem_preorder hj).1, hl.mem_preorder .refl hdepth⟩
  obtain ⟨t, ht, he⟩ := compileScope_of_compile h
  have hnone : ∀ k, p.Below k root → k ≠ root → Seen p {} k := fun k hk hne =>
    absurd (hl.below_root hk) hne
  have htraversed := compileScope_ok _ (indexed_empty p) .refl (fun _ => hnone) ht
  have hn' := numbered_scope hl hn _ (indexed_empty p) .refl hnone
    (fun _ _ => by simp [Symbols.scopeId?]) ht
  obtain ⟨hplaces, hcount, hothers, lss, hlss, hadds⟩ := hn'
  simp only [List.flatMap_singleton] at hplaces hcount hothers hlss
  have hs := htraversed.indexed.symbols
  have hcount' : t.symbols.scopeCount = (p.preorder (p.scopeCount + 1) root).length :=
    hcount.trans (Nat.zero_add _)
  refine ⟨hl.nodup_preorder .refl, hmem, t, ht, he, ⟨fun {j id} => ⟨fun hid => ?_, fun hk => ?_⟩,
    hcount', fun {k i f} hk => ?_, ?_, fun {j scope name slot ty} hj hscope hslot => ?_,
    hs.declared?_inj, lss, hlss, hadds.nodup, fun l hmem {j name info} hdecl => ?_⟩⟩
  · rcases hothers hid with hid | hj
    · simp [Symbols.scopeId?] at hid
    · obtain ⟨k, hk⟩ := List.mem_iff_getElem?.mp hj
      have hlt := (List.getElem?_eq_some_iff.mp hk).1
      have hroom := hs.count
      have hid' := hplaces hk
      rw [hid] at hid'
      have hk' : id.toNat = 0 + k := Option.some.inj hid' ▸ toNat_toUInt16 (by omega)
      rwa [hk', Nat.zero_add]
  · rw [hplaces hk]
    exact congrArg some (UInt16.toNat_inj.mp (by simp [Symbols.scopeCount]))
  · obtain ⟨r, t₀, t₁, hr, m⟩ := htraversed.made hk
    exact ⟨r, hr, htraversed.indexed.ids k r hr, m.finished.toDeclares,
      m.continues.symbols.scopeIds m.finished.declaring,
      m.continues.symbols.scopeIds m.finished.scope⟩
  · have hsize := htraversed.size
    rw [List.flatMap_singleton] at hsize
    exact hsize.trans (Nat.zero_add _)
  · obtain ⟨id, hid⟩ := (htraversed.seen root (by simp) j ((hmem j).mp hj)).numbered
    exact hs.exists_declared? hid hscope hslot
  · obtain ⟨g, loop, hslotted⟩ := exists_slotted hlss hmem
    exact hslotted.apart hs hdecl

end Program

/-- `<top>` has two loops with one scope as their body, and `f` has one. -/
def threeLoops : Program :=
  let p := Program.empty.declareVar 1 ⟨"i", .int⟩
  let p := (p.declareFunction Program.root "f" .void [⟨"i", .int⟩]).2
  let p := (p.addScope 1).2
  let p := (p.addScope 2).2
  let p := p.define 2 [.forLoop "i" (.binary .range (.int 1) (.int 2)) (.mk 4 [])]
  p.defineTop [.forLoop "i" (.binary .range (.int 1) (.int 2)) (.mk 3 []),
    .forLoop "i" (.binary .range (.int 1) (.int 2)) (.mk 3 [])]

/-- The body of `f`, which has been added third, gets the fourth number. -/
theorem threeLoops_numbers : threeLoops.Built ∧ threeLoops.NestedBlocks ∧
    ∃ e t, threeLoops.compile true = .ok e ∧ e.scopeCount = 5 ∧
      threeLoops.NumberedInOrder true t (threeLoops.preorder (threeLoops.scopeCount + 1) Program.root)
        ((threeLoops.preorder (threeLoops.scopeCount + 1) Program.root).flatMap fun j =>
          (threeLoops.functionsAt j).map (j, ·)) ∧
      t.symbols.scopeId? 3 = some 2 ∧ t.symbols.scopeId? 2 = some 3 := by
  have hb : threeLoops.Built := .defineTop (.define (.addScope (.addScope (.declareFunction
    (.declareVar .empty _ _) (by decide) _ _ _) (by decide)) (by decide)) _ _) _
  have hn : threeLoops.NestedBlocks := Program.nestedBlocks_of_all (by decide +kernel)
  have hok : (threeLoops.compile true).toOption.isSome = true := by cbv
  have horder : threeLoops.preorder (threeLoops.scopeCount + 1) Program.root = [0, 1, 3, 2, 4] := by
    decide +kernel
  cases hc : threeLoops.compile true with
  | error err =>
    rw [hc] at hok
    cases hok
  | ok e =>
    obtain ⟨-, -, t, -, he, hnumbers⟩ := Program.compile_numbers hb hn hc
    have hplaces := hnumbers
    rw [horder] at hplaces
    have hcount : e.scopeCount = 5 := by
      rw [he]
      exact hplaces.count
    exact ⟨hb, hn, e, t, rfl, hcount, hnumbers, hplaces.scopes.mpr rfl, hplaces.scopes.mpr rfl⟩

end StackLang
