import StackLang.Proofs.Tree.Built

/-!
# Around and inside a scope

`Below` goes down from a scope by the lists of children, `Encloses` goes out to the scopes around it
by the links to parents, as the lookup of names does. Below the root the two agree
(`Linked.below_of_encloses`), and an index grows on the way down.
-/

namespace StackLang

namespace Program

/-- The scope `i` or one inside it, by the lists of children. -/
inductive Below (p : Program) (i : ScopeIndex) : ScopeIndex → Prop
  | refl : Below p i i
  | child {k c : ScopeIndex} {s : Scope} (h : Below p i k) (hs : p.scope? k = some s)
      (hc : c ∈ s.children) : Below p i c

variable {p : Program} {i j k c : ScopeIndex}

theorem Below.trans (h : Below p i j) (h' : Below p j k) : Below p i k := by
  induction h' with
  | refl => exact h
  | child _ hs hc ih => exact .child ih hs hc

/-- The way down from a scope begins with one of its children. -/
theorem Below.cases_head (h : Below p i k) :
    k = i ∨ ∃ s c, p.scope? i = some s ∧ c ∈ s.children ∧ Below p c k := by
  induction h with
  | refl => exact .inl rfl
  | child _ hs hc ih =>
    rcases ih with rfl | ⟨s', c', hs', hc', hbelow⟩
    · exact .inr ⟨_, _, hs, hc, .refl⟩
    · exact .inr ⟨s', c', hs', hc', .child hbelow hs hc⟩

/-- What is around a child is around its parent, the child apart. -/
theorem Linked.below_parent (hl : p.Linked) {s : Scope} (hs : p.scope? i = some s)
    (hc : c ∈ s.children) (h : Below p j c) (hne : j ≠ c) : Below p j i := by
  cases h with
  | refl => exact absurd rfl hne
  | @child k _ s' h hs' hc' =>
    obtain ⟨t, ht, hparent⟩ := hl.child hs hc
    obtain ⟨t', ht', hparent'⟩ := hl.child hs' hc'
    rw [ht] at ht'
    cases ht'
    rw [hparent] at hparent'
    cases hparent'
    exact h

/-- Of two scopes around a third one is around the other. -/
theorem Linked.below_total (hl : p.Linked) (h : p.Below i k) (h' : p.Below j k) :
    p.Below i j ∨ p.Below j i := by
  induction h with
  | refl => exact .inr h'
  | @child k c s hk hs hc ih =>
    by_cases hne : j = c
    · exact .inl (hne ▸ .child hk hs hc)
    · exact ih (hl.below_parent hs hc h' hne)

/-- A scope's first function of this name. -/
def FirstNamed (p : Program) (i : ScopeIndex) (name : String) (f : FunctionDecl) : Prop :=
  ∃ s, p.scope? i = some s ∧ s.functions.toList.find? (·.name = name) = some f

/-- A function of a scope. -/
def DeclaredIn (p : Program) (i : ScopeIndex) (f : FunctionDecl) : Prop :=
  ∃ s, p.scope? i = some s ∧ f ∈ s.functions.toList

theorem FirstNamed.declaredIn {name : String} {f : FunctionDecl} (h : p.FirstNamed i name f) :
    p.DeclaredIn i f ∧ f.name = name := by
  obtain ⟨s, hs, hfind⟩ := h
  exact ⟨⟨s, hs, List.mem_of_find?_eq_some hfind⟩, by simpa using List.find?_some hfind⟩

theorem declared_of_top? {f : FunctionDecl} (h : p.top? = some f) :
    p.DeclaredIn root f ∧ f.name = topName := by
  obtain ⟨s, hs, hfind⟩ := Option.bind_eq_some_iff.mp h
  exact ⟨⟨s, hs, Array.mem_toList_iff.mpr (Array.mem_of_find?_eq_some hfind)⟩,
    by simpa using Array.find?_some hfind⟩

theorem Linked.below_body (hl : p.Linked) {f : FunctionDecl} (h : p.DeclaredIn i f) :
    p.Below i f.body.scope := by
  obtain ⟨s, hs, hf⟩ := h
  exact .child .refl hs (hl.body hs (Array.mem_toList_iff.mp hf)).1

theorem Linked.body_ne_root (hl : p.Linked) {f : FunctionDecl} (h : p.DeclaredIn i f) :
    f.body.scope ≠ Program.root := by
  obtain ⟨s, hs, hf⟩ := h
  obtain ⟨hmem, -⟩ := hl.body hs (Array.mem_toList_iff.mp hf)
  obtain ⟨t, ht, hparent⟩ := hl.child hs hmem
  obtain ⟨r, hr, hnone⟩ := hl.root
  intro heq
  rw [heq, hr] at ht
  cases ht
  rw [hnone] at hparent
  cases hparent

theorem Linked.below_root (hl : p.Linked) (hj : p.Below j Program.root) : j = Program.root := by
  cases hj with
  | refl => rfl
  | child _ hs hc =>
    obtain ⟨t, ht, hparent⟩ := hl.child hs hc
    obtain ⟨r, hr, hnone⟩ := hl.root
    obtain rfl := Option.some.inj (hr.symm.trans ht)
    rw [hnone] at hparent
    cases hparent

/-- `x` is `i` or a scope around it. -/
inductive Encloses (p : Program) (x : ScopeIndex) : ScopeIndex → Prop
  | refl : Encloses p x x
  | inner {i y : ScopeIndex} {s : Scope} (hs : p.scope? i = some s) (hy : s.parent = some y)
      (h : Encloses p x y) : Encloses p x i

theorem Encloses.trans {x y : ScopeIndex} (h : p.Encloses x y) (h' : p.Encloses y i) :
    p.Encloses x i := by
  induction h' with
  | refl => exact h
  | inner hs hy _ ih => exact .inner hs hy ih

theorem encloses_of_outwards {x : ScopeIndex} {steps : Nat} {from? : Option ScopeIndex}
    (h : x ∈ p.outwards from? steps) : ∃ i, from? = some i ∧ p.Encloses x i := by
  induction steps generalizing from? with
  | zero => cases h
  | succ steps ih =>
    unfold outwards at h
    cases from? with
    | none => cases h
    | some i =>
      refine ⟨i, rfl, ?_⟩
      rcases List.mem_cons.mp h with rfl | h
      · exact .refl
      · obtain ⟨y, hy, hx⟩ := ih h
        obtain ⟨s, hs, hparent⟩ := Option.bind_eq_some_iff.mp hy
        exact .inner hs hparent hx

/-- Names are looked up in the scopes around. -/
theorem encloses_of_enclosing {x : ScopeIndex} (h : x ∈ p.enclosing i) : p.Encloses x i := by
  obtain ⟨j, hj, hx⟩ := encloses_of_outwards h
  cases hj
  exact hx

/-- Around a child there are the child and what is around its parent. -/
theorem Linked.encloses_child (hl : p.Linked) {x : ScopeIndex} {s : Scope}
    (hs : p.scope? i = some s) (hc : c ∈ s.children) (h : p.Encloses x c) :
    x = c ∨ p.Encloses x i := by
  obtain ⟨s', hs', hparent⟩ := hl.child hs hc
  cases h with
  | refl => exact .inl rfl
  | inner hs'' hy h =>
    obtain rfl := Option.some.inj (hs'.symm.trans hs'')
    obtain rfl := Option.some.inj (hparent.symm.trans hy)
    exact .inr h

theorem Linked.encloses_root (hl : p.Linked) {x : ScopeIndex} (h : p.Encloses x Program.root) :
    x = Program.root := by
  cases h with
  | refl => rfl
  | inner hs hy _ =>
    obtain ⟨s, hs', hnone⟩ := hl.root
    obtain rfl := Option.some.inj (hs.symm.trans hs')
    rw [hnone] at hy
    cases hy

/-- Below the root, what is around a scope is above it. -/
theorem Linked.below_of_encloses (hl : p.Linked) {x : ScopeIndex} (hroot : p.Below Program.root i)
    (h : p.Encloses x i) : p.Below Program.root x ∧ p.Below x i := by
  induction hroot with
  | refl =>
    obtain rfl := hl.encloses_root h
    exact ⟨.refl, .refl⟩
  | child hk hs hc ih =>
    rcases hl.encloses_child hs hc h with rfl | h
    · exact ⟨.child hk hs hc, .refl⟩
    · exact ⟨(ih h).1, .child (ih h).2 hs hc⟩

theorem Linked.encloses_le (hl : p.Linked) {x : ScopeIndex} (h : p.Encloses x i) : x ≤ i := by
  induction h with
  | refl => exact Nat.le_refl _
  | inner hs hy _ ih => exact Nat.le_trans ih (hl.parent_le hs hy)

theorem Linked.below_le (hl : p.Linked) (h : p.Below i k) : i ≤ k := by
  induction h with
  | refl => exact Nat.le_refl _
  | child _ hs hc ih =>
    obtain ⟨s', hs', hparent⟩ := hl.child hs hc
    exact Nat.le_trans ih (hl.parent_le hs' hparent)

/-- No scope below the root is its own child. -/
theorem Linked.lt_child (hl : p.Linked) (hroot : p.Below Program.root i) {s : Scope}
    (hs : p.scope? i = some s) (hc : c ∈ s.children) : i < c := by
  obtain ⟨s', hs', hparent⟩ := hl.child hs hc
  refine Nat.lt_of_le_of_ne (hl.parent_le hs' hparent) ?_
  rintro rfl
  obtain rfl := Option.some.inj (hs.symm.trans hs')
  -- Its own parent is what is met on every step outwards, so the root is never reached.
  induction hroot with
  | refl =>
    obtain ⟨r, hr, hnone⟩ := hl.root
    obtain rfl := Option.some.inj (hs.symm.trans hr)
    rw [hnone] at hparent
    cases hparent
  | child hk hks hkc ih =>
    obtain ⟨s'', hs'', hparent'⟩ := hl.child hks hkc
    obtain rfl := Option.some.inj (hs.symm.trans hs'')
    obtain rfl := Option.some.inj (hparent.symm.trans hparent')
    exact ih hs hc hparent hs'

/-- Different children of a scope have nothing below them in common. -/
theorem Linked.child_unique (hl : p.Linked) (hroot : p.Below Program.root i) {s : Scope}
    (hs : p.scope? i = some s) {c' : ScopeIndex} (hc : c ∈ s.children) (hc' : c' ∈ s.children)
    (h : p.Below c k) (h' : p.Below c' k) : c = c' := by
  -- If one were strictly around the other, it would be around the parent of both.
  have hapart : ∀ {c c' : ScopeIndex}, c ∈ s.children → c' ∈ s.children → p.Below c c' → c = c' := by
    intro c c' hc hc' h
    by_contra hne
    have hlt := hl.lt_child hroot hs hc
    have hle := hl.below_le (hl.below_parent hs hc' h hne)
    exact absurd hlt (Nat.not_lt.mpr hle)
  rcases hl.below_total h h' with h | h
  · exact hapart hc hc' h
  · exact (hapart hc' hc h).symm

/-- What is around a scope below `i` is below `i` or around it. -/
theorem Linked.encloses_cases (hl : p.Linked) {x : ScopeIndex} (hroot : p.Below Program.root i)
    (hbelow : p.Below i k) (h : p.Encloses x k) : p.Below x i ∨ p.Below i x := by
  induction hbelow with
  | refl => exact .inl (hl.below_of_encloses hroot h).2
  | child hk hs hc ih =>
    rcases hl.encloses_child hs hc h with rfl | h
    · exact .inr (.child hk hs hc)
    · exact ih h

/-- What is above a scope is around it. -/
theorem Linked.encloses_of_below (hl : p.Linked) (h : p.Below i k) : p.Encloses i k := by
  induction h with
  | refl => exact .refl
  | child _ hs hc ih =>
    obtain ⟨s', hs', hparent⟩ := hl.child hs hc
    exact .inner hs' hparent ih

theorem Linked.exists_scope? (hl : p.Linked) (hroot : p.Below Program.root i) :
    ∃ s, p.scope? i = some s := by
  cases hroot with
  | refl =>
    obtain ⟨s, hs, -⟩ := hl.root
    exact ⟨s, hs⟩
  | child _ hs hc =>
    obtain ⟨s', hs', -⟩ := hl.child hs hc
    exact ⟨s', hs'⟩

/-- Below the root, a parent comes before its children. -/
theorem Linked.parent_lt (hl : p.Linked) {s : Scope} {y : ScopeIndex}
    (hroot : p.Below Program.root i) (hs : p.scope? i = some s) (hy : s.parent = some y) :
    p.Below Program.root y ∧ y < i := by
  cases hroot with
  | refl =>
    obtain ⟨s', hs', hnone⟩ := hl.root
    obtain rfl := Option.some.inj (hs.symm.trans hs')
    rw [hnone] at hy
    cases hy
  | child hk hks hc =>
    obtain ⟨s', hs', hparent⟩ := hl.child hks hc
    obtain rfl := Option.some.inj (hs.symm.trans hs')
    obtain rfl := Option.some.inj (hy.symm.trans hparent)
    exact ⟨hk, hl.lt_child hk hks hc⟩

theorem Linked.mem_outwards (hl : p.Linked) {x : ScopeIndex} {steps : Nat}
    (hroot : p.Below Program.root i) (h : p.Encloses x i) (hlt : i < steps) :
    x ∈ p.outwards (some i) steps := by
  induction h generalizing steps with
  | refl =>
    obtain ⟨steps, rfl⟩ := Nat.exists_eq_add_of_lt hlt
    exact List.mem_cons_self
  | @inner i y s hs hy _ ih =>
    obtain ⟨hyroot, hyi⟩ := hl.parent_lt hroot hs hy
    cases steps with
    | zero => exact absurd hlt (Nat.not_lt_zero _)
    | succ steps =>
      refine List.mem_cons_of_mem _ ?_
      rw [hs, Option.bind_some, hy]
      exact ih hyroot (Nat.lt_of_lt_of_le hyi (Nat.le_of_lt_succ hlt))

/-- Names are looked up in all the scopes around. -/
theorem Linked.mem_enclosing (hl : p.Linked) {x : ScopeIndex} (hroot : p.Below Program.root i)
    (h : p.Encloses x i) : x ∈ p.enclosing i := by
  obtain ⟨s, hs⟩ := hl.exists_scope? hroot
  exact hl.mem_outwards hroot h (Nat.lt_succ_of_lt (scope?_lt hs))

end Program

end StackLang
