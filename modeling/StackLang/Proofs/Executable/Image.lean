import StackLang.Executable.Image
import StackLang.Proofs.Executable.StringPool
import StackLang.Proofs.Wire

/-!
# Reading an image

`reads_read`: an executable whose counts have 64 bits is read back from its image, in whatever order
the names are written. Encoding and decoding take different routes to the same value: the name map
is written as a list and read by inserting, and the index of the string pool is not written at all
but found again from the texts.
-/

namespace StackLang

open Wire

/-! ## String pools -/

namespace StringPool

/-- The first place of each text, by the places that are numbered. -/
def firstPlaces (texts : List (String × Nat)) (index : Std.ExtTreeMap String UInt16) :
    Std.ExtTreeMap String UInt16 :=
  texts.foldl (fun index (text, i) => index.insertIfNew text i.toUInt16) index

theorem firstPlaces_append (texts texts' : List (String × Nat))
    (index : Std.ExtTreeMap String UInt16) :
    firstPlaces (texts ++ texts') index = firstPlaces texts' (firstPlaces texts index) :=
  List.foldl_append

theorem insert_eq_insertIfNew {index : Std.ExtTreeMap String UInt16} {text : String}
    (h : index[text]? = none) (id : UInt16) : index.insert text id = index.insertIfNew text id := by
  refine Std.ExtTreeMap.ext_getElem? fun other => ?_
  rw [Std.ExtTreeMap.getElem?_insert, Std.ExtTreeMap.getElem?_insertIfNew]
  have hnew : text ∉ index := by
    rw [Std.ExtTreeMap.mem_iff_isSome_getElem?, h]
    exact Bool.false_ne_true
  by_cases heq : compare text other = .eq
  · rw [if_pos heq, if_pos ⟨heq, hnew⟩]
  · rw [if_neg heq, if_neg fun h => heq h.1]

theorem ofList_of_head {texts : List String} (h : texts.head? = some "") :
    ofList texts = { strings := texts.toArray, index := firstPlaces texts.zipIdx ∅ } := by
  unfold ofList
  rw [if_pos h]
  rfl

/-- The pool is what reading its texts makes of them: they begin with the empty one, and each is
found under its first id. -/
def Canonical (pool : StringPool) : Prop :=
  pool.strings.toList.head? = some "" ∧ pool = ofList pool.strings.toList

theorem canonical_ofList (texts : List String) : Canonical (ofList texts) := by
  by_cases h : texts.head? = some ""
  · rw [Canonical, ofList_of_head h]
    exact ⟨h, (ofList_of_head h).symm⟩
  · have hcons : ofList texts = ofList ("" :: texts) := by
      have hhead : ("" :: texts).head? = some "" := rfl
      rw [ofList_of_head hhead]
      unfold ofList
      rw [if_neg h]
      rfl
    rw [hcons, Canonical, ofList_of_head rfl]
    exact ⟨rfl, (ofList_of_head rfl).symm⟩

theorem Canonical.intern {pool : StringPool} (h : Canonical pool) (text : String) :
    Canonical (pool.intern text).2 := by
  unfold StringPool.intern
  split
  · exact h
  · rename_i hnew
    split
    · have hindex : pool.index = firstPlaces pool.strings.toList.zipIdx ∅ :=
        congrArg StringPool.index (h.2.trans (ofList_of_head h.1))
      have hhead : (pool.strings.push text).toList.head? = some "" := by
        rw [Array.toList_push, List.head?_append, h.1, Option.some_or]
      refine ⟨hhead, ?_⟩
      rw [ofList_of_head hhead]
      have hlast : pool.index.insert text pool.size.toUInt16 =
          firstPlaces (pool.strings.push text).toList.zipIdx ∅ := by
        rw [Array.toList_push, List.zipIdx_append, firstPlaces_append, ← hindex,
          insert_eq_insertIfNew hnew, List.zipIdx_singleton, Nat.zero_add]
        rfl
      exact congrArg (StringPool.mk (pool.strings.push text)) hlast
    · exact h

theorem Built.canonical {pool : StringPool} (h : Built pool) : Canonical pool := by
  induction h with
  | ofList texts => exact canonical_ofList texts
  | intern text _ ih => exact ih.intern text

end StringPool

/-! ## What fits into an image -/

/-- Its numbers have 64 bits. -/
structure ScopeLayout.Sized (l : ScopeLayout) : Prop where
  base : l.base < maxCount
  size : l.size < maxCount

/-- What is counted in a function is counted with 64 bits, as it is in memory. -/
structure Routine.Sized (r : Routine) : Prop where
  name : r.name.utf8ByteSize < maxCount
  params : r.params.length < maxCount
  locals : r.locals < maxCount
  layout : r.layout.length < maxCount
  layouts : ∀ l ∈ r.layout, l.Sized
  code : r.code.bytes.toList.length < maxCount

structure NativeDecl.Sized (n : NativeDecl) : Prop where
  symbol : n.symbol.utf8ByteSize < maxCount
  params : n.params.length < maxCount

/-- What is counted in an executable is counted with 64 bits, as it is in memory. -/
structure Executable.Sized (e : Executable) : Prop where
  routines : e.routines.toList.length < maxCount
  routine : ∀ r ∈ e.routines.toList, r.Sized
  names : e.byName.toList.length < maxCount
  name : ∀ x ∈ e.byName.toList, x.1.utf8ByteSize < maxCount
  strings : e.strings.strings.toList.length < maxCount
  string : ∀ text ∈ e.strings.strings.toList, text.utf8ByteSize < maxCount
  natives : e.natives.toList.length < maxCount
  native : ∀ n ∈ e.natives.toList, n.Sized
  scopeCount : e.scopeCount < maxCount
  topVars : e.topVars.length < maxCount
  topVar : ∀ v ∈ e.topVars, v.name.utf8ByteSize < maxCount

namespace Executable

/-! ## Records -/

theorem reads_readLayout {l : ScopeLayout} (h : l.Sized) :
    Reads readLayout (writeLayout l) l := by
  rw [writeLayout, List.append_assoc]
  exact (reads_readId l.scope).bind ((reads_readCount h.base).bind ((reads_readCount h.size).map _))

theorem reads_readTys {tys : List Ty} (h : tys.length < maxCount) :
    Reads (readSeq readTy) (writeSeq writeTy tys) tys.toArray :=
  reads_readSeq h fun ty _ => reads_readTy ty

theorem reads_readRoutine {r : Routine} (h : r.Sized) :
    Reads readRoutine (writeRoutine r) r := by
  have hcode : Reads (readSeq readByte) (writeSeq (fun b => [b]) r.code.bytes.toList) r.code.bytes := by
    simpa using reads_readSeq h.code fun b _ => reads_readByte b
  simp only [writeRoutine, List.append_assoc]
  refine (reads_readId r.id).bind ((reads_readText h.name).bind ((reads_readId r.declaringScope).bind
    ((reads_readId r.scope).bind ((reads_readTys h.params).bind ((reads_readTy r.result).bind
    ((reads_readCount h.locals).bind ((reads_readSeq h.layout fun l hl =>
      reads_readLayout (h.layouts l hl)).bind (hcode.map _))))))))

theorem reads_readName {name : String} (h : name.utf8ByteSize < maxCount) (id : UInt16) :
    Reads readName (writeText name ++ writeId id) (name, id) :=
  (reads_readText h).bind ((reads_readId id).map _)

theorem reads_readNative {n : NativeDecl} (h : n.Sized) : Reads readNative (writeNative n) n := by
  simp only [writeNative, List.append_assoc]
  exact (reads_readText h.symbol).bind ((reads_readTys h.params).bind ((reads_readTy n.result).map _))

theorem reads_readTopVar {v : TopVar} (h : v.name.utf8ByteSize < maxCount) :
    Reads readTopVar (writeTopVar v) v := by
  simp only [writeTopVar, List.append_assoc]
  exact (reads_readText h).bind ((reads_readTy v.ty).bind ((reads_readId v.addr.scope).bind
    ((reads_readId v.addr.slot).map _)))

/-- A pool is read as its texts, whatever its index; the index that is read follows from them. -/
theorem reads_readPool {pool : StringPool} (hcount : pool.strings.toList.length < maxCount)
    (htexts : ∀ text ∈ pool.strings.toList, text.utf8ByteSize < maxCount) :
    Reads StringPool.read pool.write (.ofList pool.strings.toList) := by
  have hread := (reads_readSeq hcount fun text ht => reads_readText (htexts text ht)).map
    fun texts => StringPool.ofList texts.toList
  rwa [List.toList_toArray] at hread

/-- What is read as a pool is one that is made from a list, whatever the bytes. -/
theorem built_of_readPool {pool : StringPool} {bytes rest : List UInt8}
    (h : StringPool.read.run bytes = .ok (pool, rest)) : pool.Built := by
  obtain ⟨texts, _, -, h⟩ := Wire.bind_ok h
  cases h
  exact .ofList _

/-- A name map is read back from its entries, whatever their order. -/
theorem ofList_of_perm {index : Std.ExtTreeMap String UInt16} {names : List (String × UInt16)}
    (h : names.Perm index.toList) : Std.ExtTreeMap.ofList names = index := by
  have hdistinct : names.Pairwise fun a b => ¬ compare a.1 b.1 = .eq :=
    Std.ExtTreeMap.distinct_keys_toList.perm h.symm fun hab hba => hab (Std.OrientedCmp.eq_symm hba)
  refine Std.ExtTreeMap.ext_getElem? fun name => ?_
  cases hname : index[name]? with
  | some id =>
    have hmem : (name, id) ∈ names :=
      h.symm.subset (Std.ExtTreeMap.mem_toList_iff_getElem?_eq_some.mpr hname)
    exact Std.ExtTreeMap.getElem?_ofList_of_mem Std.ReflCmp.compare_self hdistinct hmem
  | none =>
    refine Std.ExtTreeMap.getElem?_ofList_of_contains_eq_false ?_
    rw [List.contains_eq_mem, decide_eq_false_iff_not]
    intro hmem
    obtain ⟨⟨_, id⟩, hx, rfl⟩ := List.mem_map.mp hmem
    have hid := Std.ExtTreeMap.mem_toList_iff_getElem?_eq_some.mp (h.subset hx)
    rw [hname] at hid
    cases hid

/-! ## Whole images -/

/-- What an executable's image is read as: the executable, with the index that its texts have. -/
theorem reads_read_ofList {e : Executable} (hsize : e.Sized) {names : List (String × UInt16)}
    (hnames : names.Perm e.byName.toList) :
    Reads read (e.imageWith names) { e with strings := .ofList e.strings.strings.toList } := by
  have hname : ∀ x ∈ names, Reads readName (writeText x.1 ++ writeId x.2) x := fun x hx =>
    reads_readName (hsize.name x (hnames.subset hx)) x.2
  simp only [imageWith, writeTables, List.append_assoc]
  refine (reads_readSeq hsize.routines fun r hr => reads_readRoutine (hsize.routine r hr)).bind
    ((reads_readSeq (hnames.length_eq ▸ hsize.names) hname).bind
    ((reads_readPool hsize.strings hsize.string).bind
    ((reads_readSeq hsize.natives fun n hn => reads_readNative (hsize.native n hn)).bind
    ((reads_readCount hsize.scopeCount).bind ?_))))
  have hvars := (reads_readSeq hsize.topVars fun v hv => reads_readTopVar (hsize.topVar v hv)).map
    fun topVars =>
      { e with strings := .ofList e.strings.strings.toList, topVars := topVars.toList }
  rw [Array.toArray_toList, Array.toArray_toList, List.toList_toArray, ofList_of_perm hnames]
  exact hvars

/-- An executable is read back from its image, behind which anything may come. -/
theorem reads_read {e : Executable} (hpool : e.strings.Built) (hsize : e.Sized)
    {names : List (String × UInt16)} (hnames : names.Perm e.byName.toList) :
    Reads read (e.imageWith names) e := by
  have h := reads_read_ofList hsize hnames
  rwa [← hpool.canonical.2] at h

end Executable

end StackLang
