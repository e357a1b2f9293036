import Spider.ObjModel.Lookup

/-!
# Destroying an iterator

`obj_iterator_destory` calls `obj_ref` on the iterator, which is no object. The
iterators have addresses here and a memory of their own: a variable of the
client, or the block that a search with several results has allocated.
-/

namespace Spider.ObjModel

open Lib Outcome

variable {α : Type} {m : Machine} {st st' : State α} {its its' : Heap ObjIterator}
  {a c i : Addr} {it it' : ObjIterator} {magic : UInt32} {r : Int32}

/-- `OBJ_MAGIC` (`obj.c:43`). -/
def OBJ_MAGIC : UInt32 := 0xa570b123

/-- `obj_ref(i, -1)` for the address of an iterator. Where the iterator is the user data of an
    object, that object has lost a reference; elsewhere `magic` is what is read in front of the
    iterator, where a header would have its magic number. -/
def refIterator (m : Machine) (st : State α) (i : Addr) (magic : UInt32) : Outcome (State α) :=
  if i ∈ st.objs.dom then do
    let (_, st) ← objRef m st i (-1)
    .ok st
  -- a counter and a destructor that nobody has set
  else if magic = OBJ_MAGIC then .fault
  else .ok st

/-- `i->c = NULL;`. -/
def clearC (its : Heap ObjIterator) (i : Addr) : Outcome (Heap ObjIterator) :=
  if i = NULL then .fault
  else match its.get i with
    | some it => .ok (its.set i { it with c := NULL })
    | none => .fault

/-- `obj_iterator_destory` (`obj.c:621-628`): the store, and the memory of the iterators. -/
def objIteratorDestory (m : Machine) (st : State α) (its : Heap ObjIterator) (i : Addr)
    (magic : UInt32) : Outcome (State α × Heap ObjIterator) := do
  let st' ← refIterator m st i magic
  match its.get i with
  | none => .fault
  | some it =>
    -- the object around the iterator may have been freed
    if i ∈ st.objs.dom ∧ i ∉ st'.objs.dom then .fault
    else if it.flags.mallocd then do
      -- `spd_safe_free(i)` sets `i` to null
      let its ← clearC (its.free i) NULL
      .ok (st', its)
    else do
      let its ← clearC its i
      .ok (st', its)

/-- The iterators that the interface gives: a new one on a container, the results of a search, and
    what a call of `obj_iterator_next` makes of one. -/
inductive Given (α : Type) (m : Machine) : ObjIterator → Prop where
  | init {st st' : State α} {c : Addr} {flags : IteratorFlags} {it : ObjIterator} (hc : c ≠ NULL)
      (hrun : objIteratorInit m st c flags = .ok (it, st')) : Given α m it
  | results {st st' : State α} {c : Addr} {flags : SearchFlags} {cbFn : Option (Callback α)}
      {arg : Ptr α} {it : ObjIterator}
      (hrun : Open.internalObjCallback (objRef m) m st c flags cbFn arg = .ok (.iter it, st')) :
      Given α m it
  | next {st st' : State α} {ret : Addr} {it it' : ObjIterator} (h : Given α m it)
      (hrun : objIteratorNext m st it = .ok (ret, it', st')) : Given α m it'

/-- The container loses one reference, with all that follows when it was the last one; a block of
    `spd_calloc` is freed, and any other iterator is left without a container. -/
def GivesBack (m : Machine) (st : State α) (its : Heap ObjIterator) (i : Addr) (magic : UInt32) :
    Prop :=
  ∃ it r st' its', its.get i = some it ∧
    objIteratorDestory m st its i magic = .ok (st', its') ∧
    objRef m st it.c (-1) = .ok (r, st') ∧
    its' = if it.flags.mallocd then its.free i else its.set i { it with c := NULL }

/-! ## The iterators that are given -/

theorem advance_c {cont : ObjContainer α} {p : Option BucketEntry}
    (h : it.advance cont = .ok (p, it')) : it'.c = it.c := by
  unfold ObjIterator.advance at h
  split at h
  · split at h
    · exact absurd h nofun
    · cases h
      rfl
    · cases h
      rfl
  · cases h
    rfl

theorem objIteratorNext_c {ret : Addr} (hrun : objIteratorNext m st it = .ok (ret, it', st')) :
    it'.c = it.c := by
  obtain ⟨⟨ret1, take, it1, st1⟩, hnext, hrest⟩ := bind_eq_ok.mp hrun
  obtain ⟨st2, -, hrest⟩ := bind_eq_ok.mp hrest
  obtain ⟨st3, -, hend⟩ := bind_eq_ok.mp hrest
  cases hend
  obtain ⟨ob, -, hnext⟩ := bind_eq_ok.mp hnext
  cases ob with
  | none =>
    cases hnext
    rfl
  | some ob =>
    obtain ⟨st4, -, hnext⟩ := bind_eq_ok.mp hnext
    obtain ⟨⟨ob, cont⟩, -, hnext⟩ := bind_eq_ok.mp hnext
    obtain ⟨⟨p, it2⟩, hadvance, hnext⟩ := bind_eq_ok.mp hnext
    have hc := advance_c hadvance
    cases p with
    | none =>
      cases hnext
      exact hc
    | some p =>
      dsimp only at hnext
      split at hnext
      · obtain ⟨version, -, hnext⟩ := bind_eq_ok.mp hnext
        obtain ⟨elements, -, hnext⟩ := bind_eq_ok.mp hnext
        cases hnext
        exact hc
      · cases hnext
        exact hc

theorem objIteratorInit_c {flags : IteratorFlags}
    (hrun : objIteratorInit m st c flags = .ok (it, st')) : it.c = c := by
  obtain ⟨r, -, hend⟩ := bind_eq_ok.mp hrun
  cases hend
  rfl

/-- Every iterator has a container. -/
theorem Given.c_ne_null (h : Given α m it) : it.c ≠ NULL := by
  induction h with
  | init hc hrun => exact objIteratorInit_c hrun ▸ hc
  | results hrun =>
    obtain ⟨ob, -, hrun⟩ := bind_eq_ok.mp hrun
    cases ob with
    | none => exact absurd hrun nofun
    | some ob =>
      dsimp only at hrun
      split at hrun
      · split at hrun
        · exact absurd hrun nofun
        · next hmulti =>
          split at hrun
          · obtain ⟨r, -, hend⟩ := bind_eq_ok.mp hrun
            exact absurd hend nofun
          · obtain ⟨r, -, hrun⟩ := bind_eq_ok.mp hrun
            obtain ⟨⟨it1, st1⟩, hinit, hrun⟩ := bind_eq_ok.mp hrun
            obtain ⟨r', -, hend⟩ := bind_eq_ok.mp hrun
            cases hend
            exact objIteratorInit_c hinit ▸ hmulti
      · obtain ⟨r, -, hend⟩ := bind_eq_ok.mp hrun
        exact absurd hend nofun
  | next _ hrun ih => exact objIteratorNext_c hrun ▸ ih

/-! ## What is given back -/

/-- The destructor of a container runs on a container only, and that of a client leaves the store
    alone. -/
theorem runDestructor_data {p : Obj α} {d : α}
    {ref : State α → Addr → Int32 → Outcome (Int32 × State α)} {f : Option DestructorFn}
    (hp : st.objs.get a = some p) (hu : p.userData = .data d)
    (hrun : runDestructor ref m st a f = .ok st') : st' = st := by
  have hclient : ∀ st' : State α, Outcome.ok st = .ok st' → st' = st := fun st' h =>
    (Outcome.ok.inj h).symm
  have hnot : containerAt st a = .fault := by
    rw [containerAt, hp]
    dsimp only
    rw [hu]
  rcases f with _ | _ | _
  · exact hclient st' hrun
  · exact hclient st' hrun
  · obtain ⟨⟨ret, st1⟩, hcallback, hrest⟩ := bind_eq_ok.mp hrun
    obtain ⟨ob, hob, hcallback⟩ := bind_eq_ok.mp hcallback
    cases ob with
    | none =>
      cases hcallback
      obtain ⟨q, hat, -⟩ := bind_eq_ok.mp hrest
      cases hnot.symm.trans hat
    | some ob =>
      dsimp only at hcallback
      rw [if_neg (by decide)] at hcallback
      obtain ⟨q, hsearch, -⟩ := bind_eq_ok.mp hcallback
      obtain ⟨q', hat, -⟩ := bind_eq_ok.mp hsearch
      cases hnot.symm.trans hat

/-- What `obj_ref(a, -1)` does to an object. -/
theorem objRef_dec_cases (ha : a ≠ NULL) (hrun : objRef m st a (-1) = .ok (r, st')) :
    ∃ p v, st.objs.get a = some p ∧ spdAtomicFetchaddInt m p.refCounter (-1) = .ok v ∧
      (st' = st.setObj a { p with refCounter := v } ∨
        ∃ st1, runDestructor (internalObjRef m st.objs.dom.card) m
            ((st.setObj a { p with refCounter := v }).emit (.destruct p.serial)) a p.destructorFn =
          .ok st1 ∧ st' = st1.freeObj a) := by
  rw [objRef, internalObjRef, internalObj, if_neg ha] at hrun
  cases hp : st.objs.get a with
  | none =>
    rw [hp] at hrun
    cases hrun
  | some p =>
    rw [hp, ok_bind] at hrun
    dsimp only at hrun
    rw [if_neg (by decide)] at hrun
    obtain ⟨v, hv, hrun⟩ := bind_eq_ok.mp hrun
    refine ⟨p, v, rfl, hv, ?_⟩
    split at hrun
    · obtain ⟨st1, hdestructor, hend⟩ := bind_eq_ok.mp hrun
      cases hend
      exact .inr ⟨st1, hdestructor, rfl⟩
    · cases hrun
      exact .inl rfl

/-- The object that a reference to an ordinary object is dropped of is the only one to change. -/
theorem objRef_data_get {p : Obj α} {d : α} (ha : a ≠ NULL) (hp : st.objs.get a = some p)
    (hu : p.userData = .data d) (hrun : objRef m st a (-1) = .ok (r, st')) (hne : c ≠ a) :
    st'.objs.get c = st.objs.get c := by
  obtain ⟨q, v, hq, -, hend⟩ := objRef_dec_cases ha hrun
  obtain rfl := Option.some.inj (hp.symm.trans hq)
  rcases hend with rfl | ⟨st1, hdestructor, rfl⟩
  · exact Heap.get_set_of_ne _ _ hne
  · have hset : ((st.setObj a { p with refCounter := v }).emit (.destruct p.serial)).objs.get a =
        some { p with refCounter := v } := Heap.get_set_self _ _ _
    have hst1 := runDestructor_data hset hu hdestructor
    rw [hst1, State.objs_freeObj, Heap.get_free_of_ne _ hne]
    exact Heap.get_set_of_ne _ _ hne

theorem spdAtomicFetchaddInt_ok {x d v : Int32} (h : spdAtomicFetchaddInt m x d = .ok v) :
    v = x + d := by
  unfold spdAtomicFetchaddInt at h
  split at h
  · exact (Outcome.ok.inj h).symm
  · split at h
    · exact (Outcome.ok.inj h).symm
    · exact absurd h nofun

/-- A reference that is dropped shows in its object. -/
theorem objRef_dec_get (ha : a ≠ NULL) (hrun : objRef m st a (-1) = .ok (r, st')) :
    st'.objs.get a ≠ st.objs.get a := by
  obtain ⟨p, v, hp, hv, hend⟩ := objRef_dec_cases ha hrun
  rcases hend with rfl | ⟨st1, -, rfl⟩
  · have hne : v ≠ p.refCounter := by
      rw [spdAtomicFetchaddInt_ok hv]
      exact fun heq => absurd (Int32.add_eq_left.mp heq) (by decide)
    rw [State.objs_setObj, Heap.get_set_self, hp]
    intro heq
    exact hne (congrArg Obj.refCounter (Option.some.inj heq))
  · rw [State.objs_freeObj, Heap.get_free_self, hp]
    nofun

/-- An iterator that was allocated is freed, and its field `c` is written through null. -/
theorem objIteratorDestory_mallocd (hit : its.get i = some it) (hmallocd : it.flags.mallocd = true) :
    objIteratorDestory m st its i magic ≠ .ok (st', its') := by
  intro hrun
  obtain ⟨st1, -, hrun⟩ := bind_eq_ok.mp hrun
  rw [hit] at hrun
  dsimp only at hrun
  rw [if_pos hmallocd] at hrun
  split at hrun
  · exact absurd hrun nofun
  · obtain ⟨its1, hclear, -⟩ := bind_eq_ok.mp hrun
    exact absurd hclear nofun

/-- What destroying an iterator does to an object other than the one around the iterator. -/
theorem objIteratorDestory_get (hi : c ≠ i)
    (hmem : ∀ p, st.objs.get i = some p → ∃ d, p.userData = .data d)
    (hrun : objIteratorDestory m st its i magic = .ok (st', its')) :
    st'.objs.get c = st.objs.get c := by
  obtain ⟨st1, href, hrun⟩ := bind_eq_ok.mp hrun
  split at hrun
  · exact absurd hrun nofun
  · split at hrun
    · exact absurd hrun nofun
    · split at hrun
      · obtain ⟨its1, hclear, -⟩ := bind_eq_ok.mp hrun
        exact absurd hclear nofun
      · obtain ⟨its1, hclear, hend⟩ := bind_eq_ok.mp hrun
        cases hend
        have hnull : i ≠ NULL := by
          rintro rfl
          exact absurd hclear nofun
        rw [refIterator] at href
        split at href
        · next hdom =>
          obtain ⟨⟨r, st2⟩, href, hend⟩ := bind_eq_ok.mp href
          cases hend
          obtain ⟨p, hp⟩ := Heap.mem_dom.mp hdom
          obtain ⟨d, hd⟩ := hmem p hp
          exact objRef_data_get hnull hp hd href hi
        · split at href
          · exact absurd href nofun
          · cases href
            rfl

/-- The container never gets its reference back. -/
theorem not_givesBack (m : Machine) (st : State α) (its : Heap ObjIterator) (i : Addr)
    (magic : UInt32) (it : ObjIterator) (hgiven : Given α m it) (hit : its.get i = some it)
    (hi : it.c ≠ i) (hmem : ∀ p, st.objs.get i = some p → ∃ d, p.userData = .data d) :
    ¬ GivesBack m st its i magic := by
  rintro ⟨it1, r, st', its', hit1, hrun, href, -⟩
  obtain rfl := Option.some.inj (hit.symm.trans hit1)
  exact objRef_dec_get hgiven.c_ne_null href (objIteratorDestory_get hi hmem hrun)

/-- A container with one reference of its client and one of an iterator keeps both, and the iterator
    with the results of a search is the end of the program. -/
theorem iterator_keeps_reference :
    (∃ it st, objIteratorInit bumpMachine (linkedState 1 1 []) 2 {} = .ok (it, st) ∧
      ∃ st' its', objIteratorDestory bumpMachine st (Heap.set ∅ 9 it) 9 0 = .ok (st', its') ∧
        (st.objs.get 2).map Obj.refCounter = some 2 ∧
        (st'.objs.get 2).map Obj.refCounter = some 2 ∧
        ¬ GivesBack bumpMachine st (Heap.set ∅ 9 it) 9 0) ∧
    ∃ it st, objCallback bumpMachine (linkedState 1 1 []) 2 { multiple := true } none ⟨NULL, none⟩ =
        .ok (.iter it, st) ∧
      objIteratorDestory bumpMachine st (Heap.set ∅ 9 it) 9 0 = .fault := by
  refine ⟨⟨_, _, by with_unfolding_all rfl, _, _, by with_unfolding_all rfl,
    by with_unfolding_all rfl, by with_unfolding_all rfl, ?_⟩,
    ⟨_, _, by with_unfolding_all rfl, by with_unfolding_all rfl⟩⟩
  rintro ⟨it, r, st', its', hit, hrun, href, -⟩
  obtain rfl := Option.some.inj hit
  refine objRef_dec_get (by decide) href (objIteratorDestory_get (by decide) ?_ hrun)
  intro p hp
  exact absurd hp (by with_unfolding_all nofun)

theorem not_givesBack_linkedState :
    ¬ GivesBack bumpMachine (linkedState 2 1 []) (Heap.set ∅ 9 ⟨2, {}, 0, 0, NULL, 0⟩) 9 0 := by
  have hrun : ∃ st, objIteratorInit bumpMachine (linkedState 1 1 []) 2 {} =
      .ok (⟨2, {}, 0, 0, NULL, 0⟩, st) := ⟨_, by with_unfolding_all rfl⟩
  obtain ⟨st, hrun⟩ := hrun
  exact not_givesBack bumpMachine _ _ 9 0 _ (.init (by decide) hrun) rfl (by decide)
    fun p hp => absurd hp (by with_unfolding_all nofun)

end Spider.ObjModel
