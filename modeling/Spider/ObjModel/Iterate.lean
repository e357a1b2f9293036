import Spider.ObjModel.Search

/-!
# Iterating over a container

`obj_iterator_next` finds its next entry by following the saved pointer or by a
scan; either way the entry is in the container, and in the bucket the iterator
has come to.
-/

namespace Spider.ObjModel

open Lib Outcome

variable {α : Type} {m : Machine} {st st' : State α} {rs : Multiset Addr}
  {cont : ObjContainer α}

/-- An entry found by the scan is in the bucket the scan has come to. -/
theorem scanBuckets_mem {bs : List (List BucketEntry)} {bucket bucket' : Nat}
    {version version' : UInt32} {p : BucketEntry}
    (h : scanBuckets bs bucket version = (some p, bucket', version')) :
    ∃ k es, bucket' = bucket + k ∧ bs[k]? = some es ∧ p ∈ es := by
  induction bs generalizing bucket version with
  | nil => simp [scanBuckets] at h
  | cons es rest ih =>
    unfold scanBuckets at h
    cases hfind : es.find? (fun p => version < p.version.toUInt32) with
    | some q =>
      rw [hfind] at h
      simp only [Prod.mk.injEq, Option.some.injEq] at h
      obtain ⟨rfl, rfl, -⟩ := h
      exact ⟨0, es, rfl, rfl, List.mem_of_find?_eq_some hfind⟩
    | none =>
      rw [hfind] at h
      obtain ⟨k, es', hk, hes, hp⟩ := ih h
      exact ⟨k + 1, es', by omega, by simpa using hes, hp⟩

/-- Splitting a bucket at one of its entries. -/
theorem ObjContainer.scan_mem {bucket bucket' : Nat} {version version' : UInt32}
    {p : BucketEntry} (h : cont.scan bucket version = (some p, bucket', version')) :
    ∃ pre post, cont.buckets[bucket']? = some (pre ++ p :: post) := by
  obtain ⟨k, es, hk, hes, hp⟩ := scanBuckets_mem h
  obtain ⟨pre, post, rfl⟩ := List.append_of_mem hp
  rw [List.getElem?_drop, List.getElem?_take, ← hk] at hes
  split at hes
  · exact ⟨pre, post, hes⟩
  · cases hes

theorem nextInBucket_mem {e : Addr} {es : List BucketEntry} {p : BucketEntry}
    (h : nextInBucket e es = some (some p)) : p ∈ es := by
  induction es with
  | nil => cases h
  | cons q rest ih =>
    unfold nextInBucket at h
    split at h
    · exact List.mem_cons_of_mem _ (List.mem_of_head? (Option.some.inj h))
    · exact List.mem_cons_of_mem _ (ih h)

/-- The entry at a saved address has a successor, or is known to be the last. -/
theorem nextInBucket_isSome {e : Addr} {es : List BucketEntry} :
    (nextInBucket e es).isSome ↔ e ∈ es.map BucketEntry.addr := by
  induction es with
  | nil => simp [nextInBucket]
  | cons q rest ih =>
    unfold nextInBucket
    by_cases he : q.addr = e
    · simp [he]
    · rw [if_neg he, ih]
      simp [Ne.symm he]

theorem ObjContainer.nextEntry_isSome {e : Addr} :
    (cont.nextEntry e).isSome ↔ e ∈ cont.entryAddrs := by
  rw [ObjContainer.nextEntry, List.findSome?_isSome_iff, ObjContainer.entryAddrs,
    List.mem_toFinset, List.map_flatten, List.mem_flatten]
  simp only [nextInBucket_isSome, List.mem_map]
  constructor
  · rintro ⟨es, hes, he⟩
    exact ⟨_, ⟨es, hes, rfl⟩, List.mem_map.mpr he⟩
  · rintro ⟨_, ⟨es, hes, rfl⟩, he⟩
    exact ⟨es, hes, List.mem_map.mp he⟩

theorem ObjContainer.nextEntry_mem {e : Addr} {p : BucketEntry}
    (h : cont.nextEntry e = some (some p)) : p ∈ cont.buckets.flatten := by
  obtain ⟨es, hes, he⟩ := List.exists_of_findSome?_eq_some h
  exact List.mem_flatten.mpr ⟨es, hes, nextInBucket_mem he⟩

/-- Finding the next entry: it is linked, and with no saved pointer it is in the bucket
    the iterator has come to. The iterator stays good. -/
theorem advance_ok {it : ObjIterator}
    (hobj : cont.version.toUInt32 = it.cVersion → it.obj ≠ NULL → it.obj ∈ cont.entryAddrs) :
    ∃ p it', it.advance cont = .ok (p, it') ∧ it'.c = it.c ∧ it'.flags = it.flags ∧
      it'.cVersion = it.cVersion ∧
      (cont.version.toUInt32 = it'.cVersion → it'.obj ≠ NULL → it'.obj ∈ cont.entryAddrs) ∧
      (it.obj = NULL → it'.obj = NULL) ∧
      ∀ e, p = some e → e ∈ cont.buckets.flatten ∧
        (it.obj = NULL → ∃ pre post, cont.buckets[it'.bucket]? = some (pre ++ e :: post)) := by
  unfold ObjIterator.advance
  by_cases hshort : cont.version.toUInt32 = it.cVersion ∧ it.obj ≠ NULL
  · rw [if_pos hshort]
    have hsome := ObjContainer.nextEntry_isSome.mpr (hobj hshort.1 hshort.2)
    obtain ⟨nxt, hnxt⟩ := Option.isSome_iff_exists.mp hsome
    rw [hnxt]
    cases nxt with
    | some q =>
      refine ⟨some q, it, rfl, rfl, rfl, rfl, hobj, id, fun e he => ?_⟩
      obtain rfl := Option.some.inj he
      exact ⟨ObjContainer.nextEntry_mem hnxt, fun hn => absurd hn hshort.2⟩
    | none =>
      cases hscan : cont.scan (it.bucket + 1) 0 with
      | mk p bv =>
        obtain ⟨bucket, version⟩ := bv
        simp only
        refine ⟨_, _, rfl, rfl, rfl, rfl, fun _ hn => absurd rfl hn, fun _ => rfl, ?_⟩
        rintro e rfl
        obtain ⟨pre, post, hb⟩ := ObjContainer.scan_mem hscan
        exact ⟨Buckets.mem_flatten hb (by simp), fun _ => ⟨pre, post, hb⟩⟩
  · rw [if_neg hshort]
    cases hscan : cont.scan it.bucket it.version with
    | mk p bv =>
      obtain ⟨bucket, version⟩ := bv
      simp only
      refine ⟨_, _, rfl, rfl, rfl, rfl, hobj, id, ?_⟩
      rintro e rfl
      obtain ⟨pre, post, hb⟩ := ObjContainer.scan_mem hscan
      exact ⟨Buckets.mem_flatten hb (by simp), fun _ => ⟨pre, post, hb⟩⟩

/-- What `obj_iterator_next` leaves behind: the returned object carries a reference, its
    own or that of the entry taken out. -/
structure Stepped (rs : Multiset Addr) (st : State α) (it : ObjIterator) (ret : Addr)
    (it' : ObjIterator) (st' : State α) : Prop where
  inv : Inv st' ∅ (retRef ret + rs)
  keeps : Keeps rs st st'
  c : it'.c = it.c
  iter : IterWf st' it'

theorem objIteratorNext_sat {it : ObjIterator} (h : Inv st ∅ rs) (hc : it.c ∈ rs)
    (hit : IterWf st it) :
    (objIteratorNext m.toChecked st it).Sat fun r => Stepped rs st it r.1 r.2.1 r.2.2 := by
  obtain ⟨cont, ⟨p, hp, hu⟩, hle, hobj⟩ := hit.cont
  have hw : ContWf cont := Counted.contWf h ⟨p, hp, hu⟩ (Finset.notMem_empty _)
  obtain ⟨st1, hst1, hobj1, hcount1⟩ := h.wf.lockIf hp (!it.flags.dontlock)
  have hinv1 : Inv st1 ∅ rs := .of_counted hobj1 (hcount1 _ h)
  have hp1 : st1.objs.get it.c = some p := hobj1 ▸ hp
  have hkeep1 : Keeps rs st st1 := .of_objs hobj1
  obtain ⟨e?, it1, hadv, hc1, hflags1, hcv1, hobj1', hnull1, hmem⟩ := advance_ok hobj
  unfold objIteratorNext internalObjIteratorNext
  simp only [h.wf.internalObj hp, ok_bind, hst1, containerAt_of_get hp1 hu, hadv]
  cases e? with
  | none =>
    -- the container has no further entry
    simp only [ok_bind, refIf, Bool.false_eq_true, if_false]
    obtain ⟨st2, hst2, hobj2, hcount2⟩ := hinv1.wf.unlockIf (hc1 ▸ hp1) (!it1.flags.dontlock)
    simp only [hst2, ok_bind, sat_ok]
    refine ⟨by simpa using Inv.of_counted hobj2 (hcount2 _ hinv1),
      hkeep1.trans (.of_objs hobj2), hc1, ⟨cont, ?_, hcv1 ▸ hle, hobj1'⟩, ?_⟩
    · rw [hc1]
      exact HasCont.of_objs ⟨p, hp1, hu⟩ hobj2
    · intro hunlink
      exact hnull1 (hit.unlink (hflags1 ▸ hunlink))
  | some e =>
    obtain ⟨heflat, hebucket⟩ := hmem e rfl
    have hentry : e ∈ p.entries := by
      rw [Obj.entries, hu]
      exact heflat
    obtain ⟨-, q, hq⟩ := hinv1.get_pobj hp1 (Finset.notMem_empty _) hentry
    have hne : e.pobj ≠ NULL := hinv1.wf.ne_null hq
    cases hunlink : it1.flags.unlink with
    | true =>
      -- the entry is taken out; its reference passes to the caller
      obtain ⟨pre, post, hb⟩ := hebucket (hit.unlink (hflags1 ▸ hunlink))
      simp only [if_true, Outcome.bind_assoc]
      refine spdAtomicFetchaddInt_checked.bind fun version hx => ?_
      obtain ⟨hv, hvint⟩ := hx
      refine spdAtomicFetchaddInt_checked.bind fun elements hx => ?_
      obtain ⟨hel, helint⟩ := hx
      have heq : { cont.removeEntry it1.bucket e.addr with
          version := version, elements := elements } = cont.unlinked it1.bucket e.addr := by
        rw [hv, hel, ObjContainer.unlinked]
      rw [hel] at helint
      obtain ⟨hinv2, hkeep2⟩ := hinv1.unlinked hp1 hu hb (hv ▸ hvint) helint
      have hcont2 : HasCont ((setContainer st1 it.c p (cont.unlinked it1.bucket e.addr)).emit
          (.bucketWrite it.c)) it.c (cont.unlinked it1.bucket e.addr) :=
        ⟨_, Heap.get_set_self _ _ _, rfl⟩
      obtain ⟨st3, hst3, hobj3, hcount3⟩ := hinv2.wf.unlockIf (Heap.get_set_self _ _ _)
        (!it1.flags.dontlock)
      have hinv3 := Inv.of_counted hobj3 (hcount3 _ hinv2)
      simp only [ok_bind, refIf, Bool.false_eq_true, if_false, hc1, heq, hst3, sat_ok]
      refine ⟨?_, (hkeep1.trans hkeep2).trans (.of_objs hobj3), rfl, ⟨_, hcont2.of_objs hobj3, ?_⟩,
        fun _ => rfl⟩
      · rw [retRef_of_ne hne, Multiset.singleton_add]
        exact hinv3
      · have h1 : (1 : Int32).toInt = 1 := by decide
        have hpos := hw.version
        subst hv
        exact ⟨(CInt.toNat_toUInt32 (x := cont.version + 1) (by omega)).le,
          fun _ hn => absurd rfl hn⟩
    | false =>
      simp only [Bool.false_eq_true, if_false, ok_bind, refIf, if_true, Outcome.bind_assoc]
      refine (objRef_inc_ext hinv1 (Heap.mem_dom_of_get hq)).bind fun x hx => ?_
      obtain ⟨_, st2⟩ := x
      obtain ⟨hinv2, hframe⟩ := hx
      simp only at hinv2 hframe
      have hmemc : it.c ∈ e.pobj ::ₘ rs := Multiset.mem_cons_of_mem hc
      obtain ⟨v, hv⟩ := hframe.get hinv2 hmemc hp1
      obtain ⟨st3, hst3, hobj3, hcount3⟩ := hinv2.wf.unlockIf hv (!it1.flags.dontlock)
      simp only [hc1, hst3, ok_bind, sat_ok]
      have hkeep2 := (hframe.keeps hinv2).mono (Multiset.subset_cons rs e.pobj)
      have hpos := hw.version
      refine ⟨?_, (hkeep1.trans hkeep2).trans (.of_objs hobj3), rfl,
        ⟨cont, HasCont.of_objs ⟨_, hv, hu⟩ hobj3, ?_, fun _ _ => ?_⟩, fun hf => ?_⟩
      · rw [retRef_of_ne hne, Multiset.singleton_add]
        exact .of_counted hobj3 (hcount3 _ hinv2)
      · exact (CInt.toNat_toUInt32 hpos.le).le
      · exact List.mem_toFinset.mpr (List.mem_map_of_mem heflat)
      · simp [hunlink] at hf

/-! ## The remaining interface functions -/

section Interface

variable {c o : Addr} {flags : SearchFlags}

theorem objCallback_sat (hf : flags.continue_ = false) (hc : c ∈ rs) (h : Inv st ∅ rs)
    (hcont : HasCont st c cont) (cbFn : Option (Ptr α → Ptr α → SearchFlags → Int32))
    (arg : Ptr α) :
    (objCallback m.toChecked st c flags cbFn arg).Sat fun r =>
      Inv r.2 ∅ (r.1.refs + rs) ∧ Keeps rs st r.2 ∧
        (∀ it, r.1 = .iter it → IterWf r.2 it) ∧ (flags.nodata = true → r.1.refs = 0) := by
  refine internalObjCallback_sat ?_ hf hc h hcont arg
  cases cbFn with
  | none => exact cbTrue_pure
  | some f => exact pureCallback_pure f arg flags

theorem objCallbackData_sat {δ : Type} (hf : flags.continue_ = false) (hc : c ∈ rs)
    (h : Inv st ∅ rs) (hcont : HasCont st c cont)
    (cbFn : Option (Ptr α → Ptr α → δ → SearchFlags → Int32)) (arg : Ptr α) (data : δ) :
    (objCallbackData m.toChecked st c flags cbFn arg data).Sat fun r =>
      Inv r.2 ∅ (r.1.refs + rs) ∧ Keeps rs st r.2 ∧
        (∀ it, r.1 = .iter it → IterWf r.2 it) ∧ (flags.nodata = true → r.1.refs = 0) := by
  refine internalObjCallback_sat ?_ hf hc h hcont arg
  cases cbFn with
  | none => exact cbTrue_pure
  | some f => exact pureCallback_pure (fun p a fl => f p a data fl) arg flags

theorem objFind_sat (hf : flags.continue_ = false) (hc : c ∈ rs) (h : Inv st ∅ rs)
    (hcont : HasCont st c cont) (arg : Ptr α) :
    (objFind m.toChecked st c arg flags).Sat fun r =>
      Inv r.2 ∅ (r.1.refs + rs) ∧ Keeps rs st r.2 ∧
        (∀ it, r.1 = .iter it → IterWf r.2 it) ∧ (flags.nodata = true → r.1.refs = 0) := by
  obtain ⟨p, hp, hu⟩ := hcont
  simp only [objFind, containerAt_of_get hp hu, ok_bind]
  exact objCallback_sat hf hc h ⟨p, hp, hu⟩ cont.cmpFn arg

theorem objUnlink_sat (hf : flags.continue_ = false) (hc : c ∈ rs) (h : Inv st ∅ rs)
    (hcont : HasCont st c cont) (ho : o ∈ st.objs.dom) :
    (objUnlink m.toChecked st c o flags).Sat fun st' => Inv st' ∅ rs ∧ Keeps rs st st' := by
  obtain ⟨q, hq⟩ := Heap.mem_dom.mp ho
  obtain ⟨d, hd⟩ := externalObj_of_get hq
  unfold objUnlink
  simp only [h.wf.internalObj hq, hd, ok_bind]
  refine (objCallback_sat (by exact hf) hc h hcont (some objMatchByAddr) ⟨o, d⟩).bind
    fun ⟨r, st1⟩ ⟨hinv, hkeep, _, hnone⟩ => ?_
  simp only at hinv hkeep hnone
  rw [hnone trivial, zero_add] at hinv
  exact ⟨hinv, hkeep⟩

end Interface

end Spider.ObjModel
