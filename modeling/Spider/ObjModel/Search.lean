import Spider.ObjModel.Link

/-!
# Searching a container

`internal_obj_callback` in the hands of a client that holds a reference to the
container: whatever it returns carries exactly one reference, taken, transferred
from an unlinked entry, or held by the iterator over several results.
-/

namespace Spider.ObjModel

open Lib Outcome

variable {α : Type} {m : Machine} {st st' : State α} {rs : Multiset Addr}
  {a c : Addr} {cont : ObjContainer α} {flags : SearchFlags} {cb : Callback α}
  {multi : Option Addr} {i : Nat} {pre rest : List BucketEntry} {cur : BucketEntry}

/-- The reference that goes with a returned pointer. -/
def retRef (a : Addr) : Multiset Addr := if a = NULL then 0 else {a}

@[simp] theorem retRef_null : retRef NULL = 0 := rfl

theorem retRef_of_ne (h : a ≠ NULL) : retRef a = {a} := if_neg h

/-- The callback has no effect on the store. -/
def Callback.Pure (cb : Callback α) : Prop := ∀ st p, ∃ r, cb st p = .ok (r, st)

theorem cbTrue_pure : (cbTrue : Callback α).Pure := fun _ _ => ⟨_, rfl⟩

theorem pureCallback_pure (f : Ptr α → Ptr α → SearchFlags → Int32) (arg : Ptr α)
    (flags : SearchFlags) : (pureCallback f arg flags).Pure := fun _ _ => ⟨_, rfl⟩

/-- The container of several results, which is there exactly when the flags ask for
    it, and is not the container searched. -/
structure MultiOk (st : State α) (c : Addr) (rs : Multiset Addr) (flags : SearchFlags)
    (multi : Option Addr) : Prop where
  isSome : multi.isSome = (flags.multiple && !flags.nodata)
  cont : ∀ mu, multi = some mu → mu ∈ rs ∧ mu ≠ c ∧ ∃ k, HasCont st mu k

theorem MultiOk.keeps (h : MultiOk st c rs flags multi) (hk : Keeps rs st st') :
    MultiOk st' c rs flags multi := by
  refine ⟨h.isSome, fun mu hmu => ?_⟩
  obtain ⟨hext, hne, k, hcont⟩ := h.cont mu hmu
  obtain ⟨k', hcont', -⟩ := hk.hasCont hext hcont
  exact ⟨hext, hne, k', hcont'⟩

/-- Bucket `i` of container `c` is `es`. -/
def HasBucket (st : State α) (c : Addr) (i : Nat) (es : List BucketEntry) : Prop :=
  ∃ cont, HasCont st c cont ∧ cont.buckets[i]? = some es

theorem HasBucket.pobj_mem (h : Inv st ∅ rs) (hb : HasBucket st c i (pre ++ cur :: rest)) :
    cur.pobj ≠ NULL ∧ cur.pobj ∈ st.objs.dom := by
  obtain ⟨cont, ⟨p, hp, hu⟩, hb⟩ := hb
  have hmem : cur ∈ p.entries := by
    rw [Obj.entries, hu]
    exact Buckets.mem_flatten hb (by simp)
  obtain ⟨-, q, hq⟩ := h.get_pobj hp (Finset.notMem_empty c) hmem
  exact ⟨h.wf.ne_null hq, Heap.mem_dom_of_get hq⟩

/-- The contents after the entry of bucket `i` at `e` has been taken out. -/
def ObjContainer.unlinked (cont : ObjContainer α) (i : Nat) (e : Addr) : ObjContainer α :=
  { cont.removeEntry i e with version := cont.version + 1, elements := cont.elements + -1 }

@[simp] theorem ObjContainer.buckets_unlinked (e : Addr) :
    (cont.unlinked i e).buckets = cont.buckets.modify i (·.eraseP (·.addr = e)) := rfl

@[simp] theorem ObjContainer.nBuckets_unlinked (e : Addr) :
    (cont.unlinked i e).nBuckets = cont.nBuckets := by
  have hkeep : ∀ version elements, ({ cont.removeEntry i e with
      version := version, elements := elements } : ObjContainer α).nBuckets = cont.nBuckets :=
    fun _ _ => rfl
  exact hkeep _ _

@[simp] theorem ObjContainer.hashFn_unlinked (e : Addr) :
    (cont.unlinked i e).hashFn = cont.hashFn := by
  have hkeep : ∀ version elements, ({ cont.removeEntry i e with
      version := version, elements := elements } : ObjContainer α).hashFn = cont.hashFn :=
    fun _ _ => rfl
  exact hkeep _ _

/-- An entry is taken out of its bucket, and its reference goes to the caller. -/
theorem Inv.unlinked {p : Obj α} (h : Inv st ∅ rs) (hp : st.objs.get c = some p)
    (hu : p.userData = .container cont) (hbucket : cont.buckets[i]? = some (pre ++ cur :: rest))
    (hv : (cont.version + 1).toInt = cont.version.toInt + (1 : Int32).toInt)
    (hel : (cont.elements + -1).toInt = cont.elements.toInt + (-1 : Int32).toInt) :
    Inv ((setContainer st c p (cont.unlinked i cur.addr)).emit (.bucketWrite c)) ∅
        (cur.pobj ::ₘ rs) ∧
      Keeps rs st ((setContainer st c p (cont.unlinked i cur.addr)).emit (.bucketWrite c)) := by
  have hw : ContWf cont := Counted.contWf h ⟨p, hp, hu⟩ (Finset.notMem_empty c)
  have h1 : (1 : Int32).toInt = 1 := by decide
  have h1' : (-1 : Int32).toInt = -1 := by decide
  have hw' : ContWf (cont.unlinked i cur.addr) :=
    hw.removeEntry hbucket (cont.version + 1) (cont.elements + -1) (by omega) (by omega)
  have hperm : cont.buckets.flatten.Perm (cur :: (cont.unlinked i cur.addr).buckets.flatten) := by
    rw [ObjContainer.buckets_unlinked]
    exact removeEntry_perm hw.addrs hbucket
  have hmod : ContMod cont (cont.unlinked i cur.addr) := .unlink hbucket
  exact ⟨h.removeEntry hp hu hw' hperm, .setObj hp (.setContainer hu (.single hmod hv))⟩

/-- The unlinking branch: the entry goes, and its reference is dropped or passed on. -/
theorem unlinkCurrent_exact (h : Inv st ∅ rs) (hc : c ∈ rs) (hcont : HasCont st c cont)
    (hbucket : cont.buckets[i]? = some (pre ++ cur :: rest)) :
    (Open.unlinkCurrent (objRef m.toChecked) m.toChecked st c flags i cur).Sat fun st' =>
      Inv st' ∅ ((if flags.unlink && !(flags.nodata || flags.multiple) then {cur.pobj} else 0)
        + rs) ∧ Keeps rs st st' ∧ Stays st st' ∧
      HasCont st' c (if flags.unlink then cont.unlinked i cur.addr else cont) ∧
      ∀ b k, b ≠ c → b ∈ rs → HasCont st b k → HasCont st' b k := by
  unfold Open.unlinkCurrent
  cases hunlink : flags.unlink with
  | false => exact ⟨by simpa using h, .refl _ _, .refl _, hcont, fun _ _ _ _ hk => hk⟩
  | true =>
    obtain ⟨p, hp, hu⟩ := hcont
    simp only [if_true, containerAt_of_get hp hu, ok_bind, Bool.true_and]
    refine spdAtomicFetchaddInt_checked.bind fun version ⟨hv, hvint⟩ => ?_
    refine spdAtomicFetchaddInt_checked.bind fun elements ⟨hel, helint⟩ => ?_
    have heq : { cont.removeEntry i cur.addr with version := version, elements := elements } =
        cont.unlinked i cur.addr := by rw [hv, hel, ObjContainer.unlinked]
    rw [hv] at hvint
    rw [hel] at helint
    simp only [heq]
    obtain ⟨hinv, hkeep⟩ := h.unlinked hp hu hbucket hvint helint
    have hstay : Stays st ((setContainer st c p (cont.unlinked i cur.addr)).emit
        (.bucketWrite c)) := (Stays.setContainer hp hu).trans (.of_objs rfl)
    have hcont' : HasCont ((setContainer st c p (cont.unlinked i cur.addr)).emit
        (.bucketWrite c)) c (cont.unlinked i cur.addr) := ⟨_, Heap.get_set_self _ _ _, rfl⟩
    have hother : ∀ b k, b ≠ c → HasCont st b k → HasCont ((setContainer st c p
        (cont.unlinked i cur.addr)).emit (.bucketWrite c)) b k := by
      rintro b k hne ⟨q, hq, hqu⟩
      exact ⟨q, (Heap.get_set_of_ne _ _ hne).trans hq, hqu⟩
    cases hdrop : (flags.nodata || flags.multiple) with
    | false => exact ⟨by simpa using hinv, hkeep, hstay, hcont', fun b k hne _ => hother b k hne⟩
    | true =>
      simp only [if_true]
      refine (objRef_dec hinv).bind fun ⟨_, st2⟩ ⟨hinv2, hframe⟩ => ?_
      simp only at hinv2 hframe
      exact ⟨by simpa using hinv2, hkeep.trans (hframe.keeps hinv2), hstay.trans hframe.stays,
        hcont'.of_frame hframe hinv2 hc,
        fun b k hne hb hk => (hother b k hne hk).of_frame hframe hinv2 hb⟩

theorem unlinkCurrent_sat (h : Inv st ∅ rs) (hc : c ∈ rs)
    (hb : HasBucket st c i (pre ++ cur :: rest)) :
    (Open.unlinkCurrent (objRef m.toChecked) m.toChecked st c flags i cur).Sat fun st' =>
      Inv st' ∅ ((if flags.unlink && !(flags.nodata || flags.multiple) then {cur.pobj} else 0)
        + rs) ∧ Keeps rs st st' ∧
      HasBucket st' c i (if flags.unlink then pre ++ rest else pre ++ cur :: rest) := by
  obtain ⟨cont, hcont, hbucket⟩ := hb
  have hw : ContWf cont := Counted.contWf h hcont (Finset.notMem_empty c)
  refine (unlinkCurrent_exact h hc hcont hbucket).mono fun st' hr => ?_
  obtain ⟨hinv, hkeep, -, hcont', -⟩ := hr
  refine ⟨hinv, hkeep, _, hcont', ?_⟩
  cases flags.unlink with
  | false => exact hbucket
  | true =>
    simp only [if_true, ObjContainer.unlinked, ObjContainer.removeEntry, List.getElem?_modify_eq,
      hbucket, Option.map_eq_map, Option.map_some, removeEntry_bucket hw.addrs hbucket]

/-- The branch of a match, before it may unlink the entry: the pointer returned so
    far carries its reference unless the entry still has to hand it over. -/
theorem takeMatch_exact (h : Inv st ∅ rs) (hc : c ∈ rs) (hcont : HasCont st c cont)
    (hb : cont.buckets[i]? = some (pre ++ cur :: rest)) (hm : MultiOk st c rs flags multi) :
    (Open.takeMatch (objRef m.toChecked) m.toChecked st flags multi cur NULL).Sat fun r =>
      r.1 = (if flags.nodata || flags.multiple then NULL else cur.pobj) ∧
      Inv r.2 ∅ ((if flags.unlink then 0 else retRef r.1) + rs) ∧ Keeps rs st r.2 ∧
      Stays st r.2 ∧ HasCont r.2 c cont ∧
      ∀ mu k, multi = some mu → HasCont st mu k → m.calloc st.callocs k.entryAddrs ≠ none →
        ∃ k' e, HasCont r.2 mu k' ∧ LinkedAt e cur.pobj k k' := by
  obtain ⟨hnull, hdom⟩ := HasBucket.pobj_mem h ⟨cont, hcont, hb⟩
  unfold Open.takeMatch Open.refMatch
  cases hnodata : flags.nodata with
  | true =>
    have hnone : multi = none := by
      have := hm.isSome
      simpa [hnodata] using this
    subst hnone
    exact ⟨rfl, by simpa using h, .refl _ _, .refl _, hcont, nofun⟩
  | false =>
    simp only [Bool.false_eq_true, if_false, Bool.false_or]
    cases hmultiple : flags.multiple with
    | true =>
      have hsome : multi.isSome := by simpa [hnodata, hmultiple] using hm.isSome
      obtain ⟨mu, hmu⟩ := Option.isSome_iff_exists.mp hsome
      obtain ⟨hext, hne, kmu, hkmu⟩ := hm.cont mu hmu
      subst hmu
      simp only [Bool.or_true, if_true, ok_bind, if_neg hnull]
      refine (objLink_exact (m := m) h hkmu hdom flags).bind fun ⟨e, st2⟩ hr => ?_
      obtain ⟨hinv, hkeep, hstay, hother, hlinked⟩ := hr
      refine ⟨rfl, by simpa using hinv, hkeep, hstay, hother c cont (Ne.symm hne) hc hcont, ?_⟩
      rintro mu' k ⟨⟩ hk hall
      have hsame : k = kmu := by
        obtain ⟨q, hq, hqu⟩ := hk
        obtain ⟨q', hq', hqu'⟩ := hkmu
        obtain rfl := Option.some.inj (hq.symm.trans hq')
        exact UserData.container.inj (hqu.symm.trans hqu')
      subst hsame
      obtain ⟨k', hk', hat⟩ := hlinked hext hall
      exact ⟨k', e, hk', hat⟩
    | false =>
      have hnone : multi = none := by
        have := hm.isSome
        simpa [hmultiple] using this
      subst hnone
      cases hunlink : flags.unlink with
      | true => exact ⟨rfl, by simpa using h, .refl _ _, .refl _, hcont, nofun⟩
      | false =>
        simp only [Bool.or_false, Bool.false_eq_true, if_false]
        rw [Outcome.bind_assoc]
        refine (objRef_inc_ext (m := m) h hdom).bind fun ⟨_, st2⟩ ⟨hinv, hframe⟩ => ?_
        simp only at hinv hframe
        have hext : Inv st2 ∅ (retRef cur.pobj + rs) := by
          rw [retRef_of_ne hnull, Multiset.singleton_add]
          exact hinv
        have hmemc : c ∈ cur.pobj ::ₘ rs := Multiset.mem_cons_of_mem hc
        have hkeep := (hframe.keeps hinv).mono (Multiset.subset_cons rs cur.pobj)
        exact ⟨rfl, hext, hkeep, hframe.stays, hcont.of_frame hframe hinv hmemc, nofun⟩

theorem takeMatch_sat (h : Inv st ∅ rs) (hc : c ∈ rs)
    (hb : HasBucket st c i (pre ++ cur :: rest)) (hm : MultiOk st c rs flags multi) :
    (Open.takeMatch (objRef m.toChecked) m.toChecked st flags multi cur NULL).Sat fun r =>
      r.1 = (if flags.nodata || flags.multiple then NULL else cur.pobj) ∧
      Inv r.2 ∅ ((if flags.unlink then 0 else retRef r.1) + rs) ∧ Keeps rs st r.2 ∧
      HasBucket r.2 c i (pre ++ cur :: rest) := by
  obtain ⟨cont, hcont, hbucket⟩ := hb
  exact (takeMatch_exact h hc hcont hbucket hm).mono fun _ ⟨hret, hinv, hkeep, _, hcont', _⟩ =>
    ⟨hret, hinv, hkeep, cont, hcont', hbucket⟩

/-- What a search from `st` leaves behind: the returned pointer carries its reference,
    and is null when no single object is asked for. -/
structure Found (rs : Multiset Addr) (flags : SearchFlags) (st : State α) (ret : Addr)
    (st' : State α) : Prop where
  inv : Inv st' ∅ (retRef ret + rs)
  keeps : Keeps rs st st'
  null : (flags.nodata || flags.multiple) = true → ret = NULL

theorem Found.nothing (h : Inv st' ∅ rs) (hk : Keeps rs st st') :
    Found rs flags st NULL st' :=
  ⟨by simpa using h, hk, fun _ => rfl⟩

theorem Found.trans {st'' : State α} (hk : Keeps rs st st') (h : Found rs flags st' a st'') :
    Found rs flags st a st'' :=
  ⟨h.inv, hk.trans h.keeps, h.null⟩

/-- The traversal of one bucket. -/
theorem traverseBucket_sat (hcb : cb.Pure) (hc : c ∈ rs) (es : List BucketEntry)
    (h : Inv st ∅ rs) (hb : HasBucket st c i (pre ++ es)) (hm : MultiOk st c rs flags multi) :
    (Open.traverseBucket (objRef m.toChecked) m.toChecked c flags cb multi i es NULL st).Sat
      fun r => Found rs flags st r.2.1 r.2.2 := by
  induction es generalizing pre st with
  | nil => exact .nothing h (.refl _ _)
  | cons cur rest ih =>
    obtain ⟨hnull, hdom⟩ := hb.pobj_mem h
    obtain ⟨q, hq⟩ := Heap.mem_dom.mp hdom
    obtain ⟨d, hd⟩ := externalObj_of_get hq
    obtain ⟨r, hr⟩ := hcb (st.emit (.callback cur.addr)) ⟨cur.pobj, d⟩
    have h1 : Inv (st.emit (.callback cur.addr)) ∅ rs := h.emit (by simp)
    have hkeep1 : Keeps rs st (st.emit (.callback cur.addr)) := .of_objs rfl
    have hb1 : HasBucket (st.emit (.callback cur.addr)) c i (pre ++ cur :: rest) := hb
    have hm1 := hm.keeps hkeep1
    unfold Open.traverseBucket
    simp only [hd, hr, ok_bind]
    by_cases hzero : (CMP_MATCH ||| CMP_STOP) &&& r = 0
    · rw [if_pos hzero]
      have hb2 : HasBucket (st.emit (.callback cur.addr)) c i ((pre ++ [cur]) ++ rest) := by
        simpa using hb1
      exact (ih h1 hb2 hm1).mono fun r hr => hr.trans hkeep1
    rw [if_neg hzero]
    by_cases hstop : (CMP_MATCH ||| CMP_STOP) &&& r = CMP_STOP
    · rw [if_pos hstop]
      exact .nothing h1 hkeep1
    rw [if_neg hstop]
    refine (takeMatch_sat h1 hc hb1 hm1).bind fun x hx => ?_
    obtain ⟨ret, st2⟩ := x
    obtain ⟨hret, hinv2, hkeep2, hb2⟩ := hx
    simp only at hret hinv2 hkeep2 hb2
    -- the references the entry hands over on unlinking complete those of `ret`
    have hcsum : c ∈ (if flags.unlink then 0 else retRef ret) + rs :=
      Multiset.mem_add.mpr (Or.inr hc)
    refine (unlinkCurrent_sat hinv2 hcsum hb2).bind fun st3 hx => ?_
    obtain ⟨hinv3, hkeep3, hb3⟩ := hx
    have hkeep : Keeps rs st st3 :=
      (hkeep1.trans hkeep2).trans (hkeep3.mono (Multiset.subset_of_le (Multiset.le_add_left _ _)))
    have hinv : Inv st3 ∅ (retRef ret + rs) := by
      rw [← add_assoc] at hinv3
      convert hinv3 using 2
      rw [hret]
      cases flags.unlink <;> cases flags.nodata <;> cases flags.multiple <;>
        simp [retRef_of_ne hnull]
    by_cases hdone : ((CMP_MATCH ||| CMP_STOP) &&& r) &&& CMP_STOP ≠ 0 ∨ flags.multiple = false
    · rw [if_pos (by simpa using hdone)]
      exact ⟨hinv, hkeep, fun hnone => by simpa [hnone] using hret⟩
    · rw [if_neg (by simpa using hdone)]
      have hmultiple : flags.multiple = true := by
        cases hf : flags.multiple with
        | true => rfl
        | false => exact absurd (Or.inr hf) hdone
      have hretnull : ret = NULL := by simpa [hmultiple] using hret
      subst hretnull
      have hinv' : Inv st3 ∅ rs := by simpa using hinv
      cases hunlink : flags.unlink with
      | true =>
        have hb4 : HasBucket st3 c i (pre ++ rest) := by simpa [hunlink] using hb3
        exact (ih hinv' hb4 (hm.keeps hkeep)).mono fun r hr => hr.trans hkeep
      | false =>
        have hb4 : HasBucket st3 c i ((pre ++ [cur]) ++ rest) := by simpa [hunlink] using hb3
        exact (ih hinv' hb4 (hm.keeps hkeep)).mono fun r hr => hr.trans hkeep

/-- The loop over the buckets from `i` to `last`. -/
theorem bucketLoop_sat (hcb : cb.Pure) (hf : flags.continue_ = false) (hc : c ∈ rs)
    (start : Int) (fuel : Nat) (i last : Int) (hi : 0 ≤ i) (hlast : last ≤ cont.nBuckets.toInt)
    (hfuel : (last - i).toNat < fuel) (h : Inv st ∅ rs) (hcont : HasCont st c cont)
    (hm : MultiOk st c rs flags multi) :
    (Open.bucketLoop (objRef m.toChecked) m.toChecked c flags cb multi start fuel i last NULL
      st).Sat fun r => Found rs flags st r.1 r.2 := by
  induction fuel generalizing i st cont with
  | zero => omega
  | succ fuel ih =>
    unfold Open.bucketLoop
    by_cases hlt : i < last
    · have hw : ContWf cont := Counted.contWf h hcont (Finset.notMem_empty c)
      have hlen := hw.nBuckets
      have hidx : i.toNat < cont.buckets.length := by omega
      have hk : bucketIndex cont i = .ok i.toNat := if_pos ⟨hi, hidx⟩
      have hb : HasBucket st c i.toNat ([] ++ cont.buckets[i.toNat]) :=
        ⟨cont, hcont, List.getElem?_eq_getElem hidx⟩
      obtain ⟨p, hp, hu⟩ := hcont
      simp only [if_pos hlt, containerAt_of_get hp hu, ok_bind, hk,
        List.getElem?_eq_getElem hidx, Option.getD_some]
      refine (traverseBucket_sat hcb hc _ h hb hm).bind fun x hfound => ?_
      obtain ⟨stop, ret, st1⟩ := x
      have hinv := hfound.inv
      have hkeep := hfound.keeps
      simp only at hinv hkeep ⊢
      by_cases hret : ret = NULL
      · subst hret
        have hinv' : Inv st1 ∅ rs := by simpa using hinv
        obtain ⟨cont1, hcont1, hstep⟩ := hkeep.hasCont hc ⟨p, hp, hu⟩
        have hnot : ¬ ((if stop then last else i) = cont.nBuckets.toInt - 1 ∧
            flags.pointer = true ∧ flags.continue_ = true) := by simp [hf]
        simp only [ne_eq, not_true_eq_false, if_false, if_neg hnot]
        have hnext : 0 ≤ (if stop then last else i) + 1 ∧
            (last - ((if stop then last else i) + 1)).toNat < fuel := by split <;> omega
        exact (ih _ hnext.1 (nBuckets_of_mods hstep.mods ▸ hlast) hnext.2 hinv' hcont1
          (hm.keeps hkeep)).mono fun r hr => hr.trans hkeep
      · rw [if_pos hret]
        exact hfound
    · rw [if_neg hlt]
      exact .nothing h (.refl _ _)

/-- The search boundaries lie within the table. -/
theorem searchBounds_sat (hw : ContWf cont) (hf : flags.continue_ = false) (arg : Ptr α) :
    ∃ start last, Open.searchBounds cont flags arg = .ok (start, last) ∧ 0 ≤ start ∧
      last ≤ cont.nBuckets.toInt := by
  have hpos := hw.pos
  unfold Open.searchBounds Open.hashedBucket
  cases hp : flags.pointer with
  | false => exact ⟨0, _, rfl, le_refl 0, le_refl _⟩
  | true =>
    simp only [if_true, cMod_eq _ hpos, ok_bind, hf, Bool.false_eq_true, if_false]
    have hlt := Int.tmod_lt_of_pos (cont.hashFn arg OBJ_POINTER).toInt hpos
    rw [← Int32.toInt_mod] at hlt
    by_cases hneg : (cont.hashFn arg OBJ_POINTER % cont.nBuckets).toInt < 0
    · exact ⟨0, _, if_pos hneg, le_refl 0, le_refl _⟩
    · exact ⟨_, _, if_neg hneg, by omega, by omega⟩

/-- The whole search. -/
theorem search_sat (hcb : cb.Pure) (hf : flags.continue_ = false) (hc : c ∈ rs)
    (h : Inv st ∅ rs) (hcont : HasCont st c cont) (hm : MultiOk st c rs flags multi)
    (arg : Ptr α) :
    (Open.search (objRef m.toChecked) m.toChecked st c flags cb arg multi).Sat fun r =>
      Found rs flags st r.1 r.2 := by
  have hw : ContWf cont := Counted.contWf h hcont (Finset.notMem_empty c)
  obtain ⟨p, hp, hu⟩ := hcont
  obtain ⟨start, last, hbounds, hstart, hlast⟩ := searchBounds_sat hw hf arg
  obtain ⟨st1, hst1, hobj1, hcount1⟩ := h.wf.lockIf hp (!flags.nolock)
  have hinv1 : Inv st1 ∅ rs := .of_counted hobj1 (hcount1 _ h)
  have hkeep1 : Keeps rs st st1 := .of_objs hobj1
  have hcont1 : HasCont st1 c cont := HasCont.of_objs ⟨p, hp, hu⟩ hobj1
  unfold Open.search
  simp only [containerAt_of_get hp hu, ok_bind, hbounds, hst1]
  have hfuel : (last - start).toNat < Open.loopFuel cont := by
    unfold Open.loopFuel
    omega
  refine (bucketLoop_sat hcb hf hc start _ start last hstart hlast hfuel hinv1 hcont1
    (hm.keeps hkeep1)).bind fun ⟨ret, st2⟩ ⟨hinv2, hkeep2, hnull⟩ => ?_
  simp only at hinv2 hkeep2 hnull
  obtain ⟨-, q, hq⟩ := hinv2.get_of_mem (Multiset.mem_add.mpr (Or.inr hc))
  obtain ⟨st3, hst3, hobj3, hcount3⟩ := hinv2.wf.unlockIf hq (!flags.nolock)
  simp only [hst3, ok_bind, sat_ok]
  exact ⟨.of_counted hobj3 (hcount3 _ hinv2), (hkeep1.trans hkeep2).trans (.of_objs hobj3), hnull⟩

/-! ## The interface functions -/

/-- The references that go with the result of a search. -/
def CallbackRet.refs : CallbackRet → Multiset Addr
  | .obj a => retRef a
  | .iter it => {it.c}

/-- A new object, with its first reference. -/
theorem Inv.alloc {p : Obj α} (h : Inv st ∅ rs) (ha : a ∉ st.objs.dom) (hnull : a ≠ NULL)
    (hs : p.serial = st.serials) (hw : ObjWf p) (hc : p.refCounter = 1) (hu : p.pobjs = 0) :
    Inv { st.setObj a p with serials := st.serials + 1 } ∅ (a ::ₘ rs) := by
  have hnone : counter st ∅ a = none := by
    simp [counter, Heap.get_eq_none.mpr ha]
  have hcounter : counter { st.setObj a p with serials := st.serials + 1 } ∅
      = Function.update (counter st ∅) a (some 1) := by
    change counter (st.setObj a p) ∅ = _
    rw [counter_setObj _ _ (Finset.notMem_empty a), hc]
    rfl
  have hheld : held { st.setObj a p with serials := st.serials + 1 } ∅ = held st ∅ := by
    have := Heap.total_alloc (f := Obj.pobjs) p ha (Finset.notMem_empty a)
    rw [hu, zero_add] at this
    exact this
  refine ⟨h.wf.alloc ha hnull hs hw, ?_⟩
  rw [hcounter, hheld, Multiset.cons_add]
  exact h.agrees.alloc hnone

/-- What an allocation gives: null, or a new object with user data `u`. -/
theorem internalObjAlloc_inv (h : Inv st ∅ rs) {d : Option DestructorFn} {u : UserData α}
    (hw : ObjWf ⟨1, d, u, st.serials⟩) (hu : Obj.pobjs ⟨1, d, u, st.serials⟩ = 0) :
    ∃ a st', internalObjAlloc m st d u = (a, st') ∧ Inv st' ∅ (retRef a + rs) ∧
      Keeps rs st st' ∧
      (a ≠ NULL → a ∉ st.objs.dom ∧ st'.objs.get a = some ⟨1, d, u, st.serials⟩) := by
  have hfresh := spdCalloc_notMem m st st.objs.dom
  unfold internalObjAlloc
  have hst1 : spdCalloc m st st.objs.dom
      = ((spdCalloc m st st.objs.dom).1, { st with callocs := st.callocs + 1 }) := rfl
  generalize (spdCalloc m st st.objs.dom).1 = a at hst1 hfresh
  simp only [hst1]
  by_cases hnull : a = NULL
  · rw [if_pos hnull]
    exact ⟨_, _, rfl, by simpa using h.callocs _, .of_objs rfl, fun hne => absurd rfl hne⟩
  · rw [if_neg hnull]
    have ha := hfresh hnull
    have hinv := (h.callocs (st.callocs + 1)).alloc ha hnull rfl hw rfl hu
    refine ⟨a, _, rfl, ?_, ?_, fun _ => ⟨ha, Heap.get_set_self _ _ _⟩⟩
    · rw [retRef_of_ne hnull, Multiset.singleton_add]
      exact hinv
    · intro b hb p hp
      obtain ⟨p', hp', hs⟩ := Keeps.alloc (p := ⟨1, d, u, st.serials⟩) ha b hb p hp
      exact ⟨p', hp', hs⟩

/-- `__obj_alloc`. The destructor is the client's, not `container_destruct`. -/
theorem objAlloc_inv (h : Inv st ∅ rs) (d : α) {destructorFn : Option DestructorFn}
    (hd : destructorFn ≠ some .containerDestruct) :
    ∃ a st', objAlloc m st d destructorFn = (a, st') ∧ Inv st' ∅ (retRef a + rs) ∧
      Keeps rs st st' := by
  have hw : ObjWf (⟨1, destructorFn, .data d, st.serials⟩ : Obj α) :=
    ⟨fun _ hc => by simp at hc, fun _ _ => hd⟩
  obtain ⟨a, st', heq, hinv, hkeep, -⟩ := internalObjAlloc_inv h hw rfl
  exact ⟨a, st', heq, hinv, hkeep⟩

/-- An empty container with `k` buckets. -/
theorem ContWf.empty {k : UInt32} (hk : 0 < k.toInt32.toInt)
    {hashFn : Ptr α → SearchFlags → Int32} (hhash : ∀ p fl, hashFn p fl ≠ Int32.minValue)
    (cmpFn : Option (Ptr α → Ptr α → SearchFlags → Int32)) :
    ContWf { hashFn := hashFn, cmpFn := cmpFn, nBuckets := k.toInt32, elements := 0, version := 1,
             buckets := List.replicate k.toNat [] } := by
  have hlen := CInt.toNat_toUInt32 hk.le
  rw [UInt32.toUInt32_toInt32] at hlen
  refine ⟨by simp, ?_, hk, Int.one_pos, hhash, by simp, by simp⟩
  rw [List.length_replicate, hlen]

/-- `__obj_container_alloc` with at least one and less than 2^31 buckets. -/
theorem objContainerAlloc_inv (h : Inv st ∅ rs) (n : UInt32)
    (hashFn : Option (Ptr α → SearchFlags → Int32))
    (cmpFn : Option (Ptr α → Ptr α → SearchFlags → Int32))
    (hn : hashFn.isSome → 0 < n.toInt32.toInt)
    (hhash : ∀ f, hashFn = some f → ∀ p fl, f p fl ≠ Int32.minValue) :
    ∃ a st', objContainerAlloc m st n hashFn cmpFn = (a, st') ∧
      Inv st' ∅ (retRef a + rs) ∧ Keeps rs st st' ∧
      (a ≠ NULL → a ∉ st.objs.dom ∧ ∃ k, HasCont st' a k) := by
  have hpos : 0 < (if hashFn.isSome then n else 1).toInt32.toInt := by
    cases hf : hashFn with
    | none => exact show (0 : Int) < (1 : UInt32).toInt32.toInt by decide
    | some f => simpa using hn (by simp [hf])
  have hhash' : ∀ p fl, hashFn.getD hashZero p fl ≠ Int32.minValue := by
    cases hf : hashFn with
    | none => exact fun _ _ => show (0 : Int32) ≠ Int32.minValue by decide
    | some f => exact hhash f hf
  unfold objContainerAlloc
  obtain ⟨a, st', heq, hinv, hkeep, hnew⟩ := internalObjAlloc_inv (m := m)
    (d := some .containerDestruct) h
    ⟨fun k hk => ⟨UserData.container.inj hk ▸ ContWf.empty hpos hhash' cmpFn, rfl⟩,
      fun _ hd => by cases hd⟩
    (by simp [Obj.pobjs, Obj.entries])
  exact ⟨a, st', heq, hinv, hkeep, fun hne => ⟨(hnew hne).1, _, _, (hnew hne).2, rfl⟩⟩

/-- A client's iterator: it has not seen the future, and its saved pointer is good
    as long as the container has the saved version. -/
structure IterWf (st : State α) (it : ObjIterator) : Prop where
  cont : ∃ cont, HasCont st it.c cont ∧ (it.cVersion.toNat : Int) ≤ cont.version.toInt ∧
    (cont.version.toUInt32 = it.cVersion → it.obj ≠ NULL → it.obj ∈ cont.entryAddrs)
  unlink : it.flags.unlink = true → it.obj = NULL

/-- A changed container has a new version, so that the saved pointer is not used. -/
theorem IterWf.keeps {it : ObjIterator} (h : IterWf st it) (hk : Keeps rs st st')
    (hc : it.c ∈ rs) : IterWf st' it := by
  obtain ⟨cont, hcont, hle, hobj⟩ := h.cont
  obtain ⟨cont', hcont', hstep⟩ := hk.hasCont hc hcont
  refine ⟨⟨cont', hcont', ?_⟩, h.unlink⟩
  rcases hstep.version with rfl | hlt
  · exact ⟨hle, hobj⟩
  · refine ⟨by omega, fun heq => ?_⟩
    have hnat := CInt.toNat_toUInt32 (x := cont'.version) (by omega)
    rw [heq] at hnat
    omega

/-- `obj_iterator_init`. -/
theorem objIteratorInit_sat (h : Inv st ∅ rs) (hcont : HasCont st c cont)
    (flags : IteratorFlags) :
    (objIteratorInit m.toChecked st c flags).Sat fun r =>
      Inv r.2 ∅ (r.1.c ::ₘ rs) ∧ Keeps rs st r.2 ∧ IterWf r.2 r.1 := by
  obtain ⟨p, hp, hu⟩ := hcont
  unfold objIteratorInit Open.objIteratorInit
  refine (objRef_inc_ext h (Heap.mem_dom_of_get hp)).bind fun ⟨_, st1⟩ ⟨hinv, hframe⟩ => ?_
  simp only at hinv hframe
  have hcont1 : HasCont st1 c cont :=
    HasCont.of_frame ⟨p, hp, hu⟩ hframe hinv (Multiset.mem_cons_self c rs)
  have hpos := (Counted.contWf hinv hcont1 (Finset.notMem_empty c)).version
  have hkeep := (hframe.keeps hinv).mono (Multiset.subset_cons rs c)
  exact ⟨hinv, hkeep, ⟨cont, hcont1, by simpa using hpos.le, fun _ hne => absurd rfl hne⟩,
    fun _ => rfl⟩

/-- `internal_obj_callback` of a client: the result carries its reference. -/
theorem internalObjCallback_sat {cbFn : Option (Callback α)} (hcb : (cbFn.getD cbTrue).Pure)
    (hf : flags.continue_ = false) (hc : c ∈ rs) (h : Inv st ∅ rs) (hcont : HasCont st c cont)
    (arg : Ptr α) :
    (Open.internalObjCallback (objRef m.toChecked) m.toChecked st c flags cbFn arg).Sat fun r =>
      Inv r.2 ∅ (r.1.refs + rs) ∧ Keeps rs st r.2 ∧
        (∀ it, r.1 = .iter it → IterWf r.2 it) ∧
        (flags.nodata = true → r.1.refs = 0) := by
  obtain ⟨p, hp, hu⟩ := hcont
  unfold Open.internalObjCallback
  simp only [h.wf.internalObj hp, ok_bind]
  by_cases hmult : (flags.multiple && !flags.nodata) = true
  · rw [if_pos hmult]
    obtain ⟨mu, st1, halloc, hinv1, hkeep1, hnew⟩ := objContainerAlloc_inv (m := m.toChecked) h
      1 none none (by simp) (by simp)
    simp only [halloc]
    by_cases hnull : mu = NULL
    · subst hnull
      rw [if_pos rfl]
      exact ⟨by simpa [CallbackRet.refs] using hinv1, hkeep1, fun it hit => (by cases hit),
        fun _ => rfl⟩
    rw [if_neg hnull]
    obtain ⟨hmu, kmu, hkmu⟩ := hnew hnull
    rw [retRef_of_ne hnull, Multiset.singleton_add] at hinv1
    have hinv2 : Inv (spdCalloc m.toChecked st1 ∅).2 ∅ (mu ::ₘ rs) := hinv1.callocs _
    have hobj2 : (spdCalloc m.toChecked st1 ∅).2.objs = st1.objs := rfl
    generalize spdCalloc m.toChecked st1 ∅ = r at hinv2 hobj2 ⊢
    obtain ⟨e, st2⟩ := r
    simp only at hinv2 hobj2 ⊢
    have hkeep2 : Keeps rs st st2 := hkeep1.trans (.of_objs hobj2)
    by_cases he : e = NULL
    · rw [if_pos he]
      refine (objRef_dec hinv2).bind fun ⟨_, st3⟩ ⟨hinv3, hframe⟩ => ?_
      exact ⟨by simpa [CallbackRet.refs] using hinv3, hkeep2.trans (hframe.keeps hinv3),
        fun it hit => (by cases hit), fun _ => rfl⟩
    rw [if_neg he]
    obtain ⟨cont2, hcont2, -⟩ := hkeep2.hasCont hc ⟨p, hp, hu⟩
    have hne : mu ≠ c := by
      rintro rfl
      exact hmu (Heap.mem_dom_of_get hp)
    have hmultiOk : MultiOk st2 c (mu ::ₘ rs) flags (some mu) :=
      ⟨by simp [hmult], fun mu' hmu' => by
        obtain rfl := Option.some.inj hmu'
        exact ⟨Multiset.mem_cons_self _ _, hne, kmu, hkmu.of_objs hobj2⟩⟩
    refine (search_sat hcb hf (Multiset.mem_cons_of_mem hc) hinv2 hcont2 hmultiOk arg).bind
      fun ⟨ret, st3⟩ ⟨hinv3, hkeep3, hret⟩ => ?_
    have hmultiple : flags.multiple = true := (Bool.and_eq_true_iff.mp hmult).1
    have hret' : ret = NULL := hret (by simp [hmultiple])
    subst hret'
    simp only [retRef_null, zero_add] at hinv3 hkeep3
    obtain ⟨k3, hk3, -⟩ := hkeep3.hasCont (Multiset.mem_cons_self mu rs) (hkmu.of_objs hobj2)
    refine (objIteratorInit_sat hinv3 hk3 _).bind fun ⟨it, st4⟩ ⟨hinv4, hkeep4, hiter⟩ => ?_
    simp only at hinv4 hkeep4 hiter
    rw [Multiset.cons_swap] at hinv4
    refine (objRef_dec hinv4).bind fun ⟨_, st5⟩ ⟨hinv5, hframe⟩ => ?_
    simp only at hinv5 hframe
    have hkeep5 := hframe.keeps hinv5
    refine ⟨by simpa [CallbackRet.refs] using hinv5, ?_, fun it' hit => ?_, fun hnodata => ?_⟩
    · have hsub : rs ⊆ mu ::ₘ rs := Multiset.subset_cons rs mu
      have hsub' : rs ⊆ it.c ::ₘ rs := Multiset.subset_cons rs it.c
      exact ((hkeep2.trans (hkeep3.mono hsub)).trans (hkeep4.mono hsub)).trans
        (hkeep5.mono hsub')
    · obtain rfl := CallbackRet.iter.inj hit
      exact hiter.keeps hkeep5 (Multiset.mem_cons_self _ _)
    · simp [hnodata] at hmult
  · rw [if_neg hmult]
    have hmultiOk : MultiOk st c rs flags none :=
      ⟨by simpa using hmult, fun mu hmu => by cases hmu⟩
    refine (search_sat hcb hf hc h ⟨p, hp, hu⟩ hmultiOk arg).bind fun ⟨ret, st1⟩ hr => ?_
    refine ⟨hr.inv, hr.keeps, fun it hit => (by cases hit), fun hnodata => ?_⟩
    have hret : ret = NULL := hr.null (by simp [hnodata])
    rw [hret]
    rfl

end Spider.ObjModel
