import Mathlib.Data.UInt
import Spider.ObjModel.Iterate

/-!
# Iteration under concurrent modification

The calls of `obj_link`, `obj_unlink` and `obj_iterator_next` on one container
take turns under its lock, so an interleaving is a sequence of changes
(`ContMod`) and steps of the iterator. Versions order the entries of each bucket
by the time they were linked; an iterator stands at a bucket and a version, and
everything still to come lies behind that position.
-/

namespace Spider.ObjModel

open Lib Outcome

variable {α : Type} {cont cont' : ObjContainer α} {n : Nat} {it it' : ObjIterator}
  {es : List BucketEntry} {p e : BucketEntry}

/-- The version of an entry as the scan compares it. -/
def BucketEntry.ver (e : BucketEntry) : Nat := e.version.toUInt32.toNat

/-- A container after `n` increments of its version: the version counts them, each
    bucket is in order of linking, and a version belongs to one bucket. -/
structure Versioned (n : Nat) (cont : ObjContainer α) : Prop where
  version : cont.version.toUInt32.toNat = n + 1
  nBuckets : cont.nBuckets.toInt = cont.buckets.length
  sorted : ∀ es ∈ cont.buckets, es.Pairwise fun a b => a.ver < b.ver
  bounds : ∀ e ∈ cont.buckets.flatten, 0 < e.ver ∧ e.ver ≤ n
  home : ∀ {k k' e e'}, InBucket cont.buckets k e → InBucket cont.buckets k' e' → e.ver = e'.ver → k = k'
  addrs : (cont.buckets.flatten.map BucketEntry.addr).Nodup
  notNull : ∀ e ∈ cont.buckets.flatten, e.addr ≠ NULL

/-- A container with `n` version increments since `obj_container_alloc` made it with at
    most 2^31 - 1 buckets. -/
inductive Modified : Nat → ObjContainer α → Prop where
  | fresh {hashFn : Ptr α → SearchFlags → Int32}
      {cmpFn : Option (Ptr α → Ptr α → SearchFlags → Int32)} {nBuckets : UInt32}
      (h : 0 ≤ nBuckets.toInt32.toInt) :
      Modified 0 ⟨hashFn, cmpFn, nBuckets.toInt32, 0, 1, List.replicate nBuckets.toNat []⟩
  | step {n : Nat} {cont cont' : ObjContainer α} (h : Modified n cont) (hm : ContMod cont cont') :
      Modified (n + 1) cont'

/-- A changed bucket is the old one or the new value. -/
theorem mem_modify {bs : List (List BucketEntry)} {k : Nat} {b : List BucketEntry}
    (hb : bs[k]? = some b) {f : List BucketEntry → List BucketEntry}
    (hes : es ∈ bs.modify k f) : es ∈ bs ∨ es = f b := by
  obtain ⟨l, r, -, hbs, hmod⟩ := Buckets.split_at hb
  rw [hmod] at hes
  rw [hbs]
  rcases List.mem_append.mp hes with hl | hr
  · exact Or.inl (by simp [hl])
  · rcases List.mem_cons.mp hr with rfl | hr
    · exact Or.inr rfl
    · exact Or.inl (by simp [hr])

theorem toNat_version_add_one {x : Int32} (h : x.toUInt32.toNat + 1 < 2 ^ 32) :
    (x + 1).toUInt32.toNat = x.toUInt32.toNat + 1 := by
  rw [Int32.toUInt32_add, UInt32.toNat_add]
  exact Nat.mod_eq_of_lt h

theorem Versioned.insertTail (h : Versioned n cont) (hn : n + 1 < 2 ^ 31) {k : Nat}
    (hk : k < cont.buckets.length) (hfresh : e.addr ∉ cont.entryAddrs) (hnull : e.addr ≠ NULL)
    (hver : e.version = cont.version) (elements : Int32) :
    Versioned (n + 1) { cont.insertTail k e with
      version := cont.version + 1, elements := elements } := by
  have hb := List.getElem?_eq_getElem hk
  have hperm : (cont.insertTail k e).buckets.flatten.Perm (e :: cont.buckets.flatten) :=
    Buckets.perm_insert hb
  have hev : e.ver = n + 1 := by rw [BucketEntry.ver, hver, h.version]
  refine ⟨?_, ?_, ?_, ?_, ?_, ?_, ?_⟩
  · have hv := h.version
    simp only
    rw [toNat_version_add_one (by omega), hv]
  · simpa [ObjContainer.insertTail] using h.nBuckets
  · intro es hes
    rcases mem_modify hb hes with hold | rfl
    · exact h.sorted es hold
    · rw [List.pairwise_append]
      refine ⟨h.sorted _ (List.getElem_mem hk), List.pairwise_singleton _ _, ?_⟩
      intro a ha b hbe
      obtain rfl := List.mem_singleton.mp hbe
      have hle := (h.bounds a (Buckets.mem_flatten hb ha)).2
      omega
  · intro a ha
    rcases List.mem_cons.mp (hperm.mem_iff.mp ha) with rfl | hold
    · omega
    · have hbound := h.bounds a hold
      omega
  · intro k1 k2 e1 e2 h1 h2 heq
    rcases inBucket_insert h1 with h1' | ⟨rfl, rfl⟩ <;>
      rcases inBucket_insert h2 with h2' | ⟨rfl, rfl⟩
    · exact h.home h1' h2' heq
    · have hle := (h.bounds e1 h1'.mem_flatten).2
      omega
    · have hle := (h.bounds e2 h2'.mem_flatten).2
      omega
    · rfl
  · refine (hperm.map BucketEntry.addr).nodup_iff.mpr ?_
    rw [List.map_cons, List.nodup_cons]
    exact ⟨by simpa [ObjContainer.entryAddrs] using hfresh, h.addrs⟩
  · intro a ha
    rcases List.mem_cons.mp (hperm.mem_iff.mp ha) with rfl | hold
    · exact hnull
    · exact h.notNull a hold

theorem Versioned.removeEntry (h : Versioned n cont) (hn : n + 1 < 2 ^ 31) {k : Nat}
    {pre post : List BucketEntry} (hb : cont.buckets[k]? = some (pre ++ e :: post))
    (elements : Int32) :
    Versioned (n + 1) { cont.removeEntry k e.addr with
      version := cont.version + 1, elements := elements } := by
  have hperm : cont.buckets.flatten.Perm (e :: (cont.removeEntry k e.addr).buckets.flatten) :=
    removeEntry_perm h.addrs hb
  have hsub : ∀ a ∈ (cont.removeEntry k e.addr).buckets.flatten, a ∈ cont.buckets.flatten :=
    fun a ha => hperm.mem_iff.mpr (List.mem_cons_of_mem _ ha)
  refine ⟨?_, ?_, ?_, ?_, fun h1 h2 => h.home (inBucket_erase h1) (inBucket_erase h2),
    ?_, fun a ha => h.notNull a (hsub a ha)⟩
  · have hv := h.version
    simp only
    rw [toNat_version_add_one (by omega), hv]
  · simpa [ObjContainer.removeEntry] using h.nBuckets
  · intro es hes
    rcases mem_modify hb hes with hold | rfl
    · exact h.sorted es hold
    · have hsorted := h.sorted _ (List.mem_of_getElem? hb)
      rw [removeEntry_bucket h.addrs hb]
      exact hsorted.sublist (List.Sublist.append_left (List.sublist_cons_self e post) pre)
  · intro a ha
    have hbound := h.bounds a (hsub a ha)
    omega
  · have hnodup := (hperm.map BucketEntry.addr).nodup_iff.mp h.addrs
    rw [List.map_cons, List.nodup_cons] at hnodup
    exact hnodup.2

/-- Every change keeps the buckets in order. -/
theorem Versioned.mod (h : Versioned n cont) (hn : n + 1 < 2 ^ 31) (hm : ContMod cont cont') :
    Versioned (n + 1) cont' := by
  cases hm with
  | link hi hk hfresh hnull hver =>
    have hlt := (bucketIndex_eq_ok hk).2
    exact h.insertTail hn hlt hfresh hnull hver _
  | unlink hb => exact h.removeEntry hn hb _

theorem Modified.versioned (h : Modified n cont) (hn : n < 2 ^ 31) : Versioned n cont := by
  induction h with
  | fresh hpos =>
    have hlen := CInt.toNat_toUInt32 hpos
    rw [UInt32.toUInt32_toInt32] at hlen
    refine ⟨rfl, by simpa using hlen.symm, ?_, by simp, ?_, by simp, by simp⟩
    · intro es hes
      obtain rfl := List.eq_of_mem_replicate hes
      exact .nil
    · intro k k' e e' hk
      have hmem := hk.mem_flatten
      simp at hmem
  | step hmod hm ih => exact (ih (by omega)).mod hn hm

/-! ## Where an iterator stands -/

/-- Position `(k, w)` lies behind an iterator at bucket `b` and version `v`. -/
def After (b v k w : Nat) : Prop := b < k ∨ b = k ∧ v < w

/-- What the scan returns: the first entry behind the position, or nothing when there is
    no entry behind it. -/
theorem scanBuckets_spec {bs : List (List BucketEntry)} {b : Nat} {v : UInt32}
    (hpos : ∀ e ∈ bs.flatten, 0 < e.ver)
    (hsorted : ∀ es ∈ bs, es.Pairwise fun a b => a.ver < b.ver) :
    match scanBuckets bs b v with
    | (some p, b', _) => ∃ k es, b' = b + k ∧ bs[k]? = some es ∧ p ∈ es ∧
        After b v.toNat b' p.ver ∧
        ∀ j es' e, bs[j]? = some es' → e ∈ es' → After b v.toNat (b + j) e.ver →
          e = p ∨ After b' p.ver (b + j) e.ver
    | (none, b', _) => b' = b + bs.length ∧
        ∀ j es' e, bs[j]? = some es' → e ∈ es' → ¬ After b v.toNat (b + j) e.ver := by
  induction bs generalizing b v with
  | nil => exact ⟨rfl, fun j es' e hj => by simp at hj⟩
  | cons es rest ih =>
    unfold scanBuckets
    cases hfind : es.find? (fun p => v < p.version.toUInt32) with
    | some p =>
      obtain ⟨hlt, pre, post, hes, hpre⟩ := List.find?_eq_some_iff_append.mp hfind
      have hver : v.toNat < p.ver := by
        simpa [BucketEntry.ver, UInt32.lt_iff_toNat_lt] using hlt
      refine ⟨0, es, rfl, rfl, by simp [hes], Or.inr ⟨rfl, hver⟩, fun j es' e hj he ha => ?_⟩
      cases j with
      | succ j => exact Or.inr (Or.inl (by omega))
      | zero =>
        obtain rfl : es = es' := by simpa using hj
        have hgt : v.toNat < e.ver := by
          rcases ha with hb | ⟨-, hgt⟩
          · omega
          · exact hgt
        rw [hes] at he
        rcases List.mem_append.mp he with hin | hin
        · -- the entries before the one found are not behind the position
          have hnot := hpre e hin
          simp only [Bool.not_eq_true', decide_eq_false_iff_not, UInt32.lt_iff_toNat_lt] at hnot
          exact absurd hgt hnot
        · rcases List.mem_cons.mp hin with rfl | hpost
          · exact Or.inl rfl
          · have hpair := hsorted es (by simp)
            rw [hes, List.pairwise_append] at hpair
            exact Or.inr (Or.inr ⟨rfl, (List.pairwise_cons.mp hpair.2.1).1 e hpost⟩)
    | none =>
      have hnone : ∀ e ∈ es, ¬ v.toNat < e.ver := by
        intro e he
        have hnot := List.find?_eq_none.mp hfind e he
        simpa [BucketEntry.ver, UInt32.lt_iff_toNat_lt] using hnot
      have hpos' : ∀ e ∈ rest.flatten, 0 < e.ver := fun e he =>
        hpos e (by rw [List.flatten_cons]; exact List.mem_append_right es he)
      have hrest := @ih (b + 1) 0 hpos' fun es' hes' => hsorted es' (List.mem_cons_of_mem _ hes')
      -- a position behind this one lies in a later bucket
      have hstep : ∀ j es' e, (es :: rest)[j]? = some es' → e ∈ es' →
          After b v.toNat (b + j) e.ver → ∃ i, j = i + 1 ∧ rest[i]? = some es' ∧
            After (b + 1) (0 : UInt32).toNat (b + 1 + i) e.ver := by
        intro j es' e hj he ha
        cases j with
        | zero =>
          obtain rfl : es = es' := by simpa using hj
          rcases ha with hb | ⟨-, hgt⟩
          · omega
          · exact absurd hgt (hnone e he)
        | succ i =>
          have hi : rest[i]? = some es' := by simpa using hj
          have hver := hpos' e (List.mem_flatten.mpr ⟨es', List.mem_of_getElem? hi, he⟩)
          refine ⟨i, rfl, hi, ?_⟩
          by_cases h0 : i = 0
          · exact Or.inr ⟨by omega, hver⟩
          · exact Or.inl (by omega)
      rcases hscan : scanBuckets rest (b + 1) 0 with ⟨_ | p, b', v'⟩
      · rw [hscan] at hrest
        refine ⟨by rw [hrest.1, List.length_cons]; omega, fun j es' e hj he ha => ?_⟩
        obtain ⟨i, rfl, hi, ha'⟩ := hstep j es' e hj he ha
        exact hrest.2 i es' e hi he ha'
      · rw [hscan] at hrest
        obtain ⟨k, es', hb', hk, hp, hafter, hfirst⟩ := hrest
        refine ⟨k + 1, es', by omega, by simpa using hk, hp, Or.inl (by omega), ?_⟩
        intro j es'' e hj he ha
        obtain ⟨i, rfl, hi, ha'⟩ := hstep j es'' e hj he ha
        have hnext := hfirst i es'' e hi he ha'
        rwa [show b + (i + 1) = b + 1 + i by omega]

/-- The scan of a container finds the first entry behind the position. -/
theorem Versioned.scan (h : Versioned n cont) (b : Nat) (v : UInt32) :
    match cont.scan b v with
    | (some p, b', _) => InBucket cont.buckets b' p ∧ After b v.toNat b' p.ver ∧
        ∀ k e, InBucket cont.buckets k e → After b v.toNat k e.ver → e = p ∨ After b' p.ver k e.ver
    | (none, b', _) => cont.buckets.length ≤ b' ∧
        ∀ k e, InBucket cont.buckets k e → ¬ After b v.toNat k e.ver := by
  have htake : cont.buckets.take cont.nBuckets.toInt.toNat = cont.buckets := by
    rw [h.nBuckets, Int.toNat_natCast, List.take_length]
  have hdrop : ∀ j es, (cont.buckets.drop b)[j]? = some es ↔ cont.buckets[b + j]? = some es :=
    fun j es => by rw [List.getElem?_drop]
  have hspec := @scanBuckets_spec (cont.buckets.drop b) b v
    (fun e he => (h.bounds e ((List.drop_sublist b _).flatten.subset he)).1)
    (fun es hes => h.sorted es (List.mem_of_mem_drop hes))
  -- every position behind this one is in the part scanned
  have hin : ∀ k e, InBucket cont.buckets k e → After b v.toNat k e.ver →
      ∃ j es, k = b + j ∧ (cont.buckets.drop b)[j]? = some es ∧ e ∈ es := by
    rintro k e ⟨es, hes, he⟩ ha
    have hle : b ≤ k := by
      rcases ha with hlt | ⟨rfl, -⟩
      · exact hlt.le
      · exact le_refl _
    refine ⟨k - b, es, by omega, (hdrop _ _).mpr ?_, he⟩
    rwa [Nat.add_sub_cancel' hle]
  unfold ObjContainer.scan
  rw [htake]
  rcases hscan : scanBuckets (cont.buckets.drop b) b v with ⟨_ | p, b', v'⟩
  · rw [hscan] at hspec
    refine ⟨by rw [hspec.1, List.length_drop]; omega, fun k e hk ha => ?_⟩
    obtain ⟨j, es, rfl, hj, he⟩ := hin k e hk ha
    exact hspec.2 j es e hj he ha
  · rw [hscan] at hspec
    obtain ⟨j, es, hb', hj, hp, hafter, hfirst⟩ := hspec
    refine ⟨⟨es, by rw [hb']; exact (hdrop _ _).mp hj, hp⟩, hafter, fun k e hk ha => ?_⟩
    obtain ⟨i, es', rfl, hi, he⟩ := hin k e hk ha
    exact hfirst i es' e hi he ha

/-! ## The saved pointer -/

theorem nextInBucket_split {pre post : List BucketEntry}
    (hd : ((pre ++ e :: post).map BucketEntry.addr).Nodup) :
    nextInBucket e.addr (pre ++ e :: post) = some post.head? := by
  induction pre with
  | nil => simp [nextInBucket]
  | cons a pre ih =>
    rw [List.cons_append, List.map_cons, List.nodup_cons] at hd
    have hne : a.addr ≠ e.addr := fun heq => hd.1 (List.mem_map.mpr ⟨e, by simp, heq.symm⟩)
    rw [List.cons_append, nextInBucket, if_neg hne]
    exact ih hd.2

/-- Following the saved pointer leads to the next entry of the bucket. -/
theorem nextEntry_eq {k : Nat} {pre post : List BucketEntry}
    (hd : (cont.buckets.flatten.map BucketEntry.addr).Nodup)
    (hb : cont.buckets[k]? = some (pre ++ e :: post)) :
    cont.nextEntry e.addr = some post.head? := by
  obtain ⟨l, r, -, hbs, -⟩ := Buckets.split_at hb
  have hl : l.findSome? (nextInBucket e.addr) = none := by
    rw [List.findSome?_eq_none_iff]
    intro es hes
    rw [← Option.not_isSome_iff_eq_none, nextInBucket_isSome]
    intro hmem
    rw [hbs, List.flatten_append, List.map_append, List.nodup_append] at hd
    refine hd.2.2 e.addr ?_ e.addr ?_ rfl
    · rw [List.map_flatten, List.mem_flatten]
      exact ⟨_, List.mem_map_of_mem hes, hmem⟩
    · simp
  have hsub : (pre ++ e :: post).Sublist cont.buckets.flatten :=
    List.sublist_flatten_of_mem (List.mem_of_getElem? hb)
  rw [ObjContainer.nextEntry, hbs, List.findSome?_append, hl, Option.none_or,
    List.findSome?_cons, nextInBucket_split (hd.sublist (hsub.map _))]

/-- The scan from an entry of the bucket leads there, too. -/
theorem Versioned.scan_saved (h : Versioned n cont) {b : Nat} {pre post : List BucketEntry}
    (hb : cont.buckets[b]? = some (pre ++ e :: post)) :
    cont.scan b e.version.toUInt32 = match post with
      | [] => cont.scan (b + 1) 0
      | q :: _ => (some q, b, e.version.toUInt32) := by
  have htake : cont.buckets.take cont.nBuckets.toInt.toNat = cont.buckets := by
    rw [h.nBuckets, Int.toNat_natCast, List.take_length]
  obtain ⟨hlt, hget⟩ := List.getElem?_eq_some_iff.mp hb
  have hdrop : cont.buckets.drop b = (pre ++ e :: post) :: cont.buckets.drop (b + 1) := by
    rw [List.drop_eq_getElem_cons hlt, hget]
  have hsorted := h.sorted _ (List.mem_of_getElem? hb)
  rw [List.pairwise_append] at hsorted
  obtain ⟨-, hpost, hpre⟩ := hsorted
  have hfind : (pre ++ e :: post).find? (fun p => e.version.toUInt32 < p.version.toUInt32)
      = post.head? := by
    have hpre' : pre.find? (fun p => e.version.toUInt32 < p.version.toUInt32) = none := by
      rw [List.find?_eq_none]
      intro a ha
      have hlt := hpre a ha e (by simp)
      rw [BucketEntry.ver, BucketEntry.ver] at hlt
      simp only [decide_eq_true_eq, UInt32.lt_iff_toNat_lt]
      omega
    rw [List.find?_append, hpre', Option.none_or, List.find?_cons_of_neg (by simp)]
    cases post with
    | nil => rfl
    | cons q rest =>
      have hlt := (List.pairwise_cons.mp hpost).1 q (by simp)
      rw [BucketEntry.ver, BucketEntry.ver] at hlt
      rw [List.find?_cons_of_pos (by simpa [UInt32.lt_iff_toNat_lt] using hlt), List.head?_cons]
  unfold ObjContainer.scan
  rw [htake, hdrop, scanBuckets, hfind]
  cases post with
  | nil => rfl
  | cons q rest => rfl

/-- The iterator's saved pointer: as long as the container has the saved version, it is
    the entry the iterator stands at. -/
def Saved (cont : ObjContainer α) (it : ObjIterator) : Prop :=
  cont.version.toUInt32 = it.cVersion → it.obj ≠ NULL →
    ∃ pre e post, cont.buckets[it.bucket]? = some (pre ++ e :: post) ∧ e.addr = it.obj ∧
      e.version.toUInt32 = it.version

/-- Whichever way it goes, `obj_iterator_next` finds what the scan by version finds. -/
theorem Versioned.advance (h : Versioned n cont) (hs : Saved cont it) :
    ∃ it', it.advance cont = .ok ((cont.scan it.bucket it.version).1, it') ∧
      it'.bucket = (cont.scan it.bucket it.version).2.1 ∧ it'.cVersion = it.cVersion ∧
      ((cont.scan it.bucket it.version).1 = none → Saved cont it') := by
  unfold ObjIterator.advance
  by_cases hshort : cont.version.toUInt32 = it.cVersion ∧ it.obj ≠ NULL
  · obtain ⟨pre, e, post, hb, haddr, hver⟩ := hs hshort.1 hshort.2
    rw [if_pos hshort, ← haddr, nextEntry_eq h.addrs hb, ← hver, h.scan_saved hb]
    cases post with
    | nil => exact ⟨_, rfl, rfl, rfl, fun _ _ hn => absurd rfl hn⟩
    | cons q rest => exact ⟨it, rfl, rfl, rfl, fun hnone => by cases hnone⟩
  · rw [if_neg hshort]
    exact ⟨_, rfl, rfl, rfl, fun _ hv hn => absurd ⟨hv, hn⟩ hshort⟩

/-- `internal_obj_iterator_next` on the container it has locked, without
    `OBJ_ITERATOR_UNLINK` (`obj.c:646-692`). -/
def ObjIterator.next (a : ObjIterator) (cont : ObjContainer α) :
    Outcome (Option BucketEntry × ObjIterator) := do
  let (p, a) ← a.advance cont
  match p with
  | none => .ok (none, a)
  | some p => .ok (some p, { a with
      version := p.version.toUInt32, obj := p.addr, cVersion := cont.version.toUInt32 })

theorem advance_flags {a : ObjIterator} {r : Option BucketEntry × ObjIterator}
    (h : a.advance cont = .ok r) : r.2.flags = a.flags := by
  unfold ObjIterator.advance at h
  split at h
  · cases hnext : cont.nextEntry a.obj with
    | none => simp [hnext] at h
    | some o =>
      cases o with
      | some p =>
        simp only [hnext, Outcome.ok.injEq] at h
        rw [← h]
      | none =>
        simp only [hnext, Outcome.ok.injEq] at h
        rw [← h]
  · simp only [Outcome.ok.injEq] at h
    rw [← h]

/-- The call of `obj_iterator_next` is a step of `ObjIterator.next` on the container. -/
theorem internalObjIteratorNext_eq {m : Machine} {st st1 : State α} {a : ObjIterator}
    {ob : Obj α} (hc : internalObj st a.c = .ok (some ob))
    (hlock : lockIf (!a.flags.dontlock) st a.c = .ok st1)
    (hcont : containerAt st1 a.c = .ok (ob, cont)) (hu : a.flags.unlink = false) :
    internalObjIteratorNext m st a = (a.next cont >>= fun r =>
      .ok ((r.1.map BucketEntry.pobj).getD NULL, r.1.isSome, r.2, st1)) := by
  unfold internalObjIteratorNext ObjIterator.next
  simp only [hc, hlock, hcont, ok_bind]
  cases hadv : a.advance cont with
  | fault => rfl
  | overflow => rfl
  | timeout => rfl
  | ok r =>
    obtain ⟨p, a'⟩ := r
    have hflags := advance_flags hadv
    simp only at hflags
    cases p with
    | none => rfl
    | some p =>
      simp only [ok_bind, hflags, hu, Bool.false_eq_true, if_false]
      rfl

/-! ## Interleavings -/

/-- A container, an iterator over it, and what has happened so far. -/
structure Iteration (α : Type) where
  cont : ObjContainer α
  it : ObjIterator
  /-- Increments of the container's version since its allocation. -/
  increments : Nat
  /-- The entries `obj_iterator_next` has returned, in order. -/
  returned : List BucketEntry := []
  /-- `obj_iterator_next` has returned null. -/
  finished : Bool := false

/-- `obj_iterator_init` on a container after `n` increments of its version. -/
def Iteration.start (n : Nat) (cont : ObjContainer α) (c : Addr) (flags : IteratorFlags) :
    Iteration α where
  cont := cont
  it := { c := c, flags := flags }
  increments := n

/-- The container is linked to or unlinked from, or the iterator moves on. -/
inductive Iteration.Step : Iteration α → Iteration α → Prop where
  | modify {s : Iteration α} {cont' : ObjContainer α} (h : ContMod s.cont cont') :
      Step s { s with cont := cont', increments := s.increments + 1 }
  | next {s : Iteration α} {p : BucketEntry} {it' : ObjIterator}
      (h : s.it.next s.cont = .ok (some p, it')) :
      Step s { s with it := it', returned := s.returned ++ [p] }
  | stop {s : Iteration α} {it' : ObjIterator} (h : s.it.next s.cont = .ok (none, it')) :
      Step s { s with it := it', finished := true }

/-- The invariant of all interleavings. What was returned lies at or before the iterator's
    position, in the one bucket its version belongs to. -/
structure Iteration.Ok (s : Iteration α) : Prop where
  cont : Versioned s.increments s.cont
  saved : Saved s.cont s.it
  seen : s.it.cVersion.toNat ≤ s.increments + 1
  past : ∀ r ∈ s.returned, r.ver ≤ s.increments ∧
    ∃ b, b < s.cont.buckets.length ∧ ¬ After s.it.bucket s.it.version.toNat b r.ver ∧
      ∀ k e, InBucket s.cont.buckets k e → e.ver = r.ver → k = b
  nodup : (s.returned.map BucketEntry.ver).Nodup

/-- What a change does to a bucket: an entry that appears has the next version. -/
theorem ContMod.inBucket {k : Nat} (h : Versioned n cont) (hm : ContMod cont cont')
    (he : InBucket cont'.buckets k e) : InBucket cont.buckets k e ∨ e.ver = n + 1 := by
  cases hm with
  | link hi hk hfresh hnull hver =>
    rcases inBucket_insert he with hold | ⟨-, rfl⟩
    · exact Or.inl hold
    · right
      rw [BucketEntry.ver, hver, h.version]
  | unlink hb => exact Or.inl (inBucket_erase he)

/-- An entry that stays linked stays in its bucket. -/
theorem ContMod.inBucket_of_mem {k : Nat} (h : Versioned n cont) (hm : ContMod cont cont')
    (he : InBucket cont.buckets k e) (hstay : e ∈ cont'.buckets.flatten) : InBucket cont'.buckets k e := by
  obtain ⟨k', hk'⟩ := exists_inBucket hstay
  rcases hm.inBucket h hk' with hold | hnew
  · rwa [h.home he hold rfl]
  · have hle := (h.bounds e he.mem_flatten).2
    omega

theorem Versioned.notAfter_of_found {b v b' : Nat} {p r : BucketEntry} {k : Nat}
    (hp : After b v b' p.ver) (hr : ¬ After b v k r.ver) : ¬ After b' p.ver k r.ver := by
  unfold After at *
  omega

namespace Iteration.Ok

variable {s s' : Iteration α}

theorem start (h : Modified n cont) (hn : n < 2 ^ 31) (c : Addr) (flags : IteratorFlags) :
    (Iteration.start n cont c flags).Ok :=
  ⟨h.versioned hn, fun _ hne => absurd rfl hne, Nat.zero_le _, fun _ hr => (by cases hr),
    List.nodup_nil⟩

theorem modify (h : s.Ok) (hn : s.increments + 1 < 2 ^ 31) (hm : ContMod s.cont cont') :
    Iteration.Ok { s with cont := cont', increments := s.increments + 1 } := by
  have hcont := h.cont.mod hn hm
  refine ⟨hcont, fun hv => ?_, ?_, fun r hr => ?_, h.nodup⟩
  · have hver := hcont.version
    have hseen := h.seen
    simp only at hv
    rw [hv] at hver
    omega
  · have hseen := h.seen
    simp only
    omega
  · obtain ⟨hle, b, hlen, hb, hhome⟩ := h.past r hr
    refine ⟨by simp only; omega, b, hm.shape.2.2.2 ▸ hlen, hb, fun k e hk he => ?_⟩
    rcases hm.inBucket h.cont hk with hold | hnew
    · exact hhome k e hold he
    · omega

/-- An entry that `obj_iterator_next` returns is the first one behind the position. -/
theorem next_some (h : s.Ok) {p : BucketEntry} (hnext : s.it.next s.cont = .ok (some p, it')) :
    InBucket s.cont.buckets it'.bucket p ∧
      After s.it.bucket s.it.version.toNat it'.bucket p.ver ∧
      (∀ k e, InBucket s.cont.buckets k e → After s.it.bucket s.it.version.toNat k e.ver →
        e = p ∨ After it'.bucket p.ver k e.ver) ∧
      it'.version = p.version.toUInt32 ∧ it'.obj = p.addr ∧
      it'.cVersion = s.cont.version.toUInt32 := by
  obtain ⟨it1, hadv, hbucket, -, -⟩ := h.cont.advance h.saved
  have hscan := h.cont.scan s.it.bucket s.it.version
  unfold ObjIterator.next at hnext
  rw [hadv, ok_bind] at hnext
  rcases hr : s.cont.scan s.it.bucket s.it.version with ⟨_ | q, b', v'⟩
  · rw [hr] at hnext
    simp at hnext
  · rw [hr] at hnext hscan hbucket
    simp only [Outcome.ok.injEq, Prod.mk.injEq, Option.some.injEq] at hnext
    obtain ⟨rfl, rfl⟩ := hnext
    simp only at hbucket
    simp only [hbucket]
    exact ⟨hscan.1, hscan.2.1, hscan.2.2, trivial, trivial, trivial⟩

/-- When `obj_iterator_next` returns null, no entry lies behind the position. -/
theorem next_none (h : s.Ok) (hnext : s.it.next s.cont = .ok (none, it')) :
    (∀ k e, InBucket s.cont.buckets k e → ¬ After s.it.bucket s.it.version.toNat k e.ver) ∧
      s.cont.buckets.length ≤ it'.bucket ∧ Saved s.cont it' ∧ it'.cVersion = s.it.cVersion := by
  obtain ⟨it1, hadv, hbucket, hcv, hsaved⟩ := h.cont.advance h.saved
  have hscan := h.cont.scan s.it.bucket s.it.version
  unfold ObjIterator.next at hnext
  rw [hadv, ok_bind] at hnext
  rcases hr : s.cont.scan s.it.bucket s.it.version with ⟨_ | q, b', v'⟩
  · rw [hr] at hnext hscan hbucket hsaved
    simp only [Outcome.ok.injEq, Prod.mk.injEq, true_and] at hnext
    subst hnext
    exact ⟨hscan.2, by rw [hbucket]; exact hscan.1, hsaved rfl, hcv⟩
  · rw [hr] at hnext
    simp at hnext

theorem next (h : s.Ok) {p : BucketEntry} (hnext : s.it.next s.cont = .ok (some p, it')) :
    Iteration.Ok { s with it := it', returned := s.returned ++ [p] } := by
  obtain ⟨hin, hafter, -, hver, hobj, hcv⟩ := h.next_some hnext
  have hver' : it'.version.toNat = p.ver := by rw [hver, BucketEntry.ver]
  refine ⟨h.cont, fun _ _ => ?_, ?_, fun r hr => ?_, ?_⟩
  · obtain ⟨es, hes, hp⟩ := hin
    obtain ⟨pre, post, rfl⟩ := List.append_of_mem hp
    exact ⟨pre, p, post, hes, hobj.symm, hver.symm⟩
  · have hcont := h.cont.version
    simp only [hcv]
    omega
  · simp only [hver']
    rcases List.mem_append.mp hr with hold | hnew
    · obtain ⟨hle, b, hlen, hb, hhome⟩ := h.past r hold
      exact ⟨hle, b, hlen, Versioned.notAfter_of_found hafter hb, hhome⟩
    · obtain rfl := List.mem_singleton.mp hnew
      obtain ⟨es, hes, -⟩ := id hin
      refine ⟨(h.cont.bounds r hin.mem_flatten).2, it'.bucket,
        (List.getElem?_eq_some_iff.mp hes).1, ?_, fun k e hk he => h.cont.home hk hin he⟩
      unfold After
      omega
  · rw [List.map_append, List.nodup_append]
    refine ⟨h.nodup, List.nodup_singleton _, fun v hv w hw => ?_⟩
    obtain ⟨r, hr, rfl⟩ := List.mem_map.mp hv
    obtain rfl : w = p.ver := by simpa using hw
    intro heq
    -- the entry of this version would lie both at or before and behind the position
    obtain ⟨-, b, -, hb, hhome⟩ := h.past r hr
    rw [← hhome _ p hin heq.symm, heq] at hb
    exact hb hafter

theorem stop (h : s.Ok) (hnext : s.it.next s.cont = .ok (none, it')) :
    Iteration.Ok { s with it := it', finished := true } := by
  obtain ⟨-, hend, hsaved, hcv⟩ := h.next_none hnext
  refine ⟨h.cont, hsaved, ?_, fun r hr => ?_, h.nodup⟩
  · have hseen := h.seen
    simp only [hcv]
    exact hseen
  · obtain ⟨hle, b, hlen, -, hhome⟩ := h.past r hr
    refine ⟨hle, b, hlen, ?_, hhome⟩
    unfold After
    simp only
    omega

/-- Every step keeps the invariant. -/
theorem step (h : s.Ok) (hs : Iteration.Step s s') (hn : s'.increments < 2 ^ 31) : s'.Ok := by
  cases hs with
  | modify hm => exact h.modify hn hm
  | next hnext => exact h.next hnext
  | stop hnext => exact h.stop hnext

end Iteration.Ok

theorem Iteration.Step.increments_le {s s' : Iteration α} (h : Iteration.Step s s') :
    s.increments ≤ s'.increments := by
  cases h with
  | modify => exact Nat.le_succ _
  | next => exact le_refl _
  | stop => exact le_refl _

/-- Every interleaving keeps the invariant. -/
theorem Iteration.Ok.run {s s' : Iteration α} (h : s.Ok)
    (hrun : Relation.ReflTransGen Iteration.Step s s') (hn : s'.increments < 2 ^ 31) : s'.Ok := by
  induction hrun with
  | refl => exact h
  | tail _ hs ih =>
    have hle := hs.increments_le
    exact (ih (by omega)).step hs hn

/-- A step before null was returned that leaves `e` linked. -/
def Iteration.StepLinked (e : BucketEntry) (s s' : Iteration α) : Prop :=
  Iteration.Step s s' ∧ s.finished = false ∧ e ∈ s'.cont.buckets.flatten

/-- `e` was returned already, or lies behind the iterator's position. -/
def Iteration.Pending (e : BucketEntry) (s : Iteration α) : Prop :=
  e ∈ s.returned ∨
    ∃ k, InBucket s.cont.buckets k e ∧ After s.it.bucket s.it.version.toNat k e.ver

/-- No entry that stays linked is passed over. -/
theorem Iteration.Pending.step {s s' : Iteration α} (h : s.Pending e) (hok : s.Ok)
    (hs : s.StepLinked e s') : s'.Pending e ∧ (s'.finished = true → e ∈ s'.returned) := by
  obtain ⟨hs, hunfinished, hstay⟩ := hs
  cases hs with
  | modify hm =>
    refine ⟨?_, fun hf => by simp [hunfinished] at hf⟩
    rcases h with hret | ⟨k, hk, hafter⟩
    · exact Or.inl hret
    · exact Or.inr ⟨k, hm.inBucket_of_mem hok.cont hk hstay, hafter⟩
  | next hnext =>
    refine ⟨?_, fun hf => by simp [hunfinished] at hf⟩
    obtain ⟨-, -, hfirst, hver, -, -⟩ := hok.next_some hnext
    rcases h with hret | ⟨k, hk, hafter⟩
    · exact Or.inl (List.mem_append_left _ hret)
    · rcases hfirst k e hk hafter with rfl | hbehind
      · exact Or.inl (by simp)
      · refine Or.inr ⟨k, hk, ?_⟩
        simp only [hver]
        exact hbehind
  | stop hnext =>
    obtain ⟨hnone, -⟩ := hok.next_none hnext
    rcases h with hret | ⟨k, hk, hafter⟩
    · exact ⟨Or.inl hret, fun _ => hret⟩
    · exact absurd hafter (hnone k e hk)

/-- Along a run that leaves `e` linked, `e` is pending, and returned by the end. -/
theorem Iteration.Pending.run {s s' : Iteration α} (h : s.Pending e) (hok : s.Ok)
    (hfin : s.finished = true → e ∈ s.returned)
    (hrun : Relation.ReflTransGen (Iteration.StepLinked e) s s') (hn : s'.increments < 2 ^ 31) :
    s'.Pending e ∧ (s'.finished = true → e ∈ s'.returned) := by
  induction hrun with
  | refl => exact ⟨h, hfin⟩
  | tail hprev hs ih =>
    have hle := hs.1.increments_le
    obtain ⟨hpending, -⟩ := ih (by omega)
    have hrun' := Relation.ReflTransGen.mono (fun _ _ hs => And.left hs) _ _ hprev
    exact hpending.step (hok.run hrun' (by omega)) hs

/-- Iteration under concurrent modification. In every interleaving with fewer than 2^31
    version increments, no entry is returned twice; one that stays linked from
    `obj_iterator_init` until null is returned is returned exactly once; and the saved
    pointer, while it is followed, is a linked entry that leads where the scan leads. -/
theorem iteration_exact {c : Addr} {flags : IteratorFlags} {s : Iteration α}
    (h : Modified n cont)
    (hrun : Relation.ReflTransGen Iteration.Step (Iteration.start n cont c flags) s)
    (hn : s.increments < 2 ^ 31) :
    (s.returned.map BucketEntry.ver).Nodup ∧
      (∀ e ∈ cont.buckets.flatten,
        Relation.ReflTransGen (Iteration.StepLinked e) (Iteration.start n cont c flags) s →
        s.finished = true → s.returned.count e = 1) ∧
      (s.cont.version.toUInt32 = s.it.cVersion → s.it.obj ≠ NULL →
        s.it.obj ∈ s.cont.entryAddrs ∧
        ∃ it', s.it.advance s.cont = .ok ((s.cont.scan s.it.bucket s.it.version).1, it')) := by
  have hle : n ≤ s.increments := by
    have hmono : ∀ s', Relation.ReflTransGen Iteration.Step (Iteration.start n cont c flags) s' →
        n ≤ s'.increments := by
      intro s' hrun'
      induction hrun' with
      | refl => exact le_refl n
      | tail _ hs ih => exact ih.trans hs.increments_le
    exact hmono s hrun
  have hstart := Iteration.Ok.start h (by omega) c flags
  have hok := hstart.run hrun hn
  refine ⟨hok.nodup, fun e he hlinked hfin => ?_, fun hver hobj => ?_⟩
  · obtain ⟨k, hk⟩ := exists_inBucket he
    have hpos := (hstart.cont.bounds e he).1
    have hafter : After 0 0 k e.ver := by
      unfold After
      omega
    have hpending : (Iteration.start n cont c flags).Pending e := Or.inr ⟨k, hk, hafter⟩
    have hmem := (hpending.run hstart (fun hf => by cases hf) hlinked hn).2 hfin
    exact List.count_eq_one_of_mem (List.Nodup.of_map _ hok.nodup) hmem
  · obtain ⟨pre, e, post, hb, haddr, -⟩ := hok.saved hver hobj
    refine ⟨?_, ?_⟩
    · rw [← haddr]
      exact List.mem_toFinset.mpr (List.mem_map_of_mem (Buckets.mem_flatten hb (by simp)))
    · obtain ⟨it', hadv, -⟩ := hok.cont.advance hok.saved
      exact ⟨it', hadv⟩

/-- A container of two buckets, which hashes an object by its address. -/
def twoBuckets (elements version : Int32) (buckets : List (List BucketEntry)) :
    ObjContainer Unit :=
  ⟨fun p _ => Int32.ofNat p.addr, none, 2, elements, version, buckets⟩

/-- The link of an object whose address chooses bucket `k`. -/
theorem contMod_linked {cont : ObjContainer Unit} {k : Nat} {e o : Addr} (i : Int32)
    (hi : linkIndex cont ⟨o, none⟩ = .ok i) (hk : bucketIndex cont i.toInt = .ok k)
    (hfresh : e ∉ cont.entryAddrs) (hnull : e ≠ NULL) : ContMod cont (cont.linked k e o) :=
  ContMod.link (e := ⟨e, cont.version, o⟩) (d := none) hi hk hfresh hnull rfl

/-- Three objects are linked, the first and the last to bucket 0. -/
def threeEntries : ObjContainer Unit :=
  twoBuckets 3 4 [[⟨107, 1, 4⟩, ⟨109, 3, 6⟩], [⟨108, 2, 5⟩]]

theorem modified_threeEntries : Modified 3 threeEntries := by
  have hfresh : Modified 0 (twoBuckets 0 1 [[], []]) :=
    .fresh (show 0 ≤ (2 : UInt32).toInt32.toInt by decide)
  have h1 : Modified 1 (twoBuckets 1 2 [[⟨107, 1, 4⟩], []]) :=
    hfresh.step (contMod_linked (k := 0) (e := 107) (o := 4) 0 rfl rfl (by decide) (by decide))
  have h2 : Modified 2 (twoBuckets 2 3 [[⟨107, 1, 4⟩], [⟨108, 2, 5⟩]]) :=
    h1.step (contMod_linked (k := 1) (e := 108) (o := 5) 1 rfl rfl (by decide) (by decide))
  exact h2.step (contMod_linked (k := 0) (e := 109) (o := 6) 0 rfl rfl (by decide) (by decide))

/-- The iteration when the first entry was returned: the iterator has saved it, and the version is
    the one that it saw. -/
def iterationSaved : Iteration Unit where
  cont := threeEntries
  it := ⟨2, {}, 0, 4, 107, 1⟩
  increments := 3
  returned := [⟨107, 1, 4⟩]

/-- Then the third entry is returned by the saved pointer. -/
def iterationShortcut : Iteration Unit where
  cont := threeEntries
  it := ⟨2, {}, 0, 4, 109, 3⟩
  increments := 3
  returned := [⟨107, 1, 4⟩, ⟨109, 3, 6⟩]

/-- It is unlinked, so that the saved pointer dangles, -/
def iterationUnlinked : Iteration Unit where
  cont := twoBuckets 2 5 [[⟨107, 1, 4⟩], [⟨108, 2, 5⟩]]
  it := ⟨2, {}, 0, 4, 109, 3⟩
  increments := 4
  returned := [⟨107, 1, 4⟩, ⟨109, 3, 6⟩]

/-- and so is the second entry, before its turn; a fourth object is linked to its bucket. -/
def iterationModified : Iteration Unit where
  cont := twoBuckets 2 7 [[⟨107, 1, 4⟩], [⟨110, 6, 7⟩]]
  it := ⟨2, {}, 0, 4, 109, 3⟩
  increments := 6
  returned := [⟨107, 1, 4⟩, ⟨109, 3, 6⟩]

/-- The iterator finds the new entry by the scan, and then nothing. -/
def iterationFinished : Iteration Unit where
  cont := twoBuckets 2 7 [[⟨107, 1, 4⟩], [⟨110, 6, 7⟩]]
  it := ⟨2, {}, 2, 7, NULL, 0⟩
  increments := 6
  returned := [⟨107, 1, 4⟩, ⟨109, 3, 6⟩, ⟨110, 6, 7⟩]
  finished := true

theorem linked_iterationSaved : Iteration.StepLinked ⟨107, 1, 4⟩
    (Iteration.start 3 threeEntries 2 {}) iterationSaved :=
  ⟨.next rfl, rfl, by decide⟩

theorem linked_iterationShortcut :
    Iteration.StepLinked ⟨107, 1, 4⟩ iterationSaved iterationShortcut :=
  ⟨.next rfl, rfl, by decide⟩

theorem linked_iterationUnlinked :
    Iteration.StepLinked ⟨107, 1, 4⟩ iterationShortcut iterationUnlinked := by
  have hb : threeEntries.buckets[0]? = some ([⟨107, 1, 4⟩] ++ ⟨109, 3, 6⟩ :: []) := rfl
  have hunlink : ContMod threeEntries iterationUnlinked.cont := .unlink hb
  exact ⟨.modify hunlink, rfl, by decide⟩

theorem linked_iterationModified : Relation.ReflTransGen (Iteration.StepLinked ⟨107, 1, 4⟩)
    iterationUnlinked iterationModified := by
  have hb : iterationUnlinked.cont.buckets[1]? = some ([] ++ ⟨108, 2, 5⟩ :: []) := rfl
  have hunlink : ContMod iterationUnlinked.cont (twoBuckets 1 6 [[⟨107, 1, 4⟩], []]) := .unlink hb
  have hlink : ContMod (twoBuckets 1 6 [[⟨107, 1, 4⟩], []]) iterationModified.cont :=
    contMod_linked (k := 1) (e := 110) (o := 7) 1 rfl rfl (by decide) (by decide)
  have hstep : Iteration.StepLinked ⟨107, 1, 4⟩ iterationUnlinked { iterationUnlinked with
      cont := twoBuckets 1 6 [[⟨107, 1, 4⟩], []]
      increments := 5 } := ⟨.modify hunlink, rfl, by decide⟩
  exact (Relation.ReflTransGen.single hstep).tail ⟨.modify hlink, rfl, by decide⟩

theorem linked_iterationFinished : Relation.ReflTransGen (Iteration.StepLinked ⟨107, 1, 4⟩)
    iterationModified iterationFinished := by
  have hnext : Iteration.StepLinked ⟨107, 1, 4⟩ iterationModified { iterationFinished with
      it := ⟨2, {}, 1, 7, 110, 6⟩
      finished := false } := ⟨.next rfl, rfl, by decide⟩
  exact (Relation.ReflTransGen.single hnext).tail ⟨.stop rfl, rfl, by decide⟩

/-- The entry that stays is returned once, and no version twice; where the saved pointer is
    followed, it leads to the entry that the scan finds. -/
theorem iteration_exact_threeEntries :
    iterationFinished.returned.count ⟨107, 1, 4⟩ = 1 ∧
      (iterationFinished.returned.map BucketEntry.ver).Nodup ∧
      iterationSaved.it.obj ∈ threeEntries.entryAddrs ∧
      ∃ it', iterationSaved.it.advance threeEntries = .ok ((threeEntries.scan 0 1).1, it') := by
  have hlinked : Relation.ReflTransGen (Iteration.StepLinked ⟨107, 1, 4⟩)
      (Iteration.start 3 threeEntries 2 {}) iterationFinished :=
    (((Relation.ReflTransGen.single linked_iterationSaved).tail linked_iterationShortcut).tail
      linked_iterationUnlinked).trans (linked_iterationModified.trans linked_iterationFinished)
  have hrun := Relation.ReflTransGen.mono (fun _ _ hs => And.left hs) _ _ hlinked
  have hexact := iteration_exact modified_threeEntries hrun (by decide)
  have hsaved := iteration_exact modified_threeEntries (.single linked_iterationSaved.1) (by decide)
  have hshortcut := hsaved.2.2 rfl (by decide)
  exact ⟨hexact.2.1 _ (by decide) hlinked rfl, hexact.1, hshortcut.1, hshortcut.2⟩

/-- In a container of 2^31 buckets, a negative number as an `int`, the first call of
    `obj_iterator_next` returns null although an entry is linked. -/
theorem iteration_misses :
    ∃ (cont : ObjContainer Unit) (e : BucketEntry) (s : Iteration Unit),
      ContMod ⟨fun _ _ => 0, none, (2 ^ 31 : UInt32).toInt32, 0, 1,
        List.replicate (2 ^ 31 : UInt32).toNat []⟩ cont ∧
      e ∈ cont.buckets.flatten ∧
      Relation.ReflTransGen (Iteration.StepLinked e) (Iteration.start 1 cont 2 {}) s ∧
      s.finished = true ∧ s.returned.count e = 0 := by
  obtain ⟨bs, hbs, hempty⟩ : ∃ bs : List (List BucketEntry),
      List.replicate (2 ^ 31 : UInt32).toNat [] = [] :: bs ∧ bs.flatten = [] := by
    refine ⟨List.replicate (2 ^ 31 - 1) [], ?_, List.flatten_replicate_nil⟩
    rw [← List.replicate_succ]
    rfl
  rw [hbs]
  have hneg : (2 ^ 31 : UInt32).toInt32 = Int32.minValue := by decide +kernel
  rw [hneg]
  let fresh : ObjContainer Unit := ⟨fun _ _ => 0, none, Int32.minValue, 0, 1, [] :: bs⟩
  let e : BucketEntry := ⟨7, 1, 5⟩
  let cont : ObjContainer Unit := { fresh.insertTail 0 e with
    version := fresh.version + 1, elements := fresh.elements + 1 }
  have hlink : ContMod fresh cont := by
    have hmod : cMod (cAbs 0) Int32.minValue = .ok 0 := by decide +kernel
    have hindex : bucketIndex fresh (0 : Int32).toInt = .ok 0 := by simp [bucketIndex, fresh]
    have hnew : e.addr ∉ fresh.entryAddrs := by simp [ObjContainer.entryAddrs, fresh, hempty]
    have hnull : e.addr ≠ NULL := by decide
    exact ContMod.link (d := none) hmod hindex hnew hnull rfl
  have he : e ∈ cont.buckets.flatten := by simp [cont, fresh, e, ObjContainer.insertTail]
  have hnext : (Iteration.start 1 cont 2 {}).it.next cont = .ok (none, ⟨2, {}, 0, 0, NULL, 0⟩) := by
    rfl
  exact ⟨cont, e, _, hlink, he, .single ⟨.stop hnext, rfl, he⟩, rfl, rfl⟩

end Spider.ObjModel
