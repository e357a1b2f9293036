import Spider.Lib.Fuel
import Spider.Lib.Walk
import Spider.ObjModel.Exact
import Spider.ObjModel.Search

/-!
# The calls of the match function

`internal_obj_callback` once more, with the calls of the match function on
record. What a match function answers may depend on the calls before, as that of
a C function with static variables may. The calls are those of a walk along the
entries; what is left in the container are the entries without the matches that
have been unlinked.
-/

namespace Spider.ObjModel

open Lib Outcome Walk

variable {α : Type}

/-- A call of the match function: the entry whose object it is called on, and its answer. -/
abbrev MatchCall := BucketEntry × Int32

/-- A match function with a memory of its own. -/
abbrev MatchFn (α : Type) := List MatchCall → Ptr α → Int32

namespace Open

variable (objRef : State α → Addr → Int32 → Outcome (Int32 × State α)) (m : Machine)

/-- `traverseBucket` with the calls on record. -/
def traverseCalls (c : Addr) (flags : SearchFlags) (f : MatchFn α) (multi : Option Addr)
    (i : Nat) : List BucketEntry → Addr → List MatchCall → State α →
      Outcome (Bool × Addr × List MatchCall × State α)
  | [], ret, calls, st => .ok (false, ret, calls, st)
  | cur :: rest, ret, calls, st => do
    let ptr ← externalObj st cur.pobj
    let st := st.emit (.callback cur.addr)
    let r := f calls ptr
    let calls := calls ++ [(cur, r)]
    let mtch := (CMP_MATCH ||| CMP_STOP) &&& r
    if mtch = 0 then traverseCalls c flags f multi i rest ret calls st
    else if mtch = CMP_STOP then .ok (true, ret, calls, st)
    else do
      let (ret, st) ← takeMatch objRef m st flags multi cur ret
      let st ← unlinkCurrent objRef m st c flags i cur
      if mtch &&& CMP_STOP ≠ 0 || !flags.multiple then .ok (true, ret, calls, st)
      else traverseCalls c flags f multi i rest ret calls st

/-- `bucketLoop` with the calls on record. -/
def loopCalls (c : Addr) (flags : SearchFlags) (f : MatchFn α) (multi : Option Addr)
    (start : Int) : Nat → Int → Int → Addr → List MatchCall → State α →
      Outcome (Addr × List MatchCall × State α)
  | 0, _, _, _, _, _ => .timeout
  | fuel + 1, i, last, ret, calls, st =>
    if i < last then do
      let (_, cont) ← containerAt st c
      let k ← bucketIndex cont i
      let (stop, ret, calls, st) ← traverseCalls objRef m c flags f multi k
        (cont.buckets[k]?.getD []) ret calls st
      let i := if stop then last else i
      if ret ≠ NULL then .ok (ret, calls, st)
      else if i = cont.nBuckets.toInt - 1 ∧ flags.pointer ∧ flags.continue_ then
        loopCalls c flags f multi start fuel 0 start ret calls st
      else loopCalls c flags f multi start fuel (i + 1) last ret calls st
    else .ok (ret, calls, st)

/-- `search` with the calls on record, and with any fuel for the loop over the buckets. -/
def searchCalls (fuel : ObjContainer α → Nat) (st : State α) (c : Addr) (flags : SearchFlags)
    (f : MatchFn α) (arg : Ptr α) (multi : Option Addr) :
    Outcome (Addr × List MatchCall × State α) := do
  let (_, cont) ← containerAt st c
  let (start, last) ← searchBounds cont flags arg
  let st ← lockIf (!flags.nolock) st c
  let (ret, calls, st) ← loopCalls objRef m c flags f multi start (fuel cont) start last NULL []
    st
  let st ← unlockIf (!flags.nolock) st c
  .ok (ret, calls, st)

/-- `internalObjCallback` with the calls on record, and with any fuel for the loop over the
    buckets. -/
def callbackCalls (fuel : ObjContainer α → Nat) (st : State α) (c : Addr) (flags : SearchFlags)
    (cbFn : Option (MatchFn α)) (arg : Ptr α) :
    Outcome (CallbackRet × List MatchCall × State α) := do
  match ← internalObj st c with
  | none => .ok (.obj NULL, [], st)
  | some _ =>
    let f := cbFn.getD fun _ _ => CMP_MATCH
    if flags.multiple && !flags.nodata then
      let (multi, st) := objContainerAlloc m st 1 none none
      if multi = NULL then .ok (.obj NULL, [], st)
      else
        let (multiIterator, st) := spdCalloc m st ∅
        if multiIterator = NULL then do
          let (_, st) ← objRef st multi (-1)
          .ok (.obj NULL, [], st)
        else do
          let (_, calls, st) ← searchCalls objRef m fuel st c flags f arg (some multi)
          let (it, st) ← objIteratorInit objRef st multi
            { dontlock := true, mallocd := true, unlink := true }
          let (_, st) ← objRef st multi (-1)
          .ok (.iter it, calls, st)
    else do
      let (ret, calls, st) ← searchCalls objRef m fuel st c flags f arg none
      .ok (.obj ret, calls, st)

/-! ### Without a memory -/

section

variable (c : Addr) (flags : SearchFlags) (g : Ptr α → Int32) (multi : Option Addr)

/-- A match function without a memory, as a callback. -/
def callback : Callback α := fun st p => .ok (g p, st)

theorem traverseBucket_eq (i : Nat) (es : List BucketEntry) (ret : Addr) (calls : List MatchCall)
    (st : State α) : traverseBucket objRef m c flags (callback g) multi i es ret st =
      traverseCalls objRef m c flags (fun _ => g) multi i es ret calls st >>= fun r =>
        .ok (r.1, r.2.1, r.2.2.2) := by
  induction es generalizing ret calls st with
  | nil => rfl
  | cons cur rest ih =>
    rw [traverseBucket, traverseCalls]
    cases externalObj st cur.pobj with
    | ok ptr =>
      simp only [ok_bind, callback]
      split
      · exact ih _ _ _
      split
      · rfl
      simp only [Outcome.bind_assoc]
      congr 1
      funext r
      congr 1
      funext st
      split
      · rfl
      · exact ih _ _ _
    | fault => rfl
    | overflow => rfl
    | timeout => rfl

theorem bucketLoop_eq (start : Int) (fuel : Nat) (i last : Int) (ret : Addr)
    (calls : List MatchCall) (st : State α) : bucketLoop objRef m c flags (callback g) multi start fuel i last ret st =
      loopCalls objRef m c flags (fun _ => g) multi start fuel i last ret calls st >>= fun r =>
        .ok (r.1, r.2.2) := by
  induction fuel generalizing i last ret calls st with
  | zero => rfl
  | succ fuel ih =>
    rw [bucketLoop, loopCalls]
    split
    · simp only [traverseBucket_eq objRef m c flags g multi _ _ _ calls, Outcome.bind_assoc,
        ok_bind]
      congr 1
      funext r
      congr 1
      funext k
      congr 1
      funext r'
      by_cases hret : r'.2.1 ≠ NULL
      · simp only [if_pos hret, ok_bind]
      simp only [if_neg hret, ih _ _ _ r'.2.2.1]
      exact (apply_ite (fun x : Outcome (Addr × List MatchCall × State α) =>
        x >>= fun r => Outcome.ok (r.1, r.2.2)) _ _ _).symm
    · rfl

theorem search_eq (st : State α) (arg : Ptr α) :
    search objRef m st c flags (callback g) arg multi =
      searchCalls objRef m loopFuel st c flags (fun _ => g) arg multi >>= fun r =>
        .ok (r.1, r.2.2) := by
  simp only [search, searchCalls, Outcome.bind_assoc, ok_bind,
    bucketLoop_eq objRef m c flags g multi _ _ _ _ _ []]

/-- For a match function that has no memory the record makes no difference. -/
theorem internalObjCallback_eq (st : State α) (cbFn : Option (Ptr α → Int32)) (arg : Ptr α) :
    internalObjCallback objRef m st c flags (cbFn.map callback) arg =
      callbackCalls objRef m loopFuel st c flags (cbFn.map fun g _ => g) arg >>= fun r =>
        .ok (r.1, r.2.2) := by
  have hcb : (cbFn.map callback).getD cbTrue =
      (callback (cbFn.getD fun _ => CMP_MATCH) : Callback α) := by
    cases cbFn <;> rfl
  have hf : (cbFn.map fun (g : Ptr α → Int32) (_ : List MatchCall) => g).getD
      (fun _ _ => CMP_MATCH) = fun _ => cbFn.getD fun _ => CMP_MATCH := by
    cases cbFn <;> rfl
  rw [internalObjCallback, callbackCalls, hcb, hf]
  cases internalObj st c with
  | ok q =>
    cases q with
    | none => rfl
    | some q =>
      simp only [ok_bind, search_eq]
      split
      · split
        · rfl
        split
        · simp only [Outcome.bind_assoc, ok_bind]
        · simp only [Outcome.bind_assoc, ok_bind]
      · simp only [Outcome.bind_assoc, ok_bind]
  | fault => rfl
  | overflow => rfl
  | timeout => rfl

end

end Open

/-! ## What an answer does -/

/-- `CMP_MATCH` in an answer. -/
def reports (r : Int32) : Bool := r &&& CMP_MATCH != 0

/-- `CMP_STOP` in an answer. -/
def stops (r : Int32) : Bool := r &&& CMP_STOP != 0

/-- The answer makes the search leave its loops by `i = last`. -/
def SearchFlags.ends (flags : SearchFlags) (r : Int32) : Bool :=
  stops r || (reports r && !flags.multiple)

/-- The answer makes the search return the object. -/
def SearchFlags.returns (flags : SearchFlags) (r : Int32) : Bool :=
  reports r && !flags.nodata && !flags.multiple

/-- What the search looks at in an answer. -/
theorem mtch_cases (r : Int32) : (CMP_MATCH ||| CMP_STOP) &&& r = 0 ∨
    (CMP_MATCH ||| CMP_STOP) &&& r = 1 ∨ (CMP_MATCH ||| CMP_STOP) &&& r = 2 ∨
    (CMP_MATCH ||| CMP_STOP) &&& r = 3 := by
  have hlow : ((CMP_MATCH ||| CMP_STOP) &&& r).toBitVec.toNat = r.toBitVec.toNat % 4 := by
    rw [Int32.toBitVec_and, BitVec.toNat_and, Nat.and_comm]
    exact Nat.and_two_pow_sub_one_eq_mod _ 2
  have hof : ∀ x : Int32, ((CMP_MATCH ||| CMP_STOP) &&& r).toBitVec.toNat = x.toBitVec.toNat →
      (CMP_MATCH ||| CMP_STOP) &&& r = x := fun x h =>
    Int32.toBitVec_inj.mp (BitVec.eq_of_toNat_eq h)
  have hlt : r.toBitVec.toNat % 4 < 4 := Nat.mod_lt _ (by decide)
  have hcases : r.toBitVec.toNat % 4 = 0 ∨ r.toBitVec.toNat % 4 = 1 ∨ r.toBitVec.toNat % 4 = 2 ∨
      r.toBitVec.toNat % 4 = 3 := by omega
  rw [← hlow] at hcases
  exact hcases.imp (hof 0) (.imp (hof 1) (.imp (hof 2) (hof 3)))

theorem reports_eq (r : Int32) :
    reports r = ((CMP_MATCH ||| CMP_STOP) &&& r &&& CMP_MATCH != 0) := by
  rw [reports, Int32.and_comm (CMP_MATCH ||| CMP_STOP), Int32.and_assoc]
  rfl

theorem stops_eq (r : Int32) : stops r = ((CMP_MATCH ||| CMP_STOP) &&& r &&& CMP_STOP != 0) := by
  rw [stops, Int32.and_comm (CMP_MATCH ||| CMP_STOP), Int32.and_assoc]
  rfl

/-- The branches of the loop over a bucket, by what the answer reports. -/
inductive Answered (r : Int32) : Prop
  | passes (hmtch : (CMP_MATCH ||| CMP_STOP) &&& r = 0) (hreports : reports r = false)
      (hstops : stops r = false)
  | stops (hmtch : (CMP_MATCH ||| CMP_STOP) &&& r = CMP_STOP) (hreports : reports r = false)
      (hstops : stops r = true)
  | reports (hzero : (CMP_MATCH ||| CMP_STOP) &&& r ≠ 0)
      (hstop : (CMP_MATCH ||| CMP_STOP) &&& r ≠ CMP_STOP) (hreports : reports r = true)
      (hstops : ((CMP_MATCH ||| CMP_STOP) &&& r &&& CMP_STOP ≠ 0) = (stops r = true))

theorem answered (r : Int32) : Answered r := by
  have hreports := reports_eq r
  have hstops := stops_eq r
  have hdone : ((CMP_MATCH ||| CMP_STOP) &&& r &&& CMP_STOP ≠ 0) = (stops r = true) := by
    rw [hstops, bne_iff_ne]
  rcases mtch_cases r with h | h | h | h
  · rw [h] at hreports hstops
    exact .passes h hreports hstops
  · rw [h] at hreports
    exact .reports (by rw [h]; decide) (by rw [h]; decide) hreports hdone
  · rw [h] at hreports hstops
    exact .stops h hreports hstops
  · rw [h] at hreports
    exact .reports (by rw [h]; decide) (by rw [h]; decide) hreports hdone

/-! ## What is left -/

/-- One of the calls was a match, and has unlinked the entry. -/
def gone (flags : SearchFlags) (calls : List MatchCall) (e : BucketEntry) : Bool :=
  flags.unlink && calls.any fun call => call.1.addr = e.addr && reports call.2

/-- The entries that the calls leave in a bucket. -/
def left (flags : SearchFlags) (calls : List MatchCall) (es : List BucketEntry) :
    List BucketEntry :=
  es.filter fun e => !gone flags calls e

/-- What a search returns behind these calls. -/
def result (flags : SearchFlags) (calls : List MatchCall) : Addr :=
  match calls.getLast? with
  | some (e, r) => if flags.returns r then e.pobj else NULL
  | none => NULL

section

variable {flags : SearchFlags} {calls news : List MatchCall} {e : BucketEntry} {r : Int32}
  {es pre rest : List BucketEntry} {bs : List (List BucketEntry)} {i : Nat}

@[simp] theorem left_nil (es : List BucketEntry) : left flags [] es = es := by
  simp [left, gone]

theorem left_append (es : List BucketEntry) :
    left flags (calls ++ news) es = left flags news (left flags calls es) := by
  rw [left, left, left, List.filter_filter]
  congr 1
  funext e
  simp only [gone, List.any_append, Bool.and_or_distrib_left, Bool.not_or]
  rw [Bool.and_comm]

theorem left_eq (h : ∀ e ∈ es, gone flags calls e = false) : left flags calls es = es :=
  List.filter_eq_self.mpr fun e he => by rw [h e he]; rfl

theorem left_of_not_reports (h : reports r = false) (es : List BucketEntry) :
    left flags (calls ++ [(e, r)]) es = left flags calls es := by
  rw [left_append]
  exact left_eq fun e' _ => by simp [gone, h]

theorem left_of_reports (h : reports r = true) (es : List BucketEntry) :
    left flags (calls ++ [(e, r)]) es =
      if flags.unlink then (left flags calls es).filter fun e' => e'.addr ≠ e.addr
      else left flags calls es := by
  rw [left_append]
  cases hunlink : flags.unlink with
  | false =>
    rw [if_neg Bool.false_ne_true]
    exact left_eq fun e' _ => by simp [gone, hunlink]
  | true =>
    rw [if_pos rfl, left]
    congr 1
    funext e'
    simp [gone, hunlink, h, eq_comm]

@[simp] theorem result_nil : result flags [] = NULL := rfl

@[simp] theorem result_concat :
    result flags (calls ++ [(e, r)]) = if flags.returns r then e.pobj else NULL := by
  rw [result, List.getLast?_concat]

end

/-! ## The search -/

/-- The objects of the matches, in the order of the calls. -/
def matched (calls : List MatchCall) : List Addr :=
  (calls.filter fun call => reports call.2).map fun call => call.1.pobj

/-- The container for several results holds these objects, in this order. -/
def Gathered (st : State α) (mu : Addr) (objs : List Addr) : Prop :=
  ∃ k es, HasCont st mu k ∧ k.buckets = [es] ∧ k.hashFn = hashZero ∧
    es.map BucketEntry.pobj = objs ∧ ∀ e ∈ es, 0 < e.version.toInt

/-- Between the calls of a search of the container `c`, whose buckets were `bs` at first and whose
    entries are those of the objects `ptr`. -/
structure Searching (m : Machine) (rs : Multiset Addr) (c : Addr) (flags : SearchFlags)
    (multi : Option Addr) (nBuckets : Int32) (bs : List (List BucketEntry))
    (ptr : BucketEntry → Ptr α) (calls : List MatchCall) (st : State α) : Prop where
  inv : Inv st ∅ rs
  cont : ∃ cont, HasCont st c cont ∧ cont.buckets = bs.map (left flags calls) ∧
    cont.nBuckets = nBuckets
  multiOk : MultiOk st c rs flags multi
  ptr : ∀ e ∈ (bs.map (left flags calls)).flatten, externalObj st e.pobj = .ok (ptr e)
  gathered : ∀ mu, multi = some mu → (∀ n live, m.calloc n live ≠ none) →
    Gathered st mu (matched calls)

/-- What the match function is asked about an entry. -/
def ask (f : MatchFn α) (ptr : BucketEntry → Ptr α) : List MatchCall → BucketEntry → Int32 :=
  fun calls e => f calls (ptr e)

section

variable {m : Machine} {rs : Multiset Addr} {c : Addr} {flags : SearchFlags} {multi : Option Addr}
  {nBuckets : Int32} {bs : List (List BucketEntry)} {ptr : BucketEntry → Ptr α}
  {calls : List MatchCall} {st st' : State α} {i : Nat} {pre rest : List BucketEntry}
  {cur : BucketEntry} {r : Int32}

theorem matched_concat : matched (calls ++ [(cur, r)]) =
    matched calls ++ if reports r then [cur.pobj] else [] := by
  cases h : reports r <;> simp [matched, h]

theorem Gathered.of_objs {mu : Addr} {objs : List Addr} (h : Gathered st mu objs)
    (ho : st'.objs = st.objs) : Gathered st' mu objs := by
  obtain ⟨k, es, hk, hrest⟩ := h
  exact ⟨k, es, hk.of_objs ho, hrest⟩

/-- One more object is linked behind the others. -/
theorem Gathered.linked {mu : Addr} {objs : List Addr} {k k' : ObjContainer α} {e o : Addr}
    (hinv : Inv st ∅ rs) (h : Gathered st mu objs) (hk : HasCont st mu k)
    (hlinked : LinkedAt e o k k') (hk' : HasCont st' mu k') : Gathered st' mu (objs ++ [o]) := by
  obtain ⟨k₀, es, hk₀, hbuckets, hhash, hobjs, hversions⟩ := h
  obtain rfl : k₀ = k := by
    obtain ⟨q, hq, hu⟩ := hk₀
    obtain ⟨q', hq', hu'⟩ := hk
    obtain rfl := Option.some.inj (hq.symm.trans hq')
    exact UserData.container.inj (hu.symm.trans hu')
  have hw : ContWf k₀ := Counted.contWf hinv hk (Finset.notMem_empty mu)
  obtain ⟨d, j, n, -, hn, rfl⟩ := hlinked
  obtain ⟨-, hlt⟩ := bucketIndex_eq_ok hn
  obtain rfl : n = 0 := by
    rw [hbuckets] at hlt
    exact Nat.lt_one_iff.mp hlt
  refine ⟨_, es ++ [⟨e, k₀.version, o⟩], hk', ?_, hhash, ?_, ?_⟩
  · simp [ObjContainer.linked, ObjContainer.insertTail, hbuckets]
  · simp [hobjs]
  · intro e' he'
    rcases List.mem_append.mp he' with hold | hnew
    · exact hversions e' hold
    · rw [List.mem_singleton.mp hnew]
      exact hw.version

theorem MultiOk.mono {rs' : Multiset Addr} (h : MultiOk st c rs flags multi) (hsub : rs ⊆ rs') :
    MultiOk st c rs' flags multi := by
  refine ⟨h.isSome, fun mu hmu => ?_⟩
  obtain ⟨hext, hrest⟩ := h.cont mu hmu
  exact ⟨hsub hext, hrest⟩

theorem Searching.of_objs (h : Searching m rs c flags multi nBuckets bs ptr calls st)
    (hinv : Inv st' ∅ rs) (ho : st'.objs = st.objs) :
    Searching m rs c flags multi nBuckets bs ptr calls st' := by
  obtain ⟨cont, hcont, hbuckets⟩ := h.cont
  refine ⟨hinv, ⟨cont, hcont.of_objs ho, hbuckets⟩, h.multiOk.keeps (.of_objs ho), ?_,
    fun mu hmu hall => (h.gathered mu hmu hall).of_objs ho⟩
  intro e he
  unfold externalObj
  rw [ho]
  exact h.ptr e he

/-- A call is recorded. -/
theorem Searching.emit (h : Searching m rs c flags multi nBuckets bs ptr calls st) (e : Addr) :
    Searching m rs c flags multi nBuckets bs ptr calls (st.emit (.callback e)) :=
  h.of_objs (h.inv.emit (by simp)) rfl

/-- A call that reports no match changes nothing. -/
theorem Searching.misses (h : Searching m rs c flags multi nBuckets bs ptr calls st)
    (hr : reports r = false) (cur : BucketEntry) :
    Searching m rs c flags multi nBuckets bs ptr (calls ++ [(cur, r)]) st := by
  have hleft : left flags (calls ++ [(cur, r)]) = left flags calls :=
    funext fun es => left_of_not_reports hr es
  refine ⟨h.inv, ?_, h.multiOk, ?_, ?_⟩
  · rw [hleft]
    exact h.cont
  · rw [hleft]
    exact h.ptr
  · rw [matched_concat, hr]
    simpa using h.gathered

/-- A match is taken, and its entry unlinked where the flags ask for it. -/
theorem Searching.takes (hc : c ∈ rs) (h : Searching m rs c flags multi nBuckets bs ptr calls st)
    (hb : (bs.map (left flags calls))[i]? = some (pre ++ cur :: rest)) (hr : reports r = true) :
    (Open.takeMatch (objRef m.toChecked) m.toChecked st flags multi cur NULL).Sat fun x =>
      x.1 = (if flags.nodata || flags.multiple then NULL else cur.pobj) ∧ Keeps rs st x.2 ∧
      (Open.unlinkCurrent (objRef m.toChecked) m.toChecked x.2 c flags i cur).Sat fun st' =>
        Keeps rs st st' ∧ Searching m (retRef x.1 + rs) c flags multi nBuckets bs ptr
          (calls ++ [(cur, r)]) st' := by
  obtain ⟨cont, hcont, hbuckets, hn⟩ := h.cont
  rw [← hbuckets] at hb
  have hw : ContWf cont := Counted.contWf h.inv hcont (Finset.notMem_empty c)
  obtain ⟨hnull, -⟩ := HasBucket.pobj_mem h.inv ⟨cont, hcont, hb⟩
  refine (takeMatch_exact h.inv hc hcont hb h.multiOk).mono fun ⟨ret, st1⟩ hx => ?_
  obtain ⟨hret, hinv1, hkeep1, hstay1, hcont1, hlinked⟩ := hx
  simp only at hret hinv1 hkeep1 hstay1 hcont1 hlinked
  refine ⟨hret, hkeep1, ?_⟩
  -- the references the entry hands over on unlinking complete those of `ret`
  have hcsum : c ∈ (if flags.unlink then 0 else retRef ret) + rs :=
    Multiset.mem_add.mpr (Or.inr hc)
  refine (unlinkCurrent_exact hinv1 hcsum hcont1 hb).mono fun st2 hy => ?_
  obtain ⟨hinv2, hkeep2, hstay2, hcont2, hother2⟩ := hy
  generalize hcont' : (if flags.unlink then cont.unlinked i cur.addr else cont) = cont' at hcont2
  have hkeep : Keeps rs st st2 :=
    hkeep1.trans (hkeep2.mono (Multiset.subset_of_le (Multiset.le_add_left _ _)))
  have hinv : Inv st2 ∅ (retRef ret + rs) := by
    rw [← add_assoc] at hinv2
    convert hinv2 using 2
    rw [hret]
    cases flags.unlink <;> cases flags.nodata <;> cases flags.multiple <;>
      simp [retRef_of_ne hnull]
  have hleft : cont'.buckets = bs.map (left flags (calls ++ [(cur, r)])) := by
    have hsplit : left flags (calls ++ [(cur, r)]) = fun es =>
        if flags.unlink then (left flags calls es).filter fun e => e.addr ≠ cur.addr
        else left flags calls es := funext fun es => left_of_reports hr es
    rw [← hcont', hsplit]
    cases flags.unlink with
    | false => exact hbuckets
    | true =>
      simp only [if_true, ObjContainer.buckets_unlinked]
      rw [Buckets.modify_eraseP hw.addrs hb, hbuckets, List.map_map]
      rfl
  have hsub : (bs.map (left flags (calls ++ [(cur, r)]))).flatten ⊆
      (bs.map (left flags calls)).flatten := by
    intro e he
    obtain ⟨es, hes, he⟩ := List.mem_flatten.mp he
    obtain ⟨b, hb, rfl⟩ := List.mem_map.mp hes
    rw [left_append] at he
    exact List.mem_flatten.mpr ⟨_, List.mem_map_of_mem hb, List.mem_of_mem_filter he⟩
  have hn' : cont'.nBuckets = nBuckets := by
    rw [← hcont', ← hn]
    cases flags.unlink <;> simp
  refine ⟨hkeep, hinv, ⟨cont', hcont2, hleft, hn'⟩, ?_, ?_, ?_⟩
  · exact (h.multiOk.keeps hkeep).mono (Multiset.subset_of_le (Multiset.le_add_left _ _))
  · intro e he
    rw [← hleft] at he
    obtain ⟨p, hp, hu⟩ := hcont2
    have hentry : e ∈ p.entries := by
      rw [Obj.entries, hu]
      exact he
    obtain ⟨-, q, hq⟩ := hinv2.get_pobj hp (Finset.notMem_empty c) hentry
    rw [hleft] at he
    exact (hstay1.trans hstay2).externalObj (Heap.mem_dom_of_get hq) (h.ptr e (hsub he))
  · intro mu hmu hall
    obtain ⟨hext, hne, k, hk⟩ := h.multiOk.cont mu hmu
    obtain ⟨k', e, hk', hat⟩ := hlinked mu k hmu hk (hall _ _)
    have hgathered := (h.gathered mu hmu hall).linked h.inv hk hat hk'
    obtain ⟨k₂, es, hk₂, hrest⟩ := hgathered
    rw [matched_concat, hr, if_pos rfl]
    exact ⟨k₂, es, hother2 mu k₂ hne (Multiset.mem_add.mpr (.inr hext)) hk₂, hrest⟩

theorem getElem?_left_concat (hd : ((bs.map (left flags calls)).flatten.map BucketEntry.addr).Nodup)
    (hb : (bs.map (left flags calls))[i]? = some (pre ++ cur :: rest)) :
    ∃ pre', (bs.map (left flags (calls ++ [(cur, r)])))[i]? = some (pre' ++ rest) := by
  have hmap : (bs.map (left flags (calls ++ [(cur, r)])))[i]? =
      ((bs.map (left flags calls))[i]?).map (left flags [(cur, r)]) := by
    rw [List.getElem?_map, List.getElem?_map, Option.map_map]
    congr 1
    funext es
    exact left_append es
  have hrest : left flags [(cur, r)] rest = rest := by
    refine left_eq fun e he => ?_
    have hsub := (List.sublist_flatten_of_mem (List.mem_of_getElem? hb)).map BucketEntry.addr
    have hnodup := hd.sublist hsub
    rw [List.map_append, List.map_cons, List.nodup_append] at hnodup
    have hne : cur.addr ≠ e.addr := fun heq =>
      (List.nodup_cons.mp hnodup.2.1).1 (heq ▸ List.mem_map_of_mem he)
    simp [gone, hne]
  refine ⟨left flags [(cur, r)] (pre ++ [cur]), ?_⟩
  rw [hmap, hb, Option.map_some]
  congr 1
  conv_rhs => rw [← hrest]
  rw [left, left, left, ← List.filter_append, List.append_assoc, List.singleton_append]

theorem Searching.nodup (h : Searching m rs c flags multi nBuckets bs ptr calls st) :
    ((bs.map (left flags calls)).flatten.map BucketEntry.addr).Nodup := by
  obtain ⟨cont, hcont, hbuckets, -⟩ := h.cont
  rw [← hbuckets]
  exact (Counted.contWf h.inv hcont (Finset.notMem_empty c)).addrs

variable (f : MatchFn α)

/-- The calls of a traversal are a walk along the bucket. -/
theorem traverseCalls_sat (hc : c ∈ rs) (es : List BucketEntry)
    (h : Searching m rs c flags multi nBuckets bs ptr calls st)
    (hb : (bs.map (left flags calls))[i]? = some (pre ++ es))
    (hresult : result flags calls = NULL) :
    (Open.traverseCalls (objRef m.toChecked) m.toChecked c flags f multi i es NULL calls st).Sat
      fun x => x.1 = ended flags.ends (walk (ask f ptr) flags.ends calls es) ∧
        x.2.1 = result flags x.2.2.1 ∧
        x.2.2.1 = calls ++ walk (ask f ptr) flags.ends calls es ∧ Keeps rs st x.2.2.2 ∧
        Searching m (retRef x.2.1 + rs) c flags multi nBuckets bs ptr x.2.2.1 x.2.2.2 := by
  induction es generalizing pre calls st with
  | nil =>
    refine ⟨rfl, hresult.symm, by simp [Walk.walk], .refl _ _, ?_⟩
    rw [retRef_null, zero_add]
    exact h
  | cons cur rest ih =>
    have hptr : externalObj st cur.pobj = .ok (ptr cur) :=
      h.ptr cur (Buckets.mem_flatten hb (by simp))
    have h1 := h.emit cur.addr
    have hkeep1 : Keeps rs st (st.emit (.callback cur.addr)) := .of_objs rfl
    have hask : f calls (ptr cur) = ask f ptr calls cur := rfl
    obtain ⟨pre', hb'⟩ := getElem?_left_concat (r := ask f ptr calls cur) h.nodup hb
    rw [Open.traverseCalls, Walk.walk]
    simp only [hptr, ok_bind, hask]
    cases answered (ask f ptr calls cur) with
    | passes hmtch hreports hstops =>
      have hends : flags.ends (ask f ptr calls cur) = false := by
        simp [SearchFlags.ends, hreports, hstops]
      have hnone : result flags (calls ++ [(cur, ask f ptr calls cur)]) = NULL := by
        simp [SearchFlags.returns, hreports]
      simp only [if_pos hmtch, hends, Bool.false_eq_true, if_false, ended_cons, Bool.false_or]
      refine (ih (h1.misses hreports cur) hb' hnone).mono fun x hx => ?_
      obtain ⟨hended, hret, hcalls, hkeep, hsearch⟩ := hx
      exact ⟨hended, hret, by rw [hcalls, List.append_assoc, List.singleton_append],
        hkeep1.trans hkeep, hsearch⟩
    | stops hmtch hreports hstops =>
      have hzero : (CMP_MATCH ||| CMP_STOP) &&& ask f ptr calls cur ≠ 0 := by
        rw [hmtch]
        decide
      have hends : flags.ends (ask f ptr calls cur) = true := by
        simp [SearchFlags.ends, hstops]
      simp only [if_neg hzero, if_pos hmtch, hends, if_true, ended_cons, Bool.true_or]
      refine ⟨rfl, by simp [SearchFlags.returns, hreports], rfl, hkeep1, ?_⟩
      rw [retRef_null, zero_add]
      exact h1.misses hreports cur
    | reports hzero hstop hreports hstops =>
      simp only [if_neg hzero, if_neg hstop]
      refine (h1.takes hc hb hreports).bind ?_
      rintro ⟨ret, st2⟩ ⟨hret, hkeep2, hunlink⟩
      refine hunlink.bind ?_
      rintro st3 ⟨hkeep3, h3⟩
      simp only at hret hkeep3 h3
      have hreturns : result flags (calls ++ [(cur, ask f ptr calls cur)]) = ret := by
        rw [result_concat, hret, SearchFlags.returns, hreports]
        cases flags.nodata <;> cases flags.multiple <;> rfl
      have hends : flags.ends (ask f ptr calls cur) =
          (stops (ask f ptr calls cur) || !flags.multiple) := by
        simp [SearchFlags.ends, hreports]
      simp only [hstops]
      by_cases hdone : stops (ask f ptr calls cur) = true ∨ flags.multiple = false
      · have htrue : flags.ends (ask f ptr calls cur) = true := by
          rw [hends]
          simpa using hdone
        rw [if_pos (by simpa using hdone)]
        simp only [htrue, if_true, ended_cons, Bool.true_or]
        exact ⟨rfl, hreturns.symm, rfl, hkeep1.trans hkeep3, h3⟩
      · have hfalse : flags.ends (ask f ptr calls cur) = false := by
          rw [hends]
          simpa using hdone
        have hmultiple : flags.multiple = true := by
          cases hf : flags.multiple with
          | true => rfl
          | false => exact absurd (Or.inr hf) hdone
        obtain rfl : ret = NULL := by simpa [hmultiple] using hret
        rw [retRef_null, zero_add] at h3
        rw [if_neg (by simpa using hdone)]
        simp only [hfalse, Bool.false_eq_true, if_false, ended_cons, Bool.false_or]
        refine (ih h3 hb' hreturns).mono fun x hx => ?_
        obtain ⟨hended, hret', hcalls, hkeep, hsearch⟩ := hx
        exact ⟨hended, hret', by rw [hcalls, List.append_assoc, List.singleton_append],
          (hkeep1.trans hkeep3).trans hkeep, hsearch⟩

/-- The loop over the buckets as far as the calls go: those that have been made when it ends. -/
def loopWalk (flags : SearchFlags) (g : List MatchCall → BucketEntry → Int32)
    (bs : List (List BucketEntry)) (start : Nat) :
    Nat → Nat → Nat → List MatchCall → Option (List MatchCall)
  | 0, _, _, _ => none
  | fuel + 1, i, last, calls =>
    if i < last then
      let news := walk g flags.ends calls (left flags calls (bs[i]?.getD []))
      let i := if ended flags.ends news then last else i
      if result flags (calls ++ news) ≠ NULL then some (calls ++ news)
      else if i + 1 = bs.length ∧ flags.pointer ∧ flags.continue_ then
        loopWalk flags g bs start fuel 0 start (calls ++ news)
      else loopWalk flags g bs start fuel (i + 1) last (calls ++ news)
    else some calls

/-- The loop over the buckets makes the calls of `loopWalk`. -/
theorem loopCalls_mirrors (hc : c ∈ rs) {start : Nat} (hstart : start ≤ bs.length) (fuel i : Nat)
    {last : Nat} (hlast : last ≤ bs.length)
    (h : Searching m rs c flags multi nBuckets bs ptr calls st)
    (hresult : result flags calls = NULL) :
    (Open.loopCalls (objRef m.toChecked) m.toChecked c flags f multi start fuel i last NULL calls
      st).Mirrors (loopWalk flags (ask f ptr) bs start fuel i last calls) fun x calls' =>
        x.2.1 = calls' ∧ x.1 = result flags calls' ∧ Keeps rs st x.2.2 ∧
          Searching m (retRef x.1 + rs) c flags multi nBuckets bs ptr calls' x.2.2 := by
  induction fuel generalizing i last calls st with
  | zero => exact .inl rfl
  | succ fuel ih =>
    rw [Open.loopCalls, loopWalk]
    by_cases hlt : i < last
    · have hlt' : (i : Int) < last := Int.ofNat_lt.mpr hlt
      obtain ⟨cont, ⟨p, hp, hu⟩, hbuckets, hn⟩ := h.cont
      have hw : ContWf cont := Counted.contWf h.inv ⟨p, hp, hu⟩ (Finset.notMem_empty c)
      have hlen : cont.buckets.length = bs.length := by rw [hbuckets, List.length_map]
      have hidx : i < cont.buckets.length := by omega
      have hget : bs[i]? = some bs[i] := List.getElem?_eq_getElem (by omega)
      have hb : (bs.map (left flags calls))[i]? = some ([] ++ left flags calls bs[i]) := by
        rw [List.getElem?_map, hget]
        rfl
      have hbucket : cont.buckets[i]?.getD [] = left flags calls (bs[i]?.getD []) := by
        rw [hbuckets, hb, hget]
        rfl
      rw [if_pos hlt', if_pos hlt, containerAt_of_get hp hu, ok_bind]
      simp only [bucketIndex_natCast hidx, ok_bind, hbucket, hget, Option.getD_some]
      refine (traverseCalls_sat f hc _ h hb hresult).bind_mirrors
        fun ⟨stop, ret, calls', st1⟩ hx => ?_
      obtain ⟨hstop, hret, hcalls, hkeep, h1⟩ := hx
      simp only at hstop hret hcalls hkeep h1
      subst hstop hret hcalls
      dsimp only
      by_cases hnull : result flags (calls ++ walk (ask f ptr) flags.ends calls
          (left flags calls bs[i])) = NULL
      · have hwrap : ∀ j : Nat, ((j : Int) = cont.nBuckets.toInt - 1 ∧ flags.pointer = true ∧
            flags.continue_ = true) ↔ (j + 1 = bs.length ∧ flags.pointer = true ∧
              flags.continue_ = true) := by
          intro j
          refine and_congr_left fun _ => ?_
          rw [hw.nBuckets]
          omega
        have hcast : (if ended flags.ends (walk (ask f ptr) flags.ends calls
            (left flags calls bs[i])) = true then (last : Int) else (i : Int)) =
            ((if ended flags.ends (walk (ask f ptr) flags.ends calls
              (left flags calls bs[i])) = true then last else i : Nat) : Int) := by
          split <;> rfl
        have hnot : ¬ result flags (calls ++ walk (ask f ptr) flags.ends calls
            (left flags calls bs[i])) ≠ NULL := not_not.mpr hnull
        rw [if_neg hnot, if_neg hnot, hcast, hnull]
        rw [hnull, retRef_null, zero_add] at h1
        by_cases hcond : (if ended flags.ends (walk (ask f ptr) flags.ends calls
            (left flags calls bs[i])) = true then last else i) + 1 = bs.length ∧
              flags.pointer = true ∧ flags.continue_ = true
        · rw [if_pos ((hwrap _).mpr hcond), if_pos hcond]
          refine (ih 0 hstart h1 hnull).mono fun x calls' hx => ?_
          exact ⟨hx.1, hx.2.1, hkeep.trans hx.2.2.1, hx.2.2.2⟩
        · rw [if_neg fun hpos => hcond ((hwrap _).mp hpos), if_neg hcond]
          refine (ih _ hlast h1 hnull).mono fun x calls' hx => ?_
          exact ⟨hx.1, hx.2.1, hkeep.trans hx.2.2.1, hx.2.2.2⟩
      · rw [if_pos hnull, if_pos hnull]
        exact ⟨rfl, rfl, hkeep, h1⟩
    · have hge : ¬ (i : Int) < last := fun hlt' => hlt (Int.ofNat_lt.mp hlt')
      rw [if_neg hge, if_neg hlt]
      refine ⟨rfl, hresult.symm, .refl _ _, ?_⟩
      rw [retRef_null, zero_add]
      exact h

end

end Spider.ObjModel
