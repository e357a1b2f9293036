import Spider.Lib.Ledger
import Spider.ObjModel.Container

/-!
# The reference-counting invariant

`Counted st Z R` says that the counters of the store are the numbers of
references in `R`. The objects in `Z` are being destroyed: their counter is
already zero, their destructor has been called, but they are not freed yet, and
their entries no longer count. `Inv st Z rs` takes for `R` the references `rs`
held outside the store together with those held by container entries.
-/

namespace Spider.ObjModel

open Lib

variable {α : Type}

/-- The objects the entries of `p` refer to, one for each entry. -/
def Obj.pobjs (p : Obj α) : Multiset Addr := (p.entries.map BucketEntry.pobj : List Addr)

/-- The references held by the entries of all containers outside `Z`. -/
def held (st : State α) (Z : Finset Addr) : Multiset Addr := st.objs.total Z Obj.pobjs

/-- The counters of the objects outside `Z`. -/
def counter (st : State α) (Z : Finset Addr) (a : Addr) : Option Int :=
  if a ∈ Z then none else (st.objs.get a).map (·.refCounter.toInt)

/-- The object numbers whose destructor has run, in order. -/
def destroyed (st : State α) : List Nat :=
  st.trace.filterMap fun
    | .destruct n => some n
    | _ => none

/-- A well-formed container. -/
structure ContWf (cont : ObjContainer α) : Prop where
  elements : cont.elements.toInt = cont.buckets.flatten.length
  nBuckets : cont.nBuckets.toInt = cont.buckets.length
  pos : 0 < cont.nBuckets.toInt
  version : 0 < cont.version.toInt
  hash : ∀ p f, cont.hashFn p f ≠ Int32.minValue
  addrs : (cont.buckets.flatten.map BucketEntry.addr).Nodup
  notNull : ∀ e ∈ cont.buckets.flatten, e.addr ≠ NULL

/-- A well-formed object: containers, and only they, are destroyed by
    `container_destruct`. -/
structure ObjWf (p : Obj α) : Prop where
  container : ∀ cont, p.userData = .container cont →
    ContWf cont ∧ p.destructorFn = some .containerDestruct
  data : ∀ a, p.userData = .data a → p.destructorFn ≠ some .containerDestruct

/-- A well-formed store, in which the objects of `Z` are being destroyed. -/
structure Wf (st : State α) (Z : Finset Addr) : Prop where
  null : NULL ∉ st.objs.dom
  zombies : Z ⊆ st.objs.dom
  objs : ∀ {a p}, st.objs.get a = some p → a ∉ Z → ObjWf p
  serial_lt : ∀ {a p}, st.objs.get a = some p → p.serial < st.serials
  serial_inj : ∀ {a b p q}, st.objs.get a = some p → st.objs.get b = some q →
    p.serial = q.serial → a = b
  nodup : (destroyed st).Nodup
  mem : ∀ n, n ∈ destroyed st ↔
    n < st.serials ∧ ∀ a p, st.objs.get a = some p → a ∉ Z → p.serial ≠ n

/-- The counters agree with the references `R`. -/
structure Counted (st : State α) (Z : Finset Addr) (R : Multiset Addr) : Prop where
  wf : Wf st Z
  agrees : Ledger.Agrees (counter st Z) R

/-- The counters agree with the references held outside the store and by entries. -/
def Inv (st : State α) (Z : Finset Addr) (rs : Multiset Addr) : Prop :=
  Counted st Z (rs + held st Z)

/-! ## The effect of single updates -/

@[simp] theorem destroyed_setObj (st : State α) (a : Addr) (p : Obj α) :
    destroyed (st.setObj a p) = destroyed st := rfl

@[simp] theorem destroyed_freeObj (st : State α) (a : Addr) :
    destroyed (st.freeObj a) = destroyed st := rfl

theorem destroyed_emit_destruct (st : State α) (n : Nat) :
    destroyed (st.emit (.destruct n)) = destroyed st ++ [n] := by
  simp [destroyed]

theorem destroyed_emit {st : State α} {e : Event} (he : ∀ n, e ≠ .destruct n) :
    destroyed (st.emit e) = destroyed st := by
  cases e with
  | destruct n => exact absurd rfl (he n)
  | _ => simp [destroyed]

theorem counter_of_get {st : State α} {Z : Finset Addr} {a : Addr} {p : Obj α}
    (hp : st.objs.get a = some p) (ha : a ∉ Z) : counter st Z a = some p.refCounter.toInt := by
  simp [counter, ha, hp]

theorem counter_setObj (st : State α) {Z : Finset Addr} {a : Addr} (p : Obj α) (ha : a ∉ Z) :
    counter (st.setObj a p) Z = Function.update (counter st Z) a (some p.refCounter.toInt) := by
  funext b
  by_cases hb : b = a
  · subst hb; simp [counter, ha]
  · simp [counter, Heap.get_set_of_ne _ _ hb, Function.update_of_ne hb]

theorem counter_setObj_of_eq {st : State α} {Z : Finset Addr} {a : Addr} {p p' : Obj α}
    (hp : st.objs.get a = some p) (h : p'.refCounter = p.refCounter) :
    counter (st.setObj a p') Z = counter st Z := by
  funext b
  by_cases hb : b = a
  · subst hb; simp [counter, hp, h]
  · simp [counter, Heap.get_set_of_ne _ _ hb]

theorem counter_insert (st : State α) (Z : Finset Addr) (a : Addr) :
    counter st (insert a Z) = Function.update (counter st Z) a none := by
  funext b
  by_cases hb : b = a
  · subst hb; simp [counter]
  · simp [counter, hb]

theorem counter_freeObj {st : State α} {Z : Finset Addr} {a : Addr} :
    counter (st.freeObj a) Z = counter st (insert a Z) := by
  funext b
  by_cases hb : b = a
  · subst hb; simp [counter]
  · simp [counter, hb, Heap.get_free_of_ne _ hb]

theorem held_setObj_of_eq {st : State α} {Z : Finset Addr} {a : Addr} {p p' : Obj α}
    (hp : st.objs.get a = some p) (h : p'.userData = p.userData) :
    held (st.setObj a p') Z = held st Z :=
  Heap.total_set_of_eq hp (by simp [Obj.pobjs, Obj.entries, h])

namespace Wf

variable {st : State α} {Z : Finset Addr} {a : Addr} {p p' : Obj α}

theorem ne_null (h : Wf st Z) (hp : st.objs.get a = some p) : a ≠ NULL := by
  rintro rfl
  exact h.null (Heap.mem_dom_of_get hp)

/-- Overwriting an object by one with the same number. -/
theorem setObj (h : Wf st Z) (hp : st.objs.get a = some p) (hs : p'.serial = p.serial)
    (hw : a ∉ Z → ObjWf p') : Wf (st.setObj a p') Z := by
  have hdom : (st.setObj a p').objs.dom = st.objs.dom :=
    Heap.dom_set_of_mem p' (Heap.mem_dom_of_get hp)
  have hget : ∀ {b q}, (st.setObj a p').objs.get b = some q →
      ∃ q', st.objs.get b = some q' ∧ q.serial = q'.serial := by
    intro b q hq
    by_cases hb : b = a
    · subst hb
      have : p' = q := by simpa using hq
      exact ⟨p, hp, this ▸ hs⟩
    · exact ⟨q, by simpa [Heap.get_set_of_ne _ _ hb] using hq, rfl⟩
  refine ⟨hdom ▸ h.null, hdom ▸ h.zombies, ?_, ?_, ?_, h.nodup, ?_⟩
  · intro b q hq hb
    by_cases he : b = a
    · subst he
      have : p' = q := by simpa using hq
      exact this ▸ hw hb
    · exact h.objs (by simpa [Heap.get_set_of_ne _ _ he] using hq) hb
  · intro b q hq
    obtain ⟨q', hq', hs'⟩ := hget hq
    exact hs' ▸ h.serial_lt hq'
  · intro b c q r hq hr he
    obtain ⟨q', hq', hsq⟩ := hget hq
    obtain ⟨r', hr', hsr⟩ := hget hr
    exact h.serial_inj hq' hr' (by rw [← hsq, ← hsr, he])
  · intro n
    rw [destroyed_setObj, h.mem, State.serials_setObj]
    refine and_congr_right fun _ => ⟨fun hn b q hq hb => ?_, fun hn b q hq hb => ?_⟩
    · obtain ⟨q', hq', hsq⟩ := hget hq
      exact hsq ▸ hn b q' hq' hb
    · by_cases he : b = a
      · subst he
        have hqp : q = p := Option.some.inj (hq.symm.trans hp)
        have := hn b p' (by simp) hb
        rwa [hs, ← hqp] at this
      · exact hn b q (by simpa [Heap.get_set_of_ne _ _ he] using hq) hb

theorem emit (h : Wf st Z) {e : Event} (he : ∀ n, e ≠ .destruct n) : Wf (st.emit e) Z :=
  ⟨h.null, h.zombies, h.objs, h.serial_lt, h.serial_inj, by rw [destroyed_emit he]; exact h.nodup,
    by rw [destroyed_emit he]; exact h.mem⟩

/-- A request to the allocator leaves the store as it is. -/
theorem callocs (h : Wf st Z) (n : Nat) : Wf { st with callocs := n } Z :=
  ⟨h.null, h.zombies, h.objs, h.serial_lt, h.serial_inj, h.nodup, h.mem⟩

/-- The destructor of an object is called: it joins the objects being destroyed. -/
theorem kill (h : Wf st Z) (hp : st.objs.get a = some p) (ha : a ∉ Z) :
    Wf (st.emit (.destruct p.serial)) (insert a Z) := by
  refine ⟨h.null, ?_, ?_, h.serial_lt, h.serial_inj, ?_, ?_⟩
  · exact Finset.insert_subset (Heap.mem_dom_of_get hp) h.zombies
  · intro b q hq hb
    exact h.objs hq fun hb' => hb (Finset.mem_insert_of_mem hb')
  · rw [destroyed_emit_destruct]
    have hnot : p.serial ∉ destroyed st := fun hmem => ((h.mem _).mp hmem).2 a p hp ha rfl
    simpa [List.nodup_append] using ⟨h.nodup, fun b hb he => hnot (he ▸ hb)⟩
  · intro n
    rw [destroyed_emit_destruct, List.mem_append, List.mem_singleton, h.mem, State.serials_emit,
      State.objs_emit]
    constructor
    · rintro (⟨hn, hall⟩ | rfl)
      · exact ⟨hn, fun b q hq hb => hall b q hq fun hb' => hb (Finset.mem_insert_of_mem hb')⟩
      · refine ⟨h.serial_lt hp, fun b q hq hb he => hb ?_⟩
        rw [h.serial_inj hq hp he]
        exact Finset.mem_insert_self a Z
    · rintro ⟨hn, hall⟩
      by_cases he : n = p.serial
      · exact Or.inr he
      · refine Or.inl ⟨hn, fun b q hq hb hqn => ?_⟩
        by_cases hba : b = a
        · subst hba
          have hqp : q = p := Option.some.inj (hq.symm.trans hp)
          exact he (by rw [← hqn, hqp])
        · exact hall b q hq (by simp [hba, hb]) hqn

/-- A destroyed object is freed. -/
theorem free (h : Wf st (insert a Z)) (ha : a ∉ Z) : Wf (st.freeObj a) Z := by
  have hget : ∀ {b q}, (st.freeObj a).objs.get b = some q → b ≠ a ∧ st.objs.get b = some q := by
    intro b q hq
    by_cases hb : b = a
    · subst hb; simp at hq
    · exact ⟨hb, by simpa [Heap.get_free_of_ne _ hb] using hq⟩
  refine ⟨?_, ?_, ?_, ?_, ?_, h.nodup, ?_⟩
  · simp [h.null]
  · intro z hz
    have hne : z ≠ a := by
      rintro rfl
      exact ha hz
    simpa [hne] using h.zombies (Finset.mem_insert_of_mem hz)
  · intro b q hq hb
    obtain ⟨hne, hq⟩ := hget hq
    exact h.objs hq (by simp [hne, hb])
  · intro b q hq
    exact h.serial_lt (hget hq).2
  · intro b c q r hq hr he
    exact h.serial_inj (hget hq).2 (hget hr).2 he
  · intro n
    rw [destroyed_freeObj, h.mem]
    refine and_congr_right fun _ => ⟨fun hn b q hq hb => ?_, fun hn b q hq hb => ?_⟩
    · obtain ⟨hne, hq⟩ := hget hq
      exact hn b q hq (by simp [hne, hb])
    · have hne : b ≠ a := by
        rintro rfl
        exact hb (Finset.mem_insert_self _ _)
      exact hn b q (by simpa [Heap.get_free_of_ne _ hne] using hq)
        fun hb' => hb (Finset.mem_insert_of_mem hb')

/-- A new object at a fresh address. -/
theorem alloc (h : Wf st Z) (ha : a ∉ st.objs.dom) (hnull : a ≠ NULL)
    (hs : p.serial = st.serials) (hw : ObjWf p) :
    Wf { st.setObj a p with serials := st.serials + 1 } Z := by
  have hget : ∀ {b q}, (st.objs.set a p).get b = some q →
      b = a ∧ q = p ∨ b ≠ a ∧ st.objs.get b = some q := by
    intro b q hq
    by_cases hb : b = a
    · subst hb; exact Or.inl ⟨rfl, by simpa using hq.symm⟩
    · exact Or.inr ⟨hb, by simpa [Heap.get_set_of_ne _ _ hb] using hq⟩
  refine ⟨?_, ?_, ?_, ?_, ?_, h.nodup, ?_⟩
  · simp [h.null, hnull.symm]
  · intro z hz
    simp [h.zombies hz]
  · intro b q hq hb
    rcases hget hq with ⟨rfl, rfl⟩ | ⟨-, hq⟩
    · exact hw
    · exact h.objs hq hb
  · intro b q hq
    rcases hget hq with ⟨rfl, rfl⟩ | ⟨-, hq⟩
    · simp [hs]
    · exact Nat.lt_succ_of_lt (h.serial_lt hq)
  · intro b c q r hq hr he
    rcases hget hq with ⟨rfl, rfl⟩ | ⟨-, hq'⟩ <;> rcases hget hr with ⟨rfl, rfl⟩ | ⟨-, hr'⟩
    · rfl
    · have := h.serial_lt hr'
      omega
    · have := h.serial_lt hq'
      omega
    · exact h.serial_inj hq' hr' he
  · intro n
    change n ∈ destroyed st ↔ _
    rw [h.mem]
    constructor
    · rintro ⟨hn, hall⟩
      refine ⟨Nat.lt_succ_of_lt hn, fun b q hq hb => ?_⟩
      rcases hget hq with ⟨rfl, rfl⟩ | ⟨-, hq⟩
      · omega
      · exact hall b q hq hb
    · rintro ⟨hn, hall⟩
      have hne : n ≠ st.serials := by
        rintro rfl
        exact hall a p (by simp) (fun hz => ha (h.zombies hz)) hs
      refine ⟨by simp at hn; omega, fun b q hq hb => ?_⟩
      have hba : b ≠ a := by
        rintro rfl
        exact ha (Heap.mem_dom_of_get hq)
      exact hall b q (by simpa [Heap.get_set_of_ne _ _ hba] using hq) hb

end Wf

namespace Counted

variable {st : State α} {Z : Finset Addr} {R : Multiset Addr} {a : Addr} {p p' : Obj α}

theorem get_of_mem (h : Counted st Z R) (ha : a ∈ R) :
    a ∉ Z ∧ ∃ p, st.objs.get a = some p := by
  obtain ⟨n, hn⟩ := Option.isSome_iff_exists.mp (h.agrees.live ha)
  by_cases hz : a ∈ Z
  · simp [counter, hz] at hn
  · simp only [counter, if_neg hz, Option.map_eq_some_iff] at hn
    obtain ⟨p, hp, -⟩ := hn
    exact ⟨hz, p, hp⟩

theorem emit (h : Counted st Z R) {e : Event} (he : ∀ n, e ≠ .destruct n) :
    Counted (st.emit e) Z R := ⟨h.wf.emit he, h.agrees⟩

theorem callocs (h : Counted st Z R) (n : Nat) : Counted { st with callocs := n } Z R :=
  ⟨h.wf.callocs n, h.agrees⟩

/-- Rewriting the user data of an object. -/
theorem setObj (h : Counted st Z R) (hp : st.objs.get a = some p)
    (hc : p'.refCounter = p.refCounter) (hs : p'.serial = p.serial) (hw : a ∉ Z → ObjWf p') :
    Counted (st.setObj a p') Z R :=
  ⟨h.wf.setObj hp hs hw, by rw [counter_setObj_of_eq hp hc]; exact h.agrees⟩

end Counted

theorem Inv.emit {st : State α} {Z : Finset Addr} {rs : Multiset Addr} (h : Inv st Z rs)
    {e : Event} (he : ∀ n, e ≠ .destruct n) : Inv (st.emit e) Z rs := Counted.emit h he

theorem Inv.callocs {st : State α} {Z : Finset Addr} {rs : Multiset Addr} (h : Inv st Z rs)
    (n : Nat) : Inv { st with callocs := n } Z rs := Counted.callocs h n

theorem Inv.get_of_mem {st : State α} {Z : Finset Addr} {rs : Multiset Addr} {a : Addr}
    (h : Inv st Z rs) (ha : a ∈ rs) : a ∉ Z ∧ ∃ p, st.objs.get a = some p :=
  Counted.get_of_mem h (Multiset.mem_add.mpr (Or.inl ha))

/-- The objects in the buckets of a container are live. -/
theorem Inv.get_pobj {st : State α} {Z : Finset Addr} {rs : Multiset Addr} {c : Addr}
    {p : Obj α} {e : BucketEntry} (h : Inv st Z rs) (hp : st.objs.get c = some p) (hc : c ∉ Z)
    (he : e ∈ p.entries) : e.pobj ∉ Z ∧ ∃ q, st.objs.get e.pobj = some q := by
  apply Counted.get_of_mem h
  rw [held, Heap.total_insert hp hc]
  have hmem : e.pobj ∈ p.pobjs := Multiset.mem_coe.mpr (List.mem_map_of_mem he)
  simp [hmem]

theorem inv_init : Inv ({} : State α) ∅ 0 := by
  have hheld : held ({} : State α) ∅ = 0 := by simp [held, Heap.total]
  have hcounter : counter ({} : State α) ∅ = fun _ => none := by
    funext a
    simp [counter]
  refine ⟨⟨by simp, by simp, ?_, ?_, ?_, by simp [destroyed], by simp [destroyed]⟩, ?_⟩
  · intro a p hp; simp at hp
  · intro a p hp; simp at hp
  · intro a b p q hp; simp at hp
  · rw [hheld, hcounter]
    exact Ledger.agrees_empty

end Spider.ObjModel
