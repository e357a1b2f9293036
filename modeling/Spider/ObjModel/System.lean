import Mathlib.Data.UInt
import Mathlib.Order.Lattice.Nat
import Spider.Lib.Run
import Spider.ObjModel.Exact
import Spider.ObjModel.Iterate
import Spider.ObjModel.Refine

/-!
# Clients of the object store

The store together with the references its clients own and the iterators they
hold. An operation is one call of the interface by some client; a run is any
sequence of them.
-/

namespace Spider.ObjModel

open Lib Outcome

variable {α : Type}

/-- The store and what its clients hold. -/
structure Sys (α : Type) where
  st : State α := {}
  /-- The references owned by clients, one occurrence each. -/
  owned : Multiset Addr := 0
  iters : List ObjIterator := []

/-- The references held outside the store: owned ones and those of iterators. -/
def Sys.clientRefs (s : Sys α) : Multiset Addr :=
  s.owned + (s.iters.map ObjIterator.c : List Addr)

/-- The references to the object at `a`: of clients, and one for each entry that
    holds it. -/
def Sys.refs (s : Sys α) (a : Addr) : Nat := s.clientRefs.count a + (held s.st ∅).count a

/-- One call by a client. -/
inductive Op (α : Type) where
  | objAlloc (a : α) (destructorFn : Option DestructorFn)
  | objContainerAlloc (nBuckets : UInt32) (hashFn : Option (Ptr α → SearchFlags → Int32))
      (cmpFn : Option (Ptr α → Ptr α → SearchFlags → Int32))
  | objRef (a : Addr)
  | objUnref (a : Addr)
  | objLink (c o : Addr) (flags : SearchFlags)
  | objUnlink (c o : Addr) (flags : SearchFlags)
  | objFind (c : Addr) (arg : Ptr α) (flags : SearchFlags)
  | objCallback (c : Addr) (flags : SearchFlags)
      (cbFn : Option (Ptr α → Ptr α → SearchFlags → Int32)) (arg : Ptr α)
  | objCallbackData (c : Addr) (flags : SearchFlags)
      (cbFn : Option (Ptr α → Ptr α → Ptr α → SearchFlags → Int32)) (arg data : Ptr α)
  | objIteratorInit (c : Addr) (flags : IteratorFlags)
  | objIteratorNext (k : Nat)

/-- The client now holds what a search returned. -/
def Sys.receive (s : Sys α) (st : State α) : CallbackRet → Sys α
  | .obj a => { s with st := st, owned := retRef a + s.owned }
  | .iter it => { s with st := st, iters := it :: s.iters }

/-- One operation. -/
def exec (m : Machine) (s : Sys α) : Op α → Outcome (Sys α)
  | .objAlloc a destructorFn =>
    let (p, st) := objAlloc m s.st a destructorFn
    .ok { s with st := st, owned := retRef p + s.owned }
  | .objContainerAlloc nBuckets hashFn cmpFn =>
    let (p, st) := objContainerAlloc m s.st nBuckets hashFn cmpFn
    .ok { s with st := st, owned := retRef p + s.owned }
  | .objRef a => do
    let (_, st) ← objRef m s.st a 1
    .ok { s with st := st, owned := a ::ₘ s.owned }
  | .objUnref a => do
    let (_, st) ← objRef m s.st a (-1)
    .ok { s with st := st, owned := s.owned.erase a }
  | .objLink c o flags => do
    let (_, st) ← objLink m s.st c o flags
    .ok { s with st := st }
  | .objUnlink c o flags => do
    let st ← objUnlink m s.st c o flags
    .ok { s with st := st }
  | .objFind c arg flags => do
    let (r, st) ← objFind m s.st c arg flags
    .ok (s.receive st r)
  | .objCallback c flags cbFn arg => do
    let (r, st) ← objCallback m s.st c flags cbFn arg
    .ok (s.receive st r)
  | .objCallbackData c flags cbFn arg data => do
    let (r, st) ← objCallbackData m s.st c flags cbFn arg data
    .ok (s.receive st r)
  | .objIteratorInit c flags => do
    let (it, st) ← objIteratorInit m s.st c flags
    .ok { s with st := st, iters := it :: s.iters }
  | .objIteratorNext k =>
    match s.iters[k]? with
    | none => .ok s
    | some it => do
      let (p, it, st) ← objIteratorNext m s.st it
      .ok { s with st := st, owned := retRef p + s.owned, iters := s.iters.set k it }

/-- There is a container at `c`. -/
def IsCont (st : State α) (c : Addr) : Prop := ∃ cont, HasCont st c cont

/-- What a client must observe. Only the owner of a reference gives it back; a
    search may drop references, so its container is one the client refers to. A
    container has at least one and less than 2^31 buckets. -/
def Enabled (s : Sys α) : Op α → Prop
  | .objAlloc _ destructorFn => destructorFn ≠ some .containerDestruct
  | .objContainerAlloc nBuckets hashFn _ =>
    (hashFn.isSome → 0 < nBuckets.toInt32.toInt) ∧
      ∀ f, hashFn = some f → ∀ p fl, f p fl ≠ Int32.minValue
  | .objRef a => a ∈ s.st.objs.dom
  | .objUnref a => a ∈ s.owned
  | .objLink c o _ => IsCont s.st c ∧ o ∈ s.st.objs.dom
  | .objUnlink c o flags =>
    c ∈ s.clientRefs ∧ IsCont s.st c ∧ o ∈ s.st.objs.dom ∧ flags.continue_ = false
  | .objFind c _ flags => c ∈ s.clientRefs ∧ IsCont s.st c ∧ flags.continue_ = false
  | .objCallback c flags _ _ => c ∈ s.clientRefs ∧ IsCont s.st c ∧ flags.continue_ = false
  | .objCallbackData c flags _ _ _ => c ∈ s.clientRefs ∧ IsCont s.st c ∧ flags.continue_ = false
  | .objIteratorInit c _ => IsCont s.st c
  | .objIteratorNext k => k < s.iters.length

/-- Reference counting is conserved. -/
structure Conserved (s : Sys α) : Prop where
  /-- A live object counts its references, has one, and was not destroyed. -/
  counter : ∀ {a p}, s.st.objs.get a = some p →
    p.refCounter.toInt = s.refs a ∧ 0 < s.refs a ∧ p.serial ∉ destroyed s.st
  /-- Nothing refers to an address that is not allocated. -/
  dangling : ∀ {a}, a ∉ s.st.objs.dom → s.refs a = 0
  /-- The destructor of an object that is gone has run exactly once. -/
  once : ∀ {n}, n < s.st.serials → (∀ a p, s.st.objs.get a = some p → p.serial ≠ n) →
    (destroyed s.st).count n = 1
  /-- A container counts its entries. -/
  elements : ∀ {c cont}, HasCont s.st c cont →
    cont.elements.toInt = cont.buckets.flatten.length

/-- The invariant of all runs. -/
structure Sys.Inv (s : Sys α) : Prop where
  inv : ObjModel.Inv s.st ∅ s.clientRefs
  iters : ∀ it ∈ s.iters, IterWf s.st it

theorem Sys.inv_init : ({} : Sys α).Inv := ⟨ObjModel.inv_init, fun _ h => by cases h⟩

theorem Sys.Inv.conserved {s : Sys α} (h : s.Inv) : Conserved s := by
  have hcount : ∀ a, (s.clientRefs + held s.st ∅).count a = s.refs a := fun a =>
    Multiset.count_add a _ _
  refine ⟨fun {a p} hp => ?_, fun {a} ha => ?_, fun {n} hn hall => ?_, fun {c cont} hc => ?_⟩
  · obtain ⟨heq, hpos⟩ := Counted.refCounter h.inv hp (Finset.notMem_empty a)
    rw [hcount] at heq
    refine ⟨heq, by omega, fun hmem => ?_⟩
    exact ((h.inv.wf.mem _).mp hmem).2 a p hp (Finset.notMem_empty a) rfl
  · have hnone : counter s.st ∅ a = none := by
      simp [ObjModel.counter, Heap.get_eq_none.mpr ha]
    rw [← hcount]
    exact Multiset.count_eq_zero_of_notMem (h.inv.agrees.notMem_of_none hnone)
  · have hmem : n ∈ destroyed s.st := (h.inv.wf.mem n).mpr ⟨hn, fun a p hp _ => hall a p hp⟩
    exact List.count_eq_one_of_mem h.inv.wf.nodup hmem
  · exact (Counted.contWf h.inv hc (Finset.notMem_empty c)).elements

theorem exec_refines (m : Machine) (s : Sys α) (op : Op α) :
    (exec m.toChecked s op).Refines (exec m.toWrap s op) := by
  cases op with
  | objAlloc a d => exact .refl _
  | objContainerAlloc n h c => exact .refl _
  | objRef a => exact .bind (objRef_refines m _ _ _) fun _ => .refl _
  | objUnref a => exact .bind (objRef_refines m _ _ _) fun _ => .refl _
  | objLink c o flags => exact .bind (objLink_refines m _ _ _ _) fun _ => .refl _
  | objUnlink c o flags => exact .bind (objUnlink_refines m _ _ _ _) fun _ => .refl _
  | objFind c arg flags => exact .bind (objFind_refines m _ _ _ _) fun _ => .refl _
  | objCallback c flags f arg => exact .bind (objCallback_refines m _ _ _ _ _) fun _ => .refl _
  | objCallbackData c flags f arg data =>
    exact .bind (objCallbackData_refines m _ _ _ _ _ _) fun _ => .refl _
  | objIteratorInit c flags => exact .bind (objIteratorInit_refines m _ _ _) fun _ => .refl _
  | objIteratorNext k =>
    simp only [exec]
    cases s.iters[k]? with
    | none => exact .refl _
    | some it => exact .bind (objIteratorNext_refines m _ _) fun _ => .refl _

theorem Sys.mem_clientRefs {s : Sys α} {it : ObjIterator} (h : it ∈ s.iters) :
    it.c ∈ s.clientRefs :=
  Multiset.mem_add.mpr (Or.inr (Multiset.mem_coe.mpr (List.mem_map_of_mem h)))

namespace Sys.Inv

variable {m : Machine} {s : Sys α} {st : State α}

/-- Iterators survive what keeps the references of clients. -/
theorem iters_keeps (h : s.Inv) (hk : Keeps s.clientRefs s.st st) :
    ∀ it ∈ s.iters, IterWf st it :=
  fun it hit => (h.iters it hit).keeps hk (Sys.mem_clientRefs hit)

/-- The new references of an operation go to a client. -/
theorem own (h : s.Inv) {new : Multiset Addr} (hinv : ObjModel.Inv st ∅ (new + s.clientRefs))
    (hk : Keeps s.clientRefs s.st st) : Sys.Inv { s with st := st, owned := new + s.owned } := by
  refine ⟨?_, h.iters_keeps hk⟩
  rw [Sys.clientRefs, ← add_assoc] at hinv
  exact hinv

/-- A new iterator, with its reference. -/
theorem addIter (h : s.Inv) {it : ObjIterator} (hinv : ObjModel.Inv st ∅ (it.c ::ₘ s.clientRefs))
    (hk : Keeps s.clientRefs s.st st) (hit : IterWf st it) :
    Sys.Inv { s with st := st, iters := it :: s.iters } := by
  refine ⟨?_, ?_⟩
  · rw [Sys.clientRefs, ← Multiset.add_cons, Multiset.cons_coe] at hinv
    exact hinv
  · intro it' hit'
    rcases List.mem_cons.mp hit' with rfl | hmem
    · exact hit
    · exact h.iters_keeps hk it' hmem

theorem receive (h : s.Inv) {r : CallbackRet} (hinv : ObjModel.Inv st ∅ (r.refs + s.clientRefs))
    (hk : Keeps s.clientRefs s.st st) (hit : ∀ it, r = .iter it → IterWf st it) :
    (s.receive st r).Inv := by
  cases r with
  | obj a => exact h.own hinv hk
  | iter it => exact h.addIter hinv hk (hit it rfl)

/-- The `k`-th iterator moves on. -/
theorem setIter (h : s.Inv) {k : Nat} {it it' : ObjIterator} {p : Addr}
    (hk : s.iters[k]? = some it) (hs : Stepped s.clientRefs s.st it p it' st) :
    Sys.Inv { s with st := st, owned := retRef p + s.owned, iters := s.iters.set k it' } := by
  obtain ⟨hlt, hget⟩ := List.getElem?_eq_some_iff.mp hk
  have hmap : (s.iters.set k it').map ObjIterator.c = s.iters.map ObjIterator.c := by
    rw [List.map_set, hs.c, ← List.map_set, ← hget, List.set_getElem_self]
  refine ⟨?_, fun it1 hit1 => ?_⟩
  · have hinv := hs.inv
    rw [Sys.clientRefs, ← add_assoc] at hinv
    rw [Sys.clientRefs, hmap]
    exact hinv
  · rcases List.mem_or_eq_of_mem_set hit1 with hmem | rfl
    · exact h.iters_keeps hs.keeps it1 hmem
    · exact hs.iter

end Sys.Inv

/-- One operation keeps the invariant. -/
theorem exec_sat (m : Machine) (s : Sys α) (op : Op α) (h : s.Inv) (he : Enabled s op) :
    (exec m.toChecked s op).Sat Sys.Inv := by
  cases op with
  | objAlloc a d =>
    obtain ⟨p, st, heq, hinv, hk⟩ := objAlloc_inv (m := m.toChecked) h.inv a he
    simp only [exec, heq, sat_ok]
    exact h.own hinv hk
  | objContainerAlloc n hashFn cmpFn =>
    obtain ⟨p, st, heq, hinv, hk, -⟩ :=
      objContainerAlloc_inv (m := m.toChecked) h.inv n hashFn cmpFn he.1 he.2
    simp only [exec, heq, sat_ok]
    exact h.own hinv hk
  | objRef a =>
    refine (objRef_inc_ext h.inv he).bind fun x hx => ?_
    obtain ⟨_, st⟩ := x
    obtain ⟨hinv, hframe⟩ := hx
    have hk := (hframe.keeps hinv).mono (Multiset.subset_cons s.clientRefs a)
    rw [← Multiset.singleton_add] at hinv
    have hown := h.own hinv hk
    rw [Multiset.singleton_add] at hown
    exact hown
  | objUnref a =>
    have howned : a ::ₘ s.owned.erase a = s.owned := Multiset.cons_erase he
    have hsplit : s.clientRefs
        = a ::ₘ ({ s with owned := s.owned.erase a } : Sys α).clientRefs := by
      rw [Sys.clientRefs, Sys.clientRefs, ← Multiset.cons_add, howned]
    have hinv := h.inv
    rw [hsplit] at hinv
    refine (objRef_dec hinv).bind fun x hx => ?_
    obtain ⟨_, st⟩ := x
    obtain ⟨hinv, hframe⟩ := hx
    exact ⟨hinv, fun it hit => (h.iters it hit).keeps (hframe.keeps hinv)
      (Sys.mem_clientRefs (s := { s with owned := s.owned.erase a }) hit)⟩
  | objLink c o flags =>
    obtain ⟨⟨cont, hcont⟩, ho⟩ := he
    refine (objLink_sat h.inv hcont ho flags).bind fun x hx => ?_
    obtain ⟨_, st⟩ := x
    obtain ⟨hinv, hk, -⟩ := hx
    exact ⟨hinv, h.iters_keeps hk⟩
  | objUnlink c o flags =>
    obtain ⟨hc, ⟨cont, hcont⟩, ho, hf⟩ := he
    refine (objUnlink_sat hf hc h.inv hcont ho).bind fun st hx => ?_
    obtain ⟨hinv, hk⟩ := hx
    exact ⟨hinv, h.iters_keeps hk⟩
  | objFind c arg flags =>
    obtain ⟨hc, ⟨cont, hcont⟩, hf⟩ := he
    refine (objFind_sat hf hc h.inv hcont arg).bind fun x hx => ?_
    obtain ⟨r, st⟩ := x
    obtain ⟨hinv, hk, hit, -⟩ := hx
    exact h.receive hinv hk hit
  | objCallback c flags f arg =>
    obtain ⟨hc, ⟨cont, hcont⟩, hf⟩ := he
    refine (objCallback_sat hf hc h.inv hcont f arg).bind fun x hx => ?_
    obtain ⟨r, st⟩ := x
    obtain ⟨hinv, hk, hit, -⟩ := hx
    exact h.receive hinv hk hit
  | objCallbackData c flags f arg data =>
    obtain ⟨hc, ⟨cont, hcont⟩, hf⟩ := he
    refine (objCallbackData_sat hf hc h.inv hcont f arg data).bind fun x hx => ?_
    obtain ⟨r, st⟩ := x
    obtain ⟨hinv, hk, hit, -⟩ := hx
    exact h.receive hinv hk hit
  | objIteratorInit c flags =>
    obtain ⟨cont, hcont⟩ := he
    refine (objIteratorInit_sat h.inv hcont flags).bind fun x hx => ?_
    obtain ⟨it, st⟩ := x
    obtain ⟨hinv, hk, hit⟩ := hx
    exact h.addIter hinv hk hit
  | objIteratorNext k =>
    have hk : s.iters[k]? = some s.iters[k] := List.getElem?_eq_getElem he
    have hmem : s.iters[k] ∈ s.iters := List.getElem_mem he
    simp only [exec, hk]
    refine (objIteratorNext_sat h.inv (Sys.mem_clientRefs hmem) (h.iters _ hmem)).bind fun x hs => ?_
    obtain ⟨p, it, st⟩ := x
    exact h.setIter hk hs

/-! ## Conservation over all runs -/

/-- Reference counting is conserved: in every run of the real machine in which no
    counter passes its largest value, every operation returns, and the state it
    leaves counts its references. -/
theorem refCounts_conserved (m : Machine) (ops : List (Op α))
    (hl : Run.Legal (exec m.toWrap) Enabled {} ops)
    (hno : Run.run (exec m.toChecked) {} ops ≠ .overflow) :
    ∃ s, Run.run (exec m.toWrap) {} ops = .ok s ∧ Conserved s := by
  obtain ⟨s, hrun, hinv⟩ := Run.refined (exec_refines m) (exec_sat m) ops Sys.inv_init hl hno
  exact ⟨s, hrun, hinv.conserved⟩

/-! ## The limits of conservation -/

/-- A machine whose allocator gives the address after the largest one in use. -/
def bumpMachine : Machine where
  calloc _ live := some (live.sup id + 1)
  calloc_fresh {_ live _} h := by
    obtain rfl := Option.some.inj h
    have hnot : live.sup id + 1 ∉ live := fun hmem =>
      Nat.not_succ_le_self _ (Finset.le_sup (f := id) hmem)
    exact ⟨hnot, Nat.succ_ne_zero _⟩
  counters := .wrap

/-- An object is linked into a container, and the container given up. -/
def exampleOps : List (Op Nat) :=
  [.objAlloc 7 none, .objContainerAlloc 1 none none, .objLink 2 1 {}, .objUnref 2]

theorem refCounts_conserved_exampleOps :
    ∃ s, Run.run (exec bumpMachine.toWrap) {} exampleOps = .ok s ∧ Conserved s := by
  refine refCounts_conserved bumpMachine exampleOps ?_ ?_
  · have h1 : Enabled {} (.objAlloc 7 none) := show none ≠ some _ by decide
    unfold exampleOps
    refine Run.legal_cons_of_ok (by rfl) h1 ?_
    refine Run.legal_cons_of_ok (by rfl) ⟨by simp, by simp⟩ ?_
    refine Run.legal_cons_of_ok (by with_unfolding_all rfl)
      ⟨⟨_, _, rfl, rfl⟩, by decide +kernel⟩ ?_
    refine Run.legal_cons_of_ok (by with_unfolding_all rfl) ?_ trivial
    show 2 ∈ Sys.owned _
    decide +kernel
  · intro h
    have hok : ∃ s, Run.run (exec bumpMachine.toChecked) {} exampleOps = .ok s :=
      ⟨_, by with_unfolding_all rfl⟩
    obtain ⟨s, hs⟩ := hok
    rw [h] at hs
    cases hs

section Limits

variable {m : Machine} {s : Sys α} {st : State α} {a c : Addr} {p : Obj α}
  {cont : ObjContainer α}

/-- `obj_ref(a, 1)` on the real machine, for an object that is no container. -/
theorem exec_objRef_data (ha : a ≠ NULL) (hp : s.st.objs.get a = some p)
    (hd : p.destructorFn = none) :
    exec m.toWrap s (.objRef a) = .ok ⟨if p.refCounter + 1 ≤ 0
      then ((s.st.setObj a { p with refCounter := p.refCounter + 1 }).emit
        (.destruct p.serial)).freeObj a
      else s.st.setObj a { p with refCounter := p.refCounter + 1 }, a ::ₘ s.owned, s.iters⟩ := by
  have h1 : ¬ (1 : Int32) = 0 := by decide
  simp only [exec, objRef, internalObjRef, internalObj, if_neg ha, hp, ok_bind, if_neg h1,
    spdAtomicFetchaddInt, Machine.toWrap, hd]
  split
  · rfl
  · rfl

/-- One client owns all `n` references to the object at 1, and the counter says so. -/
structure OwnsAll (n : Nat) (s : Sys Unit) : Prop where
  count : s.owned.count 1 = n
  counter : ∃ v, s.st.objs.get 1 = some ⟨v, none, .data (), 0⟩ ∧ v.toInt = n

/-- References are taken until the counter wraps around: the object is destroyed
    although every one of them is still owned. -/
theorem OwnsAll.wraps {k n : Nat} (hk : n + k = 2 ^ 31 - 1) {s : Sys Unit} (h : OwnsAll n s) :
    Run.Legal (exec bumpMachine.toWrap) Enabled s (List.replicate (k + 1) (.objRef 1)) ∧
      ∃ s', Run.run (exec bumpMachine.toWrap) s (List.replicate (k + 1) (.objRef 1)) = .ok s' ∧
        1 ∉ s'.st.objs.dom ∧ 1 ∈ s'.owned := by
  induction k generalizing n s with
  | zero =>
    obtain ⟨v, hv, hvn⟩ := h.counter
    have hexec := exec_objRef_data (m := bumpMachine) (by decide) hv rfl
    have hmem : Enabled s (.objRef 1) := Heap.mem_dom_of_get hv
    have hmax : v = Int32.maxValue := Int32.toInt_inj.mp (by rw [hvn, Int32.toInt_maxValue]; omega)
    have hle : v + 1 ≤ 0 := by
      rw [hmax]
      decide
    simp only [hle, if_true] at hexec
    rw [List.replicate_succ, Run.run_cons_of_ok hexec]
    exact ⟨Run.legal_cons_of_ok hexec hmem trivial, _, rfl, by simp, by simp⟩
  | succ k ih =>
    obtain ⟨v, hv, hvn⟩ := h.counter
    have hexec := exec_objRef_data (m := bumpMachine) (by decide) hv rfl
    have hmem : Enabled s (.objRef 1) := Heap.mem_dom_of_get hv
    have hmax : v ≠ Int32.maxValue := by
      rintro rfl
      rw [Int32.toInt_maxValue] at hvn
      omega
    have hv1 := CInt.toInt_add_one hmax
    have hnot : ¬ v + 1 ≤ 0 := by
      rw [Int32.le_iff_toInt_le, hv1, Int32.toInt_zero]
      omega
    simp only [hnot, if_false] at hexec
    have hnext : OwnsAll (n + 1) (⟨s.st.setObj 1 ⟨v + 1, none, .data (), 0⟩, 1 ::ₘ s.owned,
        s.iters⟩ : Sys Unit) :=
      ⟨by simp [h.count], v + 1, by simp, by rw [hv1, hvn]; norm_cast⟩
    obtain ⟨hlegal, s', hrun, hs'⟩ := ih (by omega) hnext
    rw [List.replicate_succ, Run.run_cons_of_ok hexec]
    exact ⟨Run.legal_cons_of_ok hexec hmem hlegal, s', hrun, hs'⟩

/-- The counter wraps around at 2^31 references. -/
theorem refCounts_overflow :
    Run.Legal (exec bumpMachine.toWrap) Enabled ({} : Sys Unit)
        (.objAlloc () none :: List.replicate (2 ^ 31 - 1) (.objRef 1)) ∧
      ∃ s', Run.run (exec bumpMachine.toWrap) ({} : Sys Unit)
        (.objAlloc () none :: List.replicate (2 ^ 31 - 1) (.objRef 1)) = .ok s' ∧ ¬ Conserved s' := by
  have hone : OwnsAll 1 (⟨(objAlloc bumpMachine.toWrap {} () none).2, {1}, []⟩ : Sys Unit) :=
    ⟨by simp, 1, rfl, rfl⟩
  obtain ⟨hlegal, s', hrun, hdom, howned⟩ := hone.wraps (k := 2 ^ 31 - 2) (by omega)
  have hlen : 2 ^ 31 - 2 + 1 = 2 ^ 31 - 1 := by omega
  rw [hlen] at hlegal hrun
  have halloc : exec bumpMachine.toWrap ({} : Sys Unit) (.objAlloc () none)
      = .ok ⟨(objAlloc bumpMachine.toWrap {} () none).2, {1}, []⟩ := rfl
  have henabled : Enabled ({} : Sys Unit) (.objAlloc () none) := by
    change (none : Option DestructorFn) ≠ _
    simp
  refine ⟨Run.legal_cons_of_ok halloc henabled hlegal, s',
    (Run.run_cons_of_ok halloc _).trans hrun, fun hcons => ?_⟩
  have hzero := hcons.dangling hdom
  have hpos : 0 < s'.owned.count 1 := Multiset.count_pos.mpr howned
  rw [Sys.refs, Sys.clientRefs, Multiset.count_add] at hzero
  omega

/-- The object at 1 and an empty container at 2 whose bucket count is negative as an `int`. -/
def bigState (bs : List (List BucketEntry)) : State Unit where
  objs := (Heap.set ∅ 1 ⟨1, none, .data (), 0⟩).set 2 ⟨1, some .containerDestruct,
    .container ⟨fun _ _ => 0, none, Int32.minValue, 0, 1, bs⟩, 1⟩
  callocs := 2
  serials := 2


/-- A container whose bucket count is negative as an `int` is destroyed without dropping
    a reference. -/
theorem containerDestruct_neg (ref : State α → Addr → Int32 → Outcome (Int32 × State α))
    (m : Machine) (hc : c ≠ NULL) (hp : st.objs.get c = some p)
    (hu : p.userData = .container cont) (hneg : cont.nBuckets.toInt < 0) :
    ∃ st', Open.containerDestruct ref m st c = .ok st' ∧ st'.objs.free c = st.objs.free c := by
  have hobj : ∀ st' : State α, st'.objs = st.objs → internalObj st' c = .ok (some p) := by
    intro st' h
    rw [internalObj, if_neg hc, h, hp]
  have hp' : ((st.emit (.lock c)).emit (.unlock c)).objs.get c = some p := hp
  have hnot : ¬ (0 : Int) < cont.nBuckets.toInt := by omega
  have hbounds : Open.searchBounds cont { unlink := true } ⟨NULL, none⟩
      = .ok (0, cont.nBuckets.toInt) := rfl
  unfold Open.containerDestruct Open.internalObjCallback Open.search
  simp only [hobj st rfl, ok_bind, Bool.false_and, Bool.false_eq_true, if_false,
    containerAt_of_get hp hu, hbounds, Bool.not_false, lockIf, if_true, objLock, Open.loopFuel,
    bucketLoop_done ref m c _ _ _ _ _ hnot, unlockIf, objUnlock, hobj (st.emit _) rfl,
    containerAt_of_get hp' hu]
  exact ⟨_, rfl, Heap.free_set _ _ _⟩

theorem exec_objUnref_neg (hc : c ≠ NULL) (hp : s.st.objs.get c = some p)
    (hu : p.userData = .container cont) (hd : p.destructorFn = some .containerDestruct)
    (hneg : cont.nBuckets.toInt < 0) (hone : p.refCounter + -1 ≤ 0) :
    ∃ st', exec m.toWrap s (.objUnref c) = .ok ⟨st', s.owned.erase c, s.iters⟩ ∧
      st'.objs = s.st.objs.free c := by
  have hget : ((s.st.setObj c { p with refCounter := p.refCounter + -1 }).emit
      (.destruct p.serial)).objs.get c = some { p with refCounter := p.refCounter + -1 } :=
    Heap.get_set_self _ _ _
  obtain ⟨st', hst', hfree⟩ := containerDestruct_neg
    (internalObjRef m.toWrap s.st.objs.dom.card) m.toWrap hc hget hu hneg
  have hrun : runDestructor (internalObjRef m.toWrap s.st.objs.dom.card) m.toWrap
      ((s.st.setObj c { p with refCounter := p.refCounter + -1 }).emit (.destruct p.serial)) c
      p.destructorFn = .ok st' := by
    rw [← hst', hd]
    rfl
  have hlast := objRef_last_eq hc hp (by rw [spdAtomicFetchaddInt, Machine.toWrap]) hone hrun
  refine ⟨st'.freeObj c, by simp only [exec, hlast, ok_bind], ?_⟩
  rw [State.objs_freeObj, hfree]
  exact Heap.free_set _ _ _

end Limits

/-- A bucket count from 2^31 on is negative as an `int`: destroying the container leaks the
    references of its entries. -/
theorem refCounts_leak :
    ∃ s', Run.run (exec bumpMachine.toWrap) ({} : Sys Unit) [.objAlloc () none,
        .objContainerAlloc (2 ^ 31) (some fun _ _ => 0) none, .objLink 2 1 {}, .objUnref 2] = .ok s' ∧
      ¬ Conserved s' := by
  obtain ⟨bs, hbs⟩ : ∃ bs : List (List BucketEntry),
      [] :: bs = List.replicate (UInt32.toNat (2 ^ 31)) [] :=
    ⟨List.replicate (2 ^ 31 - 1) [], by rw [← List.replicate_succ]; rfl⟩
  have h1 : exec bumpMachine.toWrap ({} : Sys Unit) (.objAlloc () none)
      = .ok ⟨{ objs := Heap.set ∅ 1 ⟨1, none, .data (), 0⟩, callocs := 1, serials := 1 }, {1}, []⟩ :=
    rfl
  have h2 : exec bumpMachine.toWrap (⟨{ objs := Heap.set ∅ 1 ⟨1, none, .data (), 0⟩
                                        callocs := 1, serials := 1 }, {1}, []⟩ : Sys Unit)
      (.objContainerAlloc (2 ^ 31) (some fun _ _ => 0) none)
      = .ok ⟨bigState ([] :: bs), {2, 1}, []⟩ := by
    rw [hbs]
    rfl
  have hmod : cMod (cAbs 0) Int32.minValue = .ok 0 := by decide +kernel
  have hfetch : ∀ x d, spdAtomicFetchaddInt bumpMachine.toWrap x d = .ok (x + d) := fun x d => by
    rw [spdAtomicFetchaddInt, Machine.toWrap]
  have hget1 : (bigState ([] :: bs)).objs.get 1 = some ⟨1, none, .data (), 0⟩ := rfl
  have hget2 : (bigState ([] :: bs)).objs.get 2 = some ⟨1, some .containerDestruct,
      .container ⟨fun _ _ => 0, none, Int32.minValue, 0, 1, [] :: bs⟩, 1⟩ := rfl
  have hlink := objLink_eq (m := bumpMachine.toWrap) {} (by decide) (by decide) hget2
    rfl hget1 (by decide) rfl (Nat.succ_ne_zero _) (by decide) rfl hmod
    (show bucketIndex _ _ = .ok 0 by simp [bucketIndex]) (hfetch _ _) (hfetch _ _) (hfetch _ _)
    (by decide)
  obtain ⟨e, st3, cont3, hlink3, hget3, hneg3, hfree3⟩ :
      ∃ e st3 cont3, objLink bumpMachine.toWrap (bigState ([] :: bs)) 2 1 {} = .ok (e, st3) ∧
        st3.objs.get 2 = some ⟨1, some .containerDestruct, .container cont3, 1⟩ ∧
        cont3.nBuckets.toInt < 0 ∧ st3.objs.free 2 = Heap.set ∅ 1 ⟨2, none, .data (), 0⟩ :=
    ⟨_, _, _, hlink, (Heap.get_set_of_ne _ _ (by decide)).trans (Heap.get_set_self _ _ _),
      (by decide : Int32.minValue.toInt < 0), rfl⟩
  have h3 : exec bumpMachine.toWrap ⟨bigState ([] :: bs), {2, 1}, []⟩ (.objLink 2 1 {})
      = .ok ⟨st3, {2, 1}, []⟩ := by
    simp only [exec, hlink3, ok_bind]
  obtain ⟨st4, h4, hobjs4⟩ := exec_objUnref_neg (m := bumpMachine) (s := ⟨st3, {2, 1}, []⟩)
    (by decide) hget3 rfl rfl hneg3
    (show (1 : Int32) + -1 ≤ 0 by decide)
  rw [hfree3] at hobjs4
  refine ⟨_, (Run.run_cons_of_ok h1 _).trans ((Run.run_cons_of_ok h2 _).trans
    ((Run.run_cons_of_ok h3 _).trans ((Run.run_cons_of_ok h4 _).trans rfl))), fun hcons => ?_⟩
  have hp : st4.objs.get 1 = some ⟨2, none, .data (), 0⟩ := by rw [hobjs4]; rfl
  have hheld : held st4 ∅ = 0 := by rw [held, hobjs4]; rfl
  have hcount := (hcons.counter hp).1
  rw [Sys.refs, hheld] at hcount
  change (2 : Int32).toInt = ((({2, 1} : Multiset Addr).erase 2 + 0).count 1 + 0 : Nat) at hcount
  exact absurd hcount (by decide)

/-- Past these limits the conservation law fails: a counter wraps around at 2^31
    references; a container of no buckets divides by zero; one of 2^31 buckets
    leaks what it holds. -/
theorem refCounts_conserved_limits :
    (Run.Legal (exec bumpMachine.toWrap) Enabled ({} : Sys Unit)
        (.objAlloc () none :: List.replicate (2 ^ 31 - 1) (.objRef 1)) ∧
      ∃ s', Run.run (exec bumpMachine.toWrap) ({} : Sys Unit)
        (.objAlloc () none :: List.replicate (2 ^ 31 - 1) (.objRef 1)) = .ok s' ∧
        ¬ Conserved s') ∧
      Run.run (exec bumpMachine.toWrap) ({} : Sys Unit) [.objAlloc () none,
        .objContainerAlloc 0 (some fun _ _ => 0) none, .objLink 2 1 {}] = .fault ∧
      ∃ s', Run.run (exec bumpMachine.toWrap) ({} : Sys Unit) [.objAlloc () none,
        .objContainerAlloc (2 ^ 31) (some fun _ _ => 0) none, .objLink 2 1 {},
        .objUnref 2] = .ok s' ∧ ¬ Conserved s' :=
  ⟨refCounts_overflow, by with_unfolding_all rfl, refCounts_leak⟩

end Spider.ObjModel
