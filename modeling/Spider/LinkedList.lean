import Spider.Lib.Chain
import Spider.Lib.Run
import Mathlib.Data.Finset.Card
import Mathlib.Data.Finset.Option

/-!
# The intrusive list macros of `linkedlist.h`

Any number of list heads share the `next` fields of the nodes. A plain list for
each head says what the macros are for; every macro refines the operation on
plain lists, as long as only free nodes are inserted.
-/

namespace Spider.LinkedList

open Lib Outcome

/-- `SPD_LIST_HEAD`: the two end pointers. -/
structure ListHead (ι : Type) where
  first : Option ι := none
  last : Option ι := none

/-- The heads, and the `next` field of each node. -/
structure Mem (κ ι : Type) where
  next : ι → Option ι
  head : κ → ListHead ι

variable {κ ι : Type} [DecidableEq κ] [DecidableEq ι]

namespace Mem

/-- `elm->field.next = p`. -/
def setNext (m : Mem κ ι) (elm : ι) (p : Option ι) : Mem κ ι :=
  { m with next := Function.update m.next elm p }

/-- `head->first = p` and `head->last = p`. -/
def setFirst (m : Mem κ ι) (h : κ) (p : Option ι) : Mem κ ι :=
  { m with head := Function.update m.head h { m.head h with first := p } }

@[inherit_doc setFirst]
def setLast (m : Mem κ ι) (h : κ) (p : Option ι) : Mem κ ι :=
  { m with head := Function.update m.head h { m.head h with last := p } }

end Mem

/-- `SPD_LIST_INSERT_AFTER` (`linkedlist.h:677-682`). -/
def spdListInsertAfter (m : Mem κ ι) (head : κ) (cur nextel : ι) : Mem κ ι :=
  let m := m.setNext nextel (m.next cur)
  let m := m.setNext cur (some nextel)
  if (m.head head).last = some cur then m.setLast head (some nextel) else m

/-- `SPD_LIST_INSERT_HEAD` (`linkedlist.h:693-698`). -/
def spdListInsertHead (m : Mem κ ι) (head : κ) (cur : ι) : Mem κ ι :=
  let m := m.setNext cur (m.head head).first
  let m := m.setFirst head (some cur)
  if (m.head head).last = none then m.setLast head (some cur) else m

/-- `SPD_LIST_INSERT_BEFORE_CURRENT` (`linkedlist.h:580-589`), with the node before the current
    one. -/
def spdListInsertBeforeCurrent (m : Mem κ ι) (head : κ) (prev : Option ι) (elm : ι) : Mem κ ι :=
  match prev with
  | some prev => (m.setNext elm (m.next prev)).setNext prev (some elm)
  | none => (m.setNext elm (m.head head).first).setFirst head (some elm)

/-- `SPD_LIST_INSERT_TAIL` (`linkedlist.h:713-721`). The `next` field of `cur` is not
    written. -/
def spdListInsertTail (m : Mem κ ι) (head : κ) (cur : ι) : Outcome (Mem κ ι) :=
  if (m.head head).first = none then
    .ok ((m.setFirst head (some cur)).setLast head (some cur))
  else match (m.head head).last with
    | none => .fault
    | some last => .ok ((m.setNext last (some cur)).setLast head (some cur))

/-- `SPD_LIST_APPEND_LIST` (`linkedlist.h:765-778`). -/
def spdListAppendList (m : Mem κ ι) (head list : κ) : Outcome (Mem κ ι) :=
  if (m.head list).first = none then .ok m
  else if (m.head head).first = none then
    let m := m.setFirst head (m.head list).first
    let m := m.setLast head (m.head list).last
    .ok ((m.setFirst list none).setLast list none)
  else match (m.head head).last with
    | none => .fault
    | some last =>
      let m := m.setNext last (m.head list).first
      let m := m.setLast head (m.head list).last
      .ok ((m.setFirst list none).setLast list none)

/-- `SPD_LIST_INSERT_LIST_AFTER` (`linkedlist.h:795-802`). -/
def spdListInsertListAfter (m : Mem κ ι) (head list : κ) (elm : ι) : Outcome (Mem κ ι) :=
  match (m.head list).last with
  | none => .fault
  | some last =>
    let m := m.setNext last (m.next elm)
    let m := m.setNext elm (m.head list).first
    let m := if (m.head head).last = some elm then m.setLast head (m.head list).last else m
    .ok ((m.setFirst list none).setLast list none)

/-- `SPD_LIST_REMOVE_HEAD` (`linkedlist.h:815-824`). -/
def spdListRemoveHead (m : Mem κ ι) (head : κ) : Option ι × Mem κ ι :=
  match (m.head head).first with
  | none => (none, m)
  | some cur =>
    let m := m.setFirst head (m.next cur)
    let m := m.setNext cur none
    (some cur, if (m.head head).last = some cur then m.setLast head none else m)

/-- The loop of `SPD_LIST_REMOVE`: the node before `elm`, from `curelm` on. -/
def findPrev (m : Mem κ ι) (elm : ι) : Nat → Option ι → Outcome (Option ι)
  | 0, _ => .timeout
  | fuel + 1, curelm =>
    match curelm with
    | none => .ok none
    | some c => if m.next c = some elm then .ok (some c) else findPrev m elm fuel (m.next c)

/-- `SPD_LIST_REMOVE` (`linkedlist.h:836-856`). -/
def spdListRemove (fuel : Nat) (m : Mem κ ι) (head : κ) (elm : ι) :
    Outcome (Option ι × Mem κ ι) := do
  let (res, m) ←
    if (m.head head).first = some elm then
      let m := m.setFirst head (m.next elm)
      .ok (some elm, if (m.head head).last = some elm then m.setLast head none else m)
    else do
      match ← findPrev m elm fuel (m.head head).first with
      | none => .ok (none, m)
      | some curelm =>
        let m := m.setNext curelm (m.next elm)
        .ok (some elm, if (m.head head).last = some elm then m.setLast head (some curelm) else m)
  .ok (res, m.setNext elm none)

theorem insertBeforeCurrent_next {m : Mem κ ι} {h : κ} {prev : Option ι} {x y : ι} (hx : y ≠ x)
    (hprev : prev ≠ some y) : (spdListInsertBeforeCurrent m h prev x).next y = m.next y := by
  cases prev with
  | none => exact Function.update_of_ne hx _ _
  | some z =>
    have hz : y ≠ z := fun h => hprev (congrArg some h.symm)
    exact (Function.update_of_ne hz _ _).trans (Function.update_of_ne hx _ _)

theorem insertTail_next {m m' : Mem κ ι} {h : κ} {x y : ι}
    (hok : spdListInsertTail m h x = .ok m') (hlast : (m.head h).last ≠ some y) :
    m'.next y = m.next y := by
  unfold spdListInsertTail at hok
  split at hok
  · obtain rfl := Outcome.ok.inj hok
    rfl
  · split at hok
    · cases hok
    next z hz =>
      obtain rfl := Outcome.ok.inj hok
      have hne : y ≠ z := by
        rintro rfl
        exact hlast hz
      exact Function.update_of_ne hne _ _

omit [DecidableEq κ] in
theorem findPrev_next {m : Mem κ ι} {x c : ι} {fuel : Nat} {p : Option ι}
    (h : findPrev m x fuel p = .ok (some c)) : m.next c = some x := by
  induction fuel generalizing p with
  | zero => cases h
  | succ fuel ih =>
    cases p with
    | none => cases h
    | some y =>
      rw [findPrev] at h
      split at h
      next hy =>
        obtain rfl := Option.some.inj (Outcome.ok.inj h)
        exact hy
      · exact ih h

/-- A node that points nowhere still does when another one was removed. -/
theorem remove_next {m m' : Mem κ ι} {h : κ} {x y : ι} {fuel : Nat} {r : Option ι}
    (hok : spdListRemove fuel m h x = .ok (r, m')) (hy : m.next y = none) : m'.next y = none := by
  have hlast : ∀ {m1 : Mem κ ι}, m1.next y = none → (m1.setNext x none).next y = none := by
    intro m1 hm1
    by_cases hyx : y = x
    · rw [hyx]
      exact Function.update_self _ _ _
    · exact (Function.update_of_ne hyx _ _).trans hm1
  unfold spdListRemove at hok
  dsimp only at hok
  split at hok
  · obtain rfl := (Prod.mk.inj (Outcome.ok.inj hok)).2
    apply hlast
    split <;> exact hy
  · obtain ⟨prev, hprev, hok⟩ := bind_eq_ok.mp hok
    cases prev with
    | none =>
      obtain rfl := (Prod.mk.inj (Outcome.ok.inj hok)).2
      exact hlast hy
    | some c =>
      have hne : y ≠ c := by
        rintro rfl
        rw [findPrev_next hprev] at hy
        cases hy
      obtain rfl := (Prod.mk.inj (Outcome.ok.inj hok)).2
      apply hlast
      split <;> exact (Function.update_of_ne hne _ _).trans hy

omit [DecidableEq ι] in
@[simp] theorem Mem.setFirst_setLast (m : Mem κ ι) (h : κ) (p q : Option ι) :
    (m.setFirst h p).setLast h q = ⟨m.next, Function.update m.head h ⟨p, q⟩⟩ := by
  simp [setFirst, setLast]

/-- A use of one of the macros. -/
inductive Op (κ ι : Type) where
  | insertHead (head : κ) (cur : ι)
  | insertTail (head : κ) (cur : ι)
  | insertAfter (head : κ) (cur nextel : ι)
  | removeHead (head : κ)
  | remove (head : κ) (elm : ι)
  | appendList (head list : κ)
  | insertListAfter (head list : κ) (elm : ι)

/-- The value of the macro (null where it has none) and the heap after it. -/
def exec (fuel : Nat) (m : Mem κ ι) : Op κ ι → Outcome (Option ι × Mem κ ι)
  | .insertHead h x => .ok (none, spdListInsertHead m h x)
  | .insertTail h x => do
    let m ← spdListInsertTail m h x
    .ok (none, m)
  | .insertAfter h cur x => .ok (none, spdListInsertAfter m h cur x)
  | .removeHead h => .ok (spdListRemoveHead m h)
  | .remove h x => spdListRemove fuel m h x
  | .appendList h l => do
    let m ← spdListAppendList m h l
    .ok (none, m)
  | .insertListAfter h l elm => do
    let m ← spdListInsertListAfter m h l elm
    .ok (none, m)

/-! ## Plain lists -/

/-- The lists behind the heads. -/
abbrev Lists (κ ι : Type) := κ → List ι

/-- `ys` is put into a list behind `x`. -/
def insertBehind (x : ι) (ys : List ι) : List ι → List ι
  | [] => []
  | z :: zs => if z = x then z :: (ys ++ zs) else z :: insertBehind x ys zs

theorem insertBehind_append {x : ι} {pre : List ι} (hx : x ∉ pre) (ys post : List ι) :
    insertBehind x ys (pre ++ x :: post) = pre ++ x :: (ys ++ post) := by
  induction pre with
  | nil => simp [insertBehind]
  | cons z pre ih =>
    rw [List.mem_cons, not_or] at hx
    rw [List.cons_append, insertBehind, if_neg (Ne.symm hx.1), ih hx.2, List.cons_append]

/-- What the macro means for the lists. A source list is empty afterwards. -/
def Op.apply (ls : Lists κ ι) : Op κ ι → Lists κ ι
  | .insertHead h x => Function.update ls h (x :: ls h)
  | .insertTail h x => Function.update ls h (ls h ++ [x])
  | .insertAfter h cur x => Function.update ls h (insertBehind cur [x] (ls h))
  | .removeHead h => Function.update ls h (ls h).tail
  | .remove h x => Function.update ls h ((ls h).erase x)
  | .appendList h l => Function.update (Function.update ls h (ls h ++ ls l)) l []
  | .insertListAfter h l elm =>
    Function.update (Function.update ls h (insertBehind elm (ls l) (ls h))) l []

/-- What the macro returns. -/
def Op.result (ls : Lists κ ι) : Op κ ι → Option ι
  | .removeHead h => (ls h).head?
  | .remove h x => if x ∈ ls h then some x else none
  | _ => none

/-- The node the macro takes out of its list. -/
def Op.removed (ls : Lists κ ι) : Op κ ι → Option ι
  | .removeHead h => (ls h).head?
  | .remove _ x => some x
  | _ => none

/-- The node is in no list. -/
def Free (ls : Lists κ ι) (x : ι) : Prop := ∀ h, x ∉ ls h

/-- What the user of a macro must see to. -/
def Enabled (m : Mem κ ι) (ls : Lists κ ι) : Op κ ι → Prop
  | .insertHead _ x => Free ls x ∧ m.next x = none
  | .insertTail _ x => Free ls x ∧ m.next x = none
  | .insertAfter h cur x => cur ∈ ls h ∧ Free ls x ∧ m.next x = none
  | .removeHead _ => True
  | .remove h x => x ∈ ls h ∨ Free ls x
  | .appendList _ _ => True
  | .insertListAfter h l elm => elm ∈ ls h ∧ ls l ≠ []

/-- The heap holds the lists: each head has a chain of its own. -/
structure Represents (m : Mem κ ι) (ls : Lists κ ι) : Prop where
  chain : ∀ h, Chain m.next (m.head h).first (m.head h).last (ls h)
  disjoint : ∀ {h h'}, h ≠ h' → (ls h).Disjoint (ls h')

omit [DecidableEq κ] in
/-- A write leaves the nodes of a list alone that does not hold the node written. -/
theorem update_frame {f : ι → Option ι} {x z : ι} {zs : List ι} {v : Option ι} (hx : x ∉ zs)
    (hz : z ∈ zs) : Function.update f x v z = f z := by
  apply Function.update_of_ne
  rintro rfl
  exact hx hz

namespace Represents

variable {m : Mem κ ι} {ls : Lists κ ι} {h k l : κ} {x cur elm : ι} {xs : List ι}
  {next' : ι → Option ι} {first last : Option ι}

omit [DecidableEq ι] in
/-- One head and its chain change; the other chains keep their nodes' fields. -/
theorem update (hr : Represents m ls) (hnext : ∀ j, j ≠ k → ∀ x ∈ ls j, next' x = m.next x)
    (hchain : Chain next' first last xs) (hdisj : ∀ j, j ≠ k → xs.Disjoint (ls j)) :
    Represents ⟨next', Function.update m.head k ⟨first, last⟩⟩ (Function.update ls k xs) := by
  constructor
  · intro j
    by_cases hj : j = k
    · subst hj
      simp only [Function.update_self]
      exact hchain
    · simp only [Function.update_of_ne hj]
      exact (hr.chain j).congr (hnext j hj)
  · intro i j hij
    by_cases hi : i = k
    · subst hi
      rw [Function.update_self, Function.update_of_ne hij.symm]
      exact hdisj j hij.symm
    · rw [Function.update_of_ne hi]
      by_cases hj : j = k
      · subst hj
        rw [Function.update_self]
        exact (hdisj i hi).symm
      · rw [Function.update_of_ne hj]
        exact hr.disjoint hij

omit [DecidableEq κ] [DecidableEq ι] in
/-- A node of one list is in no other. -/
theorem notMem (hr : Represents m ls) (hx : x ∈ ls h) (hk : k ≠ h) : x ∉ ls k :=
  fun hmem => hr.disjoint hk hmem hx

theorem insertHead (hr : Represents m ls) (hx : Free ls x) :
    Represents (spdListInsertHead m h x) (Function.update ls h (x :: ls h)) := by
  have heq : spdListInsertHead m h x = ⟨Function.update m.next x (m.head h).first,
      Function.update m.head h ⟨some x,
        if (m.head h).last = none then some x else (m.head h).last⟩⟩ := by
    unfold spdListInsertHead Mem.setNext Mem.setFirst Mem.setLast
    split <;> simp_all
  rw [heq]
  apply hr.update
  · intro j _ y hy
    exact update_frame (hx j) hy
  · exact (hr.chain h).cons (hx h)
  · intro j hj
    rw [List.disjoint_cons_left]
    exact ⟨hx j, hr.disjoint hj.symm⟩

/-- Chains outside the lists can be put into one of them. -/
structure Loose (m : Mem κ ι) (ls : Lists κ ι) (first last : Option ι) (ys : List ι) : Prop where
  chain : Chain m.next first last ys
  ne_nil : ys ≠ []
  disjoint : ∀ j, (ls j).Disjoint ys

omit [DecidableEq κ] [DecidableEq ι] in
theorem loose_single (hx : Free ls x) (hnull : m.next x = none) :
    Loose m ls (some x) (some x) [x] :=
  ⟨⟨⟨rfl, hnull⟩, rfl, List.nodup_singleton x⟩, by simp, fun j => by simpa using hx j⟩

/-- A loose chain is appended to the list of `h`. -/
theorem append (hr : Represents m ls) {ys : List ι} (hl : Loose m ls first last ys) :
    Represents ⟨match (m.head h).last with
        | none => m.next
        | some t => Function.update m.next t first,
      Function.update m.head h
        ⟨if (m.head h).first = none then first else (m.head h).first, last⟩⟩
      (Function.update ls h (ls h ++ ys)) := by
  have hchain := hr.chain h
  have hdisj : ∀ j, j ≠ h → (ls h ++ ys).Disjoint (ls j) := fun j hj =>
    List.disjoint_append_left.mpr ⟨hr.disjoint hj.symm, (hl.disjoint j).symm⟩
  cases hlast : (m.head h).last with
  | none =>
    have hempty := hchain.last_eq_none.mp hlast
    rw [hchain.first_eq, hempty]
    rw [hempty] at hdisj
    exact hr.update (fun _ _ _ _ => rfl) hl.chain hdisj
  | some t =>
    rw [hlast] at hchain
    obtain ⟨zs, hzs⟩ := hchain.last_eq_some
    have hmem : t ∈ ls h := by simp [hzs]
    have hfirst : (m.head h).first ≠ none := by
      rw [ne_eq, hchain.first_eq_none]
      exact List.ne_nil_of_mem hmem
    rw [if_neg hfirst]
    exact hr.update (fun j hj y hy => update_frame (hr.notMem hmem hj) hy)
      (hchain.append hl.chain hl.ne_nil (hl.disjoint h)) hdisj

/-- A loose chain is put behind `elm` in the list of `h`. -/
theorem insert (hr : Represents m ls) {ys : List ι} {y : ι} (hl : Loose m ls first (some y) ys)
    (helm : elm ∈ ls h) :
    Represents ⟨Function.update (Function.update m.next y (m.next elm)) elm first,
      Function.update m.head h ⟨(m.head h).first,
        if (m.head h).last = some elm then some y else (m.head h).last⟩⟩
      (Function.update ls h (insertBehind elm ys (ls h))) := by
  obtain ⟨pre, post, hsplit⟩ := List.append_of_mem helm
  have hchain := hr.chain h
  rw [hsplit] at hchain
  have hdisj : ∀ j, j ≠ h → (pre ++ elm :: (ys ++ post)).Disjoint (ls j) := by
    intro j hj z hz hzj
    have hcases : z ∈ ls h ∨ z ∈ ys := by
      rw [hsplit]
      simp only [List.mem_append, List.mem_cons] at hz ⊢
      tauto
    rcases hcases with hin | hin
    · exact hr.disjoint hj hzj hin
    · exact hl.disjoint j hzj hin
  rw [hsplit, insertBehind_append hchain.notMem_split.1]
  refine hr.update (fun j hj z hz => ?_) (hchain.insert hl.chain (hsplit ▸ hl.disjoint h)) hdisj
  obtain ⟨ws, rfl⟩ := hl.chain.last_eq_some
  have hy : y ∉ ls j := fun hmem => hl.disjoint j hmem (by simp)
  rw [update_frame (hr.notMem helm hj) hz, update_frame hy hz]

omit [DecidableEq ι] in
/-- A list is given up: its nodes are a loose chain. -/
theorem release (hr : Represents m ls) (l : κ) :
    Represents ⟨m.next, Function.update m.head l ⟨none, none⟩⟩ (Function.update ls l []) :=
  hr.update (fun _ _ _ _ => rfl) Chain.nil fun _ _ => List.disjoint_nil_left _

omit [DecidableEq ι] in
theorem release_loose (hr : Represents m ls) (hne : ls l ≠ []) :
    Loose ⟨m.next, Function.update m.head l ⟨none, none⟩⟩ (Function.update ls l [])
      (m.head l).first (m.head l).last (ls l) := by
  refine ⟨hr.chain l, hne, fun j => ?_⟩
  by_cases hj : j = l
  · rw [hj, Function.update_self]
    exact List.disjoint_nil_left _
  · rw [Function.update_of_ne hj]
    exact hr.disjoint hj

theorem insertTail (hr : Represents m ls) (hx : Free ls x) (hnull : m.next x = none) :
    ∃ m', spdListInsertTail m h x = .ok m' ∧
      Represents m' (Function.update ls h (ls h ++ [x])) := by
  have hchain := hr.chain h
  have happend := hr.append (h := h) (loose_single hx hnull)
  unfold spdListInsertTail Mem.setNext Mem.setFirst Mem.setLast
  by_cases hempty : (m.head h).first = none
  · have hlast : (m.head h).last = none :=
      hchain.last_eq_none.mpr (hchain.first_eq_none.mp hempty)
    rw [if_pos hempty, hlast] at happend
    exact ⟨_, if_pos hempty, by simpa using happend⟩
  · rw [if_neg hempty] at happend ⊢
    cases hlast : (m.head h).last with
    | none => exact absurd (hchain.first_eq_none.mpr (hchain.last_eq_none.mp hlast)) hempty
    | some last =>
      rw [hlast] at happend
      exact ⟨_, rfl, happend⟩

theorem insertAfter (hr : Represents m ls) (hcur : cur ∈ ls h) (hx : Free ls x)
    (hnull : m.next x = none) : Represents (spdListInsertAfter m h cur x)
      (Function.update ls h (insertBehind cur [x] (ls h))) := by
  have hinsert := hr.insert (loose_single hx hnull) hcur
  unfold spdListInsertAfter Mem.setNext Mem.setLast
  by_cases hlast : (m.head h).last = some cur
  · rw [if_pos hlast] at hinsert
    simpa [hlast] using hinsert
  · rw [if_neg hlast] at hinsert
    simpa [hlast] using hinsert

/-- Before the node `cur`, which has others before it or none. -/
theorem insertBeforeCurrent {pre post : List ι} (hr : Represents m ls)
    (hlist : ls h = pre ++ cur :: post) (hx : Free ls x) (hnull : m.next x = none) :
    Represents (spdListInsertBeforeCurrent m h pre.getLast? x)
      (Function.update ls h (pre ++ x :: cur :: post)) := by
  have hchain := hr.chain h
  rw [hlist] at hchain
  rcases pre.eq_nil_or_concat' with rfl | ⟨pre, prev, rfl⟩
  · have hlast : (m.head h).last ≠ none := fun h => by simpa using hchain.last_eq_none.mp h
    have hinsert := hr.insertHead (h := h) hx
    rw [hlist] at hinsert
    simpa [spdListInsertBeforeCurrent, spdListInsertHead, hlast, Mem.setNext, Mem.setFirst]
      using hinsert
  · have hsplit : ls h = pre ++ prev :: cur :: post := by rw [hlist]; simp
    rw [List.append_assoc, List.singleton_append] at hchain
    have hprev := hchain.notMem_split
    have hlast : (m.head h).last ≠ some prev := by
      intro heq
      have hmem : prev ∈ cur :: post := by
        rw [hchain.last, List.getLast?_append_of_ne_nil _ (List.cons_ne_nil _ _),
          List.getLast?_cons_cons] at heq
        exact List.mem_of_getLast? heq
      exact hprev.2 hmem
    have hprevMem : prev ∈ ls h := by
      rw [hsplit]
      simp
    have hinsert := hr.insertAfter hprevMem hx hnull
    rw [hsplit, insertBehind_append hprev.1] at hinsert
    simpa [spdListInsertBeforeCurrent, spdListInsertAfter, hlast, Mem.setNext] using hinsert

theorem removeHead_eq (hfirst : (m.head h).first = some x) :
    spdListRemoveHead m h = (some x, ⟨Function.update m.next x none, Function.update m.head h
      ⟨m.next x, if (m.head h).last = some x then none else (m.head h).last⟩⟩) := by
  unfold spdListRemoveHead Mem.setNext Mem.setFirst Mem.setLast
  rw [hfirst]
  by_cases hlast : (m.head h).last = some x
  · simp [hlast]
  · simp [hlast]

theorem removeHead (hr : Represents m ls) :
    Represents (spdListRemoveHead m h).2 (Function.update ls h (ls h).tail) ∧
      (spdListRemoveHead m h).1 = (ls h).head? ∧
      ∀ y ∈ (ls h).head?, (spdListRemoveHead m h).2.next y = none := by
  have hchain := hr.chain h
  cases hls : ls h with
  | nil =>
    rw [hls] at hchain
    have heq : spdListRemoveHead m h = (none, m) := by
      rw [spdListRemoveHead, hchain.first_eq]
      rfl
    rw [heq, List.tail_nil, ← hls, Function.update_eq_self]
    exact ⟨hr, by simp [hls], by simp [hls]⟩
  | cons y ys =>
    rw [hls] at hchain
    have hy := (List.nodup_cons.mp hchain.nodup).1
    have hmem : y ∈ ls h := by simp [hls]
    rw [removeHead_eq hchain.first_eq, List.tail_cons]
    refine ⟨hr.update (fun j hj z hz => update_frame (hr.notMem hmem hj) hz)
      (hchain.tail.update hy none) fun j hj => ?_, rfl, ?_⟩
    · have hdisj := hr.disjoint hj.symm
      rw [hls] at hdisj
      exact (List.disjoint_cons_left.mp hdisj).2
    · intro z hz
      obtain rfl : y = z := by simpa using hz
      exact Function.update_self y none m.next

/-! ### `SPD_LIST_REMOVE` -/

omit [DecidableEq κ] in
theorem findPrev_none {p : Option ι} {fuel : Nat} (hseg : Seg m.next p xs none) (hx : x ∉ xs)
    (hfuel : xs.length < fuel) : findPrev m x fuel p = .ok none := by
  induction fuel generalizing p xs with
  | zero => omega
  | succ fuel ih =>
    cases xs with
    | nil =>
      obtain rfl : p = none := hseg
      rfl
    | cons y ys =>
      obtain ⟨rfl, hrest⟩ := hseg
      rw [List.mem_cons, not_or] at hx
      have hne : m.next y ≠ some x := by
        intro heq
        rw [hrest.eq_head?] at heq
        exact hx.2 (List.mem_of_mem_head? heq)
      rw [findPrev, if_neg hne]
      exact ih hrest hx.2 (by simpa using hfuel)

omit [DecidableEq κ] in
theorem findPrev_some {p : Option ι} {fuel : Nat} {c : ι} {pre post : List ι}
    (hseg : Seg m.next p (pre ++ c :: x :: post) none) (hx : x ∉ pre ++ [c])
    (hfuel : pre.length < fuel) : findPrev m x fuel p = .ok (some c) := by
  induction pre generalizing p fuel with
  | nil =>
    obtain ⟨rfl, hc, -⟩ := hseg
    obtain ⟨fuel, rfl⟩ : ∃ n, fuel = n + 1 := ⟨fuel - 1, by omega⟩
    rw [findPrev, if_pos hc]
  | cons y pre ih =>
    obtain ⟨rfl, hrest⟩ := hseg
    rw [List.cons_append, List.mem_cons, not_or] at hx
    obtain ⟨fuel, rfl⟩ : ∃ n, fuel = n + 1 := ⟨fuel - 1, by omega⟩
    have hne : m.next y ≠ some x := by
      intro heq
      rw [hrest.eq_head?] at heq
      cases pre with
      | nil => exact hx.2 (by simpa using heq.symm)
      | cons z pre => exact hx.2 (by simpa using Or.inl heq.symm)
    rw [findPrev, if_neg hne]
    exact ih hrest hx.2 (by simpa using hfuel)

omit [DecidableEq ι] in
/-- Taking out a node changes the fields of nodes of its list only. -/
theorem unlink {pre post : List ι} (hr : Represents m ls) (hlist : ls h = pre ++ x :: post)
    (hnext : ∀ z, z ∉ ls h → next' z = m.next z) (hchain : Chain next' first last (pre ++ post)) :
    Represents ⟨next', Function.update m.head h ⟨first, last⟩⟩
      (Function.update ls h (pre ++ post)) := by
  have hsub : ∀ z ∈ pre ++ post, z ∈ ls h := by
    intro z hz
    rw [hlist]
    simp only [List.mem_append, List.mem_cons] at hz ⊢
    tauto
  refine hr.update ?_ hchain ?_
  · exact fun j hj z hz => hnext z fun hzh => hr.disjoint hj hz hzh
  · exact fun j hj z hz hzj => hr.disjoint hj hzj (hsub z hz)

theorem remove (hr : Represents m ls) (hx : x ∈ ls h ∨ Free ls x) {fuel : Nat}
    (hfuel : (ls h).length < fuel) :
    ∃ m', spdListRemove fuel m h x = .ok (if x ∈ ls h then some x else none, m') ∧
      Represents m' (Function.update ls h ((ls h).erase x)) ∧ m'.next x = none := by
  have hchain := hr.chain h
  by_cases hmem : x ∈ ls h
  · obtain ⟨pre, post, hsplit⟩ := List.append_of_mem hmem
    have hne : ∀ z, z ∉ ls h → z ≠ x := fun z hz heq => hz (heq.symm ▸ hmem)
    rw [hsplit] at hchain
    have hpre := hchain.notMem_split.1
    rw [if_pos hmem, hsplit, List.erase_append_right _ hpre, List.erase_cons_head]
    rcases pre.eq_nil_or_concat' with rfl | ⟨pre, c, rfl⟩
    · -- `elm` is the first node
      have hfirst : (m.head h).first = some x := hchain.first_eq
      have hrest := hr.unlink hsplit (fun z hz => Function.update_of_ne (hne z hz) none m.next)
        (hchain.tail.update hchain.notMem_split.2 none)
      refine ⟨_, ?_, hrest, Function.update_self x none m.next⟩
      unfold spdListRemove Mem.setNext Mem.setFirst Mem.setLast
      rw [if_pos hfirst]
      by_cases hlast : (m.head h).last = some x
      · simp [hlast]
      · simp [hlast]
    · -- `c` is the node before `elm`
      have hchain' : Chain m.next (m.head h).first (m.head h).last (pre ++ c :: x :: post) := by
        simpa using hchain
      have hlen : pre.length < fuel := by
        rw [hsplit] at hfuel
        simp only [List.length_append] at hfuel
        omega
      have hprev := findPrev_some hchain'.seg hpre hlen
      have hfirst : (m.head h).first ≠ some x := by
        intro heq
        rw [hchain.first_eq] at heq
        cases pre with
        | nil => exact hpre (by simpa using heq.symm)
        | cons z pre => exact hpre (by simpa using Or.inl heq.symm)
      have hxnot : x ∉ pre ++ c :: post := by
        have hnot := hchain.notMem_split
        simp only [List.mem_append, List.mem_cons, List.not_mem_nil, or_false] at hnot ⊢
        tauto
      have hnext : ∀ z, z ∉ ls h →
          Function.update (Function.update m.next c (m.next x)) x none z = m.next z := by
        intro z hz
        have hzc : z ≠ c := fun heq => hz (by simp [hsplit, heq])
        rw [Function.update_of_ne (hne z hz), Function.update_of_ne hzc]
      have hrest := hr.unlink hsplit hnext (by simpa using hchain'.remove.update hxnot none)
      refine ⟨_, ?_, hrest, by simp⟩
      unfold spdListRemove Mem.setNext Mem.setLast
      rw [if_neg hfirst, hprev]
      by_cases hlast : (m.head h).last = some x
      · simp [hlast]
      · simp [hlast]
  · have hfree : Free ls x := hx.resolve_left hmem
    have hfirst : (m.head h).first ≠ some x := by
      rw [hchain.first_eq]
      exact fun heq => hmem (List.mem_of_mem_head? heq)
    have hprev := findPrev_none hchain.seg hmem hfuel
    refine ⟨m.setNext x none, ?_, ?_, by simp [Mem.setNext]⟩
    · unfold spdListRemove
      rw [if_neg hfirst, hprev, if_neg hmem]
      rfl
    · rw [List.erase_of_not_mem hmem, Function.update_eq_self]
      exact ⟨fun j => (hr.chain j).update (hfree j) none, hr.disjoint⟩

theorem appendList (hr : Represents m ls) :
    ∃ m', spdListAppendList m h l = .ok m' ∧
      Represents m' (Function.update (Function.update ls h (ls h ++ ls l)) l []) := by
  unfold spdListAppendList
  by_cases hempty : (m.head l).first = none
  · have hls := (hr.chain l).first_eq_none.mp hempty
    refine ⟨m, if_pos hempty, ?_⟩
    rw [hls, List.append_nil, Function.update_eq_self, ← hls, Function.update_eq_self]
    exact hr
  · have hne : ls l ≠ [] := fun hls => hempty ((hr.chain l).first_eq_none.mpr hls)
    rw [if_neg hempty]
    by_cases hl : h = l
    · subst hl
      rw [if_neg hempty, Function.update_idem]
      cases hlast : (m.head h).last with
      | none => exact absurd ((hr.chain h).last_eq_none.mp hlast) hne
      | some t =>
        obtain ⟨ws, hws⟩ := (hlast ▸ hr.chain h).last_eq_some
        refine ⟨_, rfl, ?_⟩
        rw [Mem.setFirst_setLast]
        simp only [Mem.setNext, Mem.setLast, Function.update_idem]
        have ht : t ∈ ls h := by simp [hws]
        exact hr.update (fun j hj z hz => update_frame (hr.notMem ht hj) hz) Chain.nil
          fun _ _ => List.disjoint_nil_left _
    · have happend := (hr.release l).append (h := h) (hr.release_loose hne)
      simp only [Function.update_of_ne hl] at happend
      rw [Function.update_comm (Ne.symm hl), Function.update_comm (Ne.symm hl)] at happend
      by_cases hfirst : (m.head h).first = none
      · have hlast : (m.head h).last = none :=
          (hr.chain h).last_eq_none.mpr ((hr.chain h).first_eq_none.mp hfirst)
        rw [if_pos hfirst, hlast] at happend
        rw [if_pos hfirst]
        refine ⟨_, rfl, ?_⟩
        rw [Mem.setFirst_setLast]
        simpa [Mem.setFirst, Mem.setLast, Function.update_of_ne (Ne.symm hl)] using happend
      · rw [if_neg hfirst] at happend ⊢
        cases hlast : (m.head h).last with
        | none => exact absurd ((hr.chain h).first_eq_none.mpr ((hr.chain h).last_eq_none.mp hlast)) hfirst
        | some t =>
          rw [hlast] at happend
          refine ⟨_, rfl, ?_⟩
          rw [Mem.setFirst_setLast]
          simpa [Mem.setNext, Mem.setLast, Function.update_of_ne (Ne.symm hl)] using happend

theorem insertListAfter (hr : Represents m ls) (helm : elm ∈ ls h) (hne : ls l ≠ []) :
    ∃ m', spdListInsertListAfter m h l elm = .ok m' ∧
      Represents m' (Function.update (Function.update ls h (insertBehind elm (ls l) (ls h))) l []) := by
  unfold spdListInsertListAfter
  cases hlast : (m.head l).last with
  | none => exact absurd ((hr.chain l).last_eq_none.mp hlast) hne
  | some t =>
    refine ⟨_, rfl, ?_⟩
    rw [Mem.setFirst_setLast]
    by_cases hl : h = l
    · subst hl
      rw [Function.update_idem]
      obtain ⟨ws, hws⟩ := (hlast ▸ hr.chain h).last_eq_some
      have ht : t ∈ ls h := by simp [hws]
      have hempty := hr.update (fun j hj z hz => (update_frame (v := (m.head h).first)
        (hr.notMem helm hj) hz).trans (update_frame (v := m.next elm) (hr.notMem ht hj) hz))
        Chain.nil fun _ _ => List.disjoint_nil_left _
      by_cases helast : (m.head h).last = some elm
      · simpa [Mem.setNext, Mem.setLast, helast] using hempty
      · simpa [Mem.setNext, Mem.setLast, helast] using hempty
    · have hinsert := (hr.release l).insert (h := h) (hlast ▸ hr.release_loose hne)
        (by rwa [Function.update_of_ne hl])
      simp only [Function.update_of_ne hl] at hinsert
      rw [Function.update_comm (Ne.symm hl), Function.update_comm (Ne.symm hl)] at hinsert
      by_cases helast : (m.head h).last = some elm
      · rw [if_pos helast] at hinsert
        simpa [Mem.setNext, Mem.setLast, helast, hlast, Function.update_of_ne (Ne.symm hl)]
          using hinsert
      · rw [if_neg helast] at hinsert
        simpa [Mem.setNext, Mem.setLast, helast, Function.update_of_ne (Ne.symm hl)]
          using hinsert

/-- Each macro does what its operation on plain lists says. -/
theorem exec {op : Op κ ι} (hr : Represents m ls) (he : Enabled m ls op) {fuel : Nat}
    (hfuel : ∀ h, (ls h).length < fuel) :
    ∃ m', LinkedList.exec fuel m op = .ok (op.result ls, m') ∧ Represents m' (op.apply ls) ∧
      ∀ x ∈ op.removed ls, m'.next x = none := by
  cases op with
  | insertHead h x => exact ⟨_, rfl, hr.insertHead he.1, fun _ hx => by cases hx⟩
  | insertTail h x =>
    obtain ⟨m', hm, hr'⟩ := hr.insertTail (h := h) he.1 he.2
    exact ⟨m', by rw [LinkedList.exec, hm]; rfl, hr', fun _ hx => by cases hx⟩
  | insertAfter h cur x =>
    exact ⟨_, rfl, hr.insertAfter he.1 he.2.1 he.2.2, fun _ hx => by cases hx⟩
  | removeHead h =>
    obtain ⟨hr', hres, hnext⟩ := hr.removeHead (h := h)
    exact ⟨_, by rw [LinkedList.exec, Op.result, ← hres], hr', hnext⟩
  | remove h x =>
    obtain ⟨m', hm, hr', hnext⟩ := hr.remove he (hfuel h)
    refine ⟨m', hm, hr', fun y hy => ?_⟩
    obtain rfl : x = y := by simpa [Op.removed] using hy
    exact hnext
  | appendList h l =>
    obtain ⟨m', hm, hr'⟩ := hr.appendList (h := h) (l := l)
    exact ⟨m', by rw [LinkedList.exec, hm]; rfl, hr', fun _ hx => by cases hx⟩
  | insertListAfter h l elm =>
    obtain ⟨m', hm, hr'⟩ := hr.insertListAfter he.1 he.2
    exact ⟨m', by rw [LinkedList.exec, hm]; rfl, hr', fun _ hx => by cases hx⟩

end Represents

/-! ## Runs -/

/-- The node the macro puts into a list. -/
def Op.inserted : Op κ ι → Option ι
  | .insertHead _ x | .insertTail _ x | .insertAfter _ _ x => some x
  | _ => none

omit [DecidableEq κ] in
theorem mem_insertBehind {x y : ι} {ys zs : List ι} (h : y ∈ insertBehind x ys zs) :
    y ∈ ys ∨ y ∈ zs := by
  induction zs with
  | nil => cases h
  | cons z zs ih =>
    unfold insertBehind at h
    split at h
    · simp only [List.mem_cons, List.mem_append] at h ⊢
      tauto
    · simp only [List.mem_cons] at h ⊢
      tauto

/-- A macro only puts its own node into the lists. -/
theorem mem_apply {op : Op κ ι} {ls : Lists κ ι} {h : κ} {y : ι} (hy : y ∈ op.apply ls h) :
    (∃ h', y ∈ ls h') ∨ op.inserted = some y := by
  have hupdate : ∀ {k : κ} {xs : List ι} {f : Lists κ ι}, y ∈ Function.update f k xs h →
      y ∈ xs ∨ y ∈ f h := by
    intro k xs f hmem
    by_cases hk : h = k
    · subst hk
      rw [Function.update_self] at hmem
      exact Or.inl hmem
    · rw [Function.update_of_ne hk] at hmem
      exact Or.inr hmem
  cases op with
  | insertHead k x =>
    rcases hupdate hy with h' | h'
    · rcases List.mem_cons.mp h' with rfl | h'
      · exact Or.inr rfl
      · exact Or.inl ⟨k, h'⟩
    · exact Or.inl ⟨h, h'⟩
  | insertTail k x =>
    rcases hupdate hy with h' | h'
    · rcases List.mem_append.mp h' with h' | h'
      · exact Or.inl ⟨k, h'⟩
      · obtain rfl := List.mem_singleton.mp h'
        exact Or.inr rfl
    · exact Or.inl ⟨h, h'⟩
  | insertAfter k cur x =>
    rcases hupdate hy with h' | h'
    · rcases mem_insertBehind h' with h' | h'
      · obtain rfl := List.mem_singleton.mp h'
        exact Or.inr rfl
      · exact Or.inl ⟨k, h'⟩
    · exact Or.inl ⟨h, h'⟩
  | removeHead k =>
    rcases hupdate hy with h' | h'
    · exact Or.inl ⟨k, List.mem_of_mem_tail h'⟩
    · exact Or.inl ⟨h, h'⟩
  | remove k x =>
    rcases hupdate hy with h' | h'
    · exact Or.inl ⟨k, List.mem_of_mem_erase h'⟩
    · exact Or.inl ⟨h, h'⟩
  | appendList k l =>
    rcases hupdate hy with h' | h'
    · cases h'
    · rcases hupdate h' with h' | h'
      · rcases List.mem_append.mp h' with h' | h'
        · exact Or.inl ⟨k, h'⟩
        · exact Or.inl ⟨l, h'⟩
      · exact Or.inl ⟨h, h'⟩
  | insertListAfter k l elm =>
    rcases hupdate hy with h' | h'
    · cases h'
    · rcases hupdate h' with h' | h'
      · rcases mem_insertBehind h' with h' | h'
        · exact Or.inl ⟨l, h'⟩
        · exact Or.inl ⟨k, h'⟩
      · exact Or.inl ⟨h, h'⟩

/-- The heap and the lists it stands for, after a macro. -/
def step (fuel : Nat) (s : Mem κ ι × Lists κ ι) (op : Op κ ι) : Outcome (Mem κ ι × Lists κ ι) := do
  let (_, m) ← exec fuel s.1 op
  .ok (m, op.apply s.2)

/-- Every head is empty. -/
def Mem.init (κ : Type) (next : ι → Option ι) : Mem κ ι where
  next := next
  head _ := {}

theorem Represents.run {m : Mem κ ι} {ls : Lists κ ι} (hr : Represents m ls) {A : Finset ι}
    (hA : ∀ h, ∀ x ∈ ls h, x ∈ A) {fuel : Nat} {ops : List (Op κ ι)}
    (hfuel : A.card + ops.length < fuel)
    (hlegal : Run.Legal (step fuel) (fun s op => Enabled s.1 s.2 op) (m, ls) ops) :
    ∃ m', Run.run (step fuel) (m, ls) ops = .ok (m', ops.foldl (fun ls op => op.apply ls) ls) ∧
      Represents m' (ops.foldl (fun ls op => op.apply ls) ls) ∧
      ∀ h, (ops.foldl (fun ls op => op.apply ls) ls h).length < fuel := by
  have hlen : ∀ h, (ls h).length ≤ A.card := by
    intro h
    rw [← List.toFinset_card_of_nodup (hr.chain h).nodup]
    exact Finset.card_le_card fun x hx => hA h x (List.mem_toFinset.mp hx)
  induction ops generalizing m ls A with
  | nil => exact ⟨m, rfl, hr, fun h => Nat.lt_of_le_of_lt (hlen h) (by simpa using hfuel)⟩
  | cons op ops ih =>
    obtain ⟨he, hlegal⟩ := hlegal
    rw [List.length_cons] at hfuel
    have hfuel1 : ∀ h, (ls h).length < fuel := fun h => by
      have hle := hlen h
      omega
    obtain ⟨m1, hm1, hr1, -⟩ := hr.exec he hfuel1
    have hstep : step fuel (m, ls) op = .ok (m1, op.apply ls) := by
      rw [step, hm1]
      rfl
    have hA1 : ∀ h, ∀ x ∈ op.apply ls h, x ∈ A ∪ op.inserted.toFinset := by
      intro h x hx
      rw [Finset.mem_union, Option.mem_toFinset]
      rcases mem_apply hx with ⟨h', hx'⟩ | hx'
      · exact Or.inl (hA h' x hx')
      · exact Or.inr hx'
    have hcard : (A ∪ op.inserted.toFinset).card ≤ A.card + 1 := by
      have hone : op.inserted.toFinset.card ≤ 1 := by
        cases op.inserted with
        | none => simp
        | some x => simp
      have hunion := Finset.card_union_le A op.inserted.toFinset
      omega
    have hlen1 : ∀ h, (op.apply ls h).length ≤ (A ∪ op.inserted.toFinset).card := by
      intro h
      rw [← List.toFinset_card_of_nodup (hr1.chain h).nodup]
      exact Finset.card_le_card fun x hx => hA1 h x (List.mem_toFinset.mp hx)
    obtain ⟨m', hrun, hr', hlen'⟩ := ih hr1 hA1 (by omega) (hlegal _ hstep) hlen1
    exact ⟨m', (Run.run_cons_of_ok hstep ops).trans hrun, hr', hlen'⟩

omit [DecidableEq κ] [DecidableEq ι] in
theorem represents_init (next : ι → Option ι) :
    Represents (Mem.init κ next) (fun _ => []) :=
  ⟨fun _ => Chain.nil, fun _ => List.disjoint_nil_left _⟩

/-- The list macros implement sequences. However they are used, as long as only free nodes
    that point nowhere are inserted, no macro faults or loops; each head holds a chain of
    distinct nodes, disjoint from all others, whose nodes are those the operations on plain
    lists give; and a node that was taken out points nowhere, so it can be inserted again. -/
theorem macros_implement_lists (next : ι → Option ι) (ops : List (Op κ ι)) {fuel : Nat}
    (hfuel : ops.length < fuel)
    (hlegal : Run.Legal (step fuel) (fun s op => Enabled s.1 s.2 op)
      (Mem.init κ next, fun _ => []) ops) :
    ∃ m ls, Run.run (step fuel) (Mem.init κ next, fun _ => []) ops = .ok (m, ls) ∧
      ls = ops.foldl (fun ls op => op.apply ls) (fun _ => []) ∧ Represents m ls ∧
      (∀ h, ((m.head h).first = none ↔ ls h = []) ∧ ((m.head h).last = none ↔ ls h = [])) ∧
      ∀ op, Enabled m ls op → ∃ m', exec fuel m op = .ok (op.result ls, m') ∧
        Represents m' (op.apply ls) ∧ ∀ x ∈ op.removed ls, m'.next x = none := by
  obtain ⟨m, hrun, hr, hlen⟩ := (represents_init (κ := κ) next).run (A := ∅) (by simp)
    (by simpa using hfuel) hlegal
  exact ⟨m, _, hrun, rfl, hr,
    fun h => ⟨(hr.chain h).first_eq_none, (hr.chain h).last_eq_none⟩,
    fun op he => hr.exec he hlen⟩

/-- A node is inserted, taken out, and inserted again. -/
def reinsertOps : List (Op Unit Nat) :=
  [.insertTail () 1, .insertHead () 2, .remove () 1, .insertTail () 1]

theorem macros_implement_lists_reinsert :
    ∃ m ls, Run.run (step 5) (Mem.init Unit fun _ : Nat => none, fun _ => []) reinsertOps
        = .ok (m, ls) ∧ ls () = [2, 1] ∧ Represents m ls := by
  have hlegal : Run.Legal (step 5) (fun s op => Enabled s.1 s.2 op)
      (Mem.init Unit fun _ : Nat => none, fun _ => []) reinsertOps := by
    refine ⟨⟨fun _ => by simp, rfl⟩, fun s1 h1 => ?_⟩
    obtain rfl := Outcome.ok.inj h1
    refine ⟨⟨fun _ => (by decide : 2 ∉ [1]), rfl⟩, fun s2 h2 => ?_⟩
    obtain rfl := Outcome.ok.inj h2
    refine ⟨Or.inl (by decide : 1 ∈ [2, 1]), fun s3 h3 => ?_⟩
    obtain rfl := Outcome.ok.inj h3
    exact ⟨⟨fun _ => (by decide : 1 ∉ [2]), rfl⟩, fun _ _ => trivial⟩
  obtain ⟨m, ls, hrun, hls, hr, -⟩ :=
    macros_implement_lists (fun _ => none) reinsertOps (by decide) hlegal
  exact ⟨m, ls, hrun, by rw [hls]; rfl, hr⟩

end Spider.LinkedList
