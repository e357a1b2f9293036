import Mathlib.Data.List.ReduceOption
import Spider.Io

/-!
# A round of the I/O table

`spd_io_context_wait` polls the descriptors and calls the callbacks of the ready
entries. An entry that is removed meanwhile, by a callback or because its own
returned 0, is cleared and stays where it is; the table is shrunk when all the
callbacks have returned.
-/

namespace Spider.Io

open Lib Outcome

/-- What `spd_poll` returns, and the `revents` it leaves. -/
structure Polled where
  res : Int32
  revents : Nat → Int16

/-- The call of a callback. -/
structure Call where
  callback : Nat
  id : Addr
  fd : Int32
  revents : Int16
  data : Nat
  deriving DecidableEq, Repr

/-- What a callback does: it removes ids, and returns. -/
structure Reaction where
  removes : List (Option Addr)
  result : Int32
  deriving DecidableEq, Repr

/-- What the callbacks do, given the calls so far and with the last of them. -/
abbrev Callbacks := List Call → Reaction

/-- The turn of an entry whose callback was called: its index, the call and what came of it, and
    the states of the table from the call to the end of the turn. -/
structure Turn where
  x : Nat
  call : Call
  reaction : Reaction
  states : List IoContext

/-- `spd_poll` on the first `fdcnt` descriptors. -/
def spdPoll (ioc : IoContext) (p : Polled) : Outcome IoContext :=
  if ioc.fdcnt.toNat ≤ ioc.fds.length then
    .ok { ioc with fds := ioc.fds.mapIdx fun i fd =>
      if i < ioc.fdcnt.toNat then { fd with revents := p.revents i } else fd }
  else .fault

/-- The removals of a callback, with the states after each of them. -/
def removeAll : List (Option Addr) → IoContext → Outcome (IoContext × List IoContext)
  | [], ioc => .ok (ioc, [])
  | id :: ids, ioc => do
    let (_, ioc) ← spdIoContextRemove ioc id
    let (ioc', states) ← removeAll ids ioc
    .ok (ioc', ioc :: states)

/-- A callback that returned 0 is not to be called again (`io.c:244-247`). -/
def removeOwn (x : Nat) (result : Int32) (ioc : IoContext) : Outcome IoContext :=
  if result = 0 then do
    let r ← ioc.recAt x
    let (_, ioc) ← spdIoContextRemove ioc r.id
    .ok ioc
  else .ok ioc

/-- The call of the callback at index `x`, and what follows on its return (`io.c:244-248`). -/
def takeTurn (callbacks : Callbacks) (calls : List Call) (x : Nat) (call : Call)
    (ioc : IoContext) : Outcome (IoContext × Turn) := do
  let reaction := callbacks (calls ++ [call])
  let (ioc1, states) ← removeAll reaction.removes ioc
  let ioc2 ← removeOwn x reaction.result ioc1
  let ioc3 := { ioc2 with currentIoc := -1 }
  .ok (ioc3, ⟨x, call, reaction, ioc :: states ++ [ioc2, ioc3]⟩)

/-- The loop of `spd_io_context_wait` (`io.c:237-251`) with `n` rounds to go, and the turns so
    far. -/
def waitLoop (callbacks : Callbacks) :
    Nat → Nat → List Turn → IoContext → Outcome (IoContext × List Turn)
  | 0, _, turns, ioc => .ok (ioc, turns)
  | n + 1, x, turns, ioc => do
    let p ← ioc.fdAt x
    if p.revents = 0 then waitLoop callbacks n (x + 1) turns ioc
    else do
      let r ← ioc.recAt x
      match r.id with
      | none => waitLoop callbacks n (x + 1) turns ioc
      | some id => do
        let i ← ioc.readId id
        let ioc := { ioc with currentIoc := i }
        if r.ioCallback = 0 then waitLoop callbacks n (x + 1) turns ioc
        else do
          let call : Call := ⟨r.ioCallback, id, p.fd, p.revents, r.data⟩
          let (ioc, turn) ← takeTurn callbacks (turns.map Turn.call) x call ioc
          waitLoop callbacks n (x + 1) (turns ++ [turn]) ioc

/-- The end of the round (`io.c:253-255`). -/
def endRound (ioc : IoContext) : Outcome IoContext :=
  if ioc.needshrink ≠ 0 then ioShrink ioc else .ok ioc

/-- `spd_io_context_wait` (`io.c:227-258`), with the turns. The count of the entries is put into an
    `int`. -/
def spdIoContextWait (ioc : IoContext) (p : Polled) (callbacks : Callbacks) :
    Outcome (Int32 × IoContext × List Turn) := do
  let ioc ← spdPoll ioc p
  if p.res ≤ 0 then .ok (p.res, ioc, [])
  else do
    let origcnt := ioc.fdcnt.toInt32
    let (ioc, turns) ← waitLoop callbacks origcnt.toInt.toNat 0 [] ioc
    let ioc ← endRound ioc
    .ok (p.res, ioc, turns)

/-! ## What a round does -/

/-- The ids of the entries that a turn takes out of the table. -/
def Turn.removed (turn : Turn) : List Addr :=
  turn.reaction.removes.reduceOption ++ if turn.reaction.result = 0 then [turn.call.id] else []

/-- The ids that the turns take out. -/
def gone (turns : List Turn) : List Addr := turns.flatMap Turn.removed

/-- An entry, cleared if its id is one of `ids`. -/
def Slot.mark (ids : List Addr) (t : Slot) : Slot :=
  if ∃ id ∈ t.2.id, id ∈ ids then t.cleared else t

/-- The entries are where they were, if with some of them cleared. -/
def InPlace (slots : List Slot) (ioc : IoContext) : Prop :=
  ioc.fdcnt.toNat = slots.length ∧
    ∃ ids fds ior, Arrays ioc (slots.map (Slot.mark ids)) fds ior

/-- The call of an entry's own callback. -/
def Slot.call (t : Slot) (id : Addr) : Call := ⟨t.2.ioCallback, id, t.1.fd, t.1.revents, t.2.data⟩

/-- The entries below `n` have had their turns: each that was ready and not removed by an earlier
    one, once, in the order of the entries. -/
structure Dispatched (callbacks : Callbacks) (slots : List Slot) (ready : Nat → Prop) (n : Nat)
    (turns : List Turn) : Prop where
  order : (turns.map Turn.x).Pairwise (· < ·)
  below : ∀ turn ∈ turns, turn.x < n
  called : ∀ j t, j < n → slots[j]? = some t → (j ∈ turns.map Turn.x ↔
    ready j ∧ ∀ turn ∈ turns, turn.x < j → ∀ id ∈ t.2.id, id ∉ turn.removed)
  calls : ∀ turn ∈ turns, ∃ t id, slots[turn.x]? = some t ∧ t.2.id = some id ∧ turn.call = t.call id
  reactions : ∀ before turn behind, turns = before ++ turn :: behind →
    turn.reaction = callbacks (before.map Turn.call ++ [turn.call])

/-- A table between two rounds. -/
structure Settled (ioc : IoContext) (slots : List Slot) : Prop extends Table ioc slots where
  callbacks : ∀ t ∈ slots, t.2.ioCallback ≠ 0
  needshrink : ioc.needshrink = 0

/-! ## Cleared entries -/

section

variable {ioc : IoContext} {slots pre post : List Slot} {t : Slot} {ids ids' : List Addr}
  {id : Addr} {fds : List Pollfd} {ior : List IoRec}

theorem Slot.mark_of_mem (hid : t.2.id = some id) (hmem : id ∈ ids) : t.mark ids = t.cleared :=
  if_pos ⟨id, hid, hmem⟩

theorem Slot.mark_of_notMem (h : ∀ id ∈ t.2.id, id ∉ ids) : t.mark ids = t :=
  if_neg fun ⟨id, hid, hmem⟩ => h id hid hmem

theorem Slot.mark_congr (h : ∀ id ∈ t.2.id, id ∈ ids ↔ id ∈ ids') : t.mark ids = t.mark ids' := by
  have hiff : (∃ id ∈ t.2.id, id ∈ ids) ↔ ∃ id ∈ t.2.id, id ∈ ids' := by
    constructor
    · rintro ⟨id, hid, hmem⟩
      exact ⟨id, hid, (h id hid).mp hmem⟩
    · rintro ⟨id, hid, hmem⟩
      exact ⟨id, hid, (h id hid).mpr hmem⟩
  unfold mark
  rw [if_congr hiff rfl rfl]

/-- Entries with other ids are not cleared. -/
theorem map_mark_other (h : id ∉ slotIds slots) :
    slots.map (Slot.mark (ids ++ [id])) = slots.map (Slot.mark ids) := by
  apply List.map_congr_left
  intro t ht
  apply Slot.mark_congr
  intro p hp
  have hne : p ≠ id := by
    rintro rfl
    exact h (slotIds_mem ht hp)
  simp [hne]

/-- The ids that are left of a marked table. -/
theorem slotIds_mark (ids : List Addr) (slots : List Slot) :
    slotIds (slots.map (Slot.mark ids)) = (slotIds slots).filter (· ∉ ids) := by
  rw [slotIds, slotIds, List.filterMap_map, List.filter_filterMap]
  congr 1
  funext t
  cases hid : t.2.id with
  | none =>
    have hsame : t.mark ids = t := Slot.mark_of_notMem (by simp [hid])
    simp only [Function.comp_apply, hsame, hid, Option.filter_none]
  | some id =>
    by_cases hmem : id ∈ ids
    · simp [Slot.mark_of_mem hid hmem, Slot.cleared, hmem, Option.filter_some]
    · have hsame : t.mark ids = t := Slot.mark_of_notMem (by simpa [hid] using hmem)
      simp [hsame, hid, hmem, Option.filter_some]

/-- The entries that are left of it. -/
theorem kept_mark (hused : ∀ t ∈ slots, t.2.id.isSome) (ids : List Addr) :
    kept (slots.map (Slot.mark ids)) = slots.filter fun t => ∀ id ∈ t.2.id, id ∉ ids := by
  induction slots with
  | nil => rfl
  | cons t slots ih =>
    rw [List.map_cons, List.filter_cons,
      ← ih fun t' ht' => hused t' (List.mem_cons_of_mem t ht')]
    obtain ⟨id, hid⟩ := Option.isSome_iff_exists.mp (hused t List.mem_cons_self)
    by_cases hmem : id ∈ ids
    · rw [Slot.mark_of_mem hid hmem, kept_cons_none rfl]
      simp [hid, hmem]
    · have hsame : t.mark ids = t := Slot.mark_of_notMem (by simpa [hid] using hmem)
      rw [hsame, kept_cons_some hid]
      simp [hid, hmem]

/-! ## Removal during a round -/

/-- A table of which the entries `ids` are cleared. -/
structure Round (slots : List Slot) (fds : List Pollfd) (ior : List IoRec) (ids : List Addr)
    (ioc : IoContext) : Prop where
  arrays : Arrays ioc (slots.map (Slot.mark ids)) fds ior
  fdcnt : ioc.fdcnt.toNat = slots.length
  cells : ∀ j t id, slots[j]? = some t → t.2.id = some id → id ∉ ids →
    ioc.ids.get id = some (Int32.ofNat j)
  settled : ioc.needshrink = 0 → ∀ t ∈ slots, ∀ id ∈ t.2.id, id ∉ ids

theorem Round.inPlace (h : Round slots fds ior ids ioc) : InPlace slots ioc :=
  ⟨h.fdcnt, ids, fds, ior, h.arrays⟩

theorem Round.congr (h : Round slots fds ior ids ioc)
    (hids : ∀ t ∈ slots, ∀ id ∈ t.2.id, id ∈ ids ↔ id ∈ ids') : Round slots fds ior ids' ioc where
  arrays := by
    have hmap : slots.map (Slot.mark ids) = slots.map (Slot.mark ids') :=
      List.map_congr_left fun t ht => Slot.mark_congr (hids t ht)
    rw [← hmap]
    exact h.arrays
  fdcnt := h.fdcnt
  cells j t id ht hid hnot :=
    h.cells j t id ht hid (mt (hids t (List.mem_of_getElem? ht) id hid).mp hnot)
  settled hneed t ht id hid := mt (hids t ht id hid).mpr (h.settled hneed t ht id hid)

theorem Round.numbered (h : Round slots fds ior ids ioc) :
    Numbered ioc.ids 0 (slots.map (Slot.mark ids)) := by
  intro j t' id ht' hid
  rw [List.getElem?_map] at ht'
  obtain ⟨t, ht, rfl⟩ := Option.map_eq_some_iff.mp ht'
  rw [Nat.zero_add]
  have hnot : ∀ p, t.2.id = some p → p ∉ ids := by
    intro p hp hmem
    rw [Slot.mark_of_mem hp hmem] at hid
    exact absurd hid nofun
  rw [Slot.mark_of_notMem hnot] at hid
  exact h.cells j t id ht hid (hnot id hid)

/-- A removal that does not shrink the table clears the entry of the id, if there is one. -/
theorem Round.remove (h : Round slots fds ior ids ioc) (hnodup : (slotIds slots).Nodup)
    (hbusy : ioc.currentIoc ≠ -1) (id : Option Addr) :
    ∃ ret ioc', spdIoContextRemove ioc id = .ok (ret, ioc') ∧
      Round slots fds ior (ids ++ id.toList) ioc' ∧ ioc'.currentIoc = ioc.currentIoc := by
  cases id with
  | none =>
    refine ⟨-1, ioc, rfl, ?_, rfl⟩
    rw [Option.toList_none, List.append_nil]
    exact h
  | some id =>
    rw [Option.toList_some]
    have hlen : ioc.fdcnt.toNat = (slots.map (Slot.mark ids)).length := by
      rw [List.length_map, h.fdcnt]
    by_cases hmem : id ∈ slotIds (slots.map (Slot.mark ids))
    · rw [slotIds_mark] at hmem
      obtain ⟨hmem, hnot⟩ := List.mem_filter.mp hmem
      have hnot : id ∉ ids := by simpa using hnot
      obtain ⟨pre, t, post, rfl, hid⟩ := exists_slot hmem
      have hsame : t.mark ids = t := Slot.mark_of_notMem (by simpa [hid] using hnot)
      obtain ⟨hpre, hpost⟩ := notMem_of_nodup hnodup hid
      have hmarked : (pre ++ t :: post).map (Slot.mark ids) =
          pre.map (Slot.mark ids) ++ t :: post.map (Slot.mark ids) := by
        rw [List.map_append, List.map_cons, hsame]
      have harrays := h.arrays
      rw [hmarked] at harrays hlen
      have hpre' : id ∉ slotIds (pre.map (Slot.mark ids)) := by
        rw [slotIds_mark]
        exact fun hmem => hpre (List.mem_of_mem_filter hmem)
      have hcell := h.cells pre.length t id (by simp) hid hnot
      obtain ⟨ioc1, harrays1, hioc1, hremove⟩ :=
        spdIoContextRemove_some harrays hlen hid hpre' (Heap.mem_dom_of_get hcell)
      rw [if_neg hbusy] at hremove
      refine ⟨0, ioc1, hremove, ?_, ?_⟩
      · constructor
        case arrays =>
          rw [List.map_append, List.map_cons, map_mark_other hpre, map_mark_other hpost,
            Slot.mark_of_mem hid (List.mem_append_right ids List.mem_cons_self)]
          exact harrays1
        case fdcnt =>
          rw [hioc1]
          exact h.fdcnt
        case cells =>
          intro j t' p ht' hp hnot'
          rw [List.mem_append, List.mem_singleton, not_or] at hnot'
          rw [hioc1]
          dsimp only
          rw [Heap.get_free_of_ne ioc.ids hnot'.2]
          exact h.cells j t' p ht' hp hnot'.1
        case settled =>
          intro hneed
          rw [hioc1] at hneed
          have hone : (1 : Int32) = 0 := hneed
          exact absurd hone (by decide)
      · rw [hioc1]
    · refine ⟨-1, ioc, spdIoContextRemove_none h.arrays hlen hmem, ?_, rfl⟩
      apply h.congr
      intro t ht p hp
      rw [slotIds_mark] at hmem
      rw [List.mem_append, List.mem_singleton]
      constructor
      · exact Or.inl
      · rintro (hp' | rfl)
        · exact hp'
        · by_contra hnot
          exact hmem (List.mem_filter.mpr ⟨slotIds_mem ht hp, by simpa using hnot⟩)

theorem removeAll_spec (removes : List (Option Addr)) (h : Round slots fds ior ids ioc)
    (hnodup : (slotIds slots).Nodup) (hbusy : ioc.currentIoc ≠ -1) :
    ∃ ioc' states, removeAll removes ioc = .ok (ioc', states) ∧
      Round slots fds ior (ids ++ removes.reduceOption) ioc' ∧ ioc'.currentIoc ≠ -1 ∧
      ∀ c ∈ states, InPlace slots c := by
  induction removes generalizing ioc ids with
  | nil =>
    refine ⟨ioc, [], rfl, ?_, hbusy, nofun⟩
    rw [List.reduceOption_nil, List.append_nil]
    exact h
  | cons p removes ih =>
    obtain ⟨ret, ioc1, hremove, h1, hsame⟩ := h.remove hnodup hbusy p
    obtain ⟨ioc', states, hall, h', hbusy', hplace⟩ := ih h1 (hsame ▸ hbusy)
    refine ⟨ioc', ioc1 :: states, ?_, ?_, hbusy', ?_⟩
    · rw [removeAll, hremove, ok_bind]
      dsimp only
      rw [hall, ok_bind]
    · have hids : ids ++ (p :: removes).reduceOption =
          ids ++ p.toList ++ removes.reduceOption := by
        cases p with
        | none => rw [List.reduceOption_cons_of_none, Option.toList_none, List.append_nil]
        | some id =>
          rw [List.reduceOption_cons_of_some, Option.toList_some, List.append_assoc,
            List.singleton_append]
      rw [hids]
      exact h'
    · intro c hc
      rcases List.mem_cons.mp hc with rfl | hc
      · exact h1.inPlace
      · exact hplace c hc

/-! ## A turn -/

theorem Round.idle (h : Round slots fds ior ids ioc) (i : Int32) :
    Round slots fds ior ids { ioc with currentIoc := i } :=
  ⟨⟨h.arrays.fds, h.arrays.ior⟩, h.fdcnt, h.cells, h.settled⟩

theorem Round.recAt (h : Round (pre ++ t :: post) fds ior ids ioc) :
    ioc.recAt pre.length = .ok (t.mark ids).2 := by
  have harrays := h.arrays
  rw [List.map_append, List.map_cons] at harrays
  rw [← harrays.recAt, List.length_map]

theorem Round.fdAt (h : Round (pre ++ t :: post) fds ior ids ioc) :
    ioc.fdAt pre.length = .ok (t.mark ids).1 := by
  have harrays := h.arrays
  rw [List.map_append, List.map_cons] at harrays
  rw [← harrays.fdAt, List.length_map]

/-- An entry whose callback returned 0 is removed, if the callback has not done so itself. -/
theorem Round.remove_own (h : Round (pre ++ t :: post) fds ior ids ioc)
    (hnodup : (slotIds (pre ++ t :: post)).Nodup) (hbusy : ioc.currentIoc ≠ -1)
    (hid : t.2.id = some id) (result : Int32) :
    ∃ ioc', removeOwn pre.length result ioc = .ok ioc' ∧
      Round (pre ++ t :: post) fds ior (ids ++ if result = 0 then [id] else []) ioc' := by
  unfold removeOwn
  by_cases hresult : result = 0
  · rw [if_pos hresult, if_pos hresult, h.recAt, ok_bind]
    obtain ⟨ret, ioc', hremove, h', -⟩ := h.remove hnodup hbusy (t.mark ids).2.id
    refine ⟨ioc', by rw [hremove, ok_bind], ?_⟩
    by_cases hmem : id ∈ ids
    · -- it was cleared by its own callback
      rw [Slot.mark_of_mem hid hmem] at h'
      apply h'.congr
      intro t' _ p _
      show p ∈ ids ++ [] ↔ _
      rw [List.append_nil, List.mem_append, List.mem_singleton]
      constructor
      · exact Or.inl
      · rintro (hp | rfl)
        · exact hp
        · exact hmem
    · rw [Slot.mark_of_notMem (by simpa [hid] using hmem), hid, Option.toList_some] at h'
      exact h'
  · rw [if_neg hresult, if_neg hresult, List.append_nil]
    exact ⟨ioc, rfl, h⟩

/-- The callback of an entry is called, and the entry is removed if it returned 0. -/
theorem takeTurn_spec (callbacks : Callbacks) (calls : List Call) (call : Call)
    (h : Round (pre ++ t :: post) fds ior ids ioc) (hnodup : (slotIds (pre ++ t :: post)).Nodup)
    (hbusy : ioc.currentIoc ≠ -1) (hid : t.2.id = some call.id) :
    ∃ ioc' turn, takeTurn callbacks calls pre.length call ioc = .ok (ioc', turn) ∧
      Round (pre ++ t :: post) fds ior (ids ++ turn.removed) ioc' ∧ ioc'.currentIoc = -1 ∧
      turn.x = pre.length ∧ turn.call = call ∧ turn.reaction = callbacks (calls ++ [call]) ∧
      ∀ c ∈ turn.states, InPlace (pre ++ t :: post) c := by
  obtain ⟨ioc1, states, hall, h1, hbusy1, hplace⟩ :=
    removeAll_spec (callbacks (calls ++ [call])).removes h hnodup hbusy
  obtain ⟨ioc2, hown, h2⟩ := h1.remove_own hnodup hbusy1 hid (callbacks (calls ++ [call])).result
  refine ⟨{ ioc2 with currentIoc := -1 }, ⟨pre.length, call, callbacks (calls ++ [call]),
    ioc :: states ++ [ioc2, { ioc2 with currentIoc := -1 }]⟩, ?_, ?_, rfl, rfl, rfl, rfl, ?_⟩
  · rw [takeTurn]
    dsimp only
    rw [hall, ok_bind]
    dsimp only
    rw [hown, ok_bind]
  · rw [Turn.removed, ← List.append_assoc]
    exact h2.idle (-1)
  · intro c hc
    rcases List.mem_append.mp hc with hc | hc
    · rcases List.mem_cons.mp hc with rfl | hc
      · exact h.inPlace
      · exact hplace c hc
    · rcases List.mem_cons.mp hc with rfl | hc
      · exact h2.inPlace
      · rw [List.mem_singleton.mp hc]
        exact (h2.idle (-1)).inPlace

/-! ## The loop -/

theorem mem_gone {turns : List Turn} : id ∈ gone turns ↔ ∃ turn ∈ turns, id ∈ turn.removed :=
  List.mem_flatMap

/-- An entry that is not ready or has been removed has no turn. -/
theorem Dispatched.skip {callbacks : Callbacks} {ready : Nat → Prop} {n : Nat} {turns : List Turn}
    (h : Dispatched callbacks slots ready n turns) (ht : slots[n]? = some t)
    (hskip : ¬ ready n ∨ ∃ id ∈ t.2.id, id ∈ gone turns) :
    Dispatched callbacks slots ready (n + 1) turns where
  order := h.order
  below turn hturn := Nat.lt_succ_of_lt (h.below turn hturn)
  called j t' hj ht' := by
    rcases Nat.lt_succ_iff_lt_or_eq.mp hj with hj | rfl
    · exact h.called j t' hj ht'
    obtain rfl := Option.some.inj (ht.symm.trans ht')
    have hnot : j ∉ turns.map Turn.x := by
      intro hmem
      obtain ⟨turn, hturn, rfl⟩ := List.mem_map.mp hmem
      exact Nat.lt_irrefl _ (h.below turn hturn)
    refine iff_of_false hnot ?_
    rintro ⟨hready, hnone⟩
    rcases hskip with hskip | ⟨id, hid, hgone⟩
    · exact hskip hready
    · obtain ⟨turn, hturn, hmem⟩ := mem_gone.mp hgone
      exact hnone turn hturn (h.below turn hturn) id hid hmem
  calls := h.calls
  reactions := h.reactions

/-- An entry that is ready and has not been removed has its turn. -/
theorem Dispatched.turn {callbacks : Callbacks} {ready : Nat → Prop} {n : Nat} {turns : List Turn}
    (h : Dispatched callbacks slots ready n turns) (ht : slots[n]? = some t)
    (hid : t.2.id = some id) (hready : ready n) (hnot : id ∉ gone turns) {turn : Turn}
    (hx : turn.x = n) (hcall : turn.call = t.call id)
    (hreaction : turn.reaction = callbacks (turns.map Turn.call ++ [turn.call])) :
    Dispatched callbacks slots ready (n + 1) (turns ++ [turn]) := by
  constructor
  case order =>
    rw [List.map_append, List.pairwise_append]
    refine ⟨h.order, List.pairwise_singleton _ _, ?_⟩
    intro x hmem y hy
    obtain ⟨turn', hturn', rfl⟩ := List.mem_map.mp hmem
    rw [List.map_singleton, List.mem_singleton] at hy
    rw [hy, hx]
    exact h.below turn' hturn'
  case below =>
    intro turn' hturn'
    rcases List.mem_append.mp hturn' with hturn' | hturn'
    · exact Nat.lt_succ_of_lt (h.below turn' hturn')
    · rw [List.mem_singleton.mp hturn', hx]
      exact Nat.lt_succ_self n
  case called =>
    intro j t' hj ht'
    rw [List.map_append, List.mem_append, List.map_singleton, List.mem_singleton, hx]
    rcases Nat.lt_succ_iff_lt_or_eq.mp hj with hj | rfl
    · rw [or_iff_left (Nat.ne_of_lt hj), h.called j t' hj ht']
      -- the new turn is not before this entry's
      refine and_congr_right fun _ => ⟨fun hnone turn' hturn' hlt => ?_,
        fun hnone turn' hturn' => hnone turn' (List.mem_append_left _ hturn')⟩
      rcases List.mem_append.mp hturn' with hturn' | hturn'
      · exact hnone turn' hturn' hlt
      · rw [List.mem_singleton.mp hturn', hx] at hlt
        exact absurd hlt (Nat.lt_asymm hj)
    · obtain rfl := Option.some.inj (ht.symm.trans ht')
      refine iff_of_true (Or.inr rfl) ⟨hready, ?_⟩
      intro turn' hturn' hlt p hp
      rcases List.mem_append.mp hturn' with hturn' | hturn'
      · obtain rfl := Option.some.inj (hid.symm.trans hp)
        exact fun hmem => hnot (mem_gone.mpr ⟨turn', hturn', hmem⟩)
      · rw [List.mem_singleton.mp hturn', hx] at hlt
        exact absurd hlt (Nat.lt_irrefl _)
  case calls =>
    intro turn' hturn'
    rcases List.mem_append.mp hturn' with hturn' | hturn'
    · exact h.calls turn' hturn'
    · rw [List.mem_singleton.mp hturn', hx]
      exact ⟨t, id, ht, hid, hcall⟩
  case reactions =>
    intro before turn' behind heq
    rcases List.eq_nil_or_concat behind with rfl | ⟨behind, last, rfl⟩
    · obtain ⟨rfl, hlast⟩ := List.append_inj' heq rfl
      rw [← List.cons.inj hlast |>.1]
      exact hreaction
    · rw [List.concat_eq_append, ← List.cons_append, ← List.append_assoc] at heq
      exact h.reactions before turn' behind (List.append_inj' heq rfl).1

/-- Where the loop is when the entries below `n` have had their turns. -/
structure Dispatching (callbacks : Callbacks) (slots : List Slot) (ready : Nat → Prop)
    (fds : List Pollfd) (ior : List IoRec) (n : Nat) (ioc : IoContext) (turns : List Turn) :
    Prop where
  round : Round slots fds ior (gone turns) ioc
  idle : ioc.currentIoc = -1
  dispatched : Dispatched callbacks slots ready n turns
  inPlace : ∀ turn ∈ turns, ∀ c ∈ turn.states, InPlace slots c

theorem Dispatching.skip {callbacks : Callbacks} {ready : Nat → Prop} {n : Nat}
    {turns : List Turn} (h : Dispatching callbacks slots ready fds ior n ioc turns)
    (ht : slots[n]? = some t) (hskip : ¬ ready n ∨ ∃ id ∈ t.2.id, id ∈ gone turns) :
    Dispatching callbacks slots ready fds ior (n + 1) ioc turns :=
  ⟨h.round, h.idle, h.dispatched.skip ht hskip, h.inPlace⟩

theorem gone_concat (turns : List Turn) (turn : Turn) :
    gone (turns ++ [turn]) = gone turns ++ turn.removed := by
  rw [gone, List.flatMap_append, List.flatMap_singleton, gone]

/-- An index is not what `current_ioc` is between callbacks. -/
theorem ofNat_ne_neg_one {n : Nat} (h : n < 2 ^ 31) : Int32.ofNat n ≠ -1 := by
  intro heq
  have hint : (Int32.ofNat n).toInt = n := Int32.toInt_ofNat_of_lt h
  rw [heq] at hint
  have hneg : ((-1 : Int32)).toInt = -1 := rfl
  omega

/-- The round of the loop for an entry that is ready and has not been removed. -/
theorem Dispatching.turn {callbacks : Callbacks} {ready : Nat → Prop} {turns : List Turn}
    (h : Dispatching callbacks (pre ++ t :: post) ready fds ior pre.length ioc turns)
    (hsmall : pre.length < 2 ^ 31) (hnodup : (slotIds (pre ++ t :: post)).Nodup)
    (hid : t.2.id = some id) (hready : ready pre.length) (hnot : id ∉ gone turns) :
    ∃ ioc' turn, takeTurn callbacks (turns.map Turn.call) pre.length (t.call id)
        { ioc with currentIoc := Int32.ofNat pre.length } = .ok (ioc', turn) ∧
      Dispatching callbacks (pre ++ t :: post) ready fds ior (pre.length + 1) ioc'
        (turns ++ [turn]) := by
  have ht : (pre ++ t :: post)[pre.length]? = some t := by simp
  obtain ⟨ioc', turn, hturn, hround, hidle, hx, hcall, hreaction, hplace⟩ :=
    takeTurn_spec callbacks (turns.map Turn.call) (t.call id)
      (h.round.idle (Int32.ofNat pre.length)) hnodup (ofNat_ne_neg_one hsmall) hid
  refine ⟨ioc', turn, hturn, ?_⟩
  constructor
  case round =>
    rw [gone_concat]
    exact hround
  case idle => exact hidle
  case dispatched =>
    apply h.dispatched.turn ht hid hready hnot hx hcall
    rw [hcall]
    exact hreaction
  case inPlace =>
    intro turn' hturn'
    rcases List.mem_append.mp hturn' with hturn' | hturn'
    · exact h.inPlace turn' hturn'
    · rw [List.mem_singleton.mp hturn']
      exact hplace

/-- From the state in which the entries before them have had their turns, the entries `todo` get
    theirs. -/
theorem waitLoop_spec {callbacks : Callbacks} {ready : Nat → Prop} (hsmall : slots.length < 2 ^ 31)
    (hused : ∀ t ∈ slots, t.2.id.isSome) (hnodup : (slotIds slots).Nodup)
    (hcallbacks : ∀ t ∈ slots, t.2.ioCallback ≠ 0)
    (hready : ∀ j t, slots[j]? = some t → (ready j ↔ t.1.revents ≠ 0)) (todo : List Slot)
    {pre : List Slot} {turns : List Turn} {ioc : IoContext} (hslots : slots = pre ++ todo)
    (h : Dispatching callbacks slots ready fds ior pre.length ioc turns) :
    ∃ ioc' turns', waitLoop callbacks todo.length pre.length turns ioc = .ok (ioc', turns') ∧
      Dispatching callbacks slots ready fds ior slots.length ioc' turns' := by
  induction todo generalizing pre turns ioc with
  | nil =>
    rw [List.append_nil] at hslots
    refine ⟨ioc, turns, rfl, ?_⟩
    rw [hslots]
    rw [hslots] at h
    exact h
  | cons t todo ih =>
    have hnext : slots = (pre ++ [t]) ++ todo := by simpa using hslots
    have hlen : (pre ++ [t]).length = pre.length + 1 := List.length_append
    subst hslots
    have ht : (pre ++ t :: todo)[pre.length]? = some t := by simp
    have hmem : t ∈ pre ++ t :: todo := List.mem_of_getElem? ht
    obtain ⟨id, hid⟩ := Option.isSome_iff_exists.mp (hused t hmem)
    have hrest := @ih (pre ++ [t])
    rw [hlen] at hrest
    rw [List.length_cons, waitLoop, h.round.fdAt, ok_bind]
    by_cases hgone : id ∈ gone turns
    · -- cleared, so that its `revents` are 0
      rw [Slot.mark_of_mem hid hgone]
      exact hrest hnext (h.skip ht (Or.inr ⟨id, hid, hgone⟩))
    · rw [h.round.recAt, Slot.mark_of_notMem (by simpa [hid] using hgone)]
      by_cases hrevents : t.1.revents = 0
      · rw [if_pos hrevents]
        exact hrest hnext (h.skip ht (Or.inl fun hr => (hready _ t ht).mp hr hrevents))
      · have hread : ioc.readId id = .ok (Int32.ofNat pre.length) := by
          rw [IoContext.readId, h.round.cells pre.length t id ht hid hgone]
        have hindex : pre.length < 2 ^ 31 := by
          rw [List.length_append] at hsmall
          omega
        obtain ⟨ioc1, turn, hturn, h1⟩ :=
          h.turn hindex hnodup hid ((hready _ t ht).mpr hrevents) hgone
        obtain ⟨ioc', turns', hloop, h'⟩ := hrest hnext h1
        refine ⟨ioc', turns', ?_, h'⟩
        rw [if_neg hrevents, ok_bind, hid]
        dsimp only
        rw [hread, ok_bind, if_neg (hcallbacks t hmem), ← hloop]
        exact congrArg (· >>= _) hturn

/-! ## The round -/

/-- The entries as `spd_poll` leaves them. -/
def polled (p : Polled) (slots : List Slot) : List Slot :=
  slots.mapIdx fun i t => ({ t.1 with revents := p.revents i }, t.2)

theorem getElem?_polled {p : Polled} {j : Nat} : (polled p slots)[j]? =
    slots[j]?.map fun t => ({ t.1 with revents := p.revents j }, t.2) := List.getElem?_mapIdx

@[simp] theorem length_polled (p : Polled) (slots : List Slot) :
    (polled p slots).length = slots.length := List.length_mapIdx

/-- The poll leaves the records alone. -/
theorem map_snd_polled (p : Polled) (slots : List Slot) :
    (polled p slots).map Prod.snd = slots.map Prod.snd := by
  apply List.ext_getElem?
  intro j
  rw [List.getElem?_map, List.getElem?_map, getElem?_polled, Option.map_map]
  rfl

theorem slotIds_polled (p : Polled) (slots : List Slot) :
    slotIds (polled p slots) = slotIds slots := by
  have hids : ∀ slots : List Slot, slotIds slots = (slots.map Prod.snd).filterMap IoRec.id := by
    intro slots
    rw [List.filterMap_map]
    rfl
  rw [hids, hids, map_snd_polled]

theorem spdPoll_spec (p : Polled) (harrays : Arrays ioc slots fds ior)
    (hfdcnt : ioc.fdcnt.toNat = slots.length) :
    ∃ ioc1, spdPoll ioc p = .ok ioc1 ∧ Arrays ioc1 (polled p slots) fds ior ∧
      ioc1 = { ioc with fds := ioc1.fds } := by
  have hlen : ioc.fdcnt.toNat ≤ ioc.fds.length := by
    rw [harrays.fds, hfdcnt, List.length_append, List.length_map]
    exact Nat.le_add_right _ _
  refine ⟨_, if_pos hlen, ?_, rfl⟩
  constructor
  · apply List.ext_getElem?
    intro j
    dsimp only
    rw [List.getElem?_mapIdx, harrays.fds, hfdcnt]
    by_cases hj : j < slots.length
    · rw [List.getElem?_append_left (by simpa using hj),
        List.getElem?_append_left (by simpa using hj), List.getElem?_map, List.getElem?_map,
        getElem?_polled, Option.map_map, Option.map_map]
      simp only [hj, if_true]
      rfl
    · rw [List.getElem?_append_right (by simpa using hj),
        List.getElem?_append_right (by simpa using hj), List.length_map, List.length_map,
        length_polled]
      simp only [hj, if_false, Option.map_id']
  · rw [map_snd_polled]
    exact harrays.ior

/-- Between two rounds no entry is cleared. -/
theorem Settled.polled (h : Settled ioc slots) (p : Polled) : ∃ ioc1, spdPoll ioc p = .ok ioc1 ∧
    Settled ioc1 (polled p slots) := by
  obtain ⟨fds, ior, harrays⟩ := h.arrays
  obtain ⟨ioc1, hpoll, harrays1, hioc1⟩ := spdPoll_spec p harrays h.fdcnt
  have hmem : ∀ t' ∈ Io.polled p slots, ∃ t ∈ slots, t'.2 = t.2 := by
    intro t' ht'
    obtain ⟨r, hr, heq⟩ := List.mem_map.mp (map_snd_polled p slots ▸ List.mem_map_of_mem ht')
    exact ⟨r, hr, heq.symm⟩
  refine ⟨ioc1, hpoll, ?_⟩
  constructor
  case toTable =>
    constructor
    case arrays => exact ⟨fds, ior, harrays1⟩
    case fdcnt =>
      rw [hioc1, length_polled]
      exact h.fdcnt
    case small =>
      rw [length_polled]
      exact h.small
    case used =>
      intro t' ht'
      obtain ⟨t, ht, heq⟩ := hmem t' ht'
      rw [heq]
      exact h.used t ht
    case nodup =>
      rw [slotIds_polled]
      exact h.nodup
    case numbered =>
      rw [hioc1]
      intro j t' id ht' hid
      rw [getElem?_polled] at ht'
      obtain ⟨t, ht, rfl⟩ := Option.map_eq_some_iff.mp ht'
      exact h.numbered j t id ht hid
    case idle =>
      rw [hioc1]
      exact h.idle
  case callbacks =>
    intro t' ht'
    obtain ⟨t, ht, heq⟩ := hmem t' ht'
    rw [heq]
    exact h.callbacks t ht
  case needshrink =>
    rw [hioc1]
    exact h.needshrink

theorem ioShrink_needshrink {ioc' : IoContext} (h : ioShrink ioc = .ok ioc') :
    ioc'.needshrink = 0 := by
  obtain ⟨⟨putto, ioc1⟩, -, hioc'⟩ := Outcome.bind_eq_ok.mp h
  rw [← Outcome.ok.inj hioc']

/-- What is left of a table when the entries of some ids are gone. -/
def remaining (ids : List Addr) (slots : List Slot) : List Slot :=
  slots.filter fun t => ∀ id ∈ t.2.id, id ∉ ids

theorem remaining_of_notMem (h : ∀ t ∈ slots, ∀ id ∈ t.2.id, id ∉ ids) :
    remaining ids slots = slots := by
  apply List.filter_eq_self.mpr
  intro t ht
  exact decide_eq_true (h t ht)

/-- After the last turn the table is shrunk, if anything has been removed. -/
theorem Round.settle (h : Round slots fds ior ids ioc) (hsmall : slots.length < 2 ^ 31)
    (hused : ∀ t ∈ slots, t.2.id.isSome) (hnodup : (slotIds slots).Nodup)
    (hcallbacks : ∀ t ∈ slots, t.2.ioCallback ≠ 0) (hidle : ioc.currentIoc = -1) :
    ∃ ioc', endRound ioc = .ok ioc' ∧ Settled ioc' (remaining ids slots) := by
  have hleft : ∀ t ∈ remaining ids slots, t.2.ioCallback ≠ 0 :=
    fun t ht => hcallbacks t (List.mem_of_mem_filter ht)
  unfold endRound
  by_cases hneed : ioc.needshrink = 0
  · rw [if_neg (not_not.mpr hneed)]
    refine ⟨ioc, rfl, ?_⟩
    have hnone := h.settled hneed
    rw [remaining_of_notMem hnone] at hleft ⊢
    have hmarked : slots.map (Slot.mark ids) = slots := by
      have hself : slots.map (Slot.mark ids) = slots.map fun t => t :=
        List.map_congr_left fun t ht => Slot.mark_of_notMem (hnone t ht)
      rw [hself, List.map_id']
    have harrays := h.arrays
    have hnumbered := h.numbered
    rw [hmarked] at harrays hnumbered
    exact ⟨⟨⟨fds, ior, harrays⟩, h.fdcnt, hsmall, hused, hnodup, hnumbered, hidle⟩, hleft, hneed⟩
  · rw [if_pos hneed]
    have hlen : (slots.map (Slot.mark ids)).length = slots.length := List.length_map _
    have hnodup' : (slotIds (slots.map (Slot.mark ids))).Nodup := by
      rw [slotIds_mark]
      exact hnodup.filter _
    obtain ⟨ioc', hshrink, htable⟩ := ioShrink_spec h.arrays (hlen ▸ h.fdcnt) (hlen ▸ hsmall)
      hnodup' h.numbered hidle
    rw [kept_mark hused] at htable
    exact ⟨ioc', hshrink, htable, hleft, ioShrink_needshrink hshrink⟩

/-- Without a ready entry there are no turns. -/
theorem dispatched_nil (callbacks : Callbacks) (slots : List Slot) {ready : Nat → Prop} {n : Nat}
    (h : ∀ j, j < n → ¬ ready j) : Dispatched callbacks slots ready n [] where
  order := List.Pairwise.nil
  below := nofun
  called j t hj _ := iff_of_false List.not_mem_nil fun hready => h j hj hready.1
  calls := nofun
  reactions before turn behind heq := by simp at heq

end

/-- A round gives each ready entry that no earlier turn has removed one turn, in order, with the
    entries in their places, and leaves a table of the entries that are not removed. -/
theorem spdIoContextWait_dispatches {ioc : IoContext} {slots : List Slot} (h : Settled ioc slots)
    (p : Polled) (callbacks : Callbacks) :
    ∃ ioc' turns, spdIoContextWait ioc p callbacks = .ok (p.res, ioc', turns) ∧
      Dispatched callbacks (polled p slots) (fun j => 0 < p.res ∧ p.revents j ≠ 0) slots.length
        turns ∧
      (∀ turn ∈ turns, ∀ c ∈ turn.states, InPlace (polled p slots) c) ∧
      Settled ioc' (remaining (gone turns) (polled p slots)) := by
  obtain ⟨ioc1, hpoll, h1⟩ := h.polled p
  obtain ⟨fds, ior, harrays⟩ := h1.arrays
  by_cases hres : p.res ≤ 0
  · refine ⟨ioc1, [], ?_, ?_, nofun, ?_⟩
    · rw [spdIoContextWait, hpoll, ok_bind, if_pos hres]
    · apply dispatched_nil
      exact fun j _ hready => Int32.not_le.mpr hready.1 hres
    · rw [gone, List.flatMap_nil, remaining_of_notMem fun t _ id _ => List.not_mem_nil]
      exact h1
  · have hpos : 0 < p.res := Int32.not_le.mp hres
    have hround : Round (polled p slots) fds ior (gone []) ioc1 := by
      constructor
      case arrays =>
        have hself : (polled p slots).map (Slot.mark (gone [])) = (polled p slots).map fun t => t :=
          List.map_congr_left fun t _ => Slot.mark_of_notMem fun id _ => List.not_mem_nil
        rw [hself, List.map_id']
        exact harrays
      case fdcnt => exact h1.fdcnt
      case cells =>
        intro j t id ht hid _
        rw [h1.numbered j t id ht hid, Nat.zero_add]
      case settled => exact fun _ t _ id _ => List.not_mem_nil
    have hstart : Dispatching callbacks (polled p slots)
        (fun j => 0 < p.res ∧ p.revents j ≠ 0) fds ior ([] : List Slot).length ioc1 [] :=
      ⟨hround, h1.idle, dispatched_nil _ _ fun j hj => absurd hj (Nat.not_lt_zero j), nofun⟩
    have hready : ∀ j t, (polled p slots)[j]? = some t →
        (0 < p.res ∧ p.revents j ≠ 0 ↔ t.1.revents ≠ 0) := by
      intro j t ht
      rw [getElem?_polled] at ht
      obtain ⟨t, -, rfl⟩ := Option.map_eq_some_iff.mp ht
      exact and_iff_right hpos
    obtain ⟨ioc2, turns, hloop, h2⟩ := waitLoop_spec h1.small h1.used h1.nodup h1.callbacks hready
      (polled p slots) (List.nil_append _).symm hstart
    obtain ⟨ioc', hshrink, h'⟩ :=
      h2.round.settle h1.small h1.used h1.nodup h1.callbacks h2.idle
    have hcnt : ioc1.fdcnt.toInt32.toInt.toNat = (polled p slots).length := by
      rw [CInt.toInt_toInt32 (h1.fdcnt ▸ h1.small), h1.fdcnt]
      rfl
    refine ⟨ioc', turns, ?_, ?_, h2.inPlace, h'⟩
    · rw [spdIoContextWait, hpoll, ok_bind, if_neg hres]
      dsimp only
      rw [hcnt]
      refine (congrArg (· >>= _) hloop).trans ?_
      rw [ok_bind]
      dsimp only
      rw [hshrink, ok_bind]
    · rw [← length_polled p slots]
      exact h2.dispatched

/-- A table of two entries, with the ids 8 and 16. -/
def twoEntries : IoContext where
  fds := [⟨3, 1, 0⟩, ⟨4, 1, 0⟩]
  ior := [⟨100, 0, some 8⟩, ⟨200, 0, some 16⟩]
  fdcnt := 2
  maxfdcnt := 256
  currentIoc := -1
  needshrink := 0
  ids := (Heap.set (∅ : Heap Int32) 8 0).set 16 1

@[inherit_doc twoEntries] def twoSlots : List Slot :=
  [(⟨3, 1, 0⟩, ⟨100, 0, some 8⟩), (⟨4, 1, 0⟩, ⟨200, 0, some 16⟩)]

theorem settled_twoEntries : Settled twoEntries twoSlots := by
  have hnumbered : Numbered twoEntries.ids 0 twoSlots := by
    intro j t id ht hid
    match j with
    | 0 =>
      obtain rfl := Option.some.inj ht
      obtain rfl := Option.some.inj hid
      exact (Heap.get_set_of_ne _ _ (by decide)).trans (Heap.get_set_self _ _ _)
    | 1 =>
      obtain rfl := Option.some.inj ht
      obtain rfl := Option.some.inj hid
      exact Heap.get_set_self _ _ _
    | _ + 2 => exact absurd ht nofun
  exact ⟨⟨⟨[], [], rfl, rfl⟩, rfl, by decide, by decide, by decide, hnumbered, rfl⟩,
    by decide, rfl⟩

/-- Both entries are ready; the callback of the first removes both of them and returns 0. -/
theorem spdIoContextWait_dispatches_first : ∃ ioc' turns,
    spdIoContextWait twoEntries ⟨2, fun _ => 1⟩ (fun _ => ⟨[some 16, some 8], 0⟩) =
      .ok (2, ioc', turns) ∧
    Dispatched (fun _ => ⟨[some 16, some 8], 0⟩) (polled ⟨2, fun _ => 1⟩ twoSlots)
      (fun _ => (0 : Int32) < 2 ∧ (1 : Int16) ≠ 0) 2 turns ∧
    (∀ turn ∈ turns, ∀ c ∈ turn.states, InPlace (polled ⟨2, fun _ => 1⟩ twoSlots) c) ∧
    Settled ioc' (remaining (gone turns) (polled ⟨2, fun _ => 1⟩ twoSlots)) :=
  spdIoContextWait_dispatches settled_twoEntries ⟨2, fun _ => 1⟩ _

end Spider.Io
