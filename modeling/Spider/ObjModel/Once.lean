import Spider.ObjModel.Results
import Spider.ObjModel.System
import Mathlib.Data.List.Rotate

/-!
# Searches with `OBJ_CONTINUE`

A search with `OBJ_POINTER` and `OBJ_CONTINUE` starts at the hashed bucket and
goes on at the first one behind the last. The position in the loop says also
that the search is to stop, and that it has to start over: where it stops
behind the wrap, and the hashed bucket is the last one, it starts over once
more.
-/

namespace Spider.ObjModel

open Lib Outcome Walk

variable {α : Type} {flags : SearchFlags} {g : List MatchCall → BucketEntry → Int32}
  {bs : List (List BucketEntry)} {calls news : List MatchCall} {es : List BucketEntry}
  {start i last : Nat}

/-! ## A pass of the loop -/

theorem SearchFlags.ends_of_returns {r : Int32} (h : flags.returns r = true) :
    flags.ends r = true := by
  simp only [SearchFlags.returns, Bool.and_eq_true, Bool.not_eq_true'] at h
  simp [SearchFlags.ends, h]

/-- As long as nothing ends the search it returns nothing. -/
theorem result_of_not_ended (hresult : result flags calls = NULL)
    (h : ended flags.ends news = false) : result flags (calls ++ news) = NULL := by
  rcases List.eq_nil_or_concat news with rfl | ⟨vs, ⟨e, r⟩, rfl⟩
  · rwa [List.append_nil]
  · rw [List.concat_eq_append] at h ⊢
    simp only [ended_append, ended_cons, ended_nil, Bool.or_false, Bool.or_eq_false_iff] at h
    rw [← List.append_assoc, result_concat, if_neg]
    exact fun hreturns => absurd (SearchFlags.ends_of_returns hreturns) (by simp [h.2])

theorem left_append_entries (xs ys : List BucketEntry) :
    left flags calls (xs ++ ys) = left flags calls xs ++ left flags calls ys :=
  List.filter_append xs ys

theorem left_comm (es : List BucketEntry) :
    left flags news (left flags calls es) = left flags calls (left flags news es) := by
  rw [left, left, left, left, List.filter_filter, List.filter_filter]
  exact List.filter_congr fun e _ => Bool.and_comm _ _

/-- Calls for other entries unlink none of these. -/
theorem left_walk {xs ys : List BucketEntry} (hd : ((xs ++ ys).map BucketEntry.addr).Nodup)
    (hsub : es ⊆ xs) : left flags (walk g flags.ends calls es) ys = ys := by
  refine left_eq fun e he => ?_
  rw [List.map_append, List.nodup_append] at hd
  simp only [gone, Bool.and_eq_false_iff, List.any_eq_false]
  right
  intro call hcall
  have hmem := List.mem_map_of_mem (f := BucketEntry.addr) (hsub (mem_of_mem_walk hcall))
  have hne := hd.2.2 _ hmem _ (List.mem_map_of_mem he)
  simp [hne]

theorem left_subset : left flags calls es ⊆ es := fun _ he => List.mem_of_mem_filter he

/-- A walk along what is left in the buckets from `i` up to `last` goes along bucket `i`, and then,
    unless it has ended, along what is left in the others. -/
theorem walk_buckets (hd : (bs.flatten.map BucketEntry.addr).Nodup) (hlast : last ≤ bs.length)
    (hi : i < last) (hnews : news = walk g flags.ends calls (left flags calls (bs[i]?.getD []))) :
    walk g flags.ends calls (left flags calls ((bs.take last).drop i).flatten) =
      news ++ if ended flags.ends news then [] else
        walk g flags.ends (calls ++ news)
          (left flags (calls ++ news) ((bs.take last).drop (i + 1)).flatten) := by
  have hlen : i < bs.length := by omega
  have hget : bs[i]?.getD [] = bs[i] := by rw [List.getElem?_eq_getElem hlen, Option.getD_some]
  rw [hget] at hnews
  have hdrop : (bs.take last).drop i = bs[i] :: (bs.take last).drop (i + 1) := by
    have hlt : i < (bs.take last).length := by
      rw [List.length_take]
      omega
    rw [List.drop_eq_getElem_cons hlt, List.getElem_take]
  have hsub : (bs[i] ++ ((bs.take last).drop (i + 1)).flatten).Sublist bs.flatten := by
    have hflat : bs[i] ++ ((bs.take last).drop (i + 1)).flatten =
        ((bs.take last).drop i).flatten := by rw [hdrop, List.flatten_cons]
    rw [hflat]
    exact ((List.drop_sublist i _).trans (List.take_sublist last bs)).flatten
  have hnodup := hd.sublist (hsub.map BucketEntry.addr)
  have hrest : left flags (calls ++ news) ((bs.take last).drop (i + 1)).flatten =
      left flags calls ((bs.take last).drop (i + 1)).flatten := by
    rw [left_append, left_comm, hnews, left_walk hnodup left_subset]
  rw [hrest, hdrop, List.flatten_cons, left_append_entries, walk_append, ← hnews]

/-- Behind the last bucket the loop has ended. -/
theorem loopWalk_done (start fuel : Nat) {j : Nat} (hj : last ≤ j) (calls : List MatchCall) :
    loopWalk flags g bs start (fuel + 1) j last calls = some calls := by
  rw [loopWalk, if_neg (not_lt.mpr hj)]

/-- One pass of the loop, from bucket `i` on, is a walk along what is left in the buckets up to
    `last`. -/
theorem loopWalk_pass (start : Nat) (hd : (bs.flatten.map BucketEntry.addr).Nodup)
    (hlast : last ≤ bs.length) (hi : i < last) (hresult : result flags calls = NULL)
    (hnews : news = walk g flags.ends calls (left flags calls ((bs.take last).drop i).flatten)) :
    ∃ n, ∀ fuel, loopWalk flags g bs start (fuel + n) i last calls =
      if result flags (calls ++ news) ≠ NULL then some (calls ++ news)
      else if (if ended flags.ends news then last + 1 else last) = bs.length ∧ flags.pointer ∧
          flags.continue_ then
        loopWalk flags g bs start fuel 0 start (calls ++ news)
      else some (calls ++ news) := by
  induction hk : last - i generalizing i calls news with
  | zero => omega
  | succ k ih =>
    obtain ⟨news₁, hnews₁⟩ : ∃ news₁, news₁ =
        walk g flags.ends calls (left flags calls (bs[i]?.getD [])) := ⟨_, rfl⟩
    have hsplit := hnews.trans (walk_buckets hd hlast hi hnews₁)
    have hstep : ∀ fuel, loopWalk flags g bs start (fuel + 1) i last calls =
        if result flags (calls ++ news₁) ≠ NULL then some (calls ++ news₁)
        else if (if ended flags.ends news₁ then last else i) + 1 = bs.length ∧ flags.pointer ∧
            flags.continue_ then
          loopWalk flags g bs start fuel 0 start (calls ++ news₁)
        else loopWalk flags g bs start fuel ((if ended flags.ends news₁ then last else i) + 1) last
          (calls ++ news₁) := by
      intro fuel
      rw [loopWalk, if_pos hi, hnews₁]
    cases hended : ended flags.ends news₁ with
    | true =>
      rw [hended, if_pos rfl, List.append_nil] at hsplit
      subst hsplit
      simp only [hended, if_true] at hstep ⊢
      by_cases hwrap : last + 1 = bs.length ∧ flags.pointer = true ∧ flags.continue_ = true
      · refine ⟨1, fun fuel => ?_⟩
        rw [hstep, if_pos hwrap, if_pos hwrap]
      · refine ⟨2, fun fuel => ?_⟩
        rw [hstep, if_neg hwrap, if_neg hwrap, loopWalk_done start fuel (Nat.le_succ last)]
    | false =>
      have hnull : result flags (calls ++ news₁) = NULL := result_of_not_ended hresult hended
      rw [hended, if_neg Bool.false_ne_true] at hsplit
      simp only [hended, Bool.false_eq_true, if_false, hnull, ne_eq, not_true_eq_false] at hstep
      by_cases hnext : i + 1 < last
      · have hwrap : ¬ (i + 1 = bs.length ∧ flags.pointer = true ∧ flags.continue_ = true) := by
          omega
        obtain ⟨n, hn⟩ := ih hnext hnull rfl (by omega)
        refine ⟨n + 1, fun fuel => ?_⟩
        have hended' : ended flags.ends news = ended flags.ends (walk g flags.ends (calls ++ news₁)
            (left flags (calls ++ news₁) ((bs.take last).drop (i + 1)).flatten)) := by
          rw [hsplit, ended_append, hended, Bool.false_or]
        rw [← Nat.add_assoc, hstep, if_neg hwrap, hn fuel, hended', hsplit, ← List.append_assoc]
      · have heq : i + 1 = last := by omega
        have hempty : ((bs.take last).drop (i + 1)).flatten = [] := by
          rw [heq, List.drop_eq_nil_of_le (List.length_take_le _ _), List.flatten_nil]
        rw [hempty] at hsplit
        have hsame : news = news₁ := by simpa [left, Walk.walk] using hsplit
        subst hsame
        rw [hnull, hended]
        simp only [ne_eq, not_true_eq_false, if_false, Bool.false_eq_true]
        by_cases hwrap : last = bs.length ∧ flags.pointer = true ∧ flags.continue_ = true
        · refine ⟨1, fun fuel => ?_⟩
          rw [hstep, heq, if_pos hwrap, if_pos hwrap]
        · refine ⟨2, fun fuel => ?_⟩
          rw [hstep, heq, if_neg hwrap, if_neg hwrap, loopWalk_done start fuel (Nat.le_refl last)]

theorem loopWalk_mono {fuel : Nat} {calls' : List MatchCall}
    (h : loopWalk flags g bs start fuel i last calls = some calls') (more : Nat) :
    loopWalk flags g bs start (fuel + more) i last calls = some calls' := by
  induction fuel generalizing i last calls with
  | zero => exact absurd h nofun
  | succ fuel ih =>
    rw [loopWalk] at h
    rw [Nat.succ_add, loopWalk]
    by_cases hlt : i < last
    · rw [if_pos hlt] at h ⊢
      dsimp only at h ⊢
      generalize (if ended flags.ends (walk g flags.ends calls (left flags calls (bs[i]?.getD [])))
        then last else i) = j at h ⊢
      split at h
      next hret => rw [if_pos hret, h]
      next hret =>
        rw [if_neg hret]
        split at h
        next hwrap => rw [if_pos hwrap, ih h]
        next hwrap => rw [if_neg hwrap, ih h]
    · rw [if_neg hlt] at h ⊢
      exact h

/-- No call is taken back. -/
theorem loopWalk_isPrefix {fuel : Nat} {calls' : List MatchCall}
    (h : loopWalk flags g bs start fuel i last calls = some calls') : calls <+: calls' := by
  induction fuel generalizing i last calls with
  | zero => exact absurd h nofun
  | succ fuel ih =>
    rw [loopWalk] at h
    split at h
    · dsimp only at h
      generalize (if ended flags.ends (walk g flags.ends calls (left flags calls (bs[i]?.getD [])))
        then last else i) = j at h
      split at h
      · obtain rfl := Option.some.inj h
        exact List.prefix_append _ _
      split at h
      · exact (List.prefix_append _ _).trans (ih h)
      · exact (List.prefix_append _ _).trans (ih h)
    · obtain rfl := Option.some.inj h
      exact List.prefix_refl _

/-- A pass that comes to an end has made its calls. -/
theorem loopWalk_pass_isPrefix {fuel : Nat} {calls' : List MatchCall}
    (hd : (bs.flatten.map BucketEntry.addr).Nodup) (hlast : last ≤ bs.length) (hi : i < last)
    (hresult : result flags calls = NULL)
    (h : loopWalk flags g bs start fuel i last calls = some calls') :
    calls ++ walk g flags.ends calls (left flags calls ((bs.take last).drop i).flatten) <+:
      calls' := by
  obtain ⟨n, hn⟩ := loopWalk_pass start hd hlast hi hresult rfl
  have hrun := loopWalk_mono h n
  rw [hn] at hrun
  generalize (if ended flags.ends (walk g flags.ends calls
    (left flags calls ((bs.take last).drop i).flatten)) then last + 1 else last) = j at hrun
  split at hrun
  · obtain rfl := Option.some.inj hrun
    exact List.prefix_refl _
  split at hrun
  · exact loopWalk_isPrefix hrun
  · obtain rfl := Option.some.inj hrun
    exact List.prefix_refl _

/-! ## What a search is to do -/

/-- What a search that starts at bucket `k` of the buckets `bs` is to do, by its calls, what it
    returns, and the buckets behind it: it calls the match function for one entry after the other
    in the cyclic order of the buckets, for each at most once, stops at the first `CMP_STOP`, and
    without `OBJ_MULTIPLE` returns or unlinks one object at most. -/
structure Once (flags : SearchFlags) (bs after : List (List BucketEntry)) (k : Nat)
    (calls : List MatchCall) (ret : Addr) : Prop where
  order : calls.map Prod.fst <+: (bs.rotate k).flatten
  nodup : (calls.map Prod.fst).Nodup
  stop : ∀ call ∈ calls.dropLast, stops call.2 = false
  single : flags.multiple = false → ∃ e,
    (∀ x ∈ bs.flatten, x ∉ after.flatten → x = e) ∧ (ret ≠ NULL → ret = e.pobj)

/-- The search does not start over again behind the wrap, or finds nothing then that it should not
    find. -/
inductive Undisturbed (flags : SearchFlags) (g : List MatchCall → BucketEntry → Int32)
    (bs : List (List BucketEntry)) (k : Nat) : Prop
  /-- The hashed bucket is not the last one. -/
  | bucket (h : k + 1 < bs.length)
  /-- A call for an entry of the hashed bucket, and those behind it, ends the search. -/
  | early (h : ended flags.ends (walk g flags.ends [] (bs.drop k).flatten) = true)
  /-- No call ends it. -/
  | never (h : ended flags.ends (walk g flags.ends [] (bs.rotate k).flatten) = false)
  /-- The call that ends it makes it return the object. -/
  | returned (h : result flags (walk g flags.ends [] (bs.rotate k).flatten) ≠ NULL)
  /-- Nothing is left in the other buckets. -/
  | emptied (h : left flags (walk g flags.ends [] (bs.rotate k).flatten) (bs.take k).flatten = [])
  /-- The first entry of the other buckets is unlinked, without a stop, and no call for the others
      would end the search. -/
  | alone (hunlink : flags.unlink = true)
      (hfirst : (walk g flags.ends [] (bs.rotate k).flatten).length =
        (bs.drop k).flatten.length + 1)
      (hstop : ∀ call ∈ (walk g flags.ends [] (bs.rotate k).flatten).getLast?,
        stops call.2 = false)
      (hothers : ended flags.ends (walk g flags.ends (walk g flags.ends [] (bs.rotate k).flatten)
        (left flags (walk g flags.ends [] (bs.rotate k).flatten) (bs.take k).flatten)) = false)

section

variable {k : Nat} {x e : BucketEntry} {r : Int32} {ret : Addr}

theorem gone_iff : gone flags calls e = true ↔
    flags.unlink = true ∧ ∃ call ∈ calls, call.1.addr = e.addr ∧ reports call.2 = true := by
  simp [gone]

theorem mem_left : e ∈ left flags calls es ↔ e ∈ es ∧ gone flags calls e = false := by
  simp [left]

theorem gone_of_not_mem (he : e ∈ bs.flatten) (h : e ∉ (bs.map (left flags calls)).flatten) :
    gone flags calls e = true := by
  obtain ⟨es, hes, he⟩ := List.mem_flatten.mp he
  by_contra hgone
  exact h (List.mem_flatten.mpr ⟨_, List.mem_map_of_mem hes,
    mem_left.mpr ⟨he, Bool.eq_false_iff.mpr hgone⟩⟩)

theorem not_mem_of_gone (h : gone flags calls e = true) :
    e ∉ (bs.map (left flags calls)).flatten := by
  intro he
  obtain ⟨es, hes, he⟩ := List.mem_flatten.mp he
  obtain ⟨b, -, rfl⟩ := List.mem_map.mp hes
  exact absurd h (by rw [(mem_left.mp he).2]; exact Bool.false_ne_true)

theorem reports_of_ends (hm : flags.multiple = false) : flags.ends r = (stops r || reports r) := by
  simp [SearchFlags.ends, hm]

theorem rotate_flatten (hk : k ≤ bs.length) :
    (bs.rotate k).flatten = (bs.drop k).flatten ++ (bs.take k).flatten := by
  rw [List.rotate_eq_drop_append_take hk, List.flatten_append]

theorem nodup_rotate (hd : (bs.flatten.map BucketEntry.addr).Nodup) :
    ((bs.rotate k).flatten.map BucketEntry.addr).Nodup :=
  ((bs.rotate_perm k).flatten.map _).nodup_iff.mpr hd

theorem mem_rotate_flatten : e ∈ (bs.rotate k).flatten ↔ e ∈ bs.flatten :=
  (bs.rotate_perm k).flatten.mem_iff

/-- Where all matches are for one entry, no other is unlinked or returned. -/
theorem single_of (hd : (bs.flatten.map BucketEntry.addr).Nodup) (hx : x ∈ bs.flatten)
    (hcalls : ∀ call ∈ calls, reports call.2 = true → call.1 = x)
    (hret : ret ≠ NULL → ret = x.pobj) :
    ∃ e, (∀ y ∈ bs.flatten, y ∉ (bs.map (left flags calls)).flatten → y = e) ∧
      (ret ≠ NULL → ret = e.pobj) := by
  refine ⟨x, fun y hy hgone => ?_, hret⟩
  obtain ⟨-, call, hcall, haddr, hreports⟩ := gone_iff.mp (gone_of_not_mem hy hgone)
  rw [hcalls call hcall hreports] at haddr
  exact (List.inj_on_of_nodup_map hd hx hy haddr).symm

/-- Where there is no match, nothing is unlinked or returned. -/
theorem single_of_none (hcalls : ∀ call ∈ calls, reports call.2 = false) (hret : ret = NULL) :
    ∃ e, (∀ y ∈ bs.flatten, y ∉ (bs.map (left flags calls)).flatten → y = e) ∧
      (ret ≠ NULL → ret = e.pobj) := by
  refine ⟨⟨0, 0, 0⟩, fun y hy hgone => ?_, fun hne => absurd hret hne⟩
  obtain ⟨-, call, hcall, -, hreports⟩ := gone_iff.mp (gone_of_not_mem hy hgone)
  exact absurd hreports (by rw [hcalls call hcall]; exact Bool.false_ne_true)

theorem not_reports_of_not_ended (hm : flags.multiple = false)
    (h : ended flags.ends calls = false) : ∀ call ∈ calls, reports call.2 = false := by
  intro call hcall
  have hends := Bool.eq_false_iff.mpr (List.any_eq_false.mp h call hcall)
  rw [reports_of_ends hm, Bool.or_eq_false_iff] at hends
  exact hends.2

theorem stops_of_ends {r : Int32} (h : flags.ends r = false) : stops r = false := by
  rw [SearchFlags.ends, Bool.or_eq_false_iff] at h
  exact h.1

/-- A walk along the entries in their cyclic order does what a search is to do. -/
theorem once_walk (hd : (bs.flatten.map BucketEntry.addr).Nodup)
    (hcalls : calls = walk g flags.ends [] (bs.rotate k).flatten) :
    Once flags bs (bs.map (left flags calls)) k calls (result flags calls) := by
  have horder : calls.map Prod.fst <+: (bs.rotate k).flatten := hcalls ▸ fst_isPrefix
  refine ⟨horder, ((nodup_rotate hd).of_map _).sublist horder.sublist, ?_, ?_⟩
  · intro call hcall
    rw [hcalls] at hcall
    exact stops_of_ends (not_ends_of_mem_dropLast hcall)
  · intro hm
    cases hended : ended flags.ends calls with
    | false =>
      refine single_of_none (not_reports_of_not_ended hm hended) ?_
      have hnone : result flags ([] ++ calls) = NULL := result_of_not_ended rfl hended
      rwa [List.nil_append] at hnone
    | true =>
      rw [hcalls] at hended
      obtain ⟨vs, ⟨x, r⟩, hvs, -, hnone⟩ := ended_iff.mp hended
      rw [← hcalls] at hvs
      have hx : x ∈ bs.flatten := by
        refine mem_rotate_flatten.mp (horder.subset ?_)
        rw [hvs]
        exact List.mem_map_of_mem (f := Prod.fst) (List.mem_append_right vs List.mem_cons_self)
      refine single_of (x := x) hd hx ?_ ?_
      · intro call hcall hreports
        rw [hvs] at hcall
        rcases List.mem_append.mp hcall with hmem | hmem
        · have hnot := not_reports_of_not_ended hm hnone call hmem
          exact absurd (hreports.symm.trans hnot) Bool.false_ne_true.symm
        · rw [List.mem_singleton.mp hmem]
      · intro hne
        rw [hvs, result_concat] at hne ⊢
        split at hne
        next hreturns => rw [if_pos hreturns]
        next => exact absurd rfl hne

/-! ## The run -/

/-- The search starts over behind the wrap. -/
structure Restarts (flags : SearchFlags) (g : List MatchCall → BucketEntry → Int32)
    (bs : List (List BucketEntry)) (k : Nat) : Prop where
  bucket : k + 1 = bs.length
  first : ended flags.ends (walk g flags.ends [] (bs.drop k).flatten) = false
  ends : ended flags.ends (walk g flags.ends [] (bs.rotate k).flatten) = true
  null : result flags (walk g flags.ends [] (bs.rotate k).flatten) = NULL

theorem restarts_or_undisturbed (hk : k < bs.length) :
    Restarts flags g bs k ∨ k + 1 < bs.length ∨
      ended flags.ends (walk g flags.ends [] (bs.drop k).flatten) = true ∨
      ended flags.ends (walk g flags.ends [] (bs.rotate k).flatten) = false ∨
      result flags (walk g flags.ends [] (bs.rotate k).flatten) ≠ NULL := by
  by_cases hlast : k + 1 < bs.length
  · exact .inr (.inl hlast)
  cases hfirst : ended flags.ends (walk g flags.ends [] (bs.drop k).flatten) with
  | true => exact .inr (.inr (.inl rfl))
  | false =>
    cases hended : ended flags.ends (walk g flags.ends [] (bs.rotate k).flatten) with
    | false => exact .inr (.inr (.inr (.inl rfl)))
    | true =>
      by_cases hnull : result flags (walk g flags.ends [] (bs.rotate k).flatten) = NULL
      · exact .inl ⟨by omega, hfirst, hended, hnull⟩
      · exact .inr (.inr (.inr (.inr hnull)))

theorem mem_dropLast_of_isPrefix {vs ws : List MatchCall} {v w : MatchCall}
    (h : vs ++ [v] ++ w :: ws <+: calls) : v ∈ calls.dropLast := by
  obtain ⟨us, rfl⟩ := h
  have hlist : vs ++ [v] ++ w :: ws ++ us = vs ++ v :: w :: (ws ++ us) := by simp
  rw [hlist, List.dropLast_append_of_ne_nil (List.cons_ne_nil _ _), List.dropLast_cons_cons]
  exact List.mem_append_right vs List.mem_cons_self

theorem not_gone_of_not_reports (h : ∀ call ∈ calls, reports call.2 = false) (e : BucketEntry) :
    gone flags calls e = false := by
  by_contra hgone
  obtain ⟨-, call, hcall, -, hreports⟩ := gone_iff.mp (Bool.not_eq_false _ ▸ hgone)
  exact absurd hreports (by rw [h call hcall]; exact Bool.false_ne_true)

theorem gone_append (e : BucketEntry) :
    gone flags (calls ++ news) e = (gone flags calls e || gone flags news e) := by
  simp [gone, Bool.and_or_distrib_left]

variable (hd : (bs.flatten.map BucketEntry.addr).Nodup) (hk : k < bs.length)
  (hp : flags.pointer = true) (hc : flags.continue_ = true)

include hd hk hp hc

/-- The first pass, and the one behind the wrap, are the walk along the cyclic order; behind it the
    search is over, or starts over. -/
theorem loopWalk_rotate : ∃ n, ∀ fuel, loopWalk flags g bs k (fuel + n) k bs.length [] =
    if k + 1 = bs.length ∧ ended flags.ends (walk g flags.ends [] (bs.drop k).flatten) = false ∧
        ended flags.ends (walk g flags.ends [] (bs.rotate k).flatten) = true ∧
        result flags (walk g flags.ends [] (bs.rotate k).flatten) = NULL then
      loopWalk flags g bs k fuel 0 k (walk g flags.ends [] (bs.rotate k).flatten)
    else some (walk g flags.ends [] (bs.rotate k).flatten) := by
  have hdrop : left flags [] ((bs.take bs.length).drop k).flatten = (bs.drop k).flatten := by
    rw [List.take_length, left_nil]
  obtain ⟨n, hn⟩ := loopWalk_pass (g := g) k hd (Nat.le_refl bs.length) hk
    (result_nil : result flags [] = NULL) rfl
  rw [hdrop] at hn
  obtain ⟨first, hfirst⟩ : ∃ first, first = walk g flags.ends [] (bs.drop k).flatten := ⟨_, rfl⟩
  have hwhole : walk g flags.ends [] (bs.rotate k).flatten =
      first ++ if ended flags.ends first then []
        else walk g flags.ends first (bs.take k).flatten := by
    rw [rotate_flatten hk.le, walk_append, List.nil_append, ← hfirst]
  rw [← hfirst] at hn ⊢
  rw [hwhole]
  simp only [List.nil_append] at hn
  cases hended : ended flags.ends first with
  | true =>
    refine ⟨n, fun fuel => ?_⟩
    rw [hn]
    simp [hended]
  | false =>
    have hnull : result flags first = NULL := by
      have hnone : result flags ([] ++ first) = NULL := result_of_not_ended rfl hended
      rwa [List.nil_append] at hnone
    -- the first pass is over, and the search goes on at the first bucket
    have hwrap : ∀ fuel, loopWalk flags g bs k (fuel + n) k bs.length [] =
        loopWalk flags g bs k fuel 0 k first := by
      intro fuel
      rw [hn]
      simp [hended, hnull, hp, hc]
    rcases Nat.eq_zero_or_pos k with rfl | hpos
    · refine ⟨n + 1, fun fuel => ?_⟩
      rw [← Nat.add_assoc, Nat.add_right_comm, hwrap, loopWalk, if_neg (Nat.lt_irrefl 0)]
      simp [Walk.walk, hended]
    · have hsecond : left flags first ((bs.take k).drop 0).flatten = (bs.take k).flatten := by
        rw [List.drop_zero, hfirst]
        refine left_walk ?_ (fun e he => he)
        rw [← rotate_flatten hk.le]
        exact nodup_rotate hd
      obtain ⟨n₂, hn₂⟩ := loopWalk_pass k hd hk.le hpos hnull
        (Eq.refl (walk g flags.ends first (left flags first ((bs.take k).drop 0).flatten)))
      rw [hsecond] at hn₂
      refine ⟨n₂ + n, fun fuel => ?_⟩
      rw [← Nat.add_assoc, hwrap, hn₂]
      cases hended₂ : ended flags.ends (walk g flags.ends first (bs.take k).flatten) with
      | false =>
        have hlt : k ≠ bs.length := hk.ne
        simp [hended, hended₂, hlt]
      | true =>
        by_cases hret : result flags (first ++ walk g flags.ends first (bs.take k).flatten) = NULL
        · simp [hended, hended₂, hret, hp, hc]
        · simp [hended, hended₂, hret]

omit hd hp hc in
/-- Where the search starts over, the last call of the walk is for an entry `x` of the other
    buckets. -/
theorem Restarts.split (h : Restarts flags g bs k) : ∃ first seen x r post,
    walk g flags.ends [] (bs.rotate k).flatten = first ++ seen ++ [(x, r)] ∧
      first.map Prod.fst = (bs.drop k).flatten ∧
      (bs.take k).flatten = seen.map Prod.fst ++ x :: post ∧
      flags.ends r = true ∧ ended flags.ends (first ++ seen) = false := by
  obtain ⟨-, hfirst, hends, -⟩ := h
  rw [rotate_flatten hk.le, walk_append, hfirst, if_neg Bool.false_ne_true, List.nil_append,
    ended_append, hfirst, Bool.false_or] at hends
  obtain ⟨seen, ⟨x, r⟩, hseen, hr, hnone⟩ := ended_iff.mp hends
  have hmade : (walk g flags.ends (walk g flags.ends [] (bs.drop k).flatten)
      (bs.take k).flatten).map Prod.fst <+: (bs.take k).flatten := fst_isPrefix
  rw [hseen] at hmade
  obtain ⟨post, hpost⟩ := hmade
  refine ⟨_, seen, x, r, post, ?_, fst_eq hfirst, ?_, hr, ?_⟩
  · rw [rotate_flatten hk.le, walk_append, hfirst, if_neg Bool.false_ne_true, List.nil_append,
      hseen, List.append_assoc]
  · rw [← hpost]
    simp
  · rw [ended_append, hfirst, hnone]
    rfl

section Again

variable {first seen : List MatchCall} {post : List BucketEntry} {fuel : Nat}
  (hr : flags.ends r = true) (hnone : ended flags.ends (first ++ seen) = false)
  (hsecond : (bs.take k).flatten = seen.map Prod.fst ++ x :: post)
  (honce : Once flags bs (bs.map (left flags calls)) k calls (result flags calls))

include hr honce in
omit hd hk hp hc in
/-- The call that should have ended the search is not the last one, so that it is a match without a
    stop. -/
theorem matches_of_goes_on (h : (x, r) ∈ calls.dropLast) :
    stops r = false ∧ reports r = true ∧ flags.multiple = false := by
  have hstop : stops r = false := honce.stop _ h
  rw [SearchFlags.ends, hstop, Bool.false_or, Bool.and_eq_true, Bool.not_eq_true'] at hr
  exact ⟨hstop, hr⟩

include hd hnone hsecond in
omit hk hp hc in
/-- What is called for next is the first entry of the other buckets, unless it has been unlinked. -/
theorem seen_of_next {y : BucketEntry} {rest : List BucketEntry} (hm : flags.multiple = false)
    (hrest : left flags (first ++ seen ++ [(x, r)]) (bs.take k).flatten = y :: rest)
    (hy : y ∉ (first ++ seen ++ [(x, r)]).map Prod.fst) : seen = [] ∧ flags.unlink = true := by
  have hquiet := not_reports_of_not_ended hm hnone
  have hnodup : ((seen.map Prod.fst ++ x :: post).map BucketEntry.addr).Nodup := by
    rw [← hsecond]
    exact hd.sublist ((List.take_sublist k bs).flatten.map _)
  constructor
  · rcases seen with _ | ⟨⟨s, rs⟩, seen⟩
    · rfl
    -- the first entry of the other buckets has been called for, and is still there
    have hne : x.addr ≠ s.addr := by
      rw [List.map_cons, List.cons_append, List.map_cons, List.nodup_cons] at hnodup
      exact fun heq => hnodup.1 (heq ▸ List.mem_map_of_mem
        (List.mem_append_right _ List.mem_cons_self))
    have hgone : gone flags (first ++ (s, rs) :: seen ++ [(x, r)]) s = false := by
      rw [gone_append, not_gone_of_not_reports hquiet, Bool.false_or]
      simp [gone, hne]
    rw [hsecond, left, List.map_cons, List.cons_append,
      List.filter_cons_of_pos (by rw [hgone]; rfl)]
      at hrest
    obtain ⟨rfl, -⟩ := List.cons.inj hrest
    exact absurd (by simp) hy
  · by_contra hunlink
    have hgone : ∀ e, gone flags (first ++ seen ++ [(x, r)]) e = false := by
      intro e
      simp [gone, Bool.eq_false_iff.mpr hunlink]
    rw [left_eq fun e _ => hgone e, hsecond] at hrest
    rcases seen with _ | ⟨⟨s, rs⟩, seen⟩
    · obtain ⟨rfl, -⟩ := List.cons.inj hrest
      exact hy (by simp)
    · obtain ⟨rfl, -⟩ := List.cons.inj hrest
      exact hy (by simp)

include hd hk hp hc honce in
/-- Behind an unlinked match no further call ends the search: another match would be unlinked too,
    and a stop would make the search start over once more. -/
theorem not_ended_of_goes_on {whole : List MatchCall} (hbucket : k + 1 = bs.length) (hpos : 0 < k)
    (hm : flags.multiple = false) (hx : x ∈ bs.flatten) (hgone : gone flags whole x = true)
    (hresult : result flags whole = NULL)
    (hrun : loopWalk flags g bs k fuel 0 k whole = some calls) :
    ended flags.ends (walk g flags.ends whole (left flags whole (bs.take k).flatten)) = false := by
  obtain ⟨again, hagain⟩ : ∃ again, again =
      walk g flags.ends whole (left flags whole (bs.take k).flatten) := ⟨_, rfl⟩
  rw [← hagain]
  by_contra hended
  have hended := Bool.eq_true_of_not_eq_false hended
  obtain ⟨vs, ⟨z, rz⟩, hvs, hz, hnone⟩ := ended_iff.mp (hagain ▸ hended)
  rw [← hagain] at hvs
  have hmade := loopWalk_pass_isPrefix hd hk.le hpos hresult hrun
  rw [List.drop_zero, ← hagain] at hmade
  have hmem : ∀ call ∈ whole ++ again, call ∈ calls := fun call hcall => hmade.subset hcall
  have hzmem : (z, rz) ∈ again := by
    rw [hvs]
    simp
  have hzleft : z ∈ left flags whole (bs.take k).flatten := by
    rw [hagain] at hzmem
    exact mem_of_mem_walk hzmem
  obtain ⟨hzsecond, hzkept⟩ := mem_left.mp hzleft
  have hzbs : z ∈ bs.flatten := (List.take_sublist k bs).flatten.subset hzsecond
  have hzcall : (z, rz) ∈ whole ++ again := List.mem_append_right whole hzmem
  obtain ⟨hunlink, call, hcall, haddr, hreports⟩ := gone_iff.mp hgone
  cases hzreports : reports rz with
  | true =>
    obtain ⟨e, hall, -⟩ := honce.single hm
    have hxgone : gone flags calls x = true :=
      gone_iff.mpr ⟨hunlink, call, hmem _ (List.mem_append_left _ hcall), haddr, hreports⟩
    have hzgone : gone flags calls z = true :=
      gone_iff.mpr ⟨hunlink, (z, rz), hmem _ hzcall, rfl, hzreports⟩
    have hsame : z = x :=
      (hall z hzbs (not_mem_of_gone hzgone)).trans (hall x hx (not_mem_of_gone hxgone)).symm
    rw [hsame, hgone] at hzkept
    exact absurd hzkept Bool.noConfusion
  | false =>
    have hzstop : stops rz = true := by
      rw [reports_of_ends hm, hzreports, Bool.or_false] at hz
      exact hz
    have hnull : result flags (whole ++ again) = NULL := by
      rw [hvs, ← List.append_assoc, result_concat, if_neg]
      simp [SearchFlags.returns, hzreports]
    -- the search starts over, and calls for an entry again
    obtain ⟨n, hn⟩ := loopWalk_pass k hd hk.le hpos hresult
      (hagain.trans (by rw [List.drop_zero]))
    have hnext := loopWalk_mono hrun n
    rw [hn, if_neg (not_not.mpr hnull), hended, if_pos rfl, if_pos ⟨hbucket, hp, hc⟩] at hnext
    have hquiet : ∀ call ∈ again, reports call.2 = false := by
      intro call hcall
      rw [hvs] at hcall
      rcases List.mem_append.mp hcall with hcall | hcall
      · exact not_reports_of_not_ended hm hnone call hcall
      · rw [List.mem_singleton.mp hcall]
        exact hzreports
    have hzagain : z ∈ left flags (whole ++ again) (bs.take k).flatten := by
      refine mem_left.mpr ⟨hzsecond, ?_⟩
      rw [gone_append, hzkept, not_gone_of_not_reports hquiet]
      rfl
    have hmore := loopWalk_pass_isPrefix hd hk.le hpos hnull hnext
    rw [List.drop_zero] at hmore
    obtain ⟨y, rest, hrest⟩ := List.exists_cons_of_ne_nil (List.ne_nil_of_mem hzagain)
    rw [hrest, Walk.walk, hvs, ← List.append_assoc] at hmore
    exact absurd (honce.stop _ (mem_dropLast_of_isPrefix hmore))
      (by rw [hzstop]; exact Bool.noConfusion)

end Again

/-- A search that starts over and does what it is to do all the same. -/
theorem undisturbed_of_restarts (h : Restarts flags g bs k) {fuel : Nat}
    (hrun : loopWalk flags g bs k fuel k bs.length [] = some calls)
    (honce : Once flags bs (bs.map (left flags calls)) k calls (result flags calls)) :
    Undisturbed flags g bs k := by
  obtain ⟨n, hn⟩ := loopWalk_rotate (g := g) hd hk hp hc
  have hagain := loopWalk_mono hrun n
  rw [hn, if_pos ⟨h.bucket, h.first, h.ends, h.null⟩] at hagain
  by_cases hempty : left flags (walk g flags.ends [] (bs.rotate k).flatten) (bs.take k).flatten = []
  · exact .emptied hempty
  have hpos : 0 < k := by
    rcases Nat.eq_zero_or_pos k with rfl | hpos
    · simp [left] at hempty
    · exact hpos
  obtain ⟨first, seen, x, r, post, hwhole, hfst, hsecond, hr, hnone⟩ := h.split hk
  obtain ⟨y, rest, hrest⟩ := List.exists_cons_of_ne_nil hempty
  have hmade := loopWalk_pass_isPrefix hd hk.le hpos h.null hagain
  rw [List.drop_zero, hrest, Walk.walk, hwhole] at hmade
  obtain ⟨hstop, hreports, hm⟩ := matches_of_goes_on hr honce (mem_dropLast_of_isPrefix hmade)
  have hy : y ∉ (first ++ seen ++ [(x, r)]).map Prod.fst := by
    have hnodup := honce.nodup.sublist (hmade.map Prod.fst).sublist
    rw [List.map_append, List.map_cons, List.nodup_append] at hnodup
    exact fun hmem => hnodup.2.2 y hmem y List.mem_cons_self rfl
  rw [hwhole] at hrest
  obtain ⟨rfl, hunlink⟩ := seen_of_next hd hnone hsecond hm hrest hy
  rw [List.append_nil] at hwhole
  have hgone : gone flags (first ++ [(x, r)]) x = true :=
    gone_iff.mpr ⟨hunlink, (x, r), by simp, rfl, hreports⟩
  have hx : x ∈ bs.flatten := by
    refine (List.take_sublist k bs).flatten.subset ?_
    rw [hsecond]
    simp
  refine .alone hunlink ?_ ?_ ?_
  · rw [hwhole, ← hfst]
    simp
  · rw [hwhole, List.getLast?_concat]
    rintro _ ⟨⟩
    exact hstop
  · rw [← hwhole] at hgone
    exact not_ended_of_goes_on hd hk hp hc honce h.bucket hpos hm hx hgone h.null hagain

/-- Behind the wrap the search starts over, and ends in the pass that follows. -/
theorem loopWalk_of_restarts (h : Restarts flags g bs k)
    (hended : ended flags.ends (walk g flags.ends (walk g flags.ends [] (bs.rotate k).flatten)
      (left flags (walk g flags.ends [] (bs.rotate k).flatten) (bs.take k).flatten)) = false) :
    ∃ fuel, loopWalk flags g bs k fuel k bs.length [] =
      some (walk g flags.ends [] (bs.rotate k).flatten ++
        walk g flags.ends (walk g flags.ends [] (bs.rotate k).flatten)
          (left flags (walk g flags.ends [] (bs.rotate k).flatten) (bs.take k).flatten)) := by
  obtain ⟨n, hn⟩ := loopWalk_rotate (g := g) hd hk hp hc
  rcases Nat.eq_zero_or_pos k with rfl | hpos
  · refine ⟨1 + n, ?_⟩
    rw [hn, if_pos ⟨h.bucket, h.first, h.ends, h.null⟩, loopWalk, if_neg (Nat.lt_irrefl 0)]
    simp [left, Walk.walk]
  · obtain ⟨n₃, hn₃⟩ := loopWalk_pass k hd hk.le hpos h.null rfl
    rw [List.drop_zero] at hn₃
    refine ⟨0 + n₃ + n, ?_⟩
    have hne : ¬ (k = bs.length ∧ flags.pointer = true ∧ flags.continue_ = true) := by omega
    rw [hn, if_pos ⟨h.bucket, h.first, h.ends, h.null⟩, hn₃,
      if_neg (not_not.mpr (result_of_not_ended h.null hended)), hended, if_neg Bool.false_ne_true,
      if_neg hne]

omit hp hc in
/-- The search that starts over and finds nothing more has gone along the cyclic order. -/
theorem once_of_alone (h : Restarts flags g bs k) (hunlink : flags.unlink = true)
    (hfirst : (walk g flags.ends [] (bs.rotate k).flatten).length =
      (bs.drop k).flatten.length + 1)
    (hstop : ∀ call ∈ (walk g flags.ends [] (bs.rotate k).flatten).getLast?,
      stops call.2 = false)
    (hothers : ended flags.ends (walk g flags.ends (walk g flags.ends [] (bs.rotate k).flatten)
      (left flags (walk g flags.ends [] (bs.rotate k).flatten) (bs.take k).flatten)) = false)
    (hcalls : calls = walk g flags.ends [] (bs.rotate k).flatten ++
      walk g flags.ends (walk g flags.ends [] (bs.rotate k).flatten)
        (left flags (walk g flags.ends [] (bs.rotate k).flatten) (bs.take k).flatten)) :
    Once flags bs (bs.map (left flags calls)) k calls (result flags calls) := by
  obtain ⟨first, seen, x, r, post, hwhole, hfst, hsecond, hr, hnone⟩ := h.split hk
  have hnull := h.null
  rw [hwhole] at hfirst hstop hothers hcalls hnull
  obtain rfl : seen = [] := by
    rw [← hfst] at hfirst
    simp only [List.length_append, List.length_map, List.length_cons, List.length_nil] at hfirst
    exact List.eq_nil_of_length_eq_zero (by omega)
  rw [List.append_nil] at hothers hcalls hnone hnull
  have hrstop : stops r = false := hstop (x, r) (by rw [List.getLast?_concat]; rfl)
  have hreports : reports r = true ∧ flags.multiple = false := by
    rwa [SearchFlags.ends, hrstop, Bool.false_or, Bool.and_eq_true, Bool.not_eq_true'] at hr
  have hquiet := not_reports_of_not_ended hreports.2 hnone
  have hx : x ∈ bs.flatten := by
    refine (List.take_sublist k bs).flatten.subset ?_
    rw [hsecond]
    simp
  have hrest : left flags (first ++ [(x, r)]) (bs.take k).flatten = post := by
    have hnodup : ((x :: post).map BucketEntry.addr).Nodup := by
      rw [List.map_nil, List.nil_append] at hsecond
      rw [← hsecond]
      exact hd.sublist ((List.take_sublist k bs).flatten.map _)
    rw [List.map_cons, List.nodup_cons] at hnodup
    rw [hsecond, List.map_nil, List.nil_append, left, List.filter_cons_of_neg]
    · refine List.filter_eq_self.mpr fun e he => ?_
      have hne : x.addr ≠ e.addr := fun heq => hnodup.1 (heq ▸ List.mem_map_of_mem he)
      rw [gone_append, not_gone_of_not_reports hquiet]
      simp [gone, hne]
    · rw [gone_append]
      simp [gone, hunlink, hreports.1]
  rw [hrest] at hothers hcalls
  have hothersQuiet := not_reports_of_not_ended hreports.2 hothers
  have hnull' := result_of_not_ended hnull hothers
  rw [← hcalls] at hnull'
  have horder : calls.map Prod.fst = (bs.rotate k).flatten := by
    rw [hcalls, List.map_append, fst_eq hothers, List.map_append, hfst, rotate_flatten hk.le,
      hsecond]
    simp
  refine ⟨horder ▸ List.prefix_refl _, ?_, ?_, fun _ => ?_⟩
  · rw [horder]
    exact (nodup_rotate hd).of_map _
  · intro call hcall
    have hcall := List.mem_of_mem_dropLast hcall
    rw [hcalls, List.append_assoc] at hcall
    rcases List.mem_append.mp hcall with hcall | hcall
    · exact stops_of_ends (Bool.eq_false_iff.mpr (List.any_eq_false.mp hnone call hcall))
    rcases List.mem_cons.mp hcall with rfl | hcall
    · exact hrstop
    · exact stops_of_ends (Bool.eq_false_iff.mpr (List.any_eq_false.mp hothers call hcall))
  · refine single_of (x := x) hd hx ?_ fun hne => absurd hnull' hne
    intro call hcall hmatch
    rw [hcalls, List.append_assoc] at hcall
    rcases List.mem_append.mp hcall with hcall | hcall
    · exact absurd (hmatch.symm.trans (hquiet call hcall)) Bool.noConfusion
    rcases List.mem_cons.mp hcall with rfl | hcall
    · rfl
    · exact absurd (hmatch.symm.trans (hothersQuiet call hcall)) Bool.noConfusion

/-- The search ends having done what it is to do exactly when it is undisturbed. -/
theorem once_iff_undisturbed :
    (∃ fuel calls, loopWalk flags g bs k fuel k bs.length [] = some calls ∧
      Once flags bs (bs.map (left flags calls)) k calls (result flags calls)) ↔
    Undisturbed flags g bs k := by
  constructor
  · rintro ⟨fuel, calls, hrun, honce⟩
    have hcases : Restarts flags g bs k ∨ _ := restarts_or_undisturbed hk
    rcases hcases with h | h | h | h | h
    · exact undisturbed_of_restarts hd hk hp hc h hrun honce
    · exact .bucket h
    · exact .early h
    · exact .never h
    · exact .returned h
  · intro h
    by_cases hrestarts : Restarts flags g bs k
    · have hrun : ∀ hended, _ := fun hended => loopWalk_of_restarts hd hk hp hc hrestarts hended
      cases h with
      | bucket hlt => exact absurd hrestarts.bucket (by omega)
      | early hended => exact absurd (hended.symm.trans hrestarts.first) Bool.noConfusion
      | never hended => exact absurd (hended.symm.trans hrestarts.ends) Bool.noConfusion
      | returned hret => exact absurd hrestarts.null hret
      | emptied hempty =>
        obtain ⟨fuel, hfuel⟩ := hrun (by rw [hempty]; rfl)
        rw [hempty, Walk.walk, List.append_nil] at hfuel
        exact ⟨fuel, _, hfuel, once_walk hd rfl⟩
      | alone hunlink hfirst hstop hothers =>
        obtain ⟨fuel, hfuel⟩ := hrun hothers
        exact ⟨fuel, _, hfuel, once_of_alone hd hk hrestarts hunlink hfirst hstop hothers rfl⟩
    · obtain ⟨n, hn⟩ := loopWalk_rotate (g := g) hd hk hp hc
      refine ⟨0 + n, _, (hn 0).trans (if_neg fun hcond => ?_), once_walk hd rfl⟩
      exact hrestarts ⟨hcond.1, hcond.2.1, hcond.2.2.1, hcond.2.2.2⟩

end

/-! ## The function -/

/-- There is no search, for want of memory, or it does not start over again. -/
def Unimpeded (m : Machine) (st : State α) (flags : SearchFlags) (cont : ObjContainer α)
    (f : MatchFn α) (arg : Ptr α) : Prop :=
  starved m st flags = true ∨
    Undisturbed flags (ask f (matchPtr st)) cont.buckets (cont.startBucket flags arg)

section

variable {m : Machine} {rs : Multiset Addr} {c : Addr} {cont cont' : ObjContainer α}
  {st : State α} {k : Nat}

theorem HasCont.unique (h : HasCont st c cont) (h' : HasCont st c cont') : cont = cont' := by
  obtain ⟨p, hp, hu⟩ := h
  obtain ⟨p', hp', hu'⟩ := h'
  obtain rfl := Option.some.inj (hp.symm.trans hp')
  exact UserData.container.inj (hu.symm.trans hu')

/-- Without a search there are no calls. -/
theorem once_nil : Once flags bs (bs.map (left flags [])) k [] NULL :=
  ⟨List.nil_prefix, List.nodup_nil, nofun, fun _ => single_of_none nofun rfl⟩

/-- A search with `OBJ_POINTER` and `OBJ_CONTINUE` ends, having called the match function once for
    each entry at most, in the cyclic order of the buckets, up to the first stop, and selected one
    object at most, exactly when it is unimpeded. -/
theorem callbackCalls_once_iff (h : Inv st ∅ rs) (hc : c ∈ rs) (hcont : HasCont st c cont)
    (hp : flags.pointer = true) (hf : flags.continue_ = true) (cbFn : Option (MatchFn α))
    (arg : Ptr α) (hroom : Unimpeded m st flags cont (cbFn.getD fun _ _ => CMP_MATCH) arg →
      ∀ fuel, Open.callbackCalls (objRef m.toChecked) m.toChecked (fun _ => fuel) st c flags cbFn
        arg ≠ .overflow) :
    (∃ fuel ret calls st' cont', Open.callbackCalls (objRef m.toChecked) m.toChecked
        (fun _ => fuel) st c flags cbFn arg = .ok (ret, calls, st') ∧ HasCont st' c cont' ∧
      Once flags cont.buckets cont'.buckets (cont.startBucket flags arg) calls ret.object) ↔
    Unimpeded m st flags cont (cbFn.getD fun _ _ => CMP_MATCH) arg := by
  have hw : ContWf cont := Counted.contWf h hcont (Finset.notMem_empty c)
  have hiff := once_iff_undisturbed (g := ask (cbFn.getD fun _ _ => CMP_MATCH) (matchPtr st))
    hw.addrs (ObjContainer.startBucket_lt flags hw arg) hp hf
  have hmirrors := fun fuel : Nat =>
    callbackCalls_mirrors (m := m) hc h hcont flags (fun _ => fuel) cbFn arg
  simp only [ObjContainer.lastBucket_of_continue hf] at hmirrors
  constructor
  · rintro ⟨fuel, ret, calls, st', cont', hrun, hcont', honce⟩
    obtain ⟨calls', hcalls, heq, hcalled⟩ := (hmirrors fuel).of_ok hrun
    simp only at heq hcalled
    subst heq
    obtain ⟨cont'', hcont'', hbuckets⟩ := hcalled.cont
    rw [hcont'.unique hcont'', hbuckets, hcalled.object] at honce
    cases hstarved : starved m st flags with
    | true => exact .inl hstarved
    | false =>
      rw [hstarved, if_neg Bool.false_ne_true] at hcalls
      exact .inr (hiff.mp ⟨fuel, calls, hcalls, honce⟩)
  · intro hcond
    obtain ⟨fuel, calls, hcalls, honce⟩ : ∃ fuel calls, (if starved m st flags then some []
        else loopWalk flags (ask (cbFn.getD fun _ _ => CMP_MATCH) (matchPtr st)) cont.buckets
          (cont.startBucket flags arg) fuel (cont.startBucket flags arg) cont.buckets.length []) =
        some calls ∧ Once flags cont.buckets (cont.buckets.map (left flags calls))
          (cont.startBucket flags arg) calls (result flags calls) := by
      cases hstarved : starved m st flags with
      | true => exact ⟨0, [], rfl, once_nil⟩
      | false =>
        rcases hcond with htrue | hundisturbed
        · exact absurd (htrue.symm.trans hstarved) Bool.noConfusion
        · exact hiff.mpr hundisturbed
    have hsat := hmirrors fuel
    rw [hcalls] at hsat
    obtain ⟨⟨ret, calls', st'⟩, hrun, heq, hcalled⟩ := hsat.returns (hroom hcond fuel)
    simp only at heq hcalled
    subst heq
    obtain ⟨cont', hcont', hbuckets⟩ := hcalled.cont
    refine ⟨fuel, ret, _, st', cont', hrun, hcont', ?_⟩
    rw [hbuckets, hcalled.object]
    exact honce

end

/-! ## A search that goes round -/

/-- A hash by the number that an object holds. -/
def roundHash (p : Ptr Nat) (_ : SearchFlags) : Int32 := Int32.ofNat (p.data.getD 0 % 100)

theorem roundHash_ne (p : Ptr Nat) (flags : SearchFlags) : roundHash p flags ≠ Int32.minValue := by
  intro h
  have hint := congrArg Int32.toInt h
  rw [roundHash, Int32.toInt_ofNat_of_lt (by omega)] at hint
  exact absurd (Int.natCast_nonneg (p.data.getD 0 % 100)) (hint ▸ by decide)

/-- Four objects with the numbers 1, 3, 4 and 2 are linked into a container of three buckets. -/
def roundOps : List (Op Nat) :=
  [.objAlloc 1 none, .objAlloc 3 none, .objAlloc 4 none, .objAlloc 2 none,
    .objContainerAlloc 3 (some roundHash) none,
    .objLink 5 1 {}, .objLink 5 2 {}, .objLink 5 3 {}, .objLink 5 4 {}]

/-- What they leave. -/
def roundState : State Nat :=
  match Run.run (exec bumpMachine.toChecked) {} roundOps with
  | .ok s => s.st
  | _ => {}

/-- Their container. -/
def roundContainer : ObjContainer Nat where
  hashFn := roundHash
  cmpFn := none
  nBuckets := 3
  elements := 4
  version := 5
  buckets := [[⟨2, 2, 2⟩], [⟨1, 1, 1⟩, ⟨3, 3, 3⟩], [⟨4, 4, 4⟩]]

theorem roundOps_run : Run.run (exec bumpMachine.toChecked) {} roundOps =
    .ok ⟨roundState, {5, 4, 3, 2, 1}, []⟩ := by
  obtain ⟨⟨st, owned, iters⟩, hrun, howned, hiters⟩ :
      ∃ s, Run.run (exec bumpMachine.toChecked) {} roundOps = .ok s ∧
        s.owned = {5, 4, 3, 2, 1} ∧ s.iters = [] := exists_of_run (by decide +kernel)
  obtain rfl : owned = {5, 4, 3, 2, 1} := howned
  obtain rfl : iters = [] := hiters
  have hst : roundState = st := by rw [roundState, hrun]
  rw [hrun, hst]

theorem roundState_cont : HasCont roundState 5 roundContainer :=
  ⟨_, by with_unfolding_all rfl, by with_unfolding_all rfl⟩

theorem roundState_inv : Inv roundState ∅ {5, 4, 3, 2, 1} := by
  have halloc : ∀ (s : Sys Nat) a, Enabled s (.objAlloc a none) := fun _ _ =>
    show (none : Option DestructorFn) ≠ some _ by decide
  have hhash : ∀ f, some roundHash = some f → ∀ p fl, f p fl ≠ Int32.minValue := by
    rintro f ⟨⟩
    exact roundHash_ne
  have hlegal : Run.Legal (exec bumpMachine.toChecked) Enabled {} roundOps := by
    unfold roundOps
    refine Run.legal_cons_of_ok (by rfl) (halloc _ _) ?_
    refine Run.legal_cons_of_ok (by rfl) (halloc _ _) ?_
    refine Run.legal_cons_of_ok (by rfl) (halloc _ _) ?_
    refine Run.legal_cons_of_ok (by rfl) (halloc _ _) ?_
    refine Run.legal_cons_of_ok (by with_unfolding_all rfl) ⟨by decide, hhash⟩ ?_
    refine Run.legal_cons_of_ok (by with_unfolding_all rfl)
      ⟨⟨_, _, rfl, rfl⟩, by decide +kernel⟩ ?_
    refine Run.legal_cons_of_ok (by with_unfolding_all rfl)
      ⟨⟨_, _, rfl, rfl⟩, by decide +kernel⟩ ?_
    refine Run.legal_cons_of_ok (by with_unfolding_all rfl)
      ⟨⟨_, _, rfl, rfl⟩, by decide +kernel⟩ ?_
    exact Run.legal_cons_of_ok (by with_unfolding_all rfl)
      ⟨⟨_, _, rfl, rfl⟩, by decide +kernel⟩ trivial
  obtain ⟨s, hrun, hinv⟩ := Run.refined (fun _ _ => .refl _) (exec_sat bumpMachine) roundOps
    Sys.inv_init hlegal (by rw [roundOps_run]; simp)
  rw [roundOps_run] at hrun
  obtain rfl := Outcome.ok.inj hrun
  exact hinv.inv

/-- `OBJ_POINTER | OBJ_CONTINUE`. -/
def continueFlags : SearchFlags := { pointer := true, continue_ := true }

/-- The object with the number 3 matches, and the search is to stop there. -/
def matchThree : MatchFn Nat := fun _ p =>
  if p.data = some 3 then CMP_MATCH ||| CMP_STOP else 0

/-- The search for the bucket of the number 4, the second one. -/
def roundSearch (fuel : Nat) : Outcome (CallbackRet × List MatchCall × State Nat) :=
  Open.callbackCalls (objRef bumpMachine.toChecked) bumpMachine.toChecked (fun _ => fuel)
    roundState 5 continueFlags (some matchThree) ⟨NULL, some 4⟩

/-- It goes through the second and the third bucket, and on to the first. -/
def roundCalls : List MatchCall :=
  [(⟨1, 1, 1⟩, 0), (⟨3, 3, 3⟩, 0), (⟨4, 4, 4⟩, 0), (⟨2, 2, 2⟩, CMP_MATCH ||| CMP_STOP)]

theorem roundSearch_eq (fuel : Nat) : roundSearch fuel = .timeout ∨
    ∃ st', roundSearch fuel = .ok (.obj 2, roundCalls, st') := by
  rcases fuel with _ | _ | _ | fuel
  · exact .inl (by with_unfolding_all rfl)
  · exact .inl (by with_unfolding_all rfl)
  · exact .inl (by with_unfolding_all rfl)
  · exact .inr ⟨_, by with_unfolding_all rfl⟩

theorem callbackCalls_once_roundState : ∃ fuel st' cont',
    roundSearch fuel = .ok (.obj 2, roundCalls, st') ∧ HasCont st' 5 cont' ∧
      Once continueFlags roundContainer.buckets cont'.buckets 1 roundCalls 2 := by
  obtain ⟨fuel, ret, calls, st', cont', hrun, hcont', honce⟩ :=
    (callbackCalls_once_iff roundState_inv (by decide) roundState_cont rfl rfl (some matchThree)
      ⟨NULL, some 4⟩ fun _ fuel => by
        show roundSearch fuel ≠ .overflow
        rcases roundSearch_eq fuel with h | h
        · rw [h]
          simp
        · obtain ⟨st', h⟩ := h
          rw [h]
          simp).mpr (.inr (.bucket (by decide)))
  refine ⟨fuel, st', cont', ?_⟩
  have hrun : roundSearch fuel = .ok (ret, calls, st') := hrun
  rcases roundSearch_eq fuel with h | h
  · rw [h] at hrun
    cases hrun
  · obtain ⟨st'', h⟩ := h
    rw [h] at hrun
    cases hrun
    exact ⟨h, hcont', honce⟩

/-! ## A search without an end -/

/-- The hash value of the first bucket with data, of the second one without. -/
def wrapHash (p : Ptr Unit) (_ : SearchFlags) : Int32 := if p.data.isSome then 0 else 1

/-- An object is linked into a container of two buckets. -/
def wrapOps : List (Op Unit) :=
  [.objAlloc () none, .objContainerAlloc 2 (some wrapHash) none, .objLink 2 1 {}]

/-- What they leave. -/
def wrapState : State Unit where
  objs := (((Heap.set ∅ 1 ⟨1, none, .data (), 0⟩).set 2 ⟨1, some .containerDestruct,
    .container ⟨wrapHash, none, 2, 0, 1, [[], []]⟩, 1⟩).set 2 ⟨1, some .containerDestruct,
    .container ⟨wrapHash, none, 2, 1, 2, [[⟨1, 1, 1⟩], []]⟩, 1⟩).set 1 ⟨2, none, .data (), 0⟩
  callocs := 3
  serials := 2
  trace := [.bucketWrite 2]

theorem wrapOps_run :
    Run.run (exec bumpMachine.toWrap) {} wrapOps = .ok ⟨wrapState, {2, 1}, []⟩ := by
  with_unfolding_all rfl

theorem wrapOps_legal : Run.Legal (exec bumpMachine.toWrap) Enabled {} wrapOps := by
  have h1 : Enabled ({} : Sys Unit) (.objAlloc () none) :=
    show (none : Option DestructorFn) ≠ some _ by decide
  have hhash : ∀ f, some wrapHash = some f → ∀ p fl, f p fl ≠ Int32.minValue := by
    rintro f ⟨⟩ p fl
    rw [wrapHash]
    split <;> decide
  unfold wrapOps
  refine Run.legal_cons_of_ok (by rfl) h1 ?_
  refine Run.legal_cons_of_ok (by rfl) ⟨by decide, hhash⟩ ?_
  exact Run.legal_cons_of_ok (by with_unfolding_all rfl)
    ⟨⟨_, _, rfl, rfl⟩, by decide +kernel⟩ trivial

/-- Behind the wrap a stop makes the search start over, again and again. -/
theorem loopCalls_wrapState (fuel : Nat) (calls : List MatchCall) (st : State Unit)
    (h : st.objs = wrapState.objs) : Open.loopCalls (objRef bumpMachine.toChecked)
      bumpMachine.toChecked 2 continueFlags (fun _ _ => CMP_STOP) none 1 fuel 0 1 NULL calls st =
      .timeout := by
  induction fuel generalizing calls st with
  | zero => rfl
  | succ fuel ih =>
    have hcont : containerAt st 2 = containerAt wrapState 2 := by rw [containerAt, containerAt, h]
    have hptr : externalObj st 1 = externalObj wrapState 1 := by rw [externalObj, externalObj, h]
    rw [Open.loopCalls, if_pos (by decide), hcont]
    change (Open.traverseCalls _ _ _ _ _ _ _ [_] _ _ _ >>= _) = _
    rw [Open.traverseCalls, hptr]
    exact ih _ _ h

theorem callbackCalls_startsOver :
    ¬ ∃ fuel r, Open.callbackCalls (objRef bumpMachine.toChecked) bumpMachine.toChecked
        (fun _ => fuel) wrapState 2 continueFlags (some fun _ _ => CMP_STOP) ⟨NULL, none⟩ =
      .ok r := by
  rintro ⟨fuel, r, hrun⟩
  have htimeout : Open.callbackCalls (objRef bumpMachine.toChecked) bumpMachine.toChecked
      (fun _ => fuel) wrapState 2 continueFlags (some fun _ _ => CMP_STOP) ⟨NULL, none⟩ =
      .timeout := by
    cases fuel with
    | zero => with_unfolding_all rfl
    | succ fuel =>
      have hloop := loopCalls_wrapState fuel [] (wrapState.emit (.lock 2)) rfl
      change ((Open.loopCalls _ _ 2 continueFlags (fun _ _ => CMP_STOP) none 1 fuel 0 1 NULL [] _
        >>= _) >>= _) = _
      rw [hloop]
      rfl
  rw [htimeout] at hrun
  cases hrun

end Spider.ObjModel
