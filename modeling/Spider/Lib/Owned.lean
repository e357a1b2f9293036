import Mathlib.Logic.Function.Basic
import Spider.Lib.Outcome

/-!
# Descriptors and their owners

A descriptor is a number that a table gives a meaning to. Several parties open
and close descriptors of one table and remember the numbers: `own p f` is the
number under which party `p` has `f`. The parties own the table when every number
that one of them remembers stands for what it takes it for, everything in the
table is remembered, and nothing by two parties.
-/

namespace Lib.Owned

variable {P F : Type}

/-- What each number stands for. -/
abbrev Table (F : Type) : Type := Int → Option F

/-- Under which number a party has a thing. -/
abbrev Owners (P F : Type) : Type := P → F → Option Int

/-- A number gets a meaning. -/
def Table.enter (t : Table F) (fd : Int) (f : F) : Table F := Function.update t fd (some f)

/-- A number loses its meaning; to close one that has none is an error. -/
def Table.close (t : Table F) (fd : Int) : Outcome (Table F) :=
  match t fd with
  | none => .fault
  | some _ => .ok (Function.update t fd none)

theorem Table.enter_apply {t : Table F} {fd fd' : Int} {f g : F} (h : t.enter fd f fd' = some g) :
    fd' = fd ∨ t fd' = some g := by
  by_cases he : fd' = fd
  · exact Or.inl he
  · rw [enter, Function.update_of_ne he] at h
    exact Or.inr h

/-- Closing gives no number a meaning. -/
theorem Table.close_apply {t t' : Table F} {fd fd' : Int} {f : F} (h : t.close fd = .ok t')
    (hf : t' fd' = some f) : t fd' = some f := by
  unfold close at h
  split at h
  · cases h
  · obtain rfl := Outcome.ok.inj h
    by_cases he : fd' = fd
    · rw [he, Function.update_self] at hf
      cases hf
    · rwa [Function.update_of_ne he] at hf

structure Owns (t : Table F) (own : Owners P F) : Prop where
  /-- What a party has is what the table says. -/
  held : ∀ {p f fd}, own p f = some fd → t fd = some f
  /-- Nothing in the table is forgotten. -/
  kept : ∀ {f fd}, t fd = some f → ∃ p, own p f = some fd
  /-- Nothing has two owners. -/
  once : ∀ {p q f fd fd'}, own p f = some fd → own q f = some fd' → p = q

theorem owns_empty : Owns (fun _ => none : Table F) (fun (_ : P) (_ : F) => none) where
  held h := by cases h
  kept h := by cases h
  once h := by cases h

variable [DecidableEq P]

/-- All that one party has becomes another's. -/
def Owners.give (own : Owners P F) (p q : P) : Owners P F :=
  Function.update (Function.update own q (own p)) p fun _ => none

theorem Owners.give_apply (own : Owners P F) (p q : P) : own.give p q = fun r =>
    if r = p then fun _ => none else if r = q then own p else own r := by
  funext r
  by_cases hp : r = p
  · simp [give, hp]
  · by_cases hq : r = q
    · subst hq
      simp [give, hp]
    · simp [give, hp, hq]

/-- What a party has may be handed over to one that has nothing. -/
theorem Owns.give {t : Table F} {own : Owners P F} {p q : P} (h : Owns t own) (hq : ∀ f, own q f = none) : Owns t (own.give p q) := by
  rw [Owners.give_apply]
  have hback : ∀ {r f fd}, (if r = p then fun _ => none else if r = q then own p else own r) f
      = some fd → own (if r = q then p else r) f = some fd := by
    intro r f fd hr
    split at hr
    · cases hr
    · split at hr <;> rename_i hrq <;> simpa [hrq] using hr
  refine ⟨fun hr => h.held (hback hr), ?_, ?_⟩
  · intro f fd ht
    obtain ⟨r, hr⟩ := h.kept ht
    have hrq : r ≠ q := by
      intro he
      rw [he, hq] at hr
      cases hr
    by_cases hrp : r = p
    · subst hrp
      exact ⟨q, by rw [if_neg (Ne.symm hrq), if_pos rfl]; exact hr⟩
    · exact ⟨r, by rw [if_neg hrp, if_neg hrq]; exact hr⟩
  · intro r r' f fd fd' hr hr'
    have he := h.once (hback hr) (hback hr')
    have hne : ∀ {r fd}, (if r = p then fun _ => none else if r = q then own p else own r) f
        = some fd → r ≠ p := by
      intro r fd hr hrp
      rw [if_pos hrp] at hr
      cases hr
    have h1 := hne hr
    have h2 := hne hr'
    split at he <;> split at he
    · rename_i h3 h4
      rw [h3, h4]
    · exact absurd he.symm h2
    · exact absurd he h1
    · exact he

variable [DecidableEq F]

/-- A party opens a thing, or forgets it. -/
def Owners.set (own : Owners P F) (p : P) (f : F) (fd : Option Int) : Owners P F :=
  Function.update own p (Function.update (own p) f fd)

section

variable (own : Owners P F) (p : P) (f : F) (fd : Option Int)

@[simp] theorem Owners.set_self : own.set p f fd p f = fd := by
  simp [set]

theorem Owners.set_of_ne {q g} (h : ¬ (q = p ∧ g = f)) : own.set p f fd q g = own q g := by
  by_cases hq : q = p
  · subst hq
    have hg : g ≠ f := fun hg => h ⟨rfl, hg⟩
    simp [set, hg]
  · simp [set, hq]

end

namespace Owns

variable {t : Table F} {own : Owners P F} {p q : P} {f : F} {fd : Int}

theorem enter (h : Owns t own) (hfree : t fd = none) (hnew : ∀ q, own q f = none) (p : P) :
    Owns (t.enter fd f) (own.set p f (some fd)) where
  held {q g fd'} hq := by
    by_cases hc : q = p ∧ g = f
    · obtain ⟨rfl, rfl⟩ := hc
      rw [Owners.set_self] at hq
      obtain rfl := Option.some.inj hq
      exact Function.update_self ..
    · rw [Owners.set_of_ne _ _ _ _ hc] at hq
      have ht := h.held hq
      have hne : fd' ≠ fd := by
        intro he
        rw [he, hfree] at ht
        cases ht
      rw [Table.enter, Function.update_of_ne hne]
      exact ht
  kept {g fd'} ht := by
    by_cases hfd : fd' = fd
    · subst hfd
      rw [Table.enter, Function.update_self] at ht
      obtain rfl := Option.some.inj ht
      exact ⟨p, Owners.set_self ..⟩
    · rw [Table.enter, Function.update_of_ne hfd] at ht
      obtain ⟨q, hq⟩ := h.kept ht
      refine ⟨q, ?_⟩
      rw [Owners.set_of_ne]
      · exact hq
      · intro hc
        rw [hc.2, hnew] at hq
        cases hq
  once {q r g fd₁ fd₂} hq hr := by
    by_cases hg : g = f
    · subst hg
      have hp : ∀ {r fd'}, own.set p g (some fd) r g = some fd' → r = p := by
        intro r fd' hr
        by_contra hne
        rw [Owners.set_of_ne _ _ _ _ (fun hc => hne hc.1), hnew] at hr
        cases hr
      rw [hp hq, hp hr]
    · rw [Owners.set_of_ne _ _ _ _ (fun hc => hg hc.2)] at hq hr
      exact h.once hq hr

/-- A party may close what it has. -/
theorem close (h : Owns t own) (hp : own p f = some fd) :
    ∃ t', t.close fd = .ok t' ∧ Owns t' (own.set p f none) := by
  have ht := h.held hp
  refine ⟨Function.update t fd none, by rw [Table.close, ht], ?_, ?_, ?_⟩
  · intro q g fd' hq
    have hc : ¬ (q = p ∧ g = f) := by
      intro hc
      rw [hc.1, hc.2, Owners.set_self] at hq
      cases hq
    rw [Owners.set_of_ne _ _ _ _ hc] at hq
    have hne : fd' ≠ fd := by
      intro he
      obtain rfl : g = f := Option.some.inj ((h.held hq).symm.trans (he ▸ ht))
      exact hc ⟨h.once hq hp, rfl⟩
    rw [Function.update_of_ne hne]
    exact h.held hq
  · intro g fd' ht'
    have hne : fd' ≠ fd := by
      intro he
      rw [he, Function.update_self] at ht'
      cases ht'
    rw [Function.update_of_ne hne] at ht'
    obtain ⟨q, hq⟩ := h.kept ht'
    refine ⟨q, ?_⟩
    rw [Owners.set_of_ne]
    · exact hq
    · intro hc
      rw [hc.1, hc.2, hp] at hq
      exact hne (Option.some.inj hq).symm
  · intro q r g fd₁ fd₂ hq hr
    have hsub : ∀ {r fd'}, own.set p f none r g = some fd' → own r g = some fd' := by
      intro r fd' hr
      by_cases hc : r = p ∧ g = f
      · rw [hc.1, hc.2, Owners.set_self] at hr
        cases hr
      · rwa [Owners.set_of_ne _ _ _ _ hc] at hr
    exact h.once (hsub hq) (hsub hr)

end Owns

/-- Things of two kinds: each client `k` has at most one of its own, and the rest of a program has
    others. -/
inductive Thing (K : Type) where
  | mine (k : K)
  | other (n : Nat)
  deriving DecidableEq, Repr

/-- A table that clients share with the rest of a program, and what the rest has in it. -/
structure Store (K : Type) where
  table : Table (Thing K)
  others : Nat → Option Int

namespace Store

variable {K : Type} [DecidableEq K]

/-- A party is a client, or the rest. -/
def own (s : Store K) (mine : K → Option Int) : Owners (Option K) (Thing K)
  | some k, .mine k' => if k' = k then mine k else none
  | none, .other n => s.others n
  | _, _ => none

/-- The clients own the store, together with the rest. -/
def Sound (s : Store K) (mine : K → Option Int) : Prop := Owns s.table (s.own mine)

def empty : Store K := ⟨fun _ => none, fun _ => none⟩

/-- Nothing has the number yet. -/
def Unused (s : Store K) (a : Int) : Prop := s.table a = none

instance (s : Store K) (a : Int) : Decidable (s.Unused a) :=
  inferInstanceAs (Decidable (_ = _))

def enter (s : Store K) (a : Int) (k : K) : Store K := { s with table := s.table.enter a (.mine k) }

def close (s : Store K) (a : Int) : Outcome (Store K) := do
  let table ← s.table.close a
  .ok { s with table }

def enterOther (s : Store K) (a : Int) (n : Nat) : Store K where
  table := s.table.enter a (.other n)
  others := Function.update s.others n (some a)

def closeOther (s : Store K) (n : Nat) : Outcome (Store K) :=
  match s.others n with
  | none => .fault
  | some a => do
    let table ← s.table.close a
    .ok ⟨table, Function.update s.others n none⟩

variable {s s' : Store K} {mine : K → Option Int} {k : K} {a : Int} {n : Nat}

theorem own_mine (s : Store K) (mine : K → Option Int) (k : K) :
    s.own mine (some k) (.mine k) = mine k := if_pos rfl

/-- Nobody but `k` can have the thing of `k`. -/
theorem own_mine_of_none (hk : mine k = none) (p : Option K) : s.own mine p (.mine k) = none := by
  cases p with
  | none => rfl
  | some k' =>
    show (if k = k' then mine k' else none) = none
    split
    · next heq => rw [← heq, hk]
    · rfl

theorem own_update (table : Table (Thing K)) (o : Option Int) :
    { s with table }.own (Function.update mine k o) =
      (s.own mine).set (some k) (.mine k) o := by
  funext p t
  by_cases hc : p = some k ∧ t = .mine k
  · obtain ⟨rfl, rfl⟩ := hc
    rw [Owners.set_self, own_mine, Function.update_self]
  · rw [Owners.set_of_ne _ _ _ _ hc]
    cases p with
    | none => cases t <;> rfl
    | some k' =>
      cases t with
      | mine k'' =>
        show (if k'' = k' then Function.update mine k o k' else none) =
          if k'' = k' then mine k' else none
        split
        · next heq =>
          have hne : k' ≠ k := fun he => hc ⟨by rw [he], by rw [heq, he]⟩
          rw [Function.update_of_ne hne]
        · rfl
      | other n => rfl

theorem own_others (table : Table (Thing K)) (o : Option Int) :
    Store.own ⟨table, Function.update s.others n o⟩ mine =
      (s.own mine).set none (.other n) o := by
  funext p t
  by_cases hc : p = none ∧ t = .other n
  · obtain ⟨rfl, rfl⟩ := hc
    rw [Owners.set_self]
    exact Function.update_self ..
  · rw [Owners.set_of_ne _ _ _ _ hc]
    cases p with
    | none =>
      cases t with
      | mine k' => rfl
      | other m =>
        have hne : m ≠ n := fun he => hc ⟨rfl, he ▸ rfl⟩
        exact Function.update_of_ne hne ..
    | some k' => cases t <;> rfl

theorem sound_empty : (empty : Store K).Sound fun _ => none := by
  have hown : (empty : Store K).own (fun _ => none) = fun _ _ => none := by
    funext p t
    cases p <;> cases t <;> simp [own, empty]
  unfold Sound
  rw [hown]
  exact owns_empty

namespace Sound

theorem enter (h : s.Sound mine) (ha : s.Unused a) (hk : mine k = none) :
    (s.enter a k).Sound (Function.update mine k (some a)) := by
  unfold Sound Store.enter
  rw [own_update]
  exact Owns.enter h ha (own_mine_of_none hk) (some k)

/-- A client may close what it has. -/
theorem close (h : s.Sound mine) (hk : mine k = some a) :
    ∃ s', s.close a = .ok s' ∧ s'.Sound (Function.update mine k none) := by
  obtain ⟨table, hclose, howns⟩ := Owns.close h ((own_mine s mine k).trans hk)
  refine ⟨{ s with table }, by simp [Store.close, hclose], ?_⟩
  unfold Sound
  rw [own_update]
  exact howns

theorem enterOther (h : s.Sound mine) (ha : s.Unused a) (hn : s.others n = none) :
    (s.enterOther a n).Sound mine := by
  unfold Sound Store.enterOther
  rw [own_others]
  refine Owns.enter h ha ?_ none
  intro p
  cases p with
  | none => exact hn
  | some k' => rfl

theorem closeOther (h : s.Sound mine) (hn : s.others n = some a) :
    ∃ s', s.closeOther n = .ok s' ∧ s'.Sound mine := by
  have hown : s.own mine none (.other n) = some a := hn
  obtain ⟨table, hclose, howns⟩ := Owns.close h hown
  refine ⟨⟨table, Function.update s.others n none⟩, by simp [Store.closeOther, hn, hclose], ?_⟩
  unfold Sound
  rw [own_others]
  exact howns

/-- What a client has is in use. -/
theorem not_unused (h : s.Sound mine) (hk : mine k = some a) : ¬ s.Unused a := by
  intro hfree
  have htable := Owns.held h ((own_mine s mine k).trans hk)
  cases hfree.symm.trans htable

/-- What is closed must be forgotten. -/
theorem not_of_closed (hk : mine k = some a) (hclose : s.close a = .ok s') : ¬ s'.Sound mine := by
  intro h
  have htable := Owns.held h ((own_mine s' mine k).trans hk)
  obtain ⟨table, htab, hs'⟩ := Outcome.bind_eq_ok.mp hclose
  obtain rfl := Outcome.ok.inj hs'
  unfold Table.close at htab
  split at htab
  · cases htab
  · obtain rfl := Outcome.ok.inj htab
    dsimp only at htable
    rw [Function.update_self] at htable
    cases htable

/-- What is forgotten must be closed. -/
theorem not_of_forgotten (h : s.Sound mine) (hk : mine k = some a) :
    ¬ s.Sound (Function.update mine k none) := by
  intro h'
  obtain ⟨p, hp⟩ := Owns.kept h' (Owns.held h ((own_mine s mine k).trans hk))
  rw [own_mine_of_none (Function.update_self ..)] at hp
  cases hp

end Sound

end Store

end Lib.Owned
