import Mathlib.Logic.Function.Basic

/-!
# Recursive mutexes

A recursive mutex belongs to one thread at a time. The thread may take it again,
and has to release it as often. `held t` is how often thread `t` has taken it
without releasing it; a mutex that is taken and released by these rules agrees
with what the threads hold, so that only one of them holds anything.
-/

namespace Lib

variable {T : Type}

structure Mutex (T : Type) where
  holder : Option T
  depth : Nat
  deriving DecidableEq, Repr

namespace Mutex

variable {m : Mutex T} {held held' : T → Nat} {t u : T}

def unlocked : Mutex T := ⟨none, 0⟩

/-- The thread can take the mutex. -/
def Free (m : Mutex T) (t : T) : Prop := m.holder = none ∨ m.holder = some t

instance [DecidableEq T] (m : Mutex T) (t : T) : Decidable (m.Free t) :=
  inferInstanceAs (Decidable (_ ∨ _))

def take (m : Mutex T) (t : T) : Mutex T := ⟨some t, m.depth + 1⟩

def release (m : Mutex T) : Mutex T := ⟨if m.depth ≤ 1 then none else m.holder, m.depth - 1⟩

/-- The mutex is as its threads hold it. -/
structure Sound (m : Mutex T) (held : T → Nat) : Prop where
  none_depth : m.holder = none → m.depth = 0
  some_depth : ∀ {t}, m.holder = some t → held t = m.depth ∧ 0 < m.depth
  others : ∀ {t}, m.holder ≠ some t → held t = 0

theorem sound_unlocked : Sound (unlocked : Mutex T) fun _ => 0 where
  none_depth _ := rfl
  some_depth h := by cases h
  others _ := rfl

/-- A thread that holds anything is the holder. -/
theorem Sound.holder (h : Sound m held) (ht : 0 < held t) : m.holder = some t := by
  by_contra hne
  have hzero := h.others hne
  omega

theorem Sound.exclusive (h : Sound m held) (ht : 0 < held t) (hu : 0 < held u) : t = u :=
  Option.some.inj ((h.holder ht).symm.trans (h.holder hu))

theorem Sound.take (h : Sound m held) (hfree : m.Free t) (ht : held' t = held t + 1)
    (hu : ∀ u, u ≠ t → held' u = held u) : Sound (m.take t) held' where
  none_depth hnone := by cases hnone
  some_depth {u} hsome := by
    obtain rfl := Option.some.inj hsome
    have hdepth : held t = m.depth := by
      rcases hfree with hnone | hsome
      · have hzero := h.none_depth hnone
        have hother : m.holder ≠ some t := by simp [hnone]
        rw [h.others hother, hzero]
      · exact (h.some_depth hsome).1
    simp only [Mutex.take]
    omega
  others {u} hne := by
    have hut : u ≠ t := fun he => hne (congrArg some he.symm)
    rw [hu u hut]
    by_contra hpos
    have hu' := h.holder (Nat.pos_of_ne_zero hpos)
    rcases hfree with hnone | hsome
    · cases hnone.symm.trans hu'
    · exact hut (Option.some.inj (hu'.symm.trans hsome))

theorem Sound.release (h : Sound m held) (hpos : 0 < held t) (ht : held' t = held t - 1)
    (hu : ∀ u, u ≠ t → held' u = held u) : Sound m.release held' := by
  have hholder := h.holder hpos
  have hdepth := h.some_depth hholder
  have hother : ∀ u, u ≠ t → held' u = 0 := by
    intro u hut
    rw [hu u hut]
    exact h.others fun he => hut (Option.some.inj (he.symm.trans hholder))
  by_cases hone : m.depth ≤ 1
  · have hrelease : m.release = unlocked := by
      simp [Mutex.release, unlocked, hone]
    rw [hrelease]
    constructor
    · exact fun _ => rfl
    · exact fun hsome => by cases hsome
    · intro u _
      by_cases hut : u = t
      · subst hut
        omega
      · exact hother u hut
  · have hrelease : m.release = ⟨some t, m.depth - 1⟩ := by
      simp [Mutex.release, hone, hholder]
    rw [hrelease]
    constructor
    · exact fun hnone => by cases hnone
    · intro u hsome
      obtain rfl := Option.some.inj hsome
      dsimp only
      omega
    · exact fun hne => hother _ fun he => hne (congrArg some he.symm)

/-- When no thread holds anything the mutex is unlocked. -/
theorem Sound.idle (h : Sound m held) (hidle : ∀ t, held t = 0) : m = unlocked := by
  cases hm : m.holder with
  | none =>
    have hdepth := h.none_depth hm
    cases m
    simp_all [unlocked]
  | some t =>
    have hdepth := h.some_depth hm
    have hzero := hidle t
    omega

end Mutex

end Lib
