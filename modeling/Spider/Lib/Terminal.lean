import Mathlib.Data.List.Basic
import Mathlib.Tactic.Common

/-!
# Terminals

A terminal takes a text byte by byte. Escape and bracket begin a control sequence, which
goes on with parameters and ends at a letter: with `m` it sets the pen that the text behind
it is shown in, with any other letter it is a command, as are escape and another byte.
-/

namespace Lib.Terminal

/-- The escape. -/
def ESC : UInt8 := 0x1b

/-- What text is shown in: the colours by their codes, 39 and 49 for those of the terminal. -/
structure Pen where
  bright : Bool
  fg : Nat
  bg : Nat
  deriving DecidableEq, Repr

/-- What the bytes before have begun. -/
inductive Mode where
  | ground
  | escape
  | sequence (params : List UInt8)
  deriving DecidableEq, Repr

/-- A terminal, with what it has shown, and the commands that it has been given. -/
structure Term where
  mode : Mode
  pen : Pen
  shown : List (UInt8 × Pen)
  commands : List (List UInt8 × UInt8)
  deriving DecidableEq, Repr

/-- A terminal that is given a text from its beginning on. -/
def Term.start (pen : Pen) : Term := ⟨.ground, pen, [], []⟩

/-- A byte that may stand between the bracket and the letter. -/
def isParam (c : UInt8) : Bool := c < 64

/-- The number that digits are read as. -/
def number (ds : List UInt8) : Nat := ds.foldl (fun n d => 10 * n + (d.toNat - 48)) 0

/-- The numbers of a control sequence, which semicolons separate. -/
def numbers (params : List UInt8) : List Nat := (params.splitOnP (· = 0x3b)).map number

/-- The pen after one number of a sequence. -/
def Pen.set (p : Pen) (n : Nat) : Pen :=
  if n = 0 then ⟨false, 39, 49⟩
  else if n = 1 then { p with bright := true }
  else if 30 ≤ n ∧ n ≤ 37 then { p with fg := n }
  else if 40 ≤ n ∧ n ≤ 47 then { p with bg := n }
  else p

/-- The pen after a sequence. -/
def Pen.select (p : Pen) (params : List UInt8) : Pen := (numbers params).foldl Pen.set p

/-- Take one byte. -/
def Term.put (t : Term) (c : UInt8) : Term :=
  match t.mode with
  | .ground =>
    if c = ESC then { t with mode := .escape } else { t with shown := t.shown ++ [(c, t.pen)] }
  | .escape =>
    if c = ESC then t
    else if c = 0x5b then { t with mode := .sequence [] }
    else { t with mode := .ground, commands := t.commands ++ [([], c)] }
  | .sequence params =>
    if c = ESC then { t with mode := .escape }
    else if isParam c then { t with mode := .sequence (params ++ [c]) }
    else if c = 0x6d then { t with mode := .ground, pen := t.pen.select params }
    else { t with mode := .ground, commands := t.commands ++ [(params, c)] }

/-- Take a text. -/
def Term.feed (t : Term) (s : List UInt8) : Term := s.foldl Term.put t

/-- The sequence that sets the pen. -/
def selecting (params : List UInt8) : List UInt8 := [ESC, 0x5b] ++ params ++ [0x6d]

section

variable {t : Term} {s params : List UInt8} {k : Nat} {c : UInt8}

theorem numbers_one (h : 0x3b ∉ params) : numbers params = [number params] := by
  rw [numbers, List.splitOnP_eq_singleton]
  · rfl
  · intro c hc
    apply decide_eq_false
    rintro rfl
    exact h hc

theorem numbers_append (h : 0x3b ∉ params) (s : List UInt8) :
    numbers (params ++ 0x3b :: s) = number params :: numbers s := by
  rw [numbers, List.splitOnP_append_cons_of_forall_mem]
  · rfl
  · intro c hc
    apply decide_eq_false
    rintro rfl
    exact h hc
  · exact decide_eq_true rfl

@[simp] theorem feed_nil (t : Term) : t.feed [] = t := rfl

@[simp] theorem feed_cons (t : Term) (c : UInt8) (s : List UInt8) :
    t.feed (c :: s) = (t.put c).feed s := rfl

theorem feed_append (t : Term) (s s' : List UInt8) : t.feed (s ++ s') = (t.feed s).feed s' :=
  List.foldl_append

/-- Text without escapes is shown. -/
theorem feed_plain (h : t.mode = .ground) (hs : ESC ∉ s) :
    t.feed s = { t with shown := t.shown ++ s.map (·, t.pen) } := by
  induction s generalizing t with
  | nil => simp
  | cons c s ih =>
    obtain ⟨hc, hs⟩ := not_or.mp (mt List.mem_cons.mpr hs)
    have hput : t.put c = { t with shown := t.shown ++ [(c, t.pen)] } := by
      rw [Term.put, h]
      exact if_neg (Ne.symm hc)
    rw [feed_cons, ih (by rw [hput]; exact h) hs, hput]
    simp [List.append_assoc]

/-- An escape begins anew. -/
theorem put_esc (t : Term) : t.put ESC = { t with mode := .escape } := by
  obtain ⟨mode, pen, shown, commands⟩ := t
  cases mode <;> rfl

theorem feed_params {before : List UInt8} (h : t.mode = .sequence before)
    (hs : ∀ c ∈ s, isParam c ∧ c ≠ ESC) :
    t.feed s = { t with mode := .sequence (before ++ s) } := by
  induction s generalizing t before with
  | nil =>
    rw [List.append_nil, ← h]
    rfl
  | cons c s ih =>
    obtain ⟨⟨hparam, hesc⟩, hs⟩ := List.forall_mem_cons.mp hs
    have hput : t.put c = { t with mode := .sequence (before ++ [c]) } := by
      rw [Term.put, h]
      simp [hesc, hparam]
    rw [feed_cons, ih (by rw [hput]) hs, hput, List.append_assoc]
    rfl

/-- A beginning of the sequence that sets the pen. -/
theorem feed_begun (t : Term) (hs : ∀ c ∈ s, isParam c ∧ c ≠ ESC) :
    t.feed ([ESC, 0x5b] ++ s) = { t with mode := .sequence s } := by
  have hbegin : t.feed [ESC, 0x5b] = { t with mode := .sequence [] } := by
    rw [feed_cons, put_esc]
    rfl
  rw [feed_append, hbegin, feed_params rfl hs]
  rfl

theorem feed_selecting (t : Term) (hs : ∀ c ∈ params, isParam c ∧ c ≠ ESC) :
    t.feed (selecting params) = { t with mode := .ground, pen := t.pen.select params } := by
  rw [selecting, feed_append, feed_begun t hs]
  rfl

/-- Cut short, a sequence takes what stands behind it for its own. -/
theorem feed_take_selecting (t : Term) (hs : ∀ c ∈ params, isParam c ∧ c ≠ ESC) (hpos : 0 < k)
    (hlt : k < (selecting params).length) :
    (t.feed ((selecting params).take k)).mode ≠ .ground := by
  rcases k with _ | _ | k
  · exact absurd hpos (Nat.lt_irrefl 0)
  · have hone : (selecting params).take 1 = [ESC] := rfl
    rw [hone, feed_cons, put_esc]
    exact Mode.noConfusion
  · have hle : k ≤ params.length := by
      simp only [selecting, List.length_append, List.length_cons, List.length_nil] at hlt
      omega
    have htake : (selecting params).take (k + 2) = [ESC, 0x5b] ++ params.take k := by
      show [ESC, 0x5b] ++ ((params ++ [0x6d]).take k) = _
      rw [List.take_append_of_le_length hle]
    rw [htake, feed_begun t fun c hc => hs c (List.mem_of_mem_take hc)]
    exact Mode.noConfusion

end

end Lib.Terminal
