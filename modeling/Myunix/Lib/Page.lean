import Mathlib.Logic.Function.Basic

/-!
# Typing on a page, and the window that shows its end

A page has a mark in each row and column, and a place where the next mark goes. `Page.press` types on a roll of paper
that has no end, `Page.pressIn` types on a screen of `h` rows, which scrolls when its last row is full. The screen is a
window to the paper: `Page.window` shows the rows that end with the current one.

* `Page.Fresh`: nothing has been typed below the current row.
* `Page.window_press`, `Page.window_type`: typing on the screen shows what typing on the paper gives.
* `Page.type_marks`: where the marks of a plain text are.
-/

namespace Myunix.Lib

universe u

/-- The keys. In the first column the key that goes back writes its mark. -/
inductive Key (α : Type u)
  | back (a : α)
  | newline
  | ret
  | tab
  | mark (a : α)
deriving DecidableEq, Repr

/-- Marks by row and column, and the place of the next one. -/
structure Page (α : Type u) where
  cell : Nat → Nat → α
  row : Nat
  col : Nat

namespace Page

variable {α : Type u} {a blank : α} {w h n r x : Nat} {k : Key α} {ks : List (Key α)} {p : Page α}

/-! ## The operations -/

/-- Write the mark `a` at row `r` and column `x`. -/
def put (cell : Nat → Nat → α) (r x : Nat) (a : α) : Nat → Nat → α :=
  Function.update cell r (Function.update (cell r) x a)

/-- A mark at the place for it. -/
def strike (a : α) (p : Page α) : Page α := { p with cell := put p.cell p.row p.col a, col := p.col + 1 }

/-- The key itself. -/
def act (k : Key α) (p : Page α) : Page α :=
  match k with
  | .back a => if p.col > 0 then { p with col := p.col - 1 } else p.strike a
  | .newline => { p with row := p.row + 1, col := 0 }
  | .ret => { p with col := 0 }
  | .tab => { p with col := p.col + 4 }
  | .mark a => p.strike a

/-- A row of `w` marks is full. -/
def wrap (w : Nat) (p : Page α) : Page α := if w ≤ p.col then { p with row := p.row + 1, col := 0 } else p

/-- All rows go up by one, and the last of `h` rows is blank. -/
def scroll (blank : α) (h : Nat) (cell : Nat → Nat → α) : Nat → Nat → α :=
  fun r x => if r + 1 < h then cell (r + 1) x else blank

/-- A screen of `h` rows is full. -/
def clip (blank : α) (h : Nat) (p : Page α) : Page α :=
  if h ≤ p.row then ⟨scroll blank h p.cell, h - 1, 0⟩ else p

/-- A key on paper with rows of `w` marks. -/
def press (w : Nat) (p : Page α) (k : Key α) : Page α := (p.act k).wrap w

/-- A key on a screen with `h` rows of `w` marks. -/
def pressIn (blank : α) (w h : Nat) (p : Page α) (k : Key α) : Page α := ((p.act k).wrap w).clip blank h

/-- Keys on paper. -/
def type (w : Nat) (p : Page α) (ks : List (Key α)) : Page α := ks.foldl (press w) p

/-- Keys on a screen. -/
def typeIn (blank : α) (w h : Nat) (p : Page α) (ks : List (Key α)) : Page α := ks.foldl (pressIn blank w h) p

/-- The first row that a screen of `h` rows shows. -/
def top (h : Nat) (p : Page α) : Nat := p.row + 1 - h

/-- What a screen of `h` rows shows. -/
def window (h : Nat) (p : Page α) : Page α := ⟨fun r x => p.cell (p.top h + r) x, p.row - p.top h, p.col⟩

/-- The next mark goes into a row, and there are no marks below it and the first `h` rows. -/
structure Fresh (blank : α) (w h : Nat) (p : Page α) : Prop where
  col_lt : p.col < w
  below : ∀ r x, p.row < r → h ≤ r → p.cell r x = blank

/-! ## Marks -/

theorem put_self (cell : Nat → Nat → α) : put cell r x a r x = a := by
  rw [put, Function.update_self, Function.update_self]

theorem put_row {cell : Nat → Nat → α} {r' x' : Nat} (hr : r' ≠ r) : put cell r x a r' x' = cell r' x' := by
  rw [put, Function.update_of_ne hr]

theorem put_col {cell : Nat → Nat → α} {r' x' : Nat} (hx : x' ≠ x) : put cell r x a r' x' = cell r' x' := by
  by_cases hr : r' = r
  · subst hr
    rw [put, Function.update_self, Function.update_of_ne hx]
  · exact put_row hr

/-- A mark elsewhere. -/
theorem put_apart {cell : Nat → Nat → α} {r' x' : Nat} (hne : ¬ (r' = r ∧ x' = x)) :
    put cell r x a r' x' = cell r' x' := by
  by_cases hr : r' = r
  · exact put_col fun hx => hne ⟨hr, hx⟩
  · exact put_row hr

/-- A mark in a part of the rows. -/
theorem put_shift (cell : Nat → Nat → α) (t : Nat) :
    put (fun r x => cell (t + r) x) r x a = fun r' x' => put cell (t + r) x a (t + r') x' := by
  funext r' x'
  by_cases hsame : r' = r ∧ x' = x
  · rw [hsame.1, hsame.2, put_self, put_self]
  · rw [put_apart hsame, put_apart fun hsame' => hsame ⟨by omega, hsame'.2⟩]

/-! ## One key -/

theorem act_back (hcol : 0 < p.col) : p.act (.back a) = { p with col := p.col - 1 } := if_pos hcol

theorem act_back_first (hcol : p.col = 0) : p.act (.back a) = p.strike a := if_neg (by omega)

theorem act_back_row : (p.act (.back a)).row = p.row := by
  rcases Nat.eq_zero_or_pos p.col with hcol | hcol
  · rw [act_back_first hcol]
    rfl
  · rw [act_back hcol]

theorem act_row : p.row ≤ (p.act k).row := by
  cases k with
  | back a => exact Nat.le_of_eq act_back_row.symm
  | newline => exact Nat.le_succ _
  | ret | tab | mark a => exact Nat.le_refl _

theorem act_cell (hr : r ≠ p.row) : (p.act k).cell r x = p.cell r x := by
  cases k with
  | back a =>
    rcases Nat.eq_zero_or_pos p.col with hcol | hcol
    · rw [act_back_first hcol]
      exact put_row hr
    · rw [act_back hcol]
  | mark a => exact put_row hr
  | newline | ret | tab => rfl

theorem wrap_full (hcol : w ≤ p.col) : p.wrap w = { p with row := p.row + 1, col := 0 } := if_pos hcol

theorem wrap_room (hcol : p.col < w) : p.wrap w = p := if_neg (by omega)

theorem wrap_cell : (p.wrap w).cell = p.cell := by
  unfold wrap
  split <;> rfl

/-- A key stays in its row or starts the next one. -/
theorem press_place (hcol : p.col < w) : (p.press w k).row = p.row ∧ (p.press w k).col < w ∨
    (p.press w k).row = p.row + 1 ∧ (p.press w k).col = 0 := by
  unfold press
  have hact : (p.act k).row = p.row ∨ (p.act k).row = p.row + 1 ∧ (p.act k).col = 0 := by
    cases k with
    | back a => exact Or.inl act_back_row
    | newline => exact Or.inr ⟨rfl, rfl⟩
    | ret | tab | mark a => exact Or.inl rfl
  rcases Nat.lt_or_ge (p.act k).col w with hroom | hfull
  · rw [wrap_room hroom]
    omega
  · rw [wrap_full hfull]
    refine Or.inr ⟨?_, rfl⟩
    change (p.act k).row + 1 = p.row + 1
    omega

theorem press_cell (hr : r ≠ p.row) : (p.press w k).cell r x = p.cell r x := by
  rw [press, wrap_cell, act_cell hr]

/-- Typing does not reach the rows below. -/
theorem Fresh.press (hp : p.Fresh blank w h) : (p.press w k).Fresh blank w h := by
  have hw := Nat.lt_of_le_of_lt (Nat.zero_le _) hp.col_lt
  have hplace := press_place (k := k) hp.col_lt
  refine ⟨by omega, fun r x hr hh => ?_⟩
  rw [press_cell (by omega)]
  exact hp.below r x (by omega) hh

theorem Fresh.type (hp : p.Fresh blank w h) : (p.type w ks).Fresh blank w h := by
  induction ks generalizing p with
  | nil => exact hp
  | cons k ks ih => exact ih hp.press

/-! ## The window -/

/-- The rows from `t` on. -/
def rowsFrom (t : Nat) (p : Page α) : Page α := ⟨fun r x => p.cell (t + r) x, p.row - t, p.col⟩

theorem strike_rowsFrom {t : Nat} (ht : t ≤ p.row) : (p.rowsFrom t).strike a = (p.strike a).rowsFrom t := by
  have hrow : t + (p.row - t) = p.row := by omega
  simp only [strike, Page.rowsFrom, put_shift, hrow]

theorem act_rowsFrom {t : Nat} (ht : t ≤ p.row) : (p.rowsFrom t).act k = (p.act k).rowsFrom t := by
  cases k with
  | back a =>
    rcases Nat.eq_zero_or_pos p.col with hcol | hcol
    · rw [act_back_first hcol, act_back_first (p := p.rowsFrom t) hcol, strike_rowsFrom ht]
    · rw [act_back hcol, act_back (p := p.rowsFrom t) hcol]
      rfl
  | mark a => exact strike_rowsFrom ht
  | newline =>
    have hrow : p.row - t + 1 = p.row + 1 - t := by omega
    simp only [act, Page.rowsFrom, hrow]
  | ret | tab => rfl

theorem wrap_rowsFrom {t : Nat} (ht : t ≤ p.row) : (p.rowsFrom t).wrap w = (p.wrap w).rowsFrom t := by
  have hrow : p.row - t + 1 = p.row + 1 - t := by omega
  unfold wrap
  by_cases hfull : w ≤ p.col
  · rw [if_pos hfull, if_pos (show w ≤ (p.rowsFrom t).col from hfull), rowsFrom, rowsFrom, hrow]
  · rw [if_neg hfull, if_neg (show ¬ w ≤ (p.rowsFrom t).col from hfull)]

/-- A screen that is full scrolls, and then shows the rows that end with the new one. -/
theorem clip_rowsFrom {t : Nat} (hh : 0 < h) (ht : t ≤ p.row) (hle : p.row ≤ t + h) (hcol : p.row = t + h → p.col = 0)
    (htop : 0 < t → t + h ≤ p.row + 1) (hblank : ∀ r x, t + h ≤ r → p.cell r x = blank) :
    (p.rowsFrom t).clip blank h = p.window h := by
  unfold clip window top
  by_cases hfull : h ≤ p.row - t
  · have hrow : p.row = t + h := by omega
    rw [Page.rowsFrom, if_pos hfull, hcol hrow, show p.row + 1 - h = t + 1 by omega,
      show p.row - (t + 1) = h - 1 by omega]
    congr 1
    funext r x
    unfold scroll
    split
    · exact congrArg (p.cell · x) (by omega)
    · exact (hblank _ _ (by omega)).symm
  · rw [Page.rowsFrom, if_neg hfull, show p.row + 1 - h = t by omega]

/-- **A key**: the screen shows what has been typed on the paper. -/
theorem window_press (hh : 0 < h) (hp : p.Fresh blank w h) :
    (p.press w k).window h = (p.window h).pressIn blank w h k := by
  have hw := Nat.lt_of_le_of_lt (Nat.zero_le _) hp.col_lt
  have hplace := press_place (k := k) hp.col_lt
  have ht : p.top h ≤ p.row := by unfold top; omega
  have htop : p.top h = p.row + 1 - h := rfl
  have hact := act_row (p := p) (k := k)
  have hfrom : ((p.window h).act k).wrap w = (p.press w k).rowsFrom (p.top h) := by
    rw [show p.window h = p.rowsFrom (p.top h) from rfl, act_rowsFrom ht, wrap_rowsFrom (by omega)]
    rfl
  rw [pressIn, hfrom, clip_rowsFrom hh (by omega) (by omega) (fun hrow => by omega) (by omega)]
  intro r x hr
  rw [press_cell (by omega)]
  exact hp.below r x (by omega) (by omega)

/-- **Keys**: the screen shows the end of the paper. -/
theorem window_type (hh : 0 < h) (hp : p.Fresh blank w h) :
    (p.type w ks).window h = (p.window h).typeIn blank w h ks := by
  induction ks generalizing p with
  | nil => rfl
  | cons k ks ih =>
    have hrest := ih (p := p.press w k) hp.press
    rw [window_press hh hp] at hrest
    exact hrest

/-! ## Plain text -/

theorem press_mark (hcol : p.col < w) :
    (p.press w (.mark a)).row * w + (p.press w (.mark a)).col = p.row * w + p.col + 1 ∧
      (p.press w (.mark a)).col < w := by
  unfold press
  rcases Nat.lt_or_ge (p.col + 1) w with hroom | hfull
  · rw [wrap_room hroom]
    exact ⟨rfl, hroom⟩
  · rw [wrap_full hfull]
    refine ⟨?_, Nat.lt_of_le_of_lt (Nat.zero_le _) hcol⟩
    have hrow : (p.row + 1) * w = p.row * w + w := Nat.succ_mul _ _
    change (p.row + 1) * w + 0 = p.row * w + p.col + 1
    omega

/-- The mark of a place is at its quotient and remainder. -/
theorem place_eq (hx : x < w) (hcol : p.col < w) : r * w + x = p.row * w + p.col ↔ r = p.row ∧ x = p.col := by
  constructor
  · intro h
    have hr := congrArg (· / w) h
    have hx' := congrArg (· % w) h
    have hw := Nat.lt_of_le_of_lt (Nat.zero_le _) hx
    simp only [Nat.mul_comm _ w, Nat.mul_add_div hw, Nat.div_eq_of_lt hx, Nat.div_eq_of_lt hcol, Nat.mul_add_mod,
      Nat.mod_eq_of_lt hx, Nat.mod_eq_of_lt hcol, Nat.add_zero] at hr hx'
    exact ⟨hr, hx'⟩
  · rintro ⟨rfl, rfl⟩
    rfl

/-- Every mark takes one place. -/
theorem type_place (as : List α) (hcol : p.col < w) :
    (p.type w (as.map .mark)).row * w + (p.type w (as.map .mark)).col = p.row * w + p.col + as.length ∧
      (p.type w (as.map .mark)).col < w := by
  induction as generalizing p with
  | nil => exact ⟨rfl, hcol⟩
  | cons a as ih =>
    obtain ⟨hpos, hcol'⟩ := press_mark (a := a) hcol
    obtain ⟨hplace, hlt⟩ := ih (p := p.press w (.mark a)) hcol'
    rw [hpos] at hplace
    refine ⟨hplace.trans ?_, hlt⟩
    rw [List.length_cons]
    omega

/-- **Plain text**: the marks follow each other, row by row. -/
theorem type_marks (as : List α) (hcol : p.col < w) (hx : x < w) : (p.type w (as.map .mark)).cell r x =
    if r * w + x < p.row * w + p.col then p.cell r x else as.getD (r * w + x - (p.row * w + p.col)) (p.cell r x) := by
  induction as generalizing p with
  | nil => simp [type]
  | cons a as ih =>
    obtain ⟨hpos, hcol'⟩ := press_mark (a := a) hcol
    have hstep := ih (p := p.press w (.mark a)) hcol'
    rw [hpos] at hstep
    have hcell : (p.press w (.mark a)).cell = put p.cell p.row p.col a := by
      rw [press, wrap_cell]
      rfl
    rw [hcell] at hstep
    rw [List.map_cons, show p.type w (.mark a :: as.map .mark) = (p.press w (.mark a)).type w (as.map .mark) from rfl,
      hstep]
    have hplace := place_eq (r := r) hx hcol
    rcases Nat.lt_trichotomy (r * w + x) (p.row * w + p.col) with hlt | heq | hgt
    · rw [if_pos (by omega), if_pos hlt, put_apart fun hsame => by omega]
    · obtain ⟨hr, hx'⟩ := hplace.1 heq
      rw [if_pos (by omega), if_neg (by omega), heq, Nat.sub_self, List.getD_cons_zero, hr, hx', put_self]
    · rw [if_neg (by omega), if_neg (by omega), put_apart fun hsame => by omega,
        show r * w + x - (p.row * w + p.col) = r * w + x - (p.row * w + p.col + 1) + 1 by omega, List.getD_cons_succ]

end Page

end Myunix.Lib
