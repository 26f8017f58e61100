import Mathlib.Tactic.NormNum
import NeonWrt.Lib.Number

/-!
# Positions on the screen

`uline.c` keeps track of where the cursor is as a column and a row of 16 bits. An offset
in symbols is converted into rows and columns, and added with at most one correction of the
column each way.
-/

namespace NeonWrt.Uline

/-- A number as an `int16_t`. -/
def int16 (n : ℤ) : ℤ := (n + 32768) % 65536 - 32768

/-- `struct pos` -/
structure Pos where
  x : ℤ
  y : ℤ
  deriving DecidableEq

/-- `pos_convert`; without columns it divides by zero. -/
def posConvert (cols offset : ℕ) : Option Pos :=
  if cols = 0 then none
  else
    let y := int16 (offset / cols : ℕ)
    some ⟨int16 (offset - y * cols), y⟩

/-- `pos_add` -/
def posAdd (cols : ℕ) (pos add : Pos) : Pos :=
  let pos : Pos := ⟨int16 (pos.x + add.x), int16 (pos.y + add.y)⟩
  let pos : Pos := if pos.x ≥ int16 cols then ⟨int16 (pos.x - cols), int16 (pos.y + 1)⟩ else pos
  let pos : Pos := if pos.x < 0 then ⟨int16 (pos.x + cols), int16 (pos.y - 1)⟩ else pos
  if pos.y < 0 then ⟨pos.x, 0⟩ else pos

/-- `pos_add_ofs` -/
def posAddOfs (cols : ℕ) (pos : Pos) (offset : ℕ) : Option Pos :=
  (posConvert cols offset).map (posAdd cols pos)

/-- `pos_add_newline` -/
def posAddNewline (pos : Pos) : Pos := ⟨0, int16 (pos.y + 1)⟩

/-- The column is on the screen. -/
def Pos.Inside (cols : ℕ) (pos : Pos) : Prop := 0 ≤ pos.x ∧ pos.x < cols

theorem int16_of_bounds {n : ℤ} (hlo : -32768 ≤ n) (hhi : n < 32768) : int16 n = n := by
  unfold int16
  omega

section Positions

variable {cols : ℕ} {pos add : Pos}

theorem posConvert_isSome (h : 1 ≤ cols) (offset : ℕ) : (posConvert cols offset).isSome := by
  rw [posConvert, if_neg (by omega)]
  rfl

/-- One correction of the column is enough when the sum of two columns is an `int16_t`. -/
theorem posAdd_inside (hcols : cols ≤ 16384) (hpos : pos.Inside cols) (hadd : add.Inside cols) :
    (posAdd cols pos add).Inside cols := by
  obtain ⟨hx, hx'⟩ := hpos
  obtain ⟨ha, ha'⟩ := hadd
  have hsum : int16 (pos.x + add.x) = pos.x + add.x := int16_of_bounds (by omega) (by omega)
  have hc : int16 cols = cols := int16_of_bounds (by omega) (by omega)
  have hcut : int16 (pos.x + add.x - cols) = pos.x + add.x - cols :=
    int16_of_bounds (by omega) (by omega)
  simp only [posAdd, hsum, hc]
  by_cases hge : pos.x + add.x ≥ cols
  · simp only [if_pos hge, hcut, if_neg (show ¬ pos.x + add.x - cols < 0 by omega)]
    split_ifs <;> exact ⟨by simp only; omega, by simp only; omega⟩
  · simp only [if_neg hge, if_neg (show ¬ pos.x + add.x < 0 by omega)]
    split_ifs <;> exact ⟨by simp only; omega, by simp only; omega⟩

end Positions

end NeonWrt.Uline
