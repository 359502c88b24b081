import Quest.Basic

/-! The text screen, `util/screen.c`.  But for the lock, `putchar`, `print` and `putx` are
`_putchar`, `_print` and `_putx`. -/
namespace Quest.Util.Screen

open List Function

/-- The cursor of `_putchar`, and the memory that `pchVideo` points to. -/
structure Console where
  x : Nat
  y : Nat
  video : Nat → UInt8

/-- A write to the text area, 25 rows of 80 characters with two bytes each. -/
def Console.store (s : Console) (offset : Nat) (byte : UInt8) : Except Fault Console :=
  if offset < 4000 then .ok { s with video := update s.video offset byte }
  else .error .outOfBounds

def newline : Int := 10

def putchar (s : Console) (ch : Int) : Except Fault (UInt8 × Console) :=
  if ch = newline then
    .ok (UInt8.ofInt ch, { s with x := 0, y := if 24 < s.y + 1 then 0 else s.y + 1 })
  else do
    let s ← s.store (s.y * 160 + s.x * 2) (UInt8.ofInt ch)
    let s ← s.store (s.y * 160 + s.x * 2 + 1) 7
    .ok (UInt8.ofInt ch, { s with x := s.x + 1 })

def putchars (s : Console) : List Int → Except Fault Console
  | [] => .ok s
  | ch :: text => do
    let (_, s) ← putchar s ch
    putchars s text

def hexDigit (li : Nat) : Int := if 9 < li then 65 + li - 0x0A else 48 + li

inductive Call where
  | putchar (ch : Int)
  | print (pch : List Int8)
  | putx (l : UInt32)

/-- The characters that a call hands to `_putchar`.  A string ends at its first zero. -/
def Call.text : Call → List Int
  | .putchar ch => [ch]
  | .print pch => (pch.takeWhile (· ≠ 0)).map Int8.toInt
  | .putx l => [7, 6, 5, 4, 3, 2, 1, 0].map fun i => hexDigit (l.toNat >>> (i <<< 2) &&& 0x0F)

variable {s : Console} {ch : Int} {text : List Int} {n : Nat}

theorem putchar_other (h : ch ≠ newline) (hy : s.y ≤ 24) :
    (s.x < 80 * (25 - s.y) → ∃ byte video,
      putchar s ch = .ok (byte, { s with x := s.x + 1, video := video })) ∧
    (80 * (25 - s.y) ≤ s.x → putchar s ch = .error .outOfBounds) := by
  rw [putchar, if_neg h]
  constructor
  · intro hx
    rw [Console.store, if_pos (by omega), ok_bind, Console.store, if_pos (by dsimp only; omega)]
    exact ⟨_, _, rfl⟩
  · intro hx
    rw [Console.store, if_neg (by omega)]
    rfl

/-- Line `n` starts in row `n % 25`, the first one behind `x` characters, and no line goes on
behind the last row. -/
def Fits : Nat → Nat → List (List Int) → Prop
  | _, _, [] => True
  | x, n, line :: lines => x + line.length ≤ 80 * (25 - n % 25) ∧ Fits 0 (n + 1) lines

theorem putchars_returns_iff (hy : s.y = n % 25) (hx : s.x ≤ 80 * (25 - n % 25)) :
    (∃ s', putchars s text = .ok s') ↔ Fits s.x n (text.splitOn newline) := by
  induction text generalizing s n with
  | nil => exact iff_of_true ⟨s, rfl⟩ ⟨hx, trivial⟩
  | cons ch text ih =>
    rw [putchars, splitOn_cons_eq_if_modifyHead]
    by_cases hch : ch = newline
    · rw [if_pos (by simpa using hch), putchar, if_pos hch, ok_bind]
      refine (ih ?_ (Nat.zero_le _)).trans (and_iff_right hx).symm
      dsimp only
      split <;> omega
    · obtain ⟨line, lines, hlines⟩ := exists_cons_of_ne_nil (splitOn_ne_nil newline text)
      obtain ⟨hroom, hend⟩ := putchar_other hch (show s.y ≤ 24 by omega)
      rw [if_neg (by simpa using hch), hlines, modifyHead_cons, Fits, length_cons]
      by_cases hlt : s.x < 80 * (25 - s.y)
      · obtain ⟨byte, video, hput⟩ := hroom hlt
        have hrest := ih (s := { s with x := s.x + 1, video := video }) hy (by dsimp only; omega)
        rw [hlines, Fits, Nat.add_right_comm, Nat.add_assoc] at hrest
        rwa [hput, ok_bind]
      · rw [hend (Nat.le_of_not_lt hlt)]
        refine iff_of_false (by rintro ⟨s', hs'⟩; cases hs') fun hfits => ?_
        omega

/-- What is printed stays on the screen if and only if no line goes on behind its last row. -/
theorem console_on_screen_iff (video : Nat → UInt8) (calls : List Call) :
    (∃ s, putchars ⟨0, 0, video⟩ (calls.flatMap Call.text) = .ok s) ↔
      Fits 0 0 ((calls.flatMap Call.text).splitOn newline) :=
  putchars_returns_iff rfl (Nat.zero_le _)

/-- In the last row, the 81st character is stored behind the text area. -/
theorem console_leaves_screen :
    (putchars ⟨0, 0, fun _ => 0⟩
      (Call.print (replicate 24 10 ++ replicate 81 0x61)).text).isOk = false := by
  decide +kernel

end Quest.Util.Screen
