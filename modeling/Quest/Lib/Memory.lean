import Mathlib

/-! Memory as a function from addresses to bytes, and the writes of the C library
to a range of it. -/
namespace Quest.Lib.Memory

open List Function

def blit (mem : Nat → UInt8) (dst : Nat) (src : Nat → UInt8) (count : Nat) : Nat → UInt8 :=
  fun a => if dst ≤ a ∧ a < dst + count then src (a - dst) else mem a

def bytesAt (mem : Nat → UInt8) (a count : Nat) : List UInt8 :=
  (List.range count).map fun j => mem (a + j)

variable {mem mem' src : Nat → UInt8} {dst a count size : Nat}

theorem blit_inside (h : dst ≤ a) (h' : a < dst + count) :
    blit mem dst src count a = src (a - dst) := if_pos ⟨h, h'⟩

theorem blit_outside (h : a < dst ∨ dst + count ≤ a) : blit mem dst src count a = mem a := by
  apply if_neg
  omega

theorem blit_congr {src' : Nat → UInt8} (hmem : mem a = mem' a)
    (hsrc : ∀ j < count, src j = src' j) :
    blit mem dst src count a = blit mem' dst src' count a := by
  rw [blit, blit]
  split
  · exact hsrc _ (by omega)
  · exact hmem

@[simp] theorem blit_zero : blit mem dst src 0 = mem := by
  funext a
  apply blit_outside
  omega

theorem update_blit (mem src : Nat → UInt8) (dst count : Nat) :
    update (blit mem dst src count) (dst + count) (src count) =
      blit mem dst src (count + 1) := by
  funext a
  by_cases ha : a = dst + count
  · subst ha
    rw [update_self, blit_inside (by omega) (by omega), Nat.add_sub_cancel_left]
  · rw [update_of_ne ha, blit, blit]
    congr 1
    apply propext
    omega

@[simp] theorem bytesAt_zero : bytesAt mem a 0 = [] := rfl

@[simp] theorem length_bytesAt : (bytesAt mem a count).length = count := by
  simp [bytesAt]

theorem bytesAt_congr (h : ∀ j < count, mem (a + j) = mem' (a + j)) :
    bytesAt mem a count = bytesAt mem' a count := by
  apply map_congr_left
  intro j hj
  exact h j (mem_range.mp hj)

theorem bytesAt_add (mem : Nat → UInt8) (a m n : Nat) :
    bytesAt mem a (m + n) = bytesAt mem a m ++ bytesAt mem (a + m) n := by
  simp [bytesAt, range_add, Nat.add_assoc]

theorem take_bytesAt {m : Nat} (h : m ≤ count) :
    (bytesAt mem a count).take m = bytesAt mem a m := by
  obtain ⟨n, rfl⟩ := Nat.exists_eq_add_of_le h
  rw [bytesAt_add, take_left' length_bytesAt]

theorem drop_bytesAt {m : Nat} (h : m ≤ count) :
    (bytesAt mem a count).drop m = bytesAt mem (a + m) (count - m) := by
  obtain ⟨n, rfl⟩ := Nat.exists_eq_add_of_le h
  rw [bytesAt_add, drop_left' length_bytesAt, Nat.add_sub_cancel_left]

theorem getD_bytesAt {j : Nat} (h : j < count) : (bytesAt mem a count).getD j 0 = mem (a + j) := by
  simp [bytesAt, getD_eq_getElem?_getD, h]

theorem bytesAt_blit_self : bytesAt (blit mem dst src count) dst count = bytesAt src 0 count := by
  apply map_congr_left
  intro j hj
  have hj := mem_range.mp hj
  rw [blit_inside (by omega) (by omega), Nat.add_sub_cancel_left, Nat.zero_add]

theorem bytesAt_blit_disjoint (h : a + size ≤ dst ∨ dst + count ≤ a) :
    bytesAt (blit mem dst src count) a size = bytesAt mem a size := by
  apply bytesAt_congr
  intro j hj
  apply blit_outside
  omega

theorem bytesAt_getD {buf : List UInt8} {amount : Nat} (hle : amount ≤ buf.length) :
    bytesAt (fun j => buf.getD j 0) 0 amount = buf.take amount := by
  apply ext_getElem
  · simp [bytesAt, hle]
  · intro j hj _
    have hlt : j < buf.length := by
      rw [length_bytesAt] at hj
      omega
    simp [bytesAt, getD_eq_getElem?_getD, hlt]

theorem bytesAt_blit_end (mem src : Nat → UInt8) (filled amount : Nat) :
    bytesAt (blit mem filled src amount) 0 (filled + amount) =
      bytesAt mem 0 filled ++ bytesAt src 0 amount := by
  rw [bytesAt_add, bytesAt_blit_disjoint (.inl (by omega)), Nat.zero_add, bytesAt_blit_self]

def place (mem : Nat → UInt8) (a : Nat) (bytes : List UInt8) : Nat → UInt8 :=
  fun i => if a ≤ i then bytes[i - a]?.getD (mem i) else mem i

theorem place_inside {bytes : List UInt8} {j : Nat} (h : j < bytes.length) :
    place mem a bytes (a + j) = bytes[j] := by
  simp [place, h]

theorem place_outside {bytes : List UInt8} {i : Nat} (h : i < a ∨ a + bytes.length ≤ i) :
    place mem a bytes i = mem i := by
  rw [place]
  split
  · rw [getElem?_eq_none (by omega), Option.getD_none]
  · rfl

@[simp] theorem place_nil : place mem a [] = mem := by
  funext i
  simp [place]

theorem place_cons (c : UInt8) (bytes : List UInt8) :
    place mem a (c :: bytes) = place (update mem a c) (a + 1) bytes := by
  funext i
  rcases Nat.lt_trichotomy i a with h | rfl | h
  · rw [place_outside (.inl h), place_outside (.inl (by omega)), update_of_ne (by omega)]
  · rw [place_outside (.inl (Nat.lt_succ_self i)), update_self]
    simp [place]
  · obtain ⟨j, rfl⟩ := Nat.exists_eq_add_of_le h
    have hj : a.succ + j - a = j + 1 := by omega
    have hj' : a.succ + j - (a + 1) = j := by omega
    simp only [place, hj, hj', getElem?_cons_succ]
    rw [if_pos (by omega), if_pos (by omega), update_of_ne (by omega)]

theorem place_append (xs ys : List UInt8) :
    place mem a (xs ++ ys) = place (place mem a xs) (a + xs.length) ys := by
  induction xs generalizing mem a with
  | nil => simp
  | cons c xs ih =>
    rw [cons_append, place_cons, ih, ← place_cons, length_cons, Nat.add_right_comm,
      Nat.add_assoc]

theorem bytesAt_place {bytes : List UInt8} (h : count ≤ bytes.length) :
    bytesAt (place mem a bytes) a count = bytes.take count := by
  apply ext_getElem
  · rw [length_bytesAt, length_take, Nat.min_eq_left h]
  · intro j hj _
    rw [length_bytesAt] at hj
    rw [getElem_take]
    simp only [bytesAt, getElem_map, getElem_range]
    exact place_inside (by omega)

def word (mem : Nat → UInt8) (a : Nat) : Nat :=
  (mem a).toNat + 2 ^ 8 * (mem (a + 1)).toNat + 2 ^ 16 * (mem (a + 2)).toNat +
    2 ^ 24 * (mem (a + 3)).toNat

def wordByte (value j : Nat) : UInt8 := UInt8.ofNat (value / 2 ^ (8 * j))

def setWord (mem : Nat → UInt8) (a value : Nat) : Nat → UInt8 := blit mem a (wordByte value) 4

theorem word_lt (mem : Nat → UInt8) (a : Nat) : word mem a < 2 ^ 32 := by
  have h0 := (mem a).toNat_lt
  have h1 := (mem (a + 1)).toNat_lt
  have h2 := (mem (a + 2)).toNat_lt
  have h3 := (mem (a + 3)).toNat_lt
  rw [word]
  omega

theorem word_congr (h : ∀ j < 4, mem (a + j) = mem' (a + j)) : word mem a = word mem' a := by
  rw [word, word, ← h 1 (by omega), ← h 2 (by omega), ← h 3 (by omega)]
  have := h 0 (by omega)
  rw [Nat.add_zero] at this
  rw [this]

theorem word_zero (h : ∀ j < 4, mem (a + j) = 0) : word mem a = 0 := by
  have hzero : word mem a = word (fun _ => 0) a := word_congr h
  rw [hzero, word]
  rfl

theorem word_blit_outside (h : a + 4 ≤ dst ∨ dst + count ≤ a) :
    word (blit mem dst src count) a = word mem a := by
  apply word_congr
  intro j hj
  apply blit_outside
  omega

theorem word_blit_inside (h : dst ≤ a) (h' : a + 4 ≤ dst + count) :
    word (blit mem dst src count) a = word src (a - dst) := by
  have hbyte : ∀ j < 4, blit mem dst src count (a + j) = src (a - dst + j) := by
    intro j hj
    rw [blit_inside (by omega) (by omega)]
    congr 1
    omega
  rw [word, word, hbyte 1 (by omega), hbyte 2 (by omega), hbyte 3 (by omega)]
  have := hbyte 0 (by omega)
  rw [Nat.add_zero, Nat.add_zero] at this
  rw [this]

theorem toNat_wordByte (value j : Nat) :
    (wordByte value j).toNat = value / 2 ^ (8 * j) % 2 ^ 8 := by
  rw [wordByte, UInt8.toNat_ofNat']

theorem word_setWord {value : Nat} (h : value < 2 ^ 32) : word (setWord mem a value) a = value := by
  rw [setWord, word_blit_inside (Nat.le_refl a) (Nat.le_refl _), Nat.sub_self, word]
  simp only [toNat_wordByte]
  omega

theorem wordByte_word {j : Nat} (h : j < 4) : wordByte (word mem a) j = mem (a + j) := by
  have h0 := (mem a).toNat_lt
  have h1 := (mem (a + 1)).toNat_lt
  have h2 := (mem (a + 2)).toNat_lt
  have h3 := (mem (a + 3)).toNat_lt
  apply UInt8.toNat_inj.mp
  rw [toNat_wordByte, word]
  match j, h with
  | 0, _ => simp only [Nat.add_zero]; omega
  | 1, _ => omega
  | 2, _ => omega
  | 3, _ => omega

theorem setWord_setWord {value value' : Nat} :
    setWord (setWord mem a value) a value' = setWord mem a value' := by
  funext x
  simp only [setWord, blit]
  split
  · rfl
  · rfl

def ofWords (words : Nat → Nat) : Nat → UInt8 := fun a => wordByte (words (a / 4)) (a % 4)

theorem word_ofWords {words : Nat → Nat} {n : Nat} (h : words n < 2 ^ 32) :
    word (ofWords words) (4 * n) = words n := by
  have hbyte : ∀ j < 4, ofWords words (4 * n + j) = wordByte (words n) j := by
    intro j hj
    rw [ofWords, show (4 * n + j) / 4 = n by omega, show (4 * n + j) % 4 = j by omega]
  have hfirst := hbyte 0 (by omega)
  rw [Nat.add_zero] at hfirst
  rw [word, hfirst, hbyte 1 (by omega), hbyte 2 (by omega), hbyte 3 (by omega)]
  simp only [toNat_wordByte]
  omega

end Quest.Lib.Memory
