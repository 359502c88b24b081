import Quest.Basic
import Quest.Lib.Memory
import Quest.Lib.Numeral

/-! Formatted output of the C library (`libc/src/stdio.c`): `itoa`, `printf` and `sprintf`. -/
namespace Quest.Libc.Format

open Lib.Memory Lib.Numeral List Function

abbrev Word := BitVec 32

def digit (remainder : Nat) : UInt8 :=
  if remainder < 10 then UInt8.ofNat (remainder + 48) else UInt8.ofNat (remainder + 97 - 10)

def putDigits (divisor : Nat) :
    Nat → Nat → Nat → (Nat → UInt8) → Except Fault (Nat × (Nat → UInt8))
  | 0, _, _, _ => .error .diverges
  | fuel + 1, ud, p, buf =>
      let buf := update buf p (digit (ud % divisor))
      if ud / divisor = 0 then .ok (p + 1, buf)
      else putDigits divisor fuel (ud / divisor) (p + 1) buf

def reverse : Nat → Nat → Nat → (Nat → UInt8) → Except Fault (Nat → UInt8)
  | 0, _, _, _ => .error .diverges
  | fuel + 1, p1, p2, buf =>
      if p1 < p2 then
        reverse fuel (p1 + 1) (p2 - 1)
          (update (update buf p1 (buf p2)) p2 (buf p1))
      else .ok buf

def itoa (buf : Nat → UInt8) (base : UInt8) (d : Word) : Except Fault (Nat → UInt8) := do
  let negative := base = 'd'.toUInt8 ∧ d.toInt < 0
  let start := if negative then 1 else 0
  let buf := if negative then update buf 0 '-'.toUInt8 else buf
  let ud := if negative then (-d).toNat else d.toNat
  let divisor := if base = 'x'.toUInt8 then 16 else 10
  let (p, buf) ← putDigits divisor 32 ud start buf
  reverse p start (p - 1) (update buf p 0)

def untilNul (buf : Nat → UInt8) : Nat → Nat → Except Fault (List UInt8)
  | 0, _ => .error .outOfBounds
  | rounds + 1, i =>
      if buf i = 0 then .ok [] else (buf i :: ·) <$> untilNul buf rounds (i + 1)

def nullText : List UInt8 := "(null)".toList.map Char.toUInt8

/-- The characters that directive `c` produces, and the local `buf` after it.  `strings` has the
characters before the NUL at an address. -/
def directive (strings : Word → List UInt8) (buf : Nat → UInt8) (c : UInt8) (arg : Word) :
    Except Fault (List UInt8 × (Nat → UInt8)) :=
  if c = 'd'.toUInt8 ∨ c = 'u'.toUInt8 ∨ c = 'x'.toUInt8 then do
    let buf ← itoa buf c arg
    let p ← untilNul buf 20 0
    .ok (p, buf)
  else if c = 's'.toUInt8 then .ok (if arg = 0 then nullText else strings arg, buf)
  else .ok ([UInt8.ofNat arg.toNat], buf)

variable {σ : Type}

def scan (emit : σ → UInt8 → σ) (strings : Word → List UInt8) (format : List UInt8) :
    Nat → Nat → List Word → (Nat → UInt8) → σ → Word → Except Fault (σ × Word)
  | 0, _, _, _, _, _ => .error .diverges
  | fuel + 1, i, args, buf, sink, count => do
      let c ← charAt format i
      if c = 0 then .ok (sink, count)
      else if c ≠ '%'.toUInt8 then
        scan emit strings format fuel (i + 1) args buf (emit sink c) (count + 1)
      else do
        let c ← charAt format (i + 1)
        let (arg, args) ← nextArg args
        let (p, buf) ← directive strings buf c arg
        scan emit strings format fuel (i + 2) args buf (p.foldl emit sink)
          (count + BitVec.ofNat 32 p.length)

def printf (strings : Word → List UInt8) (buf : Nat → UInt8) (format : List UInt8)
    (args : List Word) : Except Fault (List UInt8 × Word) :=
  scan (fun out c => out ++ [c]) strings format (format.length + 1) 0 args buf [] 0

def store (s : Nat × (Nat → UInt8)) (c : UInt8) : Nat × (Nat → UInt8) :=
  (s.1 + 1, update s.2 s.1 c)

def sprintf (str : Nat → UInt8) (strings : Word → List UInt8) (buf : Nat → UInt8)
    (format : List UInt8) (args : List Word) : Except Fault ((Nat → UInt8) × Word) := do
  let (s, count) ← scan store strings format (format.length + 1) 0 args buf (0, str) 0
  .ok (update s.2 s.1 0, count)

def decimal (z : Int) : List UInt8 :=
  (if z < 0 then ['-'.toUInt8] else []) ++ text 10 z.natAbs

theorem digit_eq {k : Nat} (h : k < 16) : digit k = (Nat.digitChar k).toUInt8 := by
  interval_cases k <;> rfl

theorem map_digit {b n : Nat} (hb : 1 < b) (hb' : b ≤ 16) :
    (numeral b n).map digit = text b n := by
  apply map_congr_left
  intro k hk
  exact digit_eq (lt_of_lt_of_le (numeral_digit_lt hb k hk) hb')

theorem putDigits_spec {b : Nat} (hb : 1 < b) (fuel ud p : Nat) (buf : Nat → UInt8)
    (h : ud < b ^ (fuel + 1)) :
    putDigits b (fuel + 1) ud p buf =
      .ok (p + (numeral b ud).length, place buf p ((numeral b ud).map digit).reverse) := by
  induction fuel generalizing ud p buf with
  | zero =>
    have hlt : ud < b := by rwa [zero_add, pow_one] at h
    rw [putDigits, if_pos (Nat.div_eq_of_lt hlt), numeral_of_lt hlt, Nat.mod_eq_of_lt hlt]
    simp [place_cons]
  | succ fuel ih =>
    rw [putDigits]
    by_cases hlt : ud < b
    · rw [if_pos (Nat.div_eq_of_lt hlt), numeral_of_lt hlt, Nat.mod_eq_of_lt hlt]
      simp [place_cons]
    · have hle : b ≤ ud := Nat.le_of_not_lt hlt
      have hdiv : ud / b < b ^ (fuel + 1) :=
        Nat.div_lt_of_lt_mul (by rwa [Nat.pow_succ, mul_comm] at h)
      have hne : ud / b ≠ 0 := by
        rw [Ne, Nat.div_eq_zero_iff]
        omega
      rw [if_neg hne, ih _ _ _ hdiv, numeral_of_le hb hle]
      simp [place_cons, add_comm, add_assoc]

theorem reverse_spec (fuel p1 p2 : Nat) (buf : Nat → UInt8) (h : p2 ≤ fuel + p1) :
    reverse (fuel + 1) p1 p2 buf =
      .ok fun i => if p1 ≤ i ∧ i ≤ p2 then buf (p1 + p2 - i) else buf i := by
  induction fuel generalizing p1 p2 buf with
  | zero =>
    rw [reverse, if_neg (by omega)]
    congr 1
    funext i
    split
    · rw [show p1 + p2 - i = i by omega]
    · rfl
  | succ fuel ih =>
    rw [reverse]
    by_cases hlt : p1 < p2
    · rw [if_pos hlt, ih _ _ _ (by omega)]
      congr 1
      funext i
      -- The two ends are swapped here; inside them the sum of the two ends is the same.
      by_cases hleft : i = p1
      · subst hleft
        rw [if_neg (by omega), if_pos (by omega), update_of_ne (by omega),
          update_self, Nat.add_sub_cancel_left]
      by_cases hright : i = p2
      · subst hright
        rw [if_neg (by omega), if_pos (by omega), update_self, Nat.add_sub_cancel]
      by_cases hin : p1 + 1 ≤ i ∧ i ≤ p2 - 1
      · rw [if_pos hin, if_pos (by omega), update_of_ne (by omega),
          update_of_ne (by omega), show p1 + 1 + (p2 - 1) - i = p1 + p2 - i by omega]
      · rw [if_neg hin, if_neg (by omega), update_of_ne hright,
          update_of_ne hleft]
    · rw [if_neg hlt]
      congr 1
      funext i
      split
      · rw [show p1 + p2 - i = i by omega]
      · rfl

theorem mirrored (buf : Nat → UInt8) (start : Nat) (xs : List UInt8) (h : xs ≠ []) :
    (fun i => if start ≤ i ∧ i ≤ start + xs.length - 1
      then place buf start (xs ++ [0]) (start + (start + xs.length - 1) - i)
      else place buf start (xs ++ [0]) i) = place buf start (xs.reverse ++ [0]) := by
  have hpos := length_pos_iff.mpr h
  funext i
  by_cases hlow : i < start
  · rw [if_neg (by omega), place_outside (.inl hlow), place_outside (.inl hlow)]
  obtain ⟨j, rfl⟩ := Nat.exists_eq_add_of_le (Nat.le_of_not_lt hlow)
  by_cases hj : j < xs.length
  · rw [if_pos (by omega),
      show start + (start + xs.length - 1) - (start + j) = start + (xs.length - 1 - j) by omega,
      place_inside (by simp; omega), place_inside (by simp; omega),
      getElem_append_left (by omega), getElem_append_left (by simpa using hj),
      getElem_reverse]
  · rw [if_neg (by omega)]
    simp only [place, Nat.add_sub_cancel_left]
    rw [getElem?_append_right (by omega), getElem?_append_right (by simp; omega),
      length_reverse]

theorem digits_spec {b : Nat} (hb : 1 < b) (hb' : b ≤ 16) (buf : Nat → UInt8) (start ud : Nat)
    (h : ud < 2 ^ 32) :
    (do
      let (p, buf) ← putDigits b 32 ud start buf
      reverse p start (p - 1) (update buf p 0)) =
      .ok (place buf start (text b ud ++ [0])) := by
  have hpow : ud < b ^ (31 + 1) := lt_of_lt_of_le h (Nat.pow_le_pow_left hb 32)
  have hpos : 0 < (numeral b ud).length := length_pos_iff.mpr (numeral_ne_nil hb)
  have hnul : update (place buf start (text b ud).reverse)
      (start + (numeral b ud).length) 0 = place buf start ((text b ud).reverse ++ [0]) := by
    rw [place_append, place_cons, place_nil]
    simp [text]
  have hlen : (text b ud).reverse.length = (numeral b ud).length := by simp [text]
  rw [putDigits_spec hb 31 ud start buf hpow, ok_bind, map_digit hb hb']
  dsimp only
  rw [hnul]
  obtain ⟨fuel, hfuel⟩ : ∃ fuel, start + (numeral b ud).length = fuel + 1 :=
    ⟨start + (numeral b ud).length - 1, by omega⟩
  rw [hfuel, reverse_spec _ _ _ _ (by omega), Nat.add_sub_cancel]
  have hmirror := mirrored buf start (text b ud).reverse (by
    rw [← length_pos_iff, hlen]
    exact hpos)
  rw [hlen, hfuel, Nat.add_sub_cancel, reverse_reverse] at hmirror
  rw [hmirror]

def itoaText (base : UInt8) (d : Word) : List UInt8 :=
  if base = 'd'.toUInt8 then decimal d.toInt
  else text (if base = 'x'.toUInt8 then 16 else 10) d.toNat

theorem itoa_spec (buf : Nat → UInt8) (base : UInt8) (d : Word) :
    itoa buf base d = .ok (place buf 0 (itoaText base d ++ [0])) := by
  have hd := BitVec.toInt_eq_toNat_cond d
  unfold itoa
  by_cases hneg : base = 'd'.toUInt8 ∧ d.toInt < 0
  · have habs : (-d).toNat = d.toInt.natAbs := by
      rw [BitVec.toNat_neg]
      omega
    have hdiv : (if base = 'x'.toUInt8 then 16 else 10) = 10 := by
      rw [hneg.1]
      rfl
    dsimp only
    rw [if_pos hneg, if_pos hneg, if_pos hneg, hdiv, digits_spec (by decide) (by decide) _ _ _
      (-d).isLt, habs, itoaText, if_pos hneg.1, decimal, if_pos hneg.2,
      append_assoc, singleton_append, place_cons]
  · dsimp only
    rw [if_neg hneg, if_neg hneg, if_neg hneg, digits_spec (by split <;> decide)
      (by split <;> decide) _ _ _ d.isLt, itoaText]
    by_cases hbase : base = 'd'.toUInt8
    · have hpos : ¬ d.toInt < 0 := fun h => hneg ⟨hbase, h⟩
      have habs : d.toNat = d.toInt.natAbs := by omega
      rw [if_pos hbase, decimal, if_neg hpos, habs, hbase]
      rfl
    · rw [if_neg hbase]

theorem length_decimal_le {z : Int} (h : z.natAbs < 10 ^ 10) : (decimal z).length ≤ 11 := by
  have := length_text_le (by decide) (by decide) h
  rw [decimal, length_append]
  split <;> simp <;> omega

theorem length_itoaText_le (base : UInt8) (d : Word) : (itoaText base d).length ≤ 11 := by
  have hd := BitVec.toInt_eq_toNat_cond d
  rw [itoaText]
  split
  · exact length_decimal_le (by omega)
  · split
    · exact (length_text_le (k := 8) (by decide) (by decide) (by omega)).trans (by decide)
    · exact (length_text_le (k := 10) (by decide) (by decide) (by omega)).trans (by decide)

theorem zero_notMem_itoaText (base : UInt8) (d : Word) : 0 ∉ itoaText base d := by
  rw [itoaText]
  split
  · rw [decimal, mem_append, not_or]
    refine ⟨?_, zero_notMem_text (by decide) (by decide)⟩
    split <;> decide
  · exact zero_notMem_text (by split <;> decide) (by split <;> decide)

def Writes (base : UInt8) (d : Word) (numeral : List UInt8) : Prop :=
  (∀ buf, itoa buf base d = .ok (place buf 0 (numeral ++ [0]))) ∧ (numeral ++ [0]).length ≤ 12

theorem itoa_numeral (d : Word) :
    Writes 'd'.toUInt8 d (decimal d.toInt) ∧ Writes 'u'.toUInt8 d (text 10 d.toNat) ∧
      Writes 'x'.toUInt8 d (text 16 d.toNat) ∧
      (d ≠ 0 → (text 10 d.toInt.natAbs).head? ≠ some '0'.toUInt8 ∧
        (text 10 d.toNat).head? ≠ some '0'.toUInt8 ∧
        (text 16 d.toNat).head? ≠ some '0'.toUInt8) := by
  have hwrites (base : UInt8) : Writes base d (itoaText base d) := by
    refine ⟨fun buf => itoa_spec buf base d, ?_⟩
    have := length_itoaText_le base d
    rw [List.length_append, List.length_singleton]
    omega
  refine ⟨hwrites 'd'.toUInt8, hwrites 'u'.toUInt8, hwrites 'x'.toUInt8, fun hd => ?_⟩
  have hnat : d.toNat ≠ 0 := fun h => hd (BitVec.eq_of_toNat_eq h)
  have hint : d.toInt.natAbs ≠ 0 := by
    have := BitVec.toInt_eq_toNat_cond d
    omega
  exact ⟨head_text (by decide) (by decide) hint, head_text (by decide) (by decide) hnat,
    head_text (by decide) (by decide) hnat⟩

def directiveText (strings : Word → List UInt8) (c : UInt8) (arg : Word) : List UInt8 :=
  if c = 'd'.toUInt8 ∨ c = 'u'.toUInt8 ∨ c = 'x'.toUInt8 then itoaText c arg
  else if c = 's'.toUInt8 then (if arg = 0 then nullText else strings arg)
  else [UInt8.ofNat arg.toNat]

theorem untilNul_place (xs : List UInt8) (h : 0 ∉ xs) (rounds i : Nat) (buf : Nat → UInt8)
    (hrounds : xs.length < rounds) : untilNul (place buf i (xs ++ [0])) rounds i = .ok xs := by
  induction xs generalizing rounds i buf with
  | nil =>
    obtain ⟨rounds, rfl⟩ := Nat.exists_eq_succ_of_ne_zero (Nat.ne_of_gt hrounds)
    have hnul : place buf i ([] ++ [0]) i = 0 := place_inside (j := 0) (by decide)
    rw [untilNul, if_pos hnul]
  | cons x xs ih =>
    rw [mem_cons, not_or] at h
    obtain ⟨rounds, rfl⟩ := Nat.exists_eq_succ_of_ne_zero (Nat.ne_of_gt (Nat.zero_lt_of_lt hrounds))
    have hx : place buf i (x :: xs ++ [0]) i = x :=
      place_inside (j := 0) (length_pos_of_ne_nil (cons_ne_nil _ _))
    rw [untilNul, hx, if_neg (Ne.symm h.1), cons_append, place_cons,
      ih h.2 rounds (i + 1) _ (Nat.lt_of_succ_lt_succ hrounds)]
    rfl

theorem directive_spec (strings : Word → List UInt8) (buf : Nat → UInt8) (c : UInt8) (arg : Word) :
    ∃ buf', directive strings buf c arg = .ok (directiveText strings c arg, buf') := by
  rw [directive, directiveText]
  split
  · have hlen := length_itoaText_le c arg
    rw [itoa_spec, ok_bind, untilNul_place (itoaText c arg) (zero_notMem_itoaText c arg) 20 0 _
      (by omega), ok_bind]
    exact ⟨_, rfl⟩
  · split <;> exact ⟨_, rfl⟩

def complete : List UInt8 → Bool
  | [] => true
  | [c] => c ≠ '%'.toUInt8
  | c :: d :: rest => if c = '%'.toUInt8 then complete rest else complete (d :: rest)

def directives : List UInt8 → Nat
  | [] => 0
  | [c] => if c = '%'.toUInt8 then 1 else 0
  | c :: d :: rest =>
      if c = '%'.toUInt8 then directives rest + 1 else directives (d :: rest)

def expansion (strings : Word → List UInt8) : List UInt8 → List Word → List UInt8
  | [], _ => []
  | [c], _ => [c]
  | c :: d :: rest, args =>
      if c = '%'.toUInt8 then
        directiveText strings d args.headI ++ expansion strings rest args.tail
      else c :: expansion strings (d :: rest) args

section

variable {strings : Word → List UInt8} {c : UInt8} {rest : List UInt8} {args : List Word}

theorem complete_literal (h : c ≠ '%'.toUInt8) : complete (c :: rest) = complete rest := by
  cases rest with
  | nil => simp [complete, h]
  | cons d rest => rw [complete, if_neg h]

theorem directives_literal (h : c ≠ '%'.toUInt8) : directives (c :: rest) = directives rest := by
  cases rest with
  | nil => simp [directives, h]
  | cons d rest => rw [directives, if_neg h]

theorem expansion_literal (h : c ≠ '%'.toUInt8) :
    expansion strings (c :: rest) args = c :: expansion strings rest args := by
  cases rest with
  | nil => rfl
  | cons d rest => rw [expansion, if_neg h]

end

theorem count_add (count : Word) (m n : Nat) :
    count + BitVec.ofNat 32 m + BitVec.ofNat 32 n = count + BitVec.ofNat 32 (m + n) := by
  rw [BitVec.add_assoc, BitVec.ofNat_add]

theorem scan_spec (emit : σ → UInt8 → σ) (strings : Word → List UInt8) {format : List UInt8}
    (hnul : 0 ∉ format) (fuel i : Nat) (args : List Word) (buf : Nat → UInt8) (sink : σ)
    (count : Word) (hi : i ≤ format.length) (hfuel : format.length < fuel + i)
    (hargs : directives (format.drop i) ≤ args.length) :
    scan emit strings format fuel i args buf sink count =
      if complete (format.drop i) then
        .ok ((expansion strings (format.drop i) args).foldl emit sink,
          count + BitVec.ofNat 32 (expansion strings (format.drop i) args).length)
      else .error .outOfBounds := by
  induction fuel generalizing i args buf sink count with
  | zero => omega
  | succ fuel ih =>
    rw [scan]
    cases hrest : format.drop i with
    | nil =>
      have hend : i = format.length := le_antisymm hi (drop_eq_nil_iff.mp hrest)
      rw [hend, charAt_length, ok_bind, if_pos rfl]
      simp [complete, expansion]
    | cons c rest =>
      obtain ⟨hc, hdrop⟩ := charAt_cons hrest
      have hlen : format.length = i + 1 + rest.length := by
        have := congrArg length hrest
        rw [length_drop, length_cons] at this
        omega
      have hne : c ≠ 0 := by
        rintro rfl
        exact hnul (mem_of_mem_drop (by rw [hrest]; exact mem_cons_self))
      rw [hrest] at hargs
      rw [hc, ok_bind, if_neg hne]
      by_cases hlit : c = '%'.toUInt8
      · subst hlit
        rw [if_neg (not_not.mpr rfl)]
        cases rest with
        | nil =>
          -- The NUL is taken for the directive's character, and the next read is behind it.
          rw [length_nil, add_zero] at hlen
          obtain ⟨arg, args, rfl⟩ := exists_cons_of_length_pos hargs
          obtain ⟨buf', hdir⟩ := directive_spec strings buf 0 arg
          obtain ⟨fuel, rfl⟩ : ∃ n, fuel = n + 1 := ⟨fuel - 1, by omega⟩
          rw [← hlen, charAt_length, ok_bind, nextArg, ok_bind]
          dsimp only
          rw [hdir, ok_bind, scan, charAt_beyond (by omega)]
          rfl
        | cons d rest =>
          obtain ⟨hd, hdrop⟩ := charAt_cons hdrop
          rw [directives, if_pos rfl] at hargs
          obtain ⟨arg, args, rfl⟩ := exists_cons_of_length_pos (Nat.zero_lt_of_lt hargs)
          obtain ⟨buf', hdir⟩ := directive_spec strings buf d arg
          rw [length_cons] at hlen hargs
          rw [hd, ok_bind, nextArg, ok_bind]
          dsimp only
          rw [hdir, ok_bind]
          dsimp only
          rw [ih (i + 2) _ _ _ _ (by omega) (by omega) (by rw [hdrop]; omega), hdrop, complete,
            if_pos rfl, expansion, if_pos rfl, headI, tail_cons, foldl_append,
            length_append, count_add]
      · rw [directives_literal hlit] at hargs
        rw [if_pos hlit, ih (i + 1) _ _ _ _ (by omega) (by omega) (by rwa [hdrop]), hdrop,
          complete_literal hlit, expansion_literal hlit, foldl_cons, length_cons,
          show (1 : Word) = BitVec.ofNat 32 1 from rfl, count_add, add_comm 1]

theorem zero_count (count : Word) : 0 + count = count := BitVec.zero_add count

theorem foldl_append_singleton (text out : List UInt8) :
    text.foldl (fun out c => out ++ [c]) out = out ++ text := by
  induction text generalizing out with
  | nil => simp
  | cons c text ih => simp [ih]

theorem foldl_store (text : List UInt8) (p : Nat) (str : Nat → UInt8) :
    text.foldl store (p, str) = (p + text.length, place str p text) := by
  induction text generalizing p str with
  | nil => simp
  | cons c text ih =>
    rw [foldl_cons, store, ih, place_cons, length_cons, add_assoc, add_comm 1]

section

variable {strings : Word → List UInt8} {format : List UInt8} {args : List Word}

theorem printf_spec (hnul : 0 ∉ format) (hargs : directives format ≤ args.length)
    (buf : Nat → UInt8) :
    printf strings buf format args =
      if complete format then
        .ok (expansion strings format args,
          BitVec.ofNat 32 (expansion strings format args).length)
      else .error .outOfBounds := by
  rw [printf, scan_spec _ _ hnul _ _ _ _ _ _ (Nat.zero_le _) (by omega) hargs, drop_zero,
    foldl_append_singleton, nil_append, zero_count]

theorem sprintf_spec (hnul : 0 ∉ format) (hargs : directives format ≤ args.length)
    (buf str : Nat → UInt8) :
    sprintf str strings buf format args =
      if complete format then
        .ok (place str 0 (expansion strings format args ++ [0]),
          BitVec.ofNat 32 (expansion strings format args).length)
      else .error .outOfBounds := by
  rw [sprintf, scan_spec _ _ hnul _ _ _ _ _ _ (Nat.zero_le _) (by omega) hargs, drop_zero,
    foldl_store, zero_count]
  split
  · rw [ok_bind, place_append, place_cons, place_nil]
  · rfl

/-- Both functions return, with the same characters and their number; `sprintf` puts a NUL
behind them. -/
def Formats (strings : Word → List UInt8) (format : List UInt8) (args : List Word) : Prop :=
  ∃ out count, (∀ buf, printf strings buf format args = .ok (out, count)) ∧
    (∀ buf str, sprintf str strings buf format args = .ok (place str 0 (out ++ [0]), count)) ∧
    count.toInt = out.length

theorem formats_iff (hnul : 0 ∉ format) (hargs : directives format ≤ args.length) :
    Formats strings format args ↔
      complete format ∧ (expansion strings format args).length < 2 ^ 31 := by
  constructor
  · rintro ⟨out, count, hprintf, -, hcount⟩
    have hout := hprintf fun _ => 0
    rw [printf_spec hnul hargs] at hout
    split at hout
    · rename_i hcomplete
      cases hout
      have := BitVec.toInt_lt (x := BitVec.ofNat 32 (expansion strings format args).length)
      exact ⟨hcomplete, by omega⟩
    · cases hout
  · rintro ⟨hcomplete, hlen⟩
    refine ⟨expansion strings format args,
      BitVec.ofNat 32 (expansion strings format args).length, fun buf => ?_, fun buf str => ?_, ?_⟩
    · rw [printf_spec hnul hargs, if_pos hcomplete]
    · rw [sprintf_spec hnul hargs, if_pos hcomplete]
    · rw [BitVec.toInt_ofNat', Int.bmod_eq_of_le (by omega) (by omega)]

theorem formats_minus_seven :
    Formats (fun _ => []) ("n=%d %s\n".toList.map Char.toUInt8) [-7, 0] :=
  (formats_iff (by decide) (by decide)).mpr ⟨by decide, by decide +kernel⟩

theorem percent_not_formats : ¬ Formats (fun _ => []) ['%'.toUInt8] [65] := by
  rintro ⟨out, count, hprintf, -⟩
  have hout := hprintf fun _ => 0
  cases hout

end

end Quest.Libc.Format
