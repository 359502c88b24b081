import Quest.Basic
import Quest.Lib.Numeral

/-! Formatted output of the kernel (`kernel/util/printf.c`): `closure_vprintf`. -/
namespace Quest.Util.Printf

open Lib.Numeral List

def base10U32Divisors : List Nat :=
  [1000000000, 100000000, 10000000, 1000000, 100000, 10000, 1000, 100, 10, 1]

/-- The variables that the characters of a directive set.  `precise` is `mode` being
`PRINTF_MODE_PRECISION`. -/
structure Options where
  precision : Int
  width : Int
  precise : Bool
  ells : Int
  padding : UInt8
  deriving DecidableEq

def Options.start : Options := ⟨0, 0, false, 0, ' '.toUInt8⟩

/-- The branches of the inner loop that go on with the next character. -/
def Options.read (o : Options) (c : UInt8) : Options :=
  if c = 'l'.toUInt8 then { o with ells := wrap (o.ells + 1) }
  else if c = '.'.toUInt8 then { o with precise := true }
  else if '0'.toUInt8 ≤ c ∧ c ≤ '9'.toUInt8 then
    let value : Int := c.toNat - '0'.toUInt8.toNat
    if o.precise then { o with precision := wrap (o.precision * 10 + value) }
    else if o.width = 0 ∧ c = '0'.toUInt8 then { o with padding := '0'.toUInt8 }
    else { o with width := wrap (o.width * 10 + value) }
  else o

structure Flags where
  printPadding : Bool
  printDigits : Bool

def handleOptions (o : Options) (q maxW endI i : Nat) (f : Flags) : Flags × List UInt8 :=
  let f := if q ≠ 0 ∨ i = endI then { f with printDigits := true } else f
  let f := if q = 0 ∧ ¬f.printDigits ∧ (i : Int) ≥ maxW - o.width then
    { f with printPadding := true } else f
  let f := if q = 0 ∧ ¬f.printDigits ∧ (i : Int) ≥ maxW - o.precision then
    { f with printDigits := true } else f
  (f, if q = 0 ∧ f.printPadding ∧ ¬f.printDigits then [o.padding] else [])

/-- The loops over the digits.  `quotient` and `rest` are what is taken of `x` in a round and what
is left. -/
def putDigits (o : Options) (quotient rest : Nat → Nat → Nat) (digit : Nat → UInt8) (maxW : Nat) :
    Nat → Nat → Nat → Flags → List UInt8
  | 0, _, _, _ => []
  | rounds + 1, i, x, f =>
      let q := quotient i x
      let (f, out) := handleOptions o q maxW (maxW - 1) i f
      out ++ (if f.printDigits then [digit q] else []) ++
        putDigits o quotient rest digit maxW rounds (i + 1) (rest i x) f

def decimalDigit (q : Nat) : UInt8 := UInt8.ofNat (48 + q)

/-- A letter from `A` or `a` on for a digit above nine. -/
def hexDigit (upper : Bool) (li : Nat) : UInt8 :=
  if li > 9 then UInt8.ofNat ((if upper then 65 else 97) + li - 10) else UInt8.ofNat (48 + li)

def putHex (o : Options) (upper : Bool) (w x : Nat) : List UInt8 :=
  putDigits o (fun i x => (x >>> ((w - 1 - i) <<< 2)) &&& 0x0F) (fun _ x => x) (hexDigit upper) w
    w 0 x ⟨false, false⟩

def putDecimal (o : Options) (x : Nat) : List UInt8 :=
  putDigits o (fun i x => x / base10U32Divisors.getD i 0) (fun i x => x % base10U32Divisors.getD i 0)
    decimalDigit 10 10 0 x ⟨false, false⟩

def putPointer (x : Nat) : List UInt8 :=
  (List.range 8).map fun i => hexDigit true ((x >>> ((7 - i) <<< 2)) &&& 0x0F)

def nullText : List UInt8 := "(null)".toList.map Char.toUInt8

def conversions : List UInt8 := "pxXudsc%".toList.map Char.toUInt8

def convertHex (o : Options) (upper : Bool) (args : List (BitVec 32)) :
    Except Fault (List UInt8 × List (BitVec 32)) := do
  let (low, args) ← nextArg args
  if o.ells = 2 then
    let (high, args) ← nextArg args
    .ok (putHex o upper 16 (low.toNat + 2 ^ 32 * high.toNat), args)
  else .ok (putHex o upper 8 low.toNat, args)

/-- What ends a directive: the output, and the arguments that are left.  `strings` has the
characters before the NUL at an address. -/
def convert (strings : BitVec 32 → List UInt8) (o : Options) (c : UInt8)
    (args : List (BitVec 32)) : Except Fault (List UInt8 × List (BitVec 32)) :=
  if c = '%'.toUInt8 then .ok (['%'.toUInt8], args)
  else if c = 'x'.toUInt8 then convertHex o false args
  else if c = 'X'.toUInt8 then convertHex o true args
  else do
    let (x, args) ← nextArg args
    if c = 'p'.toUInt8 then .ok (putPointer x.toNat, args)
    else if c = 'u'.toUInt8 then .ok (putDecimal o x.toNat, args)
    else if c = 'd'.toUInt8 then
      if x.toInt < 0 then .ok ('-'.toUInt8 :: putDecimal o (x * -1).toNat, args)
      else .ok (putDecimal o x.toNat, args)
    else if c = 's'.toUInt8 then
      if x ≠ 0 then
        if o.precision > 0 then .ok ((strings x).take o.precision.toNat, args)
        else .ok (strings x, args)
      else .ok (nullText, args)
    else .ok ([UInt8.ofNat x.toNat], args)

def directive (strings : BitVec 32 → List UInt8) (fmt : List UInt8) :
    Nat → Nat → Options → List (BitVec 32) → Except Fault (Nat × List UInt8 × List (BitVec 32))
  | 0, _, _, _ => .error .diverges
  | fuel + 1, i, o, args => do
      let c ← charAt fmt i
      if c = 0 then .ok (i, [], args)
      else if c ∈ conversions then do
        let (out, args) ← convert strings o c args
        .ok (i, out, args)
      else directive strings fmt fuel (i + 1) (o.read c) args

def run (strings : BitVec 32 → List UInt8) (fmt : List UInt8) :
    Nat → Nat → List (BitVec 32) → Except Fault (List UInt8)
  | 0, _, _ => .error .diverges
  | fuel + 1, i, args => do
      let c ← charAt fmt i
      if c = 0 then .ok []
      else if c = '%'.toUInt8 then do
        let (i, out, args) ← directive strings fmt (fmt.length + 1) (i + 1) .start args
        (out ++ ·) <$> run strings fmt fuel (i + 1) args
      else (c :: ·) <$> run strings fmt fuel (i + 1) args

/-- `closure_vprintf`: the characters given to `putc_clo`. -/
def closureVprintf (strings : BitVec 32 → List UInt8) (fmt : List UInt8)
    (args : List (BitVec 32)) : Except Fault (List UInt8) :=
  run strings fmt (fmt.length + 1) 0 args

/-- The argument words that a conversion takes. -/
def words (o : Options) (c : UInt8) : Nat :=
  if c = '%'.toUInt8 then 0
  else if (c = 'x'.toUInt8 ∨ c = 'X'.toUInt8) ∧ o.ells = 2 then 2 else 1

def argWords : Option Options → List UInt8 → Nat
  | _, [] => 0
  | none, c :: fmt => argWords (if c = '%'.toUInt8 then some .start else none) fmt
  | some o, c :: fmt =>
      if c ∈ conversions then words o c + argWords none fmt else argWords (some (o.read c)) fmt

/-- The rest of a format does not end inside of a directive. -/
def finished : Bool → List UInt8 → Bool
  | inside, [] => !inside
  | false, c :: fmt => finished (c = '%'.toUInt8) fmt
  | true, c :: fmt => finished (c ∉ conversions) fmt

variable {strings : BitVec 32 → List UInt8} {fmt : List UInt8} {args : List (BitVec 32)}
  {o : Options} {c : UInt8} {i fuel : Nat}

theorem convertHex_ok {upper : Bool} (h : (if o.ells = 2 then 2 else 1) ≤ args.length) :
    ∃ out, convertHex o upper args = .ok (out, args.drop (if o.ells = 2 then 2 else 1)) := by
  rw [convertHex]
  split at h
  · rename_i hells
    obtain ⟨low, args, rfl⟩ := exists_cons_of_length_pos (Nat.zero_lt_of_lt h)
    obtain ⟨high, args, rfl⟩ := exists_cons_of_length_pos (Nat.lt_of_succ_lt_succ h)
    refine ⟨putHex o upper 16 (low.toNat + 2 ^ 32 * high.toNat), ?_⟩
    rw [nextArg, ok_bind]
    dsimp only
    rw [if_pos hells, if_pos hells]
    rfl
  · rename_i hells
    obtain ⟨low, args, rfl⟩ := exists_cons_of_length_pos h
    refine ⟨putHex o upper 8 low.toNat, ?_⟩
    rw [nextArg, ok_bind]
    dsimp only
    rw [if_neg hells, if_neg hells]
    rfl

theorem convert_ok (strings : BitVec 32 → List UInt8) (h : words o c ≤ args.length) :
    ∃ out, convert strings o c args = .ok (out, args.drop (words o c)) := by
  rw [words] at h ⊢
  rw [convert]
  by_cases hpercent : c = '%'.toUInt8
  · exact ⟨['%'.toUInt8], by rw [if_pos hpercent, if_pos hpercent]; rfl⟩
  rw [if_neg hpercent] at h ⊢
  rw [if_neg hpercent]
  by_cases hx : c = 'x'.toUInt8
  · simp only [hx, true_or, true_and] at h ⊢
    exact convertHex_ok h
  rw [if_neg hx]
  by_cases hX : c = 'X'.toUInt8
  · simp only [hX, or_true, true_and] at h ⊢
    exact convertHex_ok h
  rw [if_neg hX, if_neg (by simp [hx, hX])]
  rw [if_neg (by simp [hx, hX])] at h
  obtain ⟨x, args, rfl⟩ := exists_cons_of_length_pos h
  rw [nextArg, ok_bind]
  dsimp only
  repeat' split
  all_goals exact ⟨_, rfl⟩

theorem length_drop_pos {rest : List UInt8} (h : fmt.drop i = c :: rest) :
    fmt.length = i + 1 + rest.length := by
  have := congrArg length h
  rw [length_drop, length_cons] at this
  omega

theorem ne_zero_of_drop {rest : List UInt8} (hnul : 0 ∉ fmt) (h : fmt.drop i = c :: rest) :
    c ≠ 0 := by
  rintro rfl
  exact hnul (mem_of_mem_drop (by rw [h]; exact mem_cons_self))

theorem directive_ok (strings : BitVec 32 → List UInt8) (hnul : 0 ∉ fmt) (hi : i ≤ fmt.length)
    (hfuel : fmt.length < fuel + i) (hargs : argWords (some o) (fmt.drop i) ≤ args.length) :
    ∃ j out rest, directive strings fmt fuel i o args = .ok (j, out, rest) ∧
      (j = fmt.length ∧ finished true (fmt.drop i) = false ∨
        i ≤ j ∧ j < fmt.length ∧
          finished true (fmt.drop i) = finished false (fmt.drop (j + 1)) ∧
          argWords none (fmt.drop (j + 1)) ≤ rest.length) := by
  induction fuel generalizing i o with
  | zero => omega
  | succ fuel ih =>
    rw [directive]
    cases hrest : fmt.drop i with
    | nil =>
      have hend : i = fmt.length := le_antisymm hi (drop_eq_nil_iff.mp hrest)
      rw [hend, charAt_length, ok_bind, if_pos rfl]
      exact ⟨_, _, _, rfl, .inl ⟨rfl, rfl⟩⟩
    | cons c rest =>
      obtain ⟨hc, hdrop⟩ := charAt_cons hrest
      have hlen := length_drop_pos hrest
      rw [hrest, argWords] at hargs
      rw [hc, ok_bind, if_neg (ne_zero_of_drop hnul hrest), finished]
      by_cases hconv : c ∈ conversions
      · rw [if_pos hconv] at hargs ⊢
        obtain ⟨out, hout⟩ := convert_ok strings (Nat.le_of_add_right_le hargs)
        rw [hout, ok_bind]
        refine ⟨_, _, _, rfl, .inr ⟨le_rfl, by omega, ?_, ?_⟩⟩
        · rw [hdrop]
          simp [hconv]
        · rw [hdrop, length_drop]
          omega
      · rw [if_neg hconv] at hargs ⊢
        obtain ⟨j, out, left, hret, hcases⟩ := ih (i := i + 1) (by omega) (by omega)
          (by rwa [hdrop])
        rw [hdrop] at hcases
        refine ⟨j, out, left, hret, ?_⟩
        simp only [hconv, not_false_eq_true, decide_true]
        exact hcases.imp_right fun ⟨hle, hrest⟩ => ⟨Nat.le_of_succ_le hle, hrest⟩

theorem exists_map_ok {f : List UInt8 → List UInt8} {x : Except Fault (List UInt8)} :
    (∃ out, f <$> x = .ok out) ↔ ∃ out, x = .ok out := by
  constructor
  · rintro ⟨out, hout⟩
    obtain ⟨a, ha, -⟩ := map_eq_ok.mp hout
    exact ⟨a, ha⟩
  · rintro ⟨out, rfl⟩
    exact ⟨f out, rfl⟩

theorem run_iff (hnul : 0 ∉ fmt) (hi : i ≤ fmt.length) (hfuel : fmt.length < fuel + i)
    (hargs : argWords none (fmt.drop i) ≤ args.length) :
    (∃ out, run strings fmt fuel i args = .ok out) ↔ finished false (fmt.drop i) = true := by
  induction fuel generalizing i args with
  | zero => omega
  | succ fuel ih =>
    rw [run]
    cases hrest : fmt.drop i with
    | nil =>
      have hend : i = fmt.length := le_antisymm hi (drop_eq_nil_iff.mp hrest)
      rw [hend, charAt_length, ok_bind, if_pos rfl]
      exact iff_of_true ⟨_, rfl⟩ rfl
    | cons c rest =>
      obtain ⟨hc, hdrop⟩ := charAt_cons hrest
      have hlen := length_drop_pos hrest
      rw [hrest, argWords] at hargs
      rw [hc, ok_bind, if_neg (ne_zero_of_drop hnul hrest), finished]
      by_cases hpercent : c = '%'.toUInt8
      · rw [if_pos hpercent] at hargs ⊢
        obtain ⟨j, out, left, hret, hcases⟩ := directive_ok strings (i := i + 1) hnul (by omega)
          (show fmt.length < fmt.length + 1 + (i + 1) by omega) (by rwa [hdrop])
        rw [hret, ok_bind, exists_map_ok]
        simp only [hpercent, decide_true]
        rw [hdrop] at hcases
        rcases hcases with ⟨rfl, hin⟩ | ⟨hle, hlt, hfin, hleft⟩
        · -- The increment behind the directive steps over the NUL.
          obtain ⟨fuel, rfl⟩ : ∃ n, fuel = n + 1 := ⟨fuel - 1, by omega⟩
          rw [run, charAt_beyond (Nat.lt_succ_self _), hin]
          exact iff_of_false nofun Bool.false_ne_true
        · rw [hfin, ← ih (i := j + 1) (by omega) (by omega) hleft]
      · rw [if_neg hpercent] at hargs ⊢
        rw [← hdrop] at hargs ⊢
        simp only [hpercent, decide_false]
        rw [exists_map_ok, ← ih (i := i + 1) (by omega) (by omega) hargs]

/-- With enough arguments, `closure_vprintf` reads nothing behind the NUL exactly when the format
does not end inside of a directive. -/
theorem closure_vprintf_returns_iff (hnul : 0 ∉ fmt) (hargs : argWords none fmt ≤ args.length) :
    (∃ out, closureVprintf strings fmt args = .ok out) ↔ finished false fmt = true :=
  run_iff hnul (Nat.zero_le _) (Nat.lt_succ_self _) hargs

theorem closure_vprintf_returns_twice :
    ∃ out, closureVprintf (fun _ => []) ("%d %08x\n".toList.map Char.toUInt8) [1, 2] = .ok out :=
  (closure_vprintf_returns_iff (by decide) (by decide)).mpr (by decide)

/-- `printf ("%")` -/
theorem closure_vprintf_passes_nul :
    closureVprintf (fun _ => []) ['%'.toUInt8] [] = .error .outOfBounds := rfl

def render (o : Options) (digit : Nat → UInt8) (maxW : Nat) : List Nat → Nat → Flags → List UInt8
  | [], _, _ => []
  | q :: qs, i, f =>
      let (f, out) := handleOptions o q maxW (maxW - 1) i f
      out ++ (if f.printDigits then [digit q] else []) ++ render o digit maxW qs (i + 1) f

section

variable {quotient rest : Nat → Nat → Nat} {digit : Nat → UInt8} {maxW b x : Nat} {f : Flags}

theorem putDigits_eq (inv : Nat → Nat → Prop)
    (hstep : ∀ rounds i x, rounds + 1 + i = maxW → inv i x →
      quotient i x = x / b ^ rounds % b ∧ inv (i + 1) (rest i x) ∧
        fixed b rounds (rest i x) = fixed b rounds x)
    (rounds : Nat) (hi : rounds + i = maxW) (hx : inv i x) :
    putDigits o quotient rest digit maxW rounds i x f =
      render o digit maxW (fixed b rounds x) i f := by
  induction rounds generalizing i x f with
  | zero => rfl
  | succ rounds ih =>
    obtain ⟨hquotient, hinv, hfixed⟩ := hstep rounds i x hi hx
    rw [putDigits, fixed_succ, render, hquotient, ← hfixed]
    dsimp only
    rw [ih (by omega) hinv]

theorem putHex_eq (upper : Bool) (w x : Nat) :
    putHex o upper w x = render o (hexDigit upper) w (fixed 16 w x) 0 ⟨false, false⟩ := by
  refine putDigits_eq (fun _ _ => True) ?_ w (add_zero w) trivial
  intro rounds i x hi _
  have hshift : w - 1 - i = rounds := by omega
  refine ⟨?_, trivial, rfl⟩
  rw [hshift, Nat.shiftRight_eq_div_pow, Nat.shiftLeft_eq, mul_comm, Nat.pow_mul,
    show (0x0F : Nat) = 2 ^ 4 - 1 from rfl, Nat.and_two_pow_sub_one_eq_mod]

theorem divisor_eq {rounds i : Nat} (h : rounds + 1 + i = 10) :
    base10U32Divisors.getD i 0 = 10 ^ rounds := by
  obtain rfl : rounds = 9 - i := by omega
  have hi : i < 10 := by omega
  interval_cases i <;> rfl

theorem putDecimal_eq {x : Nat} (hx : x < 10 ^ 10) :
    putDecimal o x = render o decimalDigit 10 (fixed 10 10 x) 0 ⟨false, false⟩ := by
  refine putDigits_eq (fun i x => x < 10 ^ (10 - i)) ?_ 10 rfl hx
  intro rounds i x hi hlt
  have hpow : 10 - i = rounds + 1 := by omega
  rw [hpow, Nat.pow_succ] at hlt
  rw [divisor_eq hi, show 10 - (i + 1) = rounds by omega, fixed_mod]
  exact ⟨(Nat.mod_eq_of_lt (Nat.div_lt_of_lt_mul hlt)).symm, Nat.mod_lt _ (by positivity), rfl⟩

theorem render_digits (qs : List Nat) (i : Nat) (p : Bool) :
    render o digit maxW qs i ⟨p, true⟩ = qs.map digit := by
  induction qs generalizing i with
  | nil => rfl
  | cons q qs ih =>
    have hflags : handleOptions o q maxW (maxW - 1) i ⟨p, true⟩ = (⟨p, true⟩, []) := by
      simp [handleOptions]
    rw [render, hflags]
    dsimp only
    rw [ih]
    rfl

theorem render_first {q : Nat} {qs : List Nat} {p : Bool} (h : q ≠ 0 ∨ i = maxW - 1) :
    render o digit maxW (q :: qs) i ⟨p, false⟩ = (q :: qs).map digit := by
  have hflags : handleOptions o q maxW (maxW - 1) i ⟨p, false⟩ = (⟨p, true⟩, []) := by
    simp [handleOptions, h]
  rw [render, hflags]
  dsimp only
  rw [render_digits]
  rfl

theorem handleOptions_zero {endI : Nat} {p : Bool} (h : i ≠ endI)
    (hp : p = true → (maxW : Int) - o.width ≤ i) :
    ∃ p', (p' = true ↔ (maxW : Int) - o.width ≤ i) ∧ handleOptions o 0 maxW endI i ⟨p, false⟩ =
      if (maxW : Int) - o.precision ≤ i then (⟨p', true⟩, [])
      else (⟨p', false⟩, if p' then [o.padding] else []) := by
  by_cases hwidth : (maxW : Int) - o.width ≤ i
  · refine ⟨true, iff_of_true rfl hwidth, ?_⟩
    by_cases hprec : (maxW : Int) - o.precision ≤ i
    · simp [handleOptions, h, hwidth, hprec]
    · simp [handleOptions, h, hwidth, hprec]
  · obtain rfl : p = false := by
      cases p with
      | false => rfl
      | true => exact absurd (hp rfl) hwidth
    by_cases hprec : (maxW : Int) - o.precision ≤ i
    · simp [handleOptions, h, hwidth, hprec]
    · simp [handleOptions, h, hwidth, hprec]

theorem render_zeros {qs : List Nat} {width precision : Nat} (hwidth : o.width = width)
    (hprec : o.precision = precision) (hqs : qs ≠ [])
    (hnumeral : ∀ p, render o digit maxW qs (maxW - qs.length) ⟨p, false⟩ = qs.map digit)
    (k : Nat) {p : Bool} (hi : i + k + qs.length = maxW)
    (hp : p = true → (maxW : Int) - o.width ≤ i) :
    render o digit maxW (replicate k 0 ++ qs) i ⟨p, false⟩ =
      replicate (min width (k + qs.length) - max precision qs.length) o.padding ++
        replicate (min precision (k + qs.length) - qs.length) (digit 0) ++ qs.map digit := by
  have hpos := length_pos_iff.mpr hqs
  induction k generalizing i p with
  | zero =>
    obtain rfl : i = maxW - qs.length := by omega
    rw [replicate_zero, nil_append, hnumeral, zero_add,
      show min width qs.length - max precision qs.length = 0 by omega,
      show min precision qs.length - qs.length = 0 by omega]
    rfl
  | succ k ih =>
    obtain ⟨p', hp', hflags⟩ := handleOptions_zero (o := o) (show i ≠ maxW - 1 by omega) hp
    rw [replicate_succ, cons_append, render, hflags]
    rw [hwidth] at hp'
    rw [hprec]
    by_cases hdigits : (maxW : Int) - precision ≤ i
    · rw [if_pos hdigits]
      dsimp only
      rw [render_digits,
        show min width (k + 1 + qs.length) - max precision qs.length = 0 by omega,
        show min precision (k + 1 + qs.length) - qs.length = k + 1 by omega]
      simp [replicate_succ]
    · rw [if_neg hdigits]
      dsimp only
      rw [ih (by omega) (by rw [hp', hwidth]; omega),
        show min precision (k + qs.length) - qs.length =
          min precision (k + 1 + qs.length) - qs.length by omega]
      cases p' with
      | false =>
        have hnot : ¬ (maxW : Int) - width ≤ i := by simpa using hp'
        rw [show min width (k + qs.length) = min width (k + 1 + qs.length) by omega]
        rfl
      | true =>
        have hpadding : (maxW : Int) - width ≤ i := by simpa using hp'
        rw [show min width (k + 1 + qs.length) - max precision qs.length =
          min width (k + qs.length) - max precision qs.length + 1 by omega]
        simp [replicate_succ]

/-- A text with zeros in front of it up to the precision, and the padding in front of that up to
the width. -/
def padded (padding : UInt8) (width precision : Nat) (text : List UInt8) : List UInt8 :=
  let text := List.replicate (precision - text.length) '0'.toUInt8 ++ text
  List.replicate (width - text.length) padding ++ text

theorem render_eq {width precision n : Nat} (hb : 1 < b) (hn : n < b ^ maxW) (hmaxW : 0 < maxW)
    (hwidth : o.width = width) (hprec : o.precision = precision) (hw : width ≤ maxW)
    (hp : precision ≤ maxW) (hzero : digit 0 = '0'.toUInt8) :
    render o digit maxW (fixed b maxW n) 0 ⟨false, false⟩ =
      padded o.padding width precision ((numeral b n).map digit) := by
  have hlen : (numeral b n).length ≤ maxW := length_numeral_le hb hmaxW hn
  have hnumeral (p : Bool) : render o digit maxW (numeral b n) (maxW - (numeral b n).length)
      ⟨p, false⟩ = (numeral b n).map digit := by
    by_cases hn0 : n = 0
    · rw [hn0, numeral, if_pos rfl]
      exact render_first (.inr rfl)
    · obtain ⟨d, ds, hnum, hd⟩ := numeral_head (b := b) hn0
      rw [hnum]
      exact render_first (.inl hd)
  rw [fixed_eq hb hmaxW hn, render_zeros hwidth hprec (numeral_ne_nil hb) hnumeral
    (maxW - (numeral b n).length) (p := false) (by omega) (absurd · Bool.false_ne_true), hzero,
    padded]
  simp only [length_append, length_replicate, length_map]
  rw [show min width (maxW - (numeral b n).length + (numeral b n).length) -
      max precision (numeral b n).length =
      width - (precision - (numeral b n).length + (numeral b n).length) by omega,
    show min precision (maxW - (numeral b n).length + (numeral b n).length) -
      (numeral b n).length = precision - (numeral b n).length by omega, append_assoc]

end

/-- A number and how it is printed. -/
inductive Number where
  | unsigned (x : BitVec 32)
  | hex (upper : Bool) (x : BitVec 32)
  | longHex (upper : Bool) (x : BitVec 64)
  | signed (x : BitVec 32)

namespace Number

/-- `u`, `x`, `X`, `llx`, `llX` and `d` -/
def conversion : Number → UInt8
  | unsigned _ => 'u'.toUInt8
  | hex upper _ | longHex upper _ => if upper then 'X'.toUInt8 else 'x'.toUInt8
  | signed _ => 'd'.toUInt8

def ells : Number → List UInt8
  | longHex _ _ => ['l'.toUInt8, 'l'.toUInt8]
  | _ => []

def words : Number → List (BitVec 32)
  | unsigned x | hex _ x | signed x => [x]
  | longHex _ x => [x.setWidth 32, x.extractLsb' 32 32]

def maxDigits : Number → Nat
  | unsigned _ | signed _ => 10
  | hex _ _ => 8
  | longHex _ _ => 16

def sign : Number → List UInt8
  | signed x => if x.toInt < 0 then ['-'.toUInt8] else []
  | _ => []

def numeralText : Number → List UInt8
  | unsigned x => text 10 x.toNat
  | hex upper x => if upper then upperText 16 x.toNat else text 16 x.toNat
  | longHex upper x => if upper then upperText 16 x.toNat else text 16 x.toNat
  | signed x => text 10 x.toInt.natAbs

def options (n : Number) (zero : Bool) (width precision : Nat) : List UInt8 :=
  (if zero then ['0'.toUInt8] else []) ++ (if width = 0 then [] else text 10 width) ++
    (if precision = 0 then [] else '.'.toUInt8 :: text 10 precision) ++ n.ells

def format (n : Number) (zero : Bool) (width precision : Nat) : List UInt8 :=
  '%'.toUInt8 :: (n.options zero width precision ++ [n.conversion])

end Number

def paddingChar (zero : Bool) : UInt8 := if zero then '0'.toUInt8 else ' '.toUInt8

theorem digitChar_spec {k : Nat} (hk : k < 10) :
    (Nat.digitChar k).toUInt8 ≠ 'l'.toUInt8 ∧ (Nat.digitChar k).toUInt8 ≠ '.'.toUInt8 ∧
      ('0'.toUInt8 ≤ (Nat.digitChar k).toUInt8 ∧ (Nat.digitChar k).toUInt8 ≤ '9'.toUInt8) ∧
      (Nat.digitChar k).toUInt8.toNat = 48 + k ∧
      ((Nat.digitChar k).toUInt8 = '0'.toUInt8 ↔ k = 0) ∧
      (Nat.digitChar k).toUInt8 ∉ conversions := by
  interval_cases k <;> decide

theorem read_digit {k : Nat} (hk : k < 10) :
    o.read (Nat.digitChar k).toUInt8 =
      if o.precise then { o with precision := wrap (o.precision * 10 + k) }
      else if o.width = 0 ∧ k = 0 then { o with padding := '0'.toUInt8 }
      else { o with width := wrap (o.width * 10 + k) } := by
  obtain ⟨hl, hdot, hdigit, hvalue, hzero, -⟩ := digitChar_spec hk
  have hdifference : ((Nat.digitChar k).toUInt8.toNat : Int) - '0'.toUInt8.toNat = k := by
    rw [hvalue, show '0'.toUInt8.toNat = 48 from rfl]
    omega
  rw [Options.read, if_neg hl, if_neg hdot, if_pos hdigit, hdifference]
  simp only [hzero]

theorem foldl_read_text (f : Nat → Options) {n : Nat}
    (hfirst : ∀ k < 10, (k = 0 → n = 0) → o.read (Nat.digitChar k).toUInt8 = f k)
    (hnext : ∀ m k, m ≠ 0 → k < 10 → m * 10 + k ≤ n →
      (f m).read (Nat.digitChar k).toUInt8 = f (m * 10 + k)) :
    (text 10 n).foldl Options.read o = f n := by
  induction n using Nat.strongRecOn with
  | ind n ih =>
    rcases Nat.lt_or_ge n 10 with hsmall | hlarge
    · rw [text, numeral_of_lt hsmall, map_singleton, foldl_cons, hfirst n hsmall id]
      rfl
    · have hfront := ih (n / 10) (by omega) (fun k hk hzero => hfirst k hk (by omega))
        fun m k hm hk hle => hnext m k hm hk (by omega)
      rw [text] at hfront
      rw [text, numeral_of_le (by decide) hlarge, map_append, map_singleton,
        foldl_append, hfront, foldl_cons,
        hnext (n / 10) (n % 10) (by omega) (Nat.mod_lt _ (by decide)) (by omega),
        Nat.div_add_mod']
      rfl

theorem foldl_read_width {n : Nat} (hprecise : o.precise = false) (hwidth : o.width = 0)
    (hn : n ≠ 0) (hlt : n < 2 ^ 31) :
    (text 10 n).foldl Options.read o = { o with width := n } := by
  refine foldl_read_text (fun m => { o with width := m }) (fun k hk hzero => ?_)
    fun m k hm hk hle => ?_
  · rw [read_digit hk, hprecise, if_neg Bool.false_ne_true, if_neg (fun h => hn (hzero h.2)), hwidth,
      Int.zero_mul, Int.zero_add, wrap_eq (by omega) (by omega)]
  · rw [read_digit hk]
    dsimp only
    rw [hprecise, if_neg Bool.false_ne_true, if_neg (by omega), wrap_eq (by omega) (by omega)]
    rfl

theorem foldl_read_precision {n : Nat} (hprecise : o.precise = true) (hprec : o.precision = 0)
    (hlt : n < 2 ^ 31) :
    (text 10 n).foldl Options.read o = { o with precision := n } := by
  refine foldl_read_text (fun m => { o with precision := m }) (fun k hk _ => ?_)
    fun m k _ hk hle => ?_
  · rw [read_digit hk, hprecise, if_pos rfl, hprec, Int.zero_mul, Int.zero_add,
      wrap_eq (by omega) (by omega)]
  · rw [read_digit hk]
    dsimp only
    rw [hprecise, if_pos rfl, wrap_eq (by omega) (by omega)]
    rfl

variable {width precision : Nat}

theorem options_read (n : Number) (zero : Bool) (hw : width < 2 ^ 31) (hp : precision < 2 ^ 31) :
    (n.options zero width precision).foldl Options.read .start =
      ⟨precision, width, precision ≠ 0, n.ells.length, paddingChar zero⟩ := by
  have hzero : (if zero then ['0'.toUInt8] else []).foldl Options.read .start =
      ⟨0, 0, false, 0, paddingChar zero⟩ := by
    cases zero <;> rfl
  have hwidth : (if width = 0 then [] else text 10 width).foldl Options.read
      ⟨0, 0, false, 0, paddingChar zero⟩ = ⟨0, width, false, 0, paddingChar zero⟩ := by
    split
    · rename_i hnone
      rw [hnone]
      rfl
    · rename_i hsome
      exact foldl_read_width rfl rfl hsome hw
  have hprec : (if precision = 0 then [] else '.'.toUInt8 :: text 10 precision).foldl
      Options.read ⟨0, width, false, 0, paddingChar zero⟩ =
      ⟨precision, width, precision ≠ 0, 0, paddingChar zero⟩ := by
    split
    · rename_i hnone
      rw [hnone]
      rfl
    · rename_i hsome
      rw [foldl_cons, decide_eq_true hsome]
      exact foldl_read_precision (o := ⟨0, width, true, 0, paddingChar zero⟩) rfl rfl hp
  have hells (o : Options) (h : o.ells = 0) :
      n.ells.foldl Options.read o = { o with ells := n.ells.length } := by
    obtain ⟨precision, width, precise, ells, padding⟩ := o
    obtain rfl : ells = 0 := h
    cases n <;> rfl
  rw [Number.options, foldl_append, foldl_append, foldl_append, hzero, hwidth,
    hprec, hells _ rfl]

theorem notMem_conversions (n : Number) (zero : Bool) (width precision : Nat) :
    ∀ c ∈ n.options zero width precision, c ∉ conversions ∧ c ≠ 0 := by
  have htext (m : Nat) : ∀ c ∈ text 10 m, c ∉ conversions ∧ c ≠ 0 := by
    intro c hc
    refine ⟨?_, fun h => zero_notMem_text (by decide) (by decide) (h ▸ hc)⟩
    obtain ⟨k, hk, rfl⟩ := mem_map.mp hc
    exact (digitChar_spec (numeral_digit_lt (by decide) k hk)).2.2.2.2.2
  have hells : ∀ c ∈ n.ells, c ∉ conversions ∧ c ≠ 0 := by
    have hell : 'l'.toUInt8 ∉ conversions ∧ 'l'.toUInt8 ≠ 0 := by decide
    cases n with
    | longHex upper x => exact forall_mem_cons.mpr ⟨hell, forall_mem_singleton.mpr hell⟩
    | _ => exact nofun
  intro c hc
  simp only [Number.options, mem_append] at hc
  rcases hc with ((hc | hc) | hc) | hc
  · split at hc
    · rw [mem_singleton.mp hc]
      decide
    · cases hc
  · split at hc
    · cases hc
    · exact htext width c hc
  · split at hc
    · cases hc
    · rcases mem_cons.mp hc with rfl | hc
      · decide
      · exact htext precision c hc
  · exact hells c hc

theorem directive_options (strings : BitVec 32 → List UInt8) (args : List (BitVec 32))
    {opts rest : List UInt8} (hopts : ∀ c ∈ opts, c ∉ conversions ∧ c ≠ 0)
    (hc : c ∈ conversions) (hdrop : fmt.drop i = opts ++ c :: rest) (hfuel : opts.length < fuel) :
    directive strings fmt fuel i o args = (do
      let (out, args) ← convert strings (opts.foldl Options.read o) c args
      .ok (i + opts.length, out, args)) := by
  induction opts generalizing i o fuel with
  | nil =>
    obtain ⟨fuel, rfl⟩ : ∃ n, fuel = n + 1 := ⟨fuel - 1, by omega⟩
    have hne : c ≠ 0 := by
      rintro rfl
      exact absurd hc (by decide)
    rw [directive, (charAt_cons hdrop).1, ok_bind, if_neg hne, if_pos hc]
    rfl
  | cons d opts ih =>
    obtain ⟨fuel, rfl⟩ : ∃ n, fuel = n + 1 := ⟨fuel - 1, by omega⟩
    rw [forall_mem_cons] at hopts
    obtain ⟨hd, hnext⟩ := charAt_cons hdrop
    rw [directive, hd, ok_bind, if_neg hopts.1.2, if_neg hopts.1.1,
      ih hopts.2 hnext (Nat.lt_of_succ_lt_succ hfuel), foldl_cons, length_cons,
      add_assoc, add_comm 1]

theorem hexDigit_eq {k : Nat} (hk : k < 16) (upper : Bool) :
    hexDigit upper k =
      if upper then (Nat.digitChar k).toUpper.toUInt8 else (Nat.digitChar k).toUInt8 := by
  cases upper <;> interval_cases k <;> rfl

theorem map_hexDigit (upper : Bool) (n : Nat) :
    (numeral 16 n).map (hexDigit upper) = if upper then upperText 16 n else text 16 n := by
  cases upper
  all_goals
    apply map_congr_left
    intro k hk
    exact hexDigit_eq (numeral_digit_lt (by decide) k hk) _

theorem map_decimalDigit (n : Nat) : (numeral 10 n).map decimalDigit = text 10 n := by
  apply map_congr_left
  intro k hk
  have hlt : k < 10 := numeral_digit_lt (by decide) k hk
  interval_cases k <;> rfl

theorem putDecimal_padded {x : Nat} (hwidth : o.width = width)
    (hprec : o.precision = precision) (hw : width ≤ 10) (hp : precision ≤ 10)
    (hx : x < 10 ^ 10) : putDecimal o x = padded o.padding width precision (text 10 x) := by
  rw [putDecimal_eq hx, render_eq (by decide) hx (by decide) hwidth hprec hw hp rfl,
    map_decimalDigit]

theorem putHex_padded {x w : Nat} (upper : Bool) (hwidth : o.width = width)
    (hprec : o.precision = precision) (hw : width ≤ w) (hp : precision ≤ w) (hpos : 0 < w)
    (hx : x < 16 ^ w) : putHex o upper w x =
      padded o.padding width precision (if upper then upperText 16 x else text 16 x) := by
  rw [putHex_eq, render_eq (by decide) hx hpos hwidth hprec hw hp (by cases upper <;> rfl),
    map_hexDigit]

theorem words_longHex (x : BitVec 64) :
    (x.setWidth 32).toNat + 2 ^ 32 * (x.extractLsb' 32 32).toNat = x.toNat := by
  rw [BitVec.toNat_setWidth, BitVec.extractLsb'_toNat, Nat.shiftRight_eq_div_pow]
  omega

theorem convert_number (n : Number) (hwidth : o.width = width)
    (hprec : o.precision = precision) (hw : width ≤ n.maxDigits) (hp : precision ≤ n.maxDigits)
    (hells : o.ells = n.ells.length) : convert strings o n.conversion (n.words ++ args) =
      .ok (n.sign ++ padded o.padding width precision n.numeralText, args) := by
  cases n with
  | unsigned x =>
    have hx : x.toNat < 10 ^ 10 := lt_of_lt_of_le x.isLt (by decide)
    rw [Number.numeralText, show (Number.unsigned x).sign = [] from rfl, nil_append,
      ← putDecimal_padded hwidth hprec hw hp hx]
    rfl
  | hex upper x =>
    have hlong : ¬ o.ells = 2 := by
      rw [hells]
      exact (by decide : ¬ ((0 : Nat) : Int) = 2)
    have hhex : convertHex o upper (x :: args) = .ok (putHex o upper 8 x.toNat, args) := by
      rw [convertHex, nextArg, ok_bind]
      exact if_neg hlong
    rw [Number.numeralText, show (Number.hex upper x).sign = [] from rfl, nil_append,
      ← putHex_padded (w := 8) upper hwidth hprec hw hp (by decide) x.isLt]
    cases upper <;> exact hhex
  | longHex upper x =>
    have hhex : convertHex o upper (x.setWidth 32 :: x.extractLsb' 32 32 :: args) =
        .ok (putHex o upper 16 x.toNat, args) := by
      rw [convertHex, nextArg, ok_bind, ← words_longHex x]
      exact if_pos hells
    rw [Number.numeralText, show (Number.longHex upper x).sign = [] from rfl,
      nil_append,
      ← putHex_padded (w := 16) upper hwidth hprec hw hp (by decide) x.isLt]
    cases upper <;> exact hhex
  | signed x =>
    have hcond := BitVec.toInt_eq_toNat_cond x
    have habs : x.toInt.natAbs < 10 ^ 10 := by omega
    rw [Number.numeralText, Number.sign, ← putDecimal_padded hwidth hprec hw hp habs]
    by_cases hneg : x.toInt < 0
    · have hminus : (x * -1).toNat = x.toInt.natAbs := by
        rw [BitVec.mul_neg, show x * 1 = x from BitVec.mul_one x, BitVec.toNat_neg]
        omega
      rw [if_pos hneg, ← hminus]
      exact if_pos hneg
    · have hsame : x.toNat = x.toInt.natAbs := by omega
      rw [if_neg hneg, ← hsame]
      exact if_neg hneg

/-- A directive prints the numeral of the value, with zeros up to the precision and padding up to
the width; a negative value has its sign in front. -/
theorem number_output (n : Number) (zero : Bool) (width precision : Nat) (args : List (BitVec 32))
    (hw : width ≤ n.maxDigits) (hp : precision ≤ n.maxDigits) :
    closureVprintf strings (n.format zero width precision) (n.words ++ args) =
      .ok (n.sign ++ padded (paddingChar zero) width precision n.numeralText) := by
  have hmax : n.maxDigits ≤ 16 := by cases n <;> simp [Number.maxDigits]
  have hconversion : n.conversion ∈ conversions := by
    have hhex (upper : Bool) : (if upper then 'X'.toUInt8 else 'x'.toUInt8) ∈ conversions := by
      cases upper <;> decide
    cases n with
    | unsigned x => exact (by decide : 'u'.toUInt8 ∈ conversions)
    | hex upper x => exact hhex upper
    | longHex upper x => exact hhex upper
    | signed x => exact (by decide : 'd'.toUInt8 ∈ conversions)
  have hlength : (n.format zero width precision).length =
      (n.options zero width precision).length + 2 := by
    simp [Number.format]
  have hdirective := directive_options strings (n.words ++ args) (i := 1) (o := .start)
    (notMem_conversions n zero width precision) hconversion
    (show (n.format zero width precision).drop 1 = _ ++ n.conversion :: [] from rfl)
    (show _ < (n.format zero width precision).length + 1 by omega)
  rw [options_read n zero (by omega) (by omega), convert_number n rfl rfl hw hp rfl, ok_bind]
    at hdirective
  have hend : charAt (n.format zero width precision)
      (1 + (n.options zero width precision).length + 1) = .ok 0 := by
    rw [show 1 + (n.options zero width precision).length + 1 =
      (n.format zero width precision).length by omega]
    exact charAt_length _
  rw [closureVprintf, run, show charAt (n.format zero width precision) 0 = .ok '%'.toUInt8 from rfl,
    ok_bind, if_neg (by decide), if_pos rfl, hdirective, ok_bind]
  dsimp only
  rw [hlength, run, hend, ok_bind, if_pos rfl]
  simp [Functor.map, Except.map]

theorem number_output_beef :
    closureVprintf (fun _ => []) ("%8.6x".toList.map Char.toUInt8) [0xBEEF] =
      .ok ("  00beef".toList.map Char.toUInt8) := by
  have hformat : (Number.hex false 0xBEEF).format false 8 6 = "%8.6x".toList.map Char.toUInt8 := by
    decide +kernel
  exact number_output (Number.hex false 0xBEEF) false 8 6 [] (by decide) (by decide)

end Quest.Util.Printf
