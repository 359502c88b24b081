import Quest.Basic

/-! The lookup of a path on an ISO 9660 volume: `fs/iso9660/fsys_iso9660.c`.  A string is the list
of its bytes, a pointer into it the list from there on. -/
namespace Quest.Fs.Iso9660

abbrev Name := List UInt8

def pathsep : UInt8 := 47

def dot : UInt8 := 46

def semicolon : UInt8 := 59

def toUpper (c : UInt8) : UInt8 := if 97 ≤ c ∧ c ≤ 122 then c - 32 else c

/-- `iso9660_filename_compare` from index `i` on, with `n` rounds of the loop to go. -/
def filenameCompareFrom (a : Nat → UInt8) (aLen : Nat) (b : Nat → UInt8) (bLen : Nat) :
    Nat → Nat → Int
  | 0, _ => 0
  | n + 1, i =>
      if toUpper (a i) ≠ toUpper (b i) then -1
      else
        let i := i + 1
        if a i = dot ∧ i = bLen then 0
        else if i = aLen ∧ b i = dot then 0
        else if a i = semicolon ∧ i = bLen then 0
        else if i = aLen ∧ b i = semicolon then 0
        else if i = aLen ∧ i < bLen then -1
        else if i < aLen ∧ i = bLen then -1
        else filenameCompareFrom a aLen b bLen n i

def filenameCompare (a : Nat → UInt8) (aLen : Nat) (b : Nat → UInt8) (bLen : Nat) : Int :=
  filenameCompareFrom a aLen b bLen (min aLen bLen) 0

/-- The page after the read of a sector: 2048 bytes of the sector, and behind them what the frame
held before. -/
abbrev Page := Nat → UInt8

structure Extent where
  firstSector : Nat
  dataLength : Nat
  deriving DecidableEq, Repr

structure Entry where
  identifier : Name
  extent : Extent
  flagDir : Bool
  deriving DecidableEq, Repr

def word (page : Page) (i : Nat) : Nat :=
  (page i).toNat + 2 ^ 8 * (page (i + 1)).toNat + 2 ^ 16 * (page (i + 2)).toNat +
    2 ^ 24 * (page (i + 3)).toNat

def record (page : Page) (d : Nat) : Entry where
  identifier := (List.range (page (d + 32)).toNat).map fun i => page (d + 33 + i)
  extent := ⟨word page (d + 2), word page (d + 10)⟩
  flagDir := (page (d + 25)).toNat.testBit 1

def sectorSize : Nat := 2048

/-- The sectors of the drive and `iso9660_mounted_info`. -/
structure Volume where
  sectors : List Page
  root : Extent

def skipZeroes (page : Page) : Nat → Nat → Nat → Nat × Nat
  | 0, d, count => (d, count)
  | n + 1, d, count =>
      if page d = 0 ∧ count % sectorSize ≠ 0 then skipZeroes page n (d + 1) (count + 1)
      else (d, count)

def nextSector (v : Volume) (count secnum : Nat) (page : Page) (d : Nat) :
    Except Fault (Nat × Page × Nat) :=
  if count % sectorSize = 0 then
    match v.sectors[secnum]? with
    | none => .error (.panic "CD ROM READ ERROR\n")
    | some sector => .ok (secnum + 1, sector, 0)
  else .ok (secnum, page, d)

/-- The loop of `iso9660_search_dir`.  Every round moves `count` or reads another sector. -/
def searchFrom (v : Volume) (numBytes : Nat) (a : Nat → UInt8) (aLen : Nat) :
    Nat → Nat → Nat → Page → Nat → Except Fault (Option Entry)
  | 0, _, _, _, _ => .error .diverges
  | n + 1, count, secnum, page, d =>
      if count < numBytes then do
        let (secnum, page, d) ← nextSector v count secnum page d
        if filenameCompare a aLen (fun i => page (d + 33 + i)) (page (d + 32)).toNat = 0 then
          .ok (some (record page d))
        else
          let length := (page d).toNat
          let (d, count) := skipZeroes page sectorSize (d + length) (count + length)
          searchFrom v numBytes a aLen n count secnum page d
      else .ok none

def searchDir (v : Volume) (d : Extent) (pathname : Name) (len : Nat) : Except Fault (Option Entry) :=
  searchFrom v d.dataLength (fun i => pathname.getD i 0) len
    (d.dataLength + v.sectors.length + 2) 0 d.firstSector (fun _ => 0) 0

structure Handle where
  sector : Nat
  offset : Nat
  length : Nat
  deriving DecidableEq, Repr

/-- `iso9660_parse_first_component`: the component without leading slashes, its length, and
whether it is the last one. -/
def parseFirstComponent (pathname : Name) : Name × Nat × Bool :=
  let start := pathname.dropWhile (· = pathsep)
  let len := (start.takeWhile (· ≠ pathsep)).length
  (start, len, (start.drop len).isEmpty)

/-- The loop of `iso9660_open`; `none` is the result -1. -/
def openFrom (v : Volume) : Nat → Extent → Name → Except Fault (Option Entry)
  | 0, _, _ => .error .diverges
  | n + 1, d, pathname =>
      let (start, len, last) := parseFirstComponent pathname
      if last then
        if len = 0 then .ok none else searchDir v d start len
      else do
        match ← searchDir v d start len with
        | none => .ok none
        | some de => openFrom v n de.extent (start.drop len)

def handle (de : Entry) : Handle := ⟨de.extent.firstSector, 0, de.extent.dataLength⟩

def iso9660Open (v : Volume) (pathname : Name) : Except Fault (Option Handle) :=
  if pathname.head? ≠ some pathsep then .ok none
  else Option.map handle <$> openFrom v (pathname.length + 1) v.root pathname

/-! Which names the comparison takes for the same. -/

def upper (name : Name) : Name := name.map toUpper

def excess (c identifier : Name) : Option Name :=
  if upper c <+: upper identifier then some (identifier.drop c.length)
  else if upper identifier <+: upper c then some (c.drop identifier.length)
  else none

/-- An optional `.` and an optional `;version`. -/
def IsVersion : Name → Prop
  | [] => True
  | x :: rest => x = semicolon ∨ x = dot ∧ (rest = [] ∨ rest.head? = some semicolon)

instance : DecidablePred IsVersion := fun name => by
  cases name <;> unfold IsVersion <;> infer_instance

/-- The component is the identifier, up to case and version. -/
def Named (c identifier : Name) : Prop := c ≠ [] ∧ ∃ rest ∈ excess c identifier, IsVersion rest

def Confused (c identifier : Name) : Prop :=
  c ≠ [] ∧ ∃ rest ∈ excess c identifier, rest.head? = some dot ∧ ¬IsVersion rest

instance (c identifier : Name) : Decidable (Named c identifier) := by
  unfold Named
  infer_instance

instance (c identifier : Name) : Decidable (Confused c identifier) := by
  unfold Confused
  infer_instance

/-- What `iso9660_filename_compare` finds equal, for names that are not empty. -/
def Accepts (c identifier : Name) : Prop :=
  ∃ rest ∈ excess c identifier, rest = [] ∨ rest.head? = some dot ∨ rest.head? = some semicolon

instance (c identifier : Name) : Decidable (Accepts c identifier) := by
  unfold Accepts
  infer_instance

variable {c identifier : Name}

theorem excess_nil_left : excess [] identifier = some identifier := by
  simp [excess, upper]

theorem excess_nil_right : excess c [] = some c := by
  cases c <;> simp [excess, upper]

theorem excess_cons (x y : UInt8) :
    excess (x :: c) (y :: identifier) =
      if toUpper x = toUpper y then excess c identifier else none := by
  simp only [excess, upper, List.map_cons, List.cons_prefix_cons, List.length_cons,
    List.drop_succ_cons]
  by_cases heq : toUpper x = toUpper y
  · simp only [heq, true_and, if_true]
    congr
  · simp [heq, Ne.symm heq]

theorem accepts_nil : Accepts [] [] := ⟨[], excess_nil_left, .inl rfl⟩

theorem accepts_nil_cons (y : UInt8) :
    Accepts [] (y :: identifier) ↔ y = dot ∨ y = semicolon := by
  simp [Accepts, excess_nil_left]

theorem accepts_cons_nil (x : UInt8) : Accepts (x :: c) [] ↔ x = dot ∨ x = semicolon := by
  simp [Accepts, excess_nil_right]

theorem accepts_cons (x y : UInt8) :
    Accepts (x :: c) (y :: identifier) ↔ toUpper x = toUpper y ∧ Accepts c identifier := by
  rw [Accepts, excess_cons]
  split <;> simp [Accepts, *]

theorem filenameCompareFrom_succ {a b : Nat → UInt8} {aLen bLen n i : Nat} (ha : i + 1 < aLen)
    (hb : i + 1 < bLen) :
    filenameCompareFrom a aLen b bLen (n + 1) i =
      if toUpper (a i) ≠ toUpper (b i) then -1 else filenameCompareFrom a aLen b bLen n (i + 1) := by
  rw [filenameCompareFrom]
  simp [ha.ne, hb.ne]

theorem filenameCompareFrom_eq_zero {a b : Nat → UInt8} {x y : UInt8} {i : Nat}
    (ha : ∀ j (h : j < (x :: c).length), a (i + j) = (x :: c)[j])
    (hb : ∀ j (h : j < (y :: identifier).length), b (i + j) = (y :: identifier)[j]) :
    filenameCompareFrom a (i + (x :: c).length) b (i + (y :: identifier).length)
        (min (x :: c).length (y :: identifier).length) i = 0 ↔
      Accepts (x :: c) (y :: identifier) := by
  induction c generalizing x y identifier i with
  | nil =>
    have hx : a i = x := ha 0 (by simp)
    have hy : b i = y := hb 0 (by simp)
    rw [accepts_cons]
    cases identifier with
    | nil => simp [filenameCompareFrom, hx, hy, accepts_nil]
    | cons y' ys =>
      have hy' : b (i + 1) = y' := hb 1 (by simp)
      simp [filenameCompareFrom, hx, hy, hy', accepts_nil_cons]
      grind
  | cons x' xs ih =>
    have hx : a i = x := ha 0 (by simp)
    have hy : b i = y := hb 0 (by simp)
    have hx' : a (i + 1) = x' := ha 1 (by simp)
    rw [accepts_cons]
    cases identifier with
    | nil =>
      simp [filenameCompareFrom, hx, hy, hx', accepts_cons_nil]
      grind
    | cons y' ys =>
      have ha' (j : Nat) (h : j < (x' :: xs).length) : a (i + 1 + j) = (x' :: xs)[j] :=
        (congrArg a (by omega)).trans (ha (j + 1) (Nat.succ_lt_succ h))
      have hb' (j : Nat) (h : j < (y' :: ys).length) : b (i + 1 + j) = (y' :: ys)[j] :=
        (congrArg b (by omega)).trans (hb (j + 1) (Nat.succ_lt_succ h))
      rw [← ih ha' hb']
      simp only [List.length_cons, Nat.succ_min_succ]
      rw [filenameCompareFrom_succ (by omega) (by omega), hx, hy]
      have hlen (n : Nat) : i + (n + 1 + 1) = i + 1 + (n + 1) := by omega
      by_cases heq : toUpper x = toUpper y
      · simp only [heq, ne_eq, not_true_eq_false, if_false, true_and, hlen]
      · simp [heq]

theorem filenameCompare_eq_zero {a b : Nat → UInt8} (hc : c ≠ []) (hident : identifier ≠ [])
    (ha : ∀ j (h : j < c.length), a j = (c)[j])
    (hb : ∀ j (h : j < identifier.length), b j = identifier[j]) :
    filenameCompare a c.length b identifier.length = 0 ↔ Accepts c identifier := by
  obtain ⟨x, xs, rfl⟩ := List.exists_cons_of_ne_nil hc
  obtain ⟨y, ys, rfl⟩ := List.exists_cons_of_ne_nil hident
  rw [filenameCompare]
  have hloop := filenameCompareFrom_eq_zero (i := 0) (fun j h => by simpa using ha j h)
    (fun j h => by simpa using hb j h)
  simpa only [Nat.zero_add] using hloop

theorem accepts_iff (hc : c ≠ []) :
    Accepts c identifier ↔ Named c identifier ∨ Confused c identifier := by
  simp only [Accepts, Named, Confused, hc, ne_eq, not_false_eq_true, true_and]
  rw [← exists_or]
  apply exists_congr
  intro rest
  rw [← and_or_left]
  apply and_congr_right
  cases rest with
  | nil => simp [IsVersion]
  | cons x rest =>
    simp only [IsVersion, List.head?_cons, Option.some.injEq]
    grind

end Quest.Fs.Iso9660
