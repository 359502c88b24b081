import Quest.Fs.Iso9660

/-! Well-formed directories of an ISO 9660 volume, and what `iso9660_search_dir` finds in them. -/
namespace Quest.Fs.Iso9660

open List

structure RecordAt (page : Page) (d : Nat) (e : Entry) : Prop where
  eq : record page d = e
  length : 33 + e.identifier.length ≤ (page d).toNat
  named : e.identifier ≠ []

def Lists (page : Page) : Nat → List Entry → Prop
  | d, [] => d ≤ sectorSize ∧ ∀ i, d ≤ i → i < sectorSize → page i = 0
  | d, e :: es => RecordAt page d e ∧ Lists page (d + (page d).toNat) es

def Volume.Holds (v : Volume) : Nat → List (List Entry) → Prop
  | _, [] => True
  | secnum, es :: rest =>
      es ≠ [] ∧ (∃ page ∈ v.sectors[secnum]?, Lists page 0 es) ∧ v.Holds (secnum + 1) rest

def Volume.IsDirectory (v : Volume) (d : Extent) (es : List Entry) : Prop :=
  ∃ chunks, v.Holds d.firstSector chunks ∧ d.dataLength = sectorSize * chunks.length ∧
    es = chunks.flatten

variable {v : Volume} {page : Page} {d n count secnum k numBytes : Nat} {e : Entry}
  {es : List Entry} {rest : List (List Entry)} {c : Name} {a : Nat → UInt8}

theorem Lists.le (h : Lists page d es) : d + es.length ≤ sectorSize := by
  induction es generalizing d with
  | nil => exact h.1
  | cons e es ih =>
    have hlen := h.1.length
    have := ih h.2
    rw [length_cons]
    omega

theorem skipZeroes_record (h : RecordAt page d e) :
    skipZeroes page n d count = (d, count) := by
  have hne : page d ≠ 0 := by
    intro hzero
    have := h.length
    rw [hzero] at this
    simp at this
  cases n with
  | zero => rfl
  | succ n => simp [skipZeroes, hne]

theorem skipZeroes_end (hzero : ∀ i, d ≤ i → i < sectorSize → page i = 0) (hpos : 0 < d)
    (hle : d ≤ sectorSize) (hn : sectorSize ≤ d + n) :
    skipZeroes page n d (sectorSize * k + d) = (sectorSize, sectorSize * (k + 1)) := by
  induction n generalizing d with
  | zero =>
    obtain rfl : d = sectorSize := by omega
    rfl
  | succ n ih =>
    rw [skipZeroes]
    obtain hlt | rfl := hle.lt_or_eq
    · have hmod : (sectorSize * k + d) % sectorSize ≠ 0 := by
        rw [Nat.mul_add_mod, Nat.mod_eq_of_lt hlt]
        omega
      rw [if_pos ⟨hzero d le_rfl hlt, hmod⟩]
      exact ih (fun i hi => hzero i (by omega)) (by omega) hlt (by omega)
    · rw [if_neg (by simp)]
      rfl

theorem filenameCompare_record (h : RecordAt page d e) (hc : c ≠ [])
    (ha : ∀ j (hj : j < c.length), a j = (c)[j]) :
    filenameCompare a c.length (fun i => page (d + 33 + i)) (page (d + 32)).toNat = 0 ↔
      Accepts c e.identifier := by
  have hident : e.identifier = (range (page (d + 32)).toNat).map fun i => page (d + 33 + i) := by
    rw [← h.eq, record]
  have hlen : e.identifier.length = (page (d + 32)).toNat := by simp [hident]
  rw [← hlen]
  apply filenameCompare_eq_zero hc h.named ha
  simp [hident]

def visit (v : Volume) (numBytes : Nat) (a : Nat → UInt8) (aLen n count secnum : Nat) (page : Page)
    (d : Nat) : Except Fault (Option Entry) :=
  if filenameCompare a aLen (fun i => page (d + 33 + i)) (page (d + 32)).toNat = 0 then
    .ok (some (record page d))
  else
    let next := skipZeroes page sectorSize (d + (page d).toNat) (count + (page d).toNat)
    searchFrom v numBytes a aLen n next.2 secnum page next.1

theorem searchFrom_succ (v : Volume) (numBytes : Nat) (a : Nat → UInt8)
    (aLen n count secnum : Nat) (page : Page) (d : Nat) :
    searchFrom v numBytes a aLen (n + 1) count secnum page d =
      if count < numBytes then
        nextSector v count secnum page d >>= fun x => visit v numBytes a aLen n count x.1 x.2.1 x.2.2
      else .ok none := by
  simp only [searchFrom, visit]

theorem searchFrom_mid {aLen : Nat} (hlt : count < numBytes) (hmod : count % sectorSize ≠ 0) :
    searchFrom v numBytes a aLen (n + 1) count secnum page d =
      visit v numBytes a aLen n count secnum page d := by
  rw [searchFrom_succ, if_pos hlt, nextSector, if_neg hmod, ok_bind]

theorem searchFrom_start {aLen : Nat} {page' : Page} (hlt : count < numBytes)
    (hmod : count % sectorSize = 0) (hpage : v.sectors[secnum]? = some page') :
    searchFrom v numBytes a aLen (n + 1) count secnum page d =
      visit v numBytes a aLen n count (secnum + 1) page' 0 := by
  rw [searchFrom_succ, if_pos hlt, nextSector, if_pos hmod, hpage, ok_bind]

def firstAccepted (c : Name) (es : List Entry) : Option Entry :=
  es.find? fun e => decide (Accepts c e.identifier)

theorem firstAccepted_cons (c : Name) (e : Entry) (es : List Entry) :
    firstAccepted c (e :: es) =
      if Accepts c e.identifier then some e else firstAccepted c es := by
  rw [firstAccepted, find?_cons]
  split <;> simp_all [firstAccepted]

theorem visit_record (h : RecordAt page d e) (hc : c ≠ [])
    (ha : ∀ j (hj : j < c.length), a j = (c)[j]) :
    visit v numBytes a c.length n (sectorSize * k + d) secnum page d =
      if Accepts c e.identifier then .ok (some e)
      else
        let next := skipZeroes page sectorSize (d + (page d).toNat)
          (sectorSize * k + (d + (page d).toNat))
        searchFrom v numBytes a c.length n next.2 secnum page next.1 := by
  simp only [visit, filenameCompare_record h hc ha, h.eq, Nat.add_assoc (sectorSize * k)]

theorem visit_eq {tail : List Entry} {m : Nat} (hc : c ≠ [])
    (ha : ∀ j (hj : j < c.length), a j = (c)[j]) (hlists : Lists page d (e :: es))
    (hle : sectorSize * (k + 1) ≤ numBytes) (hn : es.length + m ≤ n)
    (htail : ∀ n page d, m ≤ n →
      searchFrom v numBytes a c.length n (sectorSize * (k + 1)) secnum page d =
        .ok (firstAccepted c tail)) :
    visit v numBytes a c.length n (sectorSize * k + d) secnum page d =
      .ok (firstAccepted c (e :: es ++ tail)) := by
  induction es generalizing d e n with
  | nil =>
    obtain ⟨hrec, hend, hzero⟩ := hlists
    have hpos := hrec.length
    rw [visit_record hrec hc ha, skipZeroes_end hzero (by omega) hend (by omega),
      cons_append, firstAccepted_cons]
    split
    · rfl
    · exact htail n _ _ (by simpa using hn)
  | cons e' es ih =>
    obtain ⟨hrec, hrest⟩ := hlists
    have hpos := hrec.length
    have hlast := hrest.le
    rw [length_cons] at hn hlast
    obtain ⟨n, rfl⟩ : ∃ n', n = n' + 1 := ⟨n - 1, by omega⟩
    rw [visit_record hrec hc ha, skipZeroes_record hrest.1, cons_append, firstAccepted_cons]
    split
    · rfl
    · -- the next record is in the same sector
      have hmod : (sectorSize * k + (d + (page d).toNat)) % sectorSize ≠ 0 := by
        rw [Nat.mul_add_mod, Nat.mod_eq_of_lt (by omega)]
        omega
      have hlt : sectorSize * k + (d + (page d).toNat) < numBytes := by
        rw [Nat.mul_succ] at hle
        omega
      dsimp only
      rw [searchFrom_mid hlt hmod]
      exact ih hrest (by omega)

theorem searchFrom_eq (hc : c ≠ []) (ha : ∀ j (hj : j < c.length), a j = (c)[j])
    (hholds : v.Holds secnum rest) (hbytes : numBytes = sectorSize * (k + rest.length))
    (hn : rest.flatten.length < n) :
    searchFrom v numBytes a c.length n (sectorSize * k) secnum page d =
      .ok (firstAccepted c rest.flatten) := by
  induction rest generalizing secnum k n page d with
  | nil =>
    obtain ⟨n, rfl⟩ : ∃ n', n = n' + 1 := ⟨n - 1, by omega⟩
    rw [searchFrom, if_neg (by simp [hbytes])]
    rfl
  | cons es rest ih =>
    obtain ⟨hne, ⟨page', hpage, hlists⟩, hholds⟩ := hholds
    obtain ⟨e, es, rfl⟩ := exists_cons_of_ne_nil hne
    rw [flatten_cons, length_append, length_cons] at hn
    rw [length_cons] at hbytes
    obtain ⟨n, rfl⟩ : ∃ n', n = n' + 1 := ⟨n - 1, by omega⟩
    have hle : sectorSize * (k + 1) ≤ numBytes := by
      rw [hbytes]
      exact Nat.mul_le_mul_left _ (by omega)
    have hlt : sectorSize * k < numBytes := by
      rw [Nat.mul_succ] at hle
      have : 0 < sectorSize := by decide
      omega
    rw [searchFrom_start hlt (Nat.mul_mod_right _ _) hpage, flatten_cons]
    refine visit_eq (k := k) (d := 0) (m := rest.flatten.length + 1) hc ha hlists hle (by omega) ?_
    intro n page d hn
    exact ih hholds (by rw [hbytes]; congr 1; omega) (by omega)

theorem Volume.Holds.length_le (h : v.Holds secnum rest) :
    rest.flatten.length ≤ sectorSize * rest.length := by
  induction rest generalizing secnum with
  | nil => exact le_rfl
  | cons es rest ih =>
    obtain ⟨-, ⟨page, -, hlists⟩, hholds⟩ := h
    have hle := hlists.le
    have hrest := ih hholds
    rw [flatten_cons, length_append, length_cons, Nat.mul_succ]
    omega

theorem Volume.IsDirectory.searchDir_eq {x : Extent} {pathname : Name} (h : v.IsDirectory x es)
    (hc : c ≠ []) (hstart : c <+: pathname) :
    searchDir v x pathname c.length = .ok (firstAccepted c es) := by
  obtain ⟨chunks, hholds, hlen, rfl⟩ := h
  have hle := hholds.length_le
  refine searchFrom_eq (k := 0) hc (fun j hj => ?_) hholds (by rw [hlen, Nat.zero_add]) (by omega)
  obtain ⟨behind, rfl⟩ := hstart
  rw [getD_eq_getElem?_getD, getElem?_append_left hj, getElem?_eq_getElem hj]
  rfl

end Quest.Fs.Iso9660
