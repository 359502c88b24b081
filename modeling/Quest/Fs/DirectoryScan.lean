import Quest.Fs.Directory

/-! What `iso9660_search_dir` reads from the drive, and where the records lie that it looks at. -/
namespace Quest.Fs.Iso9660

open List

/-- The number of sectors that are read, the records that are looked at, each with its page, and
the one that is copied to `de`. -/
structure Scan where
  reads : Nat
  inspected : List (Page × Nat)
  found : Except Fault (Option (Page × Nat))

def Matches (a : Nat → UInt8) (aLen : Nat) (page : Page) (d : Nat) : Prop :=
  filenameCompare a aLen (fun i => page (d + 33 + i)) (page (d + 32)).toNat = 0

instance (a : Nat → UInt8) (aLen : Nat) (page : Page) (d : Nat) :
    Decidable (Matches a aLen page d) := by
  unfold Matches
  infer_instance

def inspect (a : Nat → UInt8) (aLen : Nat) (page : Page) (d : Nat) (next : Scan) : Scan :=
  if Matches a aLen page d then ⟨0, [(page, d)], .ok (some (page, d))⟩
  else ⟨next.reads, (page, d) :: next.inspected, next.found⟩

def Scan.addReads (k : Nat) (s : Scan) : Scan := { s with reads := s.reads + k }

/-- The loop of `iso9660_search_dir`, with `count` and `secnum` of 32 bits. -/
def scanFrom (v : Volume) (numBytes : Nat) (a : Nat → UInt8) (aLen : Nat) :
    Nat → Nat → Nat → Page → Nat → Scan
  | 0, _, _, _, _ => ⟨0, [], .error .diverges⟩
  | n + 1, count, secnum, page, d =>
      if count < numBytes then
        let reads := if count % sectorSize = 0 then 1 else 0
        match nextSector v count secnum page d with
        | .error f => ⟨reads, [], .error f⟩
        | .ok (secnum, page, d) =>
            let length := (page d).toNat
            let next := skipZeroes page sectorSize (d + length) (count + length)
            (inspect a aLen page d
              (scanFrom v numBytes a aLen n (next.2 % 2 ^ 32) (secnum % 2 ^ 32) page
                next.1)).addReads reads
      else ⟨0, [], .ok none⟩

def scanDir (v : Volume) (x : Extent) (pathname : Name) (len n : Nat) : Scan :=
  scanFrom v x.dataLength (fun i => pathname.getD i 0) len n 0 x.firstSector (fun _ => 0) 0

def RecordInside (page : Page) (d : Nat) : Prop :=
  d + 33 + (page (d + 32)).toNat ≤ sectorSize ∧ d + (page d).toNat ≤ sectorSize

instance (page : Page) (d : Nat) : Decidable (RecordInside page d) := by
  unfold RecordInside
  infer_instance

/-- The run comes to a result, with so many reads at most, and what it looks at or copies is
inside the sector. -/
structure Scan.Bounded (s : Scan) (limit : Nat) : Prop where
  returns : ∃ x, s.found = .ok x
  reads : s.reads ≤ limit
  inside : ∀ x ∈ s.inspected, RecordInside x.1 x.2
  copied : ∀ x, s.found = .ok (some x) → RecordInside x.1 x.2

/-! The layout of a directory, without a look at any name. -/

def follow (page : Page) (d : Nat) : Nat :=
  (skipZeroes page sectorSize (d + (page d).toNat) (d + (page d).toNat)).1

def Nameless (page : Page) (d : Nat) : Prop := page (d + 32) = 0

instance (page : Page) (d : Nat) : Decidable (Nameless page d) := by
  unfold Nameless
  infer_instance

def Continues (page : Page) (limit d : Nat) : Prop :=
  ¬Nameless page d ∧ d < follow page d ∧ follow page d < limit

instance (page : Page) (limit d : Nat) : Decidable (Continues page limit d) := by
  unfold Continues
  infer_instance

def offsets (page : Page) (limit : Nat) : Nat → Nat → List Nat
  | 0, _ => []
  | n + 1, d =>
      d :: if Continues page limit d then offsets page limit n (follow page d) else []

/-- From `count` bytes on, the extent starts at `secnum`, takes `left` sectors at most, and has
its records inside of their sectors. -/
def Volume.Laid (v : Volume) (numBytes : Nat) : Nat → Nat → Nat → Prop
  | 0, count, _ => numBytes ≤ count
  | left + 1, count, secnum => numBytes ≤ count ∨
      ∃ page ∈ v.sectors[secnum]?,
        let starts := offsets page (min sectorSize (numBytes - count)) sectorSize 0
        (∀ d ∈ starts, RecordInside page d) ∧ (Nameless page (starts.getLastD 0) ∨
          v.Laid numBytes left ((count + follow page (starts.getLastD 0)) % 2 ^ 32)
            ((secnum + 1) % 2 ^ 32))

def sectorCount (numBytes : Nat) : Nat := (numBytes + (sectorSize - 1)) / sectorSize

def Extent.Laid (v : Volume) (x : Extent) : Prop :=
  v.Laid x.dataLength (sectorCount x.dataLength) 0 x.firstSector

variable {v : Volume} {page : Page} {a : Nat → UInt8} {s : Scan}
  {aLen numBytes n m d count base secnum limit left k : Nat}

theorem skipZeroes_snd_le (page : Page) (n d count : Nat) :
    (skipZeroes page n d count).2 ≤ count + n := by
  induction n generalizing d count with
  | zero => simp [skipZeroes]
  | succ n ih =>
    rw [skipZeroes]
    split
    · exact le_trans (ih _ _) (by omega)
    · simp

theorem skipZeroes_add (hbase : base % sectorSize = 0) :
    skipZeroes page n d (base + d) =
      ((skipZeroes page n d d).1, base + (skipZeroes page n d d).1) := by
  have hmod : (base + d) % sectorSize = d % sectorSize := by
    rw [Nat.add_mod, hbase, Nat.zero_add, Nat.mod_mod]
  induction n generalizing d with
  | zero => rfl
  | succ n ih =>
    simp only [skipZeroes, hmod]
    split
    · apply ih
      rw [Nat.add_mod, hbase, Nat.zero_add, Nat.mod_mod]
    · rfl

theorem le_skipZeroes : d ≤ (skipZeroes page n d count).1 := by
  induction n generalizing d count with
  | zero => exact le_rfl
  | succ n ih =>
    rw [skipZeroes]
    split
    · exact le_trans (by omega) ih
    · exact le_rfl

theorem skipZeroes_le (hd : d ≤ sectorSize) : (skipZeroes page n d d).1 ≤ sectorSize := by
  induction n generalizing d with
  | zero => exact hd
  | succ n ih =>
    rw [skipZeroes]
    split
    · rename_i hzero
      have hne : d ≠ sectorSize := fun heq => hzero.2 (by rw [heq, Nat.mod_self])
      exact ih (by omega)
    · exact hd

theorem follow_le (h : RecordInside page d) : follow page d ≤ sectorSize := skipZeroes_le h.2

theorem le_follow : d ≤ follow page d := le_trans (by omega) le_skipZeroes

theorem lt_follow (hpos : 0 < d) (hd : d < sectorSize) : d < follow page d := by
  by_cases hzero : page d = 0
  · have hmod : d % sectorSize ≠ 0 := by
      rw [Nat.mod_eq_of_lt hd]
      omega
    have hlen : d + (page d).toNat = d := by simp [hzero]
    rw [follow, hlen, show sectorSize = 2047 + 1 from rfl, skipZeroes, if_pos ⟨hzero, hmod⟩]
    exact le_skipZeroes
  · have hlen : 0 < (page d).toNat := by
      apply Nat.pos_of_ne_zero
      intro hnat
      exact hzero (UInt8.toNat_inj.mp hnat)
    exact lt_of_lt_of_le (by omega) le_skipZeroes

theorem skipZeroes_follow (page : Page) (d : Nat) (hbase : base % sectorSize = 0) :
    skipZeroes page sectorSize (d + (page d).toNat) (base + d + (page d).toNat) =
      (follow page d, base + follow page d) := by
  rw [Nat.add_assoc, skipZeroes_add hbase, follow]

theorem scanFrom_done (h : numBytes ≤ count) :
    scanFrom v numBytes a aLen (n + 1) count secnum page d = ⟨0, [], .ok none⟩ := by
  rw [scanFrom, if_neg (by omega)]

theorem scanFrom_mid (hbase : base % sectorSize = 0) (hpos : 0 < d) (hd : d < sectorSize)
    (hlt : base + d < numBytes) :
    scanFrom v numBytes a aLen (n + 1) (base + d) secnum page d =
      inspect a aLen page d (scanFrom v numBytes a aLen n ((base + follow page d) % 2 ^ 32)
        (secnum % 2 ^ 32) page (follow page d)) := by
  have hmod : (base + d) % sectorSize ≠ 0 := by
    rw [Nat.add_mod, hbase, Nat.zero_add, Nat.mod_mod, Nat.mod_eq_of_lt hd]
    omega
  simp only [scanFrom, hlt, if_true, nextSector, hmod, if_false, skipZeroes_follow _ _ hbase,
    Scan.addReads, Nat.add_zero]

theorem scanFrom_start {sector : Page} (hbase : base % sectorSize = 0) (hlt : base < numBytes)
    (hsec : v.sectors[secnum]? = some sector) :
    scanFrom v numBytes a aLen (n + 1) base secnum page d =
      (inspect a aLen sector 0 (scanFrom v numBytes a aLen n ((base + follow sector 0) % 2 ^ 32)
        ((secnum + 1) % 2 ^ 32) sector (follow sector 0))).addReads 1 := by
  have hskip := skipZeroes_follow sector 0 hbase
  rw [Nat.add_zero] at hskip
  simp only [scanFrom, hlt, if_true, nextSector, hbase, hsec, hskip]

def Scan.entry (s : Scan) : Except Fault (Option Entry) :=
  s.found.map (Option.map fun x => record x.1 x.2)

theorem inspect_entry {next : Scan}
    (hnext : next.entry = searchFrom v numBytes a aLen n
      (skipZeroes page sectorSize (d + (page d).toNat) (count + (page d).toNat)).2 secnum page
      (skipZeroes page sectorSize (d + (page d).toNat) (count + (page d).toNat)).1) :
    ((inspect a aLen page d next).addReads k).entry =
      visit v numBytes a aLen n count secnum page d := by
  unfold inspect visit
  by_cases hmatch : Matches a aLen page d
  · rw [if_pos hmatch]
    exact (if_pos hmatch).symm
  · rw [if_neg hmatch]
    exact hnext.trans (if_neg hmatch).symm

theorem scanFrom_entry (hsectors : v.sectors.length < 2 ^ 32)
    (hbytes : numBytes + 2 * sectorSize ≤ 2 ^ 32) (hsecnum : secnum < 2 ^ 32) :
    (scanFrom v numBytes a aLen n count secnum page d).entry =
      searchFrom v numBytes a aLen n count secnum page d := by
  induction n generalizing count secnum page d with
  | zero => rfl
  | succ n ih =>
    have hwrap (page : Page) (d : Nat) (hlt : count < numBytes) :
        (skipZeroes page sectorSize (d + (page d).toNat) (count + (page d).toNat)).2 < 2 ^ 32 := by
      have hle := skipZeroes_snd_le page sectorSize (d + (page d).toNat) (count + (page d).toNat)
      have hlen := (page d).toNat_lt
      have hsize : sectorSize = 2048 := rfl
      omega
    rw [searchFrom_succ, scanFrom]
    split
    · rename_i hlt
      rw [nextSector]
      split
      · cases hsec : v.sectors[secnum]? with
        | none => rfl
        | some sector =>
          have hle := (List.getElem?_eq_some_iff.mp hsec).1
          apply inspect_entry
          rw [Nat.mod_eq_of_lt (hwrap sector 0 hlt), Nat.mod_eq_of_lt (by omega)]
          exact ih (by omega)
      · apply inspect_entry
        rw [Nat.mod_eq_of_lt (hwrap page d hlt), Nat.mod_eq_of_lt hsecnum]
        exact ih hsecnum
    · rfl

theorem scanDir_entry {x : Extent} (hsectors : v.sectors.length < 2 ^ 32)
    (hbytes : x.dataLength + 2 * sectorSize ≤ 2 ^ 32) (hfirst : x.firstSector < 2 ^ 32)
    (pathname : Name) (len : Nat) :
    (scanDir v x pathname len (x.dataLength + v.sectors.length + 2)).entry =
      searchDir v x pathname len :=
  scanFrom_entry hsectors hbytes hfirst

theorem scanDir_entry_blank : ∃ v : Volume, v.sectors.length = 1 ∧
    (scanDir v ⟨0, 2048⟩ [] 0 2051).entry = searchDir v ⟨0, 2048⟩ [] 0 :=
  ⟨⟨[fun _ => 0], ⟨0, 2048⟩⟩, rfl, scanDir_entry (by decide) (by decide) (by decide) _ _⟩

theorem inspect_bounded {next : Scan} :
    (inspect a aLen page d next).Bounded limit ↔
      RecordInside page d ∧ (Matches a aLen page d ∨ next.Bounded limit) := by
  unfold inspect
  constructor
  · intro h
    split at h
    · rename_i hmatch
      exact ⟨h.inside (page, d) (by simp), .inl hmatch⟩
    · exact ⟨h.inside (page, d) (by simp), .inr ⟨h.returns, h.reads,
        fun x hx => h.inside x (mem_cons_of_mem _ hx), h.copied⟩⟩
  · intro ⟨hin, h⟩
    split
    · exact ⟨⟨_, rfl⟩, Nat.zero_le _, by simpa using hin, by simpa using hin⟩
    · rename_i hmatch
      have hnext := h.resolve_left hmatch
      exact { hnext with inside := by simpa using ⟨hin, fun p e => hnext.inside (p, e)⟩ }

theorem addReads_bounded : (s.addReads k).Bounded (limit + k) ↔ s.Bounded limit := by
  constructor
  · intro h
    exact { h with reads := Nat.le_of_add_le_add_right h.reads }
  · intro h
    exact { h with reads := Nat.add_le_add_right h.reads k }

theorem nameless_matches (h : Nameless page d) : Matches a aLen page d := by
  have hlen : (page (d + 32)).toNat = 0 := by simp [show page (d + 32) = 0 from h]
  simp [Matches, filenameCompare, hlen, filenameCompareFrom]

theorem offsets_of_continues (h : Continues page limit d) :
    offsets page limit (n + 1) d = d :: offsets page limit n (follow page d) := by
  rw [offsets, if_pos h]

theorem offsets_of_not_continues (h : ¬Continues page limit d) :
    offsets page limit (n + 1) d = [d] := by
  rw [offsets, if_neg h]

section

variable (hbase : base % sectorSize = 0)
include hbase

variable (hwrap : base + sectorSize ≤ 2 ^ 32)
include hwrap

variable (hsecnum : secnum % 2 ^ 32 = secnum)
include hsecnum

theorem scanFrom_continues
    (h : Continues page (min sectorSize (numBytes - base)) d) :
    scanFrom v numBytes a aLen (n + 1) ((base + follow page d) % 2 ^ 32) secnum page
        (follow page d) =
      inspect a aLen page (follow page d) (scanFrom v numBytes a aLen n
        ((base + follow page (follow page d)) % 2 ^ 32) secnum page
        (follow page (follow page d))) := by
  obtain ⟨-, hlt, hlimit⟩ := h
  rw [Nat.mod_eq_of_lt (by omega), scanFrom_mid hbase (by omega) (by omega) (by omega), hsecnum]

theorem sector_bounded {e : Nat}
    (hm : sectorSize ≤ m + d) (hd : d < sectorSize)
    (hin : ∀ x ∈ offsets page (min sectorSize (numBytes - base)) m d, RecordInside page x)
    (hrest : let last := (offsets page (min sectorSize (numBytes - base)) m d).getLastD e
      Nameless page last ∨ ∃ n, (scanFrom v numBytes a aLen n
        ((base + follow page last) % 2 ^ 32) secnum page (follow page last)).Bounded left) :
    ∃ n, (inspect a aLen page d (scanFrom v numBytes a aLen n ((base + follow page d) % 2 ^ 32)
      secnum page (follow page d))).Bounded left := by
  induction m generalizing d e with
  | zero => omega
  | succ m ih =>
    by_cases hcont : Continues page (min sectorSize (numBytes - base)) d
    · rw [offsets_of_continues hcont] at hin hrest
      obtain ⟨n, hn⟩ := ih (d := follow page d) (by have := hcont.2.1; omega)
        (by have := hcont.2.2; omega) (fun x hx => hin x (mem_cons_of_mem _ hx))
        (by simpa only [getLastD_cons] using hrest)
      refine ⟨n + 1, inspect_bounded.mpr ⟨hin d (by simp), .inr ?_⟩⟩
      rwa [scanFrom_continues hbase hwrap hsecnum hcont]
    · rw [offsets_of_not_continues hcont] at hin hrest
      have hin := hin d (by simp)
      obtain hnameless | ⟨n, hn⟩ := hrest
      · exact ⟨0, inspect_bounded.mpr ⟨hin, .inl (nameless_matches hnameless)⟩⟩
      · exact ⟨n, inspect_bounded.mpr ⟨hin, .inr hn⟩⟩

theorem offsets_inside {e : Nat}
    (hnames : ∀ page d, Matches a aLen page d → Nameless page d)
    (hm : sectorSize ≤ m + d) (hd : d < sectorSize)
    (h : (inspect a aLen page d (scanFrom v numBytes a aLen n ((base + follow page d) % 2 ^ 32)
      secnum page (follow page d))).Bounded left) :
    (∀ x ∈ offsets page (min sectorSize (numBytes - base)) m d, RecordInside page x) ∧
      let last := (offsets page (min sectorSize (numBytes - base)) m d).getLastD e
      Nameless page last ∨ ∃ n, (scanFrom v numBytes a aLen n
        ((base + follow page last) % 2 ^ 32) secnum page (follow page last)).Bounded left := by
  induction m generalizing d e n with
  | zero => omega
  | succ m ih =>
    obtain ⟨hin, h⟩ := inspect_bounded.mp h
    by_cases hcont : Continues page (min sectorSize (numBytes - base)) d
    · have hnext := h.resolve_left fun hmatch => hcont.1 (hnames _ _ hmatch)
      rw [offsets_of_continues hcont]
      cases n with
      | zero =>
        obtain ⟨x, hx⟩ := hnext.returns
        cases hx
      | succ n =>
        rw [scanFrom_continues hbase hwrap hsecnum hcont] at hnext
        obtain ⟨hall, hrest⟩ := ih (e := d) (by have := hcont.2.1; omega)
          (by have := hcont.2.2; omega) hnext
        refine ⟨by simpa using ⟨hin, hall⟩, ?_⟩
        simpa only [getLastD_cons] using hrest
    · rw [offsets_of_not_continues hcont]
      refine ⟨by simpa using hin, ?_⟩
      exact h.imp (hnames _ _) fun hnext => ⟨n, hnext⟩

end

theorem last_spec {e : Nat} (hm : sectorSize ≤ m + d) (hd : d < sectorSize)
    (hlimit : limit ≤ sectorSize) :
    let last := (offsets page limit m d).getLastD e
    last ∈ offsets page limit m d ∧ last < sectorSize ∧ ¬Continues page limit last := by
  induction m generalizing d e with
  | zero => omega
  | succ m ih =>
    by_cases hcont : Continues page limit d
    · rw [offsets_of_continues hcont, getLastD_cons]
      obtain ⟨hmem, hlast⟩ := ih (d := follow page d) (e := d) (by have := hcont.2.1; omega)
        (by have := hcont.2.2; omega)
      exact ⟨mem_cons_of_mem _ hmem, hlast⟩
    · rw [offsets_of_not_continues hcont]
      exact ⟨by simp, hd, hcont⟩

theorem sector_last (sector : Page) (numBytes : Nat) :
    let last := (offsets sector (min sectorSize numBytes) sectorSize 0).getLastD 0
    last ∈ offsets sector (min sectorSize numBytes) sectorSize 0 ∧ last < sectorSize ∧
      ¬Continues sector (min sectorSize numBytes) last :=
  last_spec le_rfl (by decide) (Nat.min_le_left _ _)

theorem next_start (hbase : base % sectorSize = 0) (hwrap : base + sectorSize ≤ 2 ^ 32)
    (hin : RecordInside page d) (hd : d < sectorSize) (hname : ¬Nameless page d)
    (h : ¬Continues page (min sectorSize (numBytes - base)) d) :
    (base + follow page d) % 2 ^ 32 % sectorSize = 0 ∨
      numBytes ≤ (base + follow page d) % 2 ^ 32 := by
  have hle := follow_le hin
  have hge : d ≤ follow page d := le_follow
  have hmod : (base + follow page d) % 2 ^ 32 % sectorSize = follow page d % sectorSize := by
    rw [Nat.mod_mod_of_dvd _ (by decide), Nat.add_mod, hbase, Nat.zero_add, Nat.mod_mod]
  obtain hstill | hmoved := hge.eq_or_lt
  · -- only the first byte of a sector is left without a step
    have hzero : d = 0 := by
      by_contra hpos
      exact (lt_follow (Nat.pos_of_ne_zero hpos) hd).ne hstill
    rw [hmod, ← hstill, hzero]
    exact .inl rfl
  · have hlimit : min sectorSize (numBytes - base) ≤ follow page d := by
      by_contra hlt
      exact h ⟨hname, hmoved, by omega⟩
    obtain hfull | hpart := hle.eq_or_lt
    · rw [hmod, hfull, Nat.mod_self]
      exact .inl rfl
    · exact .inr (by omega)

theorem done_bounded (h : numBytes ≤ count) :
    (scanFrom v numBytes a aLen 1 count secnum page d).Bounded left := by
  rw [scanFrom_done h]
  exact ⟨⟨_, rfl⟩, Nat.zero_le _, by simp, by simp⟩

theorem add_sectorSize_le (hcount : count % sectorSize = 0) (hlt : count < 2 ^ 32) :
    count + sectorSize ≤ 2 ^ 32 := by
  unfold sectorSize at *
  omega

theorem Volume.Laid.bounded (h : v.Laid numBytes left count secnum)
    (hcount : count % sectorSize = 0 ∨ numBytes ≤ count) (hwrap : count < 2 ^ 32) :
    ∃ n, (scanFrom v numBytes a aLen n count secnum page d).Bounded left := by
  induction left generalizing count secnum page d with
  | zero => exact ⟨1, done_bounded h⟩
  | succ left ih =>
    obtain hdone | hlt := le_or_gt numBytes count
    · exact ⟨1, done_bounded hdone⟩
    · have hbase := hcount.resolve_right (by omega)
      have hle := add_sectorSize_le hbase hwrap
      obtain ⟨sector, hsec, hin, hrest⟩ := h.resolve_left (by omega)
      obtain ⟨hmem, hlast, hends⟩ := sector_last sector (numBytes - count)
      have hnext : ∃ n, (inspect a aLen sector 0 (scanFrom v numBytes a aLen n
          ((count + follow sector 0) % 2 ^ 32) ((secnum + 1) % 2 ^ 32) sector
          (follow sector 0))).Bounded left := by
        apply sector_bounded hbase hle (Nat.mod_mod _ _) (m := sectorSize) (e := 0) (by omega)
          (by decide) hin
        by_cases hname : Nameless sector
            ((offsets sector (min sectorSize (numBytes - count)) sectorSize 0).getLastD 0)
        · exact .inl hname
        · exact .inr (ih (hrest.resolve_left hname)
            (next_start hbase hle (hin _ hmem) hlast hname hends) (Nat.mod_lt _ (by decide)))
      obtain ⟨n, hn⟩ := hnext
      exact ⟨n + 1, by rw [scanFrom_start hbase hlt hsec, addReads_bounded]; exact hn⟩

theorem bounded_start (hbase : base % sectorSize = 0) (hlt : base < numBytes)
    (h : (scanFrom v numBytes a aLen n base secnum page d).Bounded left) :
    ∃ n sector, v.sectors[secnum]? = some sector ∧
      ((inspect a aLen sector 0 (scanFrom v numBytes a aLen n ((base + follow sector 0) % 2 ^ 32)
        ((secnum + 1) % 2 ^ 32) sector (follow sector 0))).addReads 1).Bounded left := by
  obtain ⟨x, hx⟩ := h.returns
  cases n with
  | zero => cases hx
  | succ n =>
    cases hsec : v.sectors[secnum]? with
    | none => simp [scanFrom, hlt, nextSector, hbase, hsec] at hx
    | some sector =>
      rw [scanFrom_start hbase hlt hsec] at h
      exact ⟨n, sector, rfl, h⟩

theorem laid_of_bounded (hnames : ∀ page d, Matches a aLen page d → Nameless page d)
    (hcount : count % sectorSize = 0 ∨ numBytes ≤ count) (hwrap : count < 2 ^ 32)
    (h : (scanFrom v numBytes a aLen n count secnum page d).Bounded left) :
    v.Laid numBytes left count secnum := by
  induction left generalizing count secnum page d n with
  | zero =>
    by_contra hlt
    have hlt : count < numBytes := Nat.lt_of_not_le hlt
    obtain ⟨n, sector, -, hstart⟩ := bounded_start (hcount.resolve_right (by omega)) hlt h
    exact absurd hstart.reads (Nat.not_succ_le_zero _)
  | succ left ih =>
    by_cases hlt : count < numBytes
    · have hbase := hcount.resolve_right (by omega)
      have hle := add_sectorSize_le hbase hwrap
      obtain ⟨n, sector, hsec, hstart⟩ := bounded_start hbase hlt h
      obtain ⟨hin, hrest⟩ := offsets_inside (m := sectorSize) (e := 0) hbase hle
        (Nat.mod_mod _ _) hnames (by omega) (by decide) (addReads_bounded.mp hstart)
      obtain ⟨hmem, hlast, hends⟩ := sector_last sector (numBytes - count)
      refine .inr ⟨sector, hsec, hin, ?_⟩
      by_cases hname : Nameless sector
          ((offsets sector (min sectorSize (numBytes - count)) sectorSize 0).getLastD 0)
      · exact .inl hname
      · obtain ⟨n, hn⟩ := hrest.resolve_left hname
        exact .inr (ih (next_start hbase hle (hin _ hmem) hlast hname hends)
          (Nat.mod_lt _ (by decide)) hn)
    · exact .inl (Nat.le_of_not_lt hlt)

def longName : Name := List.replicate 256 65

theorem longName_ne_nil : longName ≠ [] := by
  exact cons_ne_nil _ _

theorem nameless_of_matches (h : Matches (fun i => longName.getD i 0) longName.length page d) :
    Nameless page d := by
  by_contra hname
  have hlen : (page (d + 32)).toNat ≠ 0 := fun hzero => hname (UInt8.toNat_inj.mp hzero)
  have hlt := (page (d + 32)).toNat_lt
  have hsize : (record page d).identifier.length = (page (d + 32)).toNat := by simp [record]
  have haccepts : Accepts longName (record page d).identifier := by
    rw [← filenameCompare_eq_zero (a := fun i => longName.getD i 0)
      (b := fun i => page (d + 33 + i)) longName_ne_nil (ne_nil_of_length_pos (by omega))
      (fun j hj => by simp [hj]) (fun j hj => by simp [record]), hsize]
    exact h
  obtain ⟨rest, hrest, hhead⟩ := haccepts
  rw [excess] at hrest
  split at hrest
  · rename_i hprefix
    have hle := hprefix.length_le
    simp only [upper, length_map, hsize, longName, length_replicate] at hle
    omega
  · split at hrest
    · obtain ⟨k, hk⟩ : ∃ k, 256 - (page (d + 32)).toNat = k + 1 :=
        ⟨255 - (page (d + 32)).toNat, by omega⟩
      have hrest : rest = 65 :: replicate k 65 := by
        rw [Option.mem_some_iff] at hrest
        rw [← hrest, hsize, longName, drop_replicate, hk, replicate_succ]
      simp [hrest, dot, semicolon] at hhead
    · cases hrest

theorem follow_zero (h : page 0 = 0) : follow page 0 = 0 := by
  rw [follow, h, show sectorSize = 2047 + 1 from rfl, skipZeroes, if_neg (by simp)]
  rfl

def emptySector : Page := fun i => if i = 32 then 1 else 0

theorem zero_length_reads_on :
    ¬∀ pathname len, ∃ n, (scanDir ⟨[emptySector, emptySector], ⟨0, 2048⟩⟩ ⟨0, 2048⟩ pathname len
      n).Bounded (sectorCount 2048) := by
  intro h
  obtain ⟨n, hn⟩ := h longName longName.length
  have hlaid := laid_of_bounded (fun _ _ => nameless_of_matches) (.inl rfl) (by decide) hn
  obtain hdone | ⟨page, hpage, -, hrest⟩ := hlaid
  · simp at hdone
  · obtain rfl : emptySector = page := Option.some.inj hpage
    have hstarts : offsets emptySector (min sectorSize (2048 - 0)) sectorSize 0 = [0] :=
      offsets_of_not_continues (n := 2047) fun hcontinues =>
        absurd hcontinues.2.1 (by rw [follow_zero rfl]; omega)
    rw [hstarts] at hrest
    obtain hname | hnext := hrest
    · exact absurd hname (by decide)
    · rw [List.getLastD_cons, List.getLastD_nil, follow_zero rfl] at hnext
      exact absurd hnext (by simp [Volume.Laid])

/-- The search ends within the sectors of the directory and the records of each, for any name, if
and only if the directory is laid out for it. -/
theorem search_dir_bounded_iff (v : Volume) (x : Extent) :
    (∀ pathname len, ∃ n, (scanDir v x pathname len n).Bounded (sectorCount x.dataLength)) ↔
      x.Laid v := by
  constructor
  · intro h
    obtain ⟨n, hn⟩ := h longName longName.length
    exact laid_of_bounded (fun _ _ => nameless_of_matches) (.inl rfl) (by decide) hn
  · intro h pathname len
    exact Volume.Laid.bounded h (.inl rfl) (by decide)

end Quest.Fs.Iso9660
