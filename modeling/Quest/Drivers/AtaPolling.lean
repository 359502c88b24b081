import Quest.Basic

/-! The port accesses of `ata_drive_read_sector` and `ata_drive_write_sector` in
`drivers/ata/ata.c`. -/
namespace Quest.Drivers.AtaPolling

abbrev Port := BitVec 32

inductive Access where
  | grab
  | release
  | schedule
  | pollForIrq
  | inb (port : Port)
  | outb (value : BitVec 8) (port : Port)
  | insw (port : Port) (count : Nat)
  | outw (word : BitVec 16) (port : Port)
  deriving DecidableEq, Repr

def ataData (bus : Port) : Port := bus
def ataCommand (bus : Port) : Port := bus + 7
def ataDcr (bus : Port) : Port := bus + 0x206

def sendCommand (bus : Port) (drive lba : BitVec 32) (command : BitVec 8) : List Access :=
  [.outb ((drive ||| 0x40 ||| ((lba >>> 24) &&& 0x0F)).setWidth 8) (bus + 6)] ++
  List.replicate 4 (.inb (ataDcr bus)) ++
  [.outb 1 (bus + 2), .outb (lba.setWidth 8) (bus + 3), .outb ((lba >>> 8).setWidth 8) (bus + 4),
    .outb ((lba >>> 16).setWidth 8) (bus + 5), .outb command (ataCommand bus)]

/-- `while (!(status = inb (ATA_COMMAND (bus)) & 0x8) && !(status & 0x1))`, where the mask binds
closer than the assignment.  `values n` is what read `n` of the status register returns; the
result is `status` and the number of reads. -/
def pollStatus (values : Nat → BitVec 8) : Nat → Nat → Except Fault (BitVec 8 × Nat)
  | 0, _ => .error .diverges
  | fuel + 1, n =>
      let status := values n &&& 0x8
      if status = 0 ∧ status &&& 0x1 = 0 then pollStatus values fuel (n + 1)
      else .ok (status, n + 1)

/-- What the two functions share, from the loop on: the result and all accesses. -/
def finishSector (bus : Port) (values : Nat → BitVec 8) (start data : List Access) (fuel : Nat) :
    Except Fault (Int × List Access) := do
  let (status, reads) ← pollStatus values fuel 0
  let polled := start ++ List.replicate reads (.inb (ataCommand bus))
  if status &&& 0x1 ≠ 0 then .ok (-1, polled ++ [.release])
  else .ok (512, polled ++ data ++ [.release])

def ataDriveReadSector (schedEnabled : Bool) (bus : Port) (drive lba : BitVec 32)
    (values : Nat → BitVec 8) : Nat → Except Fault (Int × List Access) :=
  finishSector bus values
    (.grab :: sendCommand bus drive lba 0x20 ++ [if schedEnabled then .schedule else .pollForIrq])
    [.insw (ataData bus) 256]

/-- There is no `ata_grab` here. -/
def ataDriveWriteSector (bus : Port) (drive lba : BitVec 32) (buffer : Nat → BitVec 16)
    (values : Nat → BitVec 8) : Nat → Except Fault (Int × List Access) :=
  finishSector bus values (sendCommand bus drive lba 0x30)
    ((List.range 256).map (fun i => .outw (buffer i) (ataData bus)) ++ [.outb 0xE7 (ataCommand bus)])

def Access.words : Access → Nat
  | .insw _ count => count
  | .outw _ _ => 1
  | _ => 0

def transferred (accesses : List Access) : Nat := (accesses.map Access.words).sum

/-- The call ends after `n + 1` reads of the status register, the last of which gives `value`, and
reports an error or transfers a sector. -/
structure Detects (bus : Port) (value : BitVec 8) (n : Nat) (ret : Int) (accesses : List Access) :
    Prop where
  polls : accesses.count (.inb (ataCommand bus)) = n + 1
  error : value &&& 0x1 ≠ 0 → ret = -1 ∧ transferred accesses = 0
  success : value &&& 0x1 = 0 → ret = 512 ∧ transferred accesses = 256
  releases : accesses.getLast? = some .release

variable {values : Nat → BitVec 8} {bus : Port} {n : Nat}

theorem pollStatus_spec {fuel k reads : Nat} {status : BitVec 8}
    (h : pollStatus values fuel k = .ok (status, reads)) :
    status = 0x8 ∧ ∃ m, reads = m + 1 ∧ values m &&& 0x8 ≠ 0 := by
  have hmask : ∀ b : BitVec 8, b &&& 0x8 ≠ 0 → b &&& 0x8 = 0x8 := by decide +kernel
  have hclear : ∀ b : BitVec 8, b &&& 0x8 = 0 → b &&& 0x8 &&& 0x1 = 0 := by decide +kernel
  induction fuel generalizing k with
  | zero => cases h
  | succ fuel ih =>
    rw [pollStatus] at h
    split at h
    · exact ih h
    · rename_i hstop
      cases h
      have hset : values k &&& 0x8 ≠ 0 := fun hz => hstop ⟨hz, hclear _ hz⟩
      exact ⟨hmask _ hset, k, rfl, hset⟩

theorem pollStatus_first {k : Nat} (hbefore : ∀ j < n, values j &&& 0x8 = 0)
    (hset : values n &&& 0x8 = 0x8) (hk : k ≤ n) :
    pollStatus values (n - k + 1) k = .ok (0x8, n + 1) := by
  rw [pollStatus]
  rcases Nat.lt_or_eq_of_le hk with hlt | rfl
  · have hclear := hbefore k hlt
    rw [if_pos ⟨hclear, by rw [hclear]; rfl⟩, ← Nat.sub_add_cancel (Nat.sub_pos_of_lt hlt),
      Nat.sub_sub]
    exact pollStatus_first hbefore hset hlt
  · rw [hset]
    rfl
termination_by n - k

theorem transferred_append (xs ys : List Access) :
    transferred (xs ++ ys) = transferred xs + transferred ys := by
  simp [transferred]

theorem transferred_outw (buffer : Nat → BitVec 16) (port : Port) (places : List Nat) :
    transferred (places.map fun i => .outw (buffer i) port) = places.length := by
  induction places with
  | nil => rfl
  | cons i places ih =>
    rw [List.map_cons, ← List.singleton_append, transferred_append, ih]
    exact Nat.add_comm 1 _

/-- The loop masks DRQ out of the value before it looks for ERR. -/
theorem finishSector_detects_iff {start data : List Access}
    (hbefore : ∀ k < n, values k &&& 0x9 = 0) (hstart : start.count (.inb (ataCommand bus)) = 0)
    (hdata : data.count (.inb (ataCommand bus)) = 0) (hidle : transferred start = 0)
    (hwords : transferred data = 256) :
    (∃ fuel ret accesses, finishSector bus values start data fuel = .ok (ret, accesses) ∧
      Detects bus (values n) n ret accesses) ↔ values n &&& 0x9 = 0x8 := by
  have hok : ∀ b : BitVec 8, b &&& 0x8 ≠ 0 ∧ b &&& 0x1 = 0 ↔ b &&& 0x9 = 0x8 := by decide +kernel
  have hdrq : ∀ b : BitVec 8, b &&& 0x9 = 0x8 → b &&& 0x8 = 0x8 := by decide +kernel
  have hquiet : ∀ b : BitVec 8, b &&& 0x9 = 0 → b &&& 0x8 = 0 := by decide +kernel
  have hpolls (m : Nat) : (start ++ List.replicate m (Access.inb (ataCommand bus)) ++ data ++
      [Access.release]).count (.inb (ataCommand bus)) = m := by
    simp [List.count_append, hstart, hdata]
  have hsum (m : Nat) : transferred (start ++ List.replicate m (.inb (ataCommand bus)) ++ data ++
      [.release]) = 256 := by
    rw [transferred_append, transferred_append, transferred_append, hidle, hwords]
    simp [transferred, Access.words]
  constructor
  · rintro ⟨fuel, ret, accesses, hrun, hdetects⟩
    obtain ⟨⟨status, reads⟩, hpoll, hrest⟩ := bind_eq_ok.mp hrun
    obtain ⟨rfl, m, rfl, hset⟩ := pollStatus_spec hpoll
    dsimp only at hrest
    rw [if_neg (by decide)] at hrest
    cases hrest
    obtain rfl : m = n := Nat.succ.inj ((hpolls (m + 1)).symm.trans hdetects.polls)
    refine (hok _).mp ⟨hset, ?_⟩
    by_contra herr
    exact absurd (hdetects.error herr).1 (by decide)
  · intro hvalue
    have hrun : finishSector bus values start data (n + 1) = .ok (512, start ++
        List.replicate (n + 1) (.inb (ataCommand bus)) ++ data ++ [.release]) := by
      rw [finishSector]
      refine bind_eq_ok.mpr ⟨_, pollStatus_first (fun j hj => hquiet _ (hbefore j hj))
        (hdrq _ hvalue) (Nat.zero_le n), ?_⟩
      exact if_neg (by decide)
    refine ⟨n + 1, _, _, hrun, hpolls _, ?_, fun _ => ⟨rfl, hsum _⟩, List.getLast?_concat⟩
    exact fun herr => absurd ((hok _).mpr hvalue).2 herr

theorem count_sendCommand (drive lba : BitVec 32) (command : BitVec 8) :
    (sendCommand bus drive lba command).count (.inb (ataCommand bus)) = 0 := by
  have hport : ataDcr bus ≠ ataCommand bus := by
    intro h
    exact absurd (BitVec.add_right_inj _ |>.mp h) (by decide)
  simp [sendCommand, hport]

/-- A sector is read or written as the status register demands if and only if the first value
that has DRQ or ERR has DRQ and not ERR. -/
theorem sector_detects_iff (values : Nat → BitVec 8) (heventually : ∃ n, values n &&& 0x9 ≠ 0)
    (schedEnabled : Bool) (bus : Port) (drive lba : BitVec 32) (buffer : Nat → BitVec 16) :
    ((∃ fuel ret accesses,
        ataDriveReadSector schedEnabled bus drive lba values fuel = .ok (ret, accesses) ∧
        Detects bus (values (Nat.find heventually)) (Nat.find heventually) ret accesses) ↔
      values (Nat.find heventually) &&& 0x9 = 0x8) ∧
    ((∃ fuel ret accesses,
        ataDriveWriteSector bus drive lba buffer values fuel = .ok (ret, accesses) ∧
        Detects bus (values (Nat.find heventually)) (Nat.find heventually) ret accesses) ↔
      values (Nat.find heventually) &&& 0x9 = 0x8) := by
  have hbefore (k : Nat) (hk : k < Nat.find heventually) : values k &&& 0x9 = 0 :=
    not_not.mp (Nat.find_min heventually hk)
  constructor
  · apply finishSector_detects_iff hbefore
    · rw [List.count_append, List.count_cons, count_sendCommand]
      cases schedEnabled <;> rfl
    · rfl
    · cases schedEnabled <;> rfl
    · rfl
  · apply finishSector_detects_iff hbefore (count_sendCommand ..)
    · rw [List.count_append, List.count_eq_zero.mpr (by simp)]
      rfl
    · rfl
    · rw [transferred_append, transferred_outw, List.length_range]
      rfl

def slowDrive (n : Nat) : BitVec 8 := if n < 2 then 0x80 else 0x58

theorem sector_detects_iff_slow :
    ∃ fuel ret accesses, ataDriveReadSector true 0x1F0 0xA0 77 slowDrive fuel = .ok (ret, accesses) ∧
      Detects 0x1F0 0x58 2 ret accesses := by
  have heventually : ∃ n, slowDrive n &&& 0x9 ≠ 0 := ⟨2, by decide⟩
  have hfind : Nat.find heventually = 2 := (Nat.find_eq_iff _).mpr ⟨by decide, by decide⟩
  have htheorem := (sector_detects_iff slowDrive heventually true 0x1F0 0xA0 77 fun _ => 0).1
  rw [hfind] at htheorem
  exact htheorem.mpr (by decide)

/-- ERR is set together with DRQ: the data is transferred and 512 returned.  With ERR alone the
loop reads on. -/
theorem error_is_missed :
    (∃ accesses, ataDriveReadSector true 0x1F0 0xA0 77 (fun _ => 0x59) 1 = .ok (512, accesses) ∧
      transferred accesses = 256) ∧
    ∀ fuel, ataDriveReadSector true 0x1F0 0xA0 77 (fun _ => 0x51) fuel = .error .diverges := by
  refine ⟨⟨_, rfl, by decide⟩, fun fuel => ?_⟩
  have hloop (k : Nat) : pollStatus (fun _ => 0x51) fuel k = .error .diverges := by
    induction fuel generalizing k with
    | zero => rfl
    | succ fuel ih =>
      rw [pollStatus]
      exact ih (k + 1)
  rw [ataDriveReadSector, finishSector, hloop]
  rfl

end Quest.Drivers.AtaPolling
