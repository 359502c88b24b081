import Quest.Drivers.Umsc

/-! The commands to USB mass storage in `drivers/usb/umsc.c`, and what reaches the caller of
`umsc_read_sector` of their outcomes. -/
namespace Quest.Drivers.Umsc

structure Cbw where
  dCBWSignature : BitVec 32
  dCBWDataTransferLength : Nat
  direction : Bool
  bCBWCBLength : Nat
  cbwcb : List (BitVec 8)
  deriving DecidableEq, Repr

structure Csw where
  dCSWSignature : BitVec 32
  dCSWTag : BitVec 32
  dCSWDataResidue : BitVec 32
  bCSWStatus : BitVec 8
  deriving DecidableEq, Repr

inductive Bulk where
  | command (cbw : Cbw)
  | data (dir : Bool) (dataLen : Nat)
  | status
  deriving DecidableEq, Repr

structure Transferred where
  status : Int
  actLen : Nat
  deriving DecidableEq, Repr

structure Outcomes where
  command : Transferred
  data : Transferred
  status : Transferred
  csw : Csw
  deriving DecidableEq, Repr

def umscBulkScsi (cmd : List (BitVec 8)) (dir : Bool) (dataLen : Nat) (out : Outcomes) :
    Int × List Bulk :=
  let sent := [Bulk.command ⟨0x43425355, dataLen, dir, 16, cmd⟩]
  if 0 < dataLen then
    let sent := sent ++ [.data dir dataLen]
    if out.data.status ≠ 0 then (out.data.status, sent)
    else (out.status.status, sent ++ [.status])
  else (out.status.status, sent ++ [.status])

def readCommand (lba : BitVec 32) : List (BitVec 8) :=
  [0x28, 0, (lba >>> 0x18).setWidth 8, (lba >>> 0x10).setWidth 8, (lba >>> 0x08).setWidth 8,
    lba.setWidth 8, 0, 0, 1, 0, 0, 0, 0, 0, 0, 0]

/-- `_umsc_read_sector` -/
def readSectorNow (devs : Devices) (r : Request) (out : Outcomes) : Int :=
  if devs.num ≤ r.devIndex then 0
  else if r.len < devs.sectorSize r.devIndex then 0
  else if (umscBulkScsi (readCommand (.ofNat 32 r.lba)) true (devs.sectorSize r.devIndex) out).1 ≠ 0 then 0
  else devs.sectorSize r.devIndex

/-- `umsc_read_sector` without the thread: `State` has the way through the thread. -/
def umscReadSector (devs : Devices) (r : Request) (out : Outcomes) : Int :=
  if devs.Accepts r then readSectorNow devs r out else 0

/-- The command block was sent, all data was transferred and the device says that the command
passed. -/
structure Outcomes.Passed (out : Outcomes) (dataLen : Nat) : Prop where
  sent : out.command = ⟨0, 0x1F⟩
  data : 0 < dataLen → out.data = ⟨0, dataLen⟩
  signature : out.csw.dCSWSignature = 0x53425355
  residue : out.csw.dCSWDataResidue = 0
  status : out.csw.bCSWStatus = 0

/-- The transfer of the data or of the status wrapper fails as a whole. -/
def Outcomes.Breaks (out : Outcomes) (dataLen : Nat) : Prop :=
  (0 < dataLen ∧ out.data.status ≠ 0) ∨ out.status.status ≠ 0

def Completed (devs : Devices) (r : Request) (out : Outcomes) (res : Int) : Prop :=
  res = devs.sectorSize r.devIndex →
    devs.sectorSize r.devIndex = 0 ∨ out.Passed (devs.sectorSize r.devIndex)

def Visible (devs : Devices) (r : Request) (out : Outcomes) : Prop :=
  devs.Accepts r → devs.sectorSize r.devIndex = 0 ∨
    out.Breaks (devs.sectorSize r.devIndex) ∨ out.Passed (devs.sectorSize r.devIndex)

variable {cmd : List (BitVec 8)} {dir : Bool} {dataLen : Nat} {out : Outcomes} {devs : Devices}
  {r : Request}

theorem umscBulkScsi_eq_zero_iff :
    (umscBulkScsi cmd dir dataLen out).1 = 0 ↔ ¬out.Breaks dataLen := by
  rw [umscBulkScsi, Outcomes.Breaks]
  split
  · rename_i hpos
    split
    · rename_i hdata
      exact iff_of_false hdata (not_not.mpr (.inl ⟨hpos, hdata⟩))
    · rename_i hdata
      simp only [hdata, and_false, false_or, not_not]
  · rename_i hnone
    simp only [hnone, false_and, false_or, not_not]

theorem readSectorNow_eq_sectorSize_iff :
    readSectorNow devs r out = devs.sectorSize r.devIndex ↔
      devs.sectorSize r.devIndex = 0 ∨
        devs.Accepts r ∧ ¬out.Breaks (devs.sectorSize r.devIndex) := by
  rw [readSectorNow, Devices.Accepts]
  split
  · rename_i hnum
    rw [eq_comm, Int.natCast_eq_zero]
    exact ⟨.inl, Or.rec id fun h => absurd h.1.1 (not_lt.mpr hnum)⟩
  rename_i hnum
  split
  · rename_i hlen
    rw [eq_comm, Int.natCast_eq_zero]
    exact ⟨.inl, Or.rec id fun h => absurd h.1.2 (not_le.mpr hlen)⟩
  rename_i hlen
  split
  · rename_i hfails
    rw [eq_comm, Int.natCast_eq_zero]
    exact ⟨.inl, Or.rec id fun h => absurd (umscBulkScsi_eq_zero_iff.mpr h.2) hfails⟩
  · rename_i hzero
    rw [not_not, umscBulkScsi_eq_zero_iff] at hzero
    exact iff_of_true rfl (.inr ⟨⟨not_le.mp hnum, not_lt.mp hlen⟩, hzero⟩)

theorem completed_iff :
    Completed devs r out (readSectorNow devs r out) ↔ Visible devs r out := by
  rw [Completed, Visible, readSectorNow_eq_sectorSize_iff]
  tauto

/-- A failure reaches the callers of `umsc_bulk_scsi` and `umsc_read_sector` if and only if the
data or the status wrapper is not transferred. -/
theorem failure_reported_iff (devs : Devices) :
    (∀ cmd dir dataLen (out : Outcomes),
      ((umscBulkScsi cmd dir dataLen out).1 = 0 → out.Passed dataLen) ↔
        (out.Breaks dataLen ∨ out.Passed dataLen)) ∧
    (∀ r out, Completed devs r out (umscReadSector devs r out) ↔ Visible devs r out) ∧
    ∀ (τ σ : Type) [DecidableEq τ] (outs : Request → Outcomes) (sector : σ) (s : State τ σ),
      Lib.Reach.Reaches (State.step devs)
        (State.Patient fun r reply => reply.res = readSectorNow devs r (outs r))
        (State.init sector) s →
      ∀ x ∈ s.returned, Completed devs x.1 (outs x.1) x.2.res ↔ Visible devs x.1 (outs x.1) := by
  refine ⟨fun cmd dir dataLen out => ?_, fun r out => ?_, ?_⟩
  · rw [umscBulkScsi_eq_zero_iff, or_iff_not_imp_left]
  · rw [umscReadSector]
    split
    · exact completed_iff
    · rename_i hrefused
      rw [Completed, Visible, eq_comm, Int.natCast_eq_zero]
      exact iff_of_true .inl fun haccepts => absurd haccepts hrefused
  · intro τ σ _ outs sector s hreach x hx
    rw [(State.isolated_of_reaches hreach).returned x hx]
    exact completed_iff

theorem short_read_returns_sectorSize :
    let out : Outcomes := ⟨⟨0, 0x1F⟩, ⟨0, 13⟩, ⟨0, 0x0D⟩, ⟨0x53425355, 0, 499, 1⟩⟩
    umscReadSector ⟨1, fun _ => 512⟩ ⟨0, 5, 512⟩ out = 512 ∧
      (umscBulkScsi (readCommand 5) true 512 out).1 = 0 ∧ ¬out.Passed 512 :=
  ⟨by decide, by decide, fun h => absurd h.status (by decide)⟩

end Quest.Drivers.Umsc
