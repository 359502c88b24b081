import Quest.Basic
import Quest.Lib.Loop

/-! The walks over the descriptors that a USB device sends: `uhci_enumerate` in
`drivers/usb/uhci_hcd.c` and `uvc_device_cfg` in `drivers/usb/uvc.c`.  A buffer is its bytes and
its size; places in it are offsets. -/
namespace Quest.Drivers.UsbDescriptors

open Quest.Lib Loop

def word (buffer : Nat → UInt8) (p : Nat) : Nat :=
  (buffer p).toNat + 256 * (buffer (p + 1)).toNat

/-- The device's answers about a configuration while its descriptors are read: the length in the
first one, and the bytes of the second one, at most that many. -/
structure Answer where
  wTotalLength : BitVec 16
  sent : Nat
  data : Nat → UInt8
  fails : Bool
  sent_le : sent ≤ wTotalLength.toNat

/-- `sizes` are the lengths that the device gave before, for the allocation. -/
structure Device where
  sizes : List (BitVec 16)
  answer : Nat → Option Answer

def Device.totalLength (dev : Device) : Nat :=
  (dev.sizes.map BitVec.toNat).sum

def Answer.write (a : Answer) (ptr : Nat) (raw : Nat → UInt8) : Nat → UInt8 :=
  fun i => if ptr ≤ i ∧ i < ptr + a.sent then a.data (i - ptr) else raw i

inductive Enumeration where
  | reading (c ptr : Nat) (raw : Nat → UInt8)
  | configuration (c ptr : Nat) (raw : Nat → UInt8)
  | interfaces (c cfgd i ptr : Nat) (raw : Nat → UInt8)

def ifExtent (type : UInt8) : Nat := if type = 0x04 then 8 else 2

/-- A round of the loops of `uhci_enumerate` over `info->raw`, which has `size` bytes. -/
def enumerateRound (dev : Device) (size : Nat) : Enumeration → Except Fault (Option Enumeration)
  | .reading c ptr raw =>
      if dev.sizes.length ≤ c then .ok (some (.configuration 0 0 raw))
      else match dev.answer c with
        | none => .ok none
        | some a =>
            if 0 < a.sent ∧ size < ptr + a.sent then .error .outOfBounds
            else if a.fails then .ok none
            else if size < ptr + 5 then .error .outOfBounds
            else .ok (some (.reading (c + 1) (ptr + word (a.write ptr raw) (ptr + 2))
              (a.write ptr raw)))
  | .configuration c ptr raw =>
      if dev.sizes.length ≤ c then .ok none
      else if size < ptr + 5 then .error .outOfBounds
      else .ok (some (.interfaces c ptr 0 (ptr + (raw ptr).toNat) raw))
  | .interfaces c cfgd i ptr raw =>
      if (raw (cfgd + 4)).toNat ≤ i then
        .ok (some (.configuration (c + 1) (cfgd + word raw (cfgd + 2)) raw))
      else if size < ptr + ifExtent (raw (ptr + 1)) then .error .outOfBounds
      else .ok (some (.interfaces c cfgd (if raw (ptr + 1) = 0x04 then i + 1 else i)
        (ptr + (raw ptr).toNat) raw))

/-- What is read and written next is inside of the buffer, and the descriptor leads on. -/
def Enumeration.Sound (dev : Device) (size : Nat) : Enumeration → Prop
  | .reading c ptr _ => c < dev.sizes.length → ∀ a, dev.answer c = some a →
      (0 < a.sent → ptr + a.sent ≤ size) ∧ (a.fails = false → ptr + 5 ≤ size)
  | .configuration c ptr _ => c < dev.sizes.length → ptr + 5 ≤ size
  | .interfaces _ cfgd i ptr raw => i < (raw (cfgd + 4)).toNat →
      ptr + ifExtent (raw (ptr + 1)) ≤ size ∧ (raw (ptr + 1) = 0x04 ∨ raw ptr ≠ 0)

inductive Stage where
  | reading | association | control | controlHeader | terminals
  | streaming | streamHeader | format | frames | settings
  deriving DecidableEq, Repr

/-- The descriptors that `uvc_device_cfg` reads into `conf`: what the device sends for the
configuration descriptor that `uhci_enumerate` passes on, with its `bLength`. -/
structure Video where
  conf : Nat → UInt8
  sent : Nat
  bLength : UInt8
  wTotalLength : BitVec 16
  sent_le : sent ≤ wTotalLength.toNat

structure VideoPlace where
  stage : Stage
  index : Nat
  tmpIndex : Nat
  deriving DecidableEq, Repr

def VideoPlace.offset (p : VideoPlace) : Nat :=
  match p.stage with
  | .reading => 0
  | .terminals | .format | .frames => p.tmpIndex
  | _ => p.index

def VideoPlace.AtEnd (v : Video) (p : VideoPlace) : Prop :=
  match p.stage with
  | .reading | .association => False
  | .terminals | .format | .frames => p.index ≤ p.tmpIndex
  | _ => v.wTotalLength.toNat ≤ p.index

instance (v : Video) (p : VideoPlace) : Decidable (p.AtEnd v) := by
  unfold VideoPlace.AtEnd
  split <;> infer_instance

/-- How far the accesses go from `offset`, the logged fields with them. -/
def VideoPlace.extent (v : Video) (p : VideoPlace) : Nat :=
  let type := v.conf (p.offset + 1)
  let subType := v.conf (p.offset + 2)
  match p.stage with
  | .reading => v.sent
  | .association => if type ≠ 0x0B then 2 else if v.conf (p.offset + 4) ≠ 0x0E then 5 else 6
  | .control | .streaming =>
      if type ≠ 0x04 then 2 else if v.conf (p.offset + 5) ≠ 0x0E then 6 else 7
  | .controlHeader => if type ≠ 0x24 then 2 else if subType ≠ 0x01 then 3 else 12
  | .terminals =>
      if type ≠ 0x24 then 2 else if subType = 0x02 then 7 else if subType = 0x03 then 8 else 3
  | .streamHeader => if type ≠ 0x24 then 2 else if subType ≠ 0x01 then 3 else 9
  | .format => if type ≠ 0x24 then 2 else if subType ≠ 0x06 then 3 else 11
  | .frames => if type ≠ 0x24 then 2 else if subType ≠ 0x07 then 3 else 25
  | .settings => if type = 0x04 then 5 else if type = 0x05 then 7 else 2

def VideoPlace.stops (v : Video) (p : VideoPlace) : Bool :=
  let type := v.conf (p.offset + 1)
  let subType := v.conf (p.offset + 2)
  match p.stage with
  | .reading | .association => true
  | .control | .streaming => type = 0x04
  | .controlHeader | .streamHeader => type = 0x24 ∧ subType = 0x01
  | .format => type = 0x24 ∧ subType = 0x06
  | .terminals | .frames => false
  | .settings => type = 0x0B

def VideoPlace.skip (v : Video) (p : VideoPlace) : VideoPlace :=
  let length := (v.conf p.offset).toNat
  match p.stage with
  | .terminals | .format | .frames => { p with tmpIndex := p.tmpIndex + length }
  | _ => { p with index := p.index + length }

def VideoPlace.found (v : Video) (p : VideoPlace) : Option VideoPlace :=
  let byte := fun k => v.conf (p.offset + k)
  match p.stage with
  | .reading => some { p with stage := .association }
  | .association =>
      if byte 1 = 0x0B ∧ byte 4 = 0x0E ∧ byte 5 = 0x03 then some { p with stage := .control }
      else none
  | .control =>
      if byte 5 = 0x0E ∧ byte 6 = 0x01 then some { p with stage := .controlHeader } else none
  | .controlHeader => some ⟨.terminals, p.index + word v.conf (p.index + 5), p.index⟩
  | .streaming =>
      if byte 5 = 0x0E ∧ byte 6 = 0x02 then some { p with stage := .streamHeader } else none
  | .streamHeader => some ⟨.format, p.index + word v.conf (p.index + 4), p.index⟩
  | .format => some ⟨.frames, p.index, p.tmpIndex + (byte 0).toNat⟩
  | .terminals | .frames | .settings => none

def VideoPlace.passed (p : VideoPlace) : Option VideoPlace :=
  match p.stage with
  | .terminals => some { p with stage := .streaming }
  | .frames => some { p with stage := .settings }
  | _ => none

/-- A round of the loops of `uvc_device_cfg`. -/
def uvcRound (v : Video) (p : VideoPlace) : Except Fault (Option VideoPlace) :=
  if p.AtEnd v then .ok p.passed
  else if 1300 < p.offset + p.extent v then .error .outOfBounds
  else if p.stops v then .ok (p.found v)
  else .ok (some (p.skip v))

def VideoPlace.Sound (v : Video) (p : VideoPlace) : Prop :=
  ¬p.AtEnd v → p.offset + p.extent v ≤ 1300 ∧ (p.stops v = true ∨ v.conf p.offset ≠ 0)

variable {dev : Device} {size : Nat} {v : Video}

theorem toNat_eq_zero_iff (b : UInt8) : b.toNat = 0 ↔ b = 0 := UInt8.toNat_inj (b := 0)

theorem enumerateRound_sound_iff (w : Enumeration) :
    (enumerateRound dev size w ≠ .ok (some w) ∧
      ∀ e, enumerateRound dev size w = .error e → ¬e = .outOfBounds) ↔ w.Sound dev size := by
  cases w with
  | reading c ptr raw =>
    rw [enumerateRound, Enumeration.Sound]
    cases dev.answer c <;> grind
  | configuration c ptr raw =>
    rw [enumerateRound, Enumeration.Sound]
    grind
  | interfaces c cfgd i ptr raw =>
    have hzero := toNat_eq_zero_iff (raw ptr)
    rw [enumerateRound, Enumeration.Sound]
    grind

def Enumeration.left (dev : Device) (size : Nat) : Enumeration → Nat × Nat × Nat
  | .reading c _ _ => (2 * dev.sizes.length + 2 + (dev.sizes.length - c), 0, 0)
  | .configuration c _ _ => (2 * (dev.sizes.length - c) + 1, 0, 0)
  | .interfaces c _ i ptr _ => (2 * (dev.sizes.length - c), 256 - i, size - ptr)

def Enumeration.Begun (dev : Device) : Enumeration → Prop
  | .interfaces c _ _ _ _ => c < dev.sizes.length
  | _ => True

theorem enumerateRound_progress {w w' : Enumeration} (hbegun : w.Begun dev)
    (hround : enumerateRound dev size w = .ok (some w')) :
    w'.Begun dev ∧ (w' = w ∨ Prod.Lex (· < ·) (Prod.Lex (· < ·) (· < ·)) (w'.left dev size)
      (w.left dev size)) := by
  simp only [Prod.lex_def]
  cases w with
  | reading c ptr raw =>
    rw [enumerateRound] at hround
    cases hanswer : dev.answer c <;> grind [Enumeration.left, Enumeration.Begun]
  | configuration c ptr raw =>
    rw [enumerateRound] at hround
    grind [Enumeration.left, Enumeration.Begun]
  | interfaces c cfgd i ptr raw =>
    have hzero := toNat_eq_zero_iff (raw ptr)
    have hlt := (raw (cfgd + 4)).toNat_lt
    rw [enumerateRound] at hround
    grind [Enumeration.left, Enumeration.Begun, ifExtent]

theorem VideoPlace.skip_eq_self_iff (p : VideoPlace) : p.skip v = p ↔ v.conf p.offset = 0 := by
  obtain ⟨stage, index, tmp⟩ := p
  rw [← toNat_eq_zero_iff]
  cases stage <;> simp [VideoPlace.skip]

theorem VideoPlace.found_stage {p p' : VideoPlace} (h : p.found v = some p') :
    p.stage.ctorIdx < p'.stage.ctorIdx := by
  obtain ⟨stage, index, tmp⟩ := p
  cases stage <;> grind [VideoPlace.found, Stage.ctorIdx]

theorem VideoPlace.passed_stage {p p' : VideoPlace} (h : p.passed = some p') :
    p.stage.ctorIdx < p'.stage.ctorIdx := by
  obtain ⟨stage, index, tmp⟩ := p
  cases stage <;> grind [VideoPlace.passed, Stage.ctorIdx]

theorem uvcRound_sound_iff (p : VideoPlace) :
    (uvcRound v p ≠ .ok (some p) ∧ ∀ e, uvcRound v p = .error e → ¬e = .outOfBounds) ↔
      p.Sound v := by
  have hskip := p.skip_eq_self_iff (v := v)
  have hfound : p.found v ≠ some p := fun h => (VideoPlace.found_stage h).false
  have hpass : p.passed ≠ some p := fun h => (VideoPlace.passed_stage h).false
  rw [uvcRound, VideoPlace.Sound]
  grind

def VideoPlace.left (v : Video) (p : VideoPlace) : Nat × Nat :=
  (9 - p.stage.ctorIdx,
    match p.stage with
    | .terminals | .format | .frames => p.index - p.tmpIndex
    | _ => v.wTotalLength.toNat - p.index)

theorem VideoPlace.left_of_stage {p p' : VideoPlace}
    (h : p.stage.ctorIdx < p'.stage.ctorIdx) :
    Prod.Lex (· < ·) (· < ·) (p'.left v) (p.left v) := by
  refine .left _ _ ?_
  have hlast : p'.stage.ctorIdx ≤ 9 := by cases p'.stage <;> decide
  omega

theorem VideoPlace.left_skip {p : VideoPlace} (hend : ¬p.AtEnd v) (hstops : ¬p.stops v)
    (hlen : v.conf p.offset ≠ 0) :
    Prod.Lex (· < ·) (· < ·) ((p.skip v).left v) (p.left v) := by
  obtain ⟨stage, index, tmp⟩ := p
  rw [ne_eq, ← toNat_eq_zero_iff] at hlen
  cases stage
  case reading | association => exact absurd rfl hstops
  all_goals
    refine .right _ ?_
    grind [VideoPlace.AtEnd, VideoPlace.skip]

theorem uvcRound_progress {p p' : VideoPlace} (hround : uvcRound v p = .ok (some p')) :
    p' = p ∨ Prod.Lex (· < ·) (· < ·) (p'.left v) (p.left v) := by
  rw [uvcRound] at hround
  split_ifs at hround with hend hout hstops
  · exact .inr (VideoPlace.left_of_stage (VideoPlace.passed_stage (Except.ok.inj hround)))
  · exact .inr (VideoPlace.left_of_stage (VideoPlace.found_stage (Except.ok.inj hround)))
  · cases hround
    by_cases hlen : v.conf p.offset = 0
    · exact .inl (p.skip_eq_self_iff.mpr hlen)
    · exact .inr (VideoPlace.left_skip hend hstops hlen)

/-- The walks end, and stay inside of the buffers, if and only if the device sends no more than
the buffers hold, and every descriptor that the walks get to is inside of its buffer and, where
it is skipped, has a length.  `block` is the size of what `pow2_alloc` returns. -/
theorem descriptor_walks_safe_iff (dev : Device) (block : Nat → Nat) (raw : Nat → UInt8)
    (v : Video) :
    (Safe (· = .outOfBounds) (enumerateRound dev (block dev.totalLength)) (.reading 0 0 raw) ↔
      ∀ w, Visits (enumerateRound dev (block dev.totalLength)) (.reading 0 0 raw) w →
        w.Sound dev (block dev.totalLength)) ∧
    (Safe (· = .outOfBounds) (uvcRound v) ⟨.reading, v.bLength.toNat, 0⟩ ↔
      ∀ p, Visits (uvcRound v) ⟨.reading, v.bLength.toNat, 0⟩ p → p.Sound v) := by
  constructor
  · rw [safe_iff (Enumeration.Begun dev)
      (InvImage.wf (Enumeration.left dev _) (WellFounded.prod_lex wellFounded_lt
        (WellFounded.prod_lex wellFounded_lt wellFounded_lt)))
      (fun _ _ => enumerateRound_progress)]
    · simp only [enumerateRound_sound_iff]
    · trivial
  · rw [safe_iff (fun _ => True)
      (InvImage.wf (VideoPlace.left v) (WellFounded.prod_lex wellFounded_lt wellFounded_lt))
      (fun _ _ _ hround => ⟨trivial, uvcRound_progress hround⟩) trivial]
    simp only [uvcRound_sound_iff]

/-- A device that first gives the length 9, and then 1000 and sends as many bytes. -/
theorem second_answer_longer :
    ¬Safe (· = .outOfBounds)
      (enumerateRound ⟨[9], fun _ => some ⟨1000, 1000, fun _ => 0, false, by decide⟩⟩ 32)
      (.reading 0 0 fun _ => 0) := by
  rintro ⟨_ | n, r, hend, hgood⟩
  · cases hend
  · cases hend
    exact hgood _ rfl rfl

end Quest.Drivers.UsbDescriptors
