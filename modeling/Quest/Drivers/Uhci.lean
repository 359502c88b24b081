import Quest.Basic
import Quest.Lib.Bitmap

/-! Bulk transfers of the UHCI driver, `drivers/usb/uhci_hcd.c`, and the data toggles. -/
namespace Quest.Drivers.Uhci

open Quest.Lib Function Bitmap

inductive Direction where
  | dirIn
  | dirOut
  deriving DecidableEq, Repr

structure Endpoint where
  address : Fin 128
  endpoint : Fin 16
  direction : Direction
  deriving DecidableEq, Repr

def Endpoint.togIdx (ep : Endpoint) : Nat :=
  ep.address * 32 + (ep.endpoint + if ep.direction = .dirIn then 16 else 0)

theorem Endpoint.togIdx_injective : Function.Injective Endpoint.togIdx := by
  rintro ⟨a, e, d⟩ ⟨b, f, d'⟩ heq
  simp only [togIdx] at heq
  cases d <;> cases d' <;> simp at heq
  all_goals first | omega | simp [Fin.ext_iff]; omega

structure Td where
  status : Nat
  actLen : Nat
  ioc : Bool
  spd : Bool
  ep : Endpoint
  toggle : Bool
  maxLen : Nat
  buf : Nat
  deriving DecidableEq, Repr

def usbMaxLen : Nat := 0x3FE

structure Transfer where
  ep : Endpoint
  dataLen : Nat
  packetLen : Nat
  deriving DecidableEq, Repr

def Transfer.maxPacketLen (tr : Transfer) : Nat :=
  if usbMaxLen ≤ tr.packetLen - 1 then usbMaxLen else tr.packetLen - 1

def Transfer.numDataPackets (tr : Transfer) : Nat :=
  (tr.dataLen + tr.maxPacketLen) / (tr.maxPacketLen + 1)

def flip (toggles : Bitmap.Table) (ep : Endpoint) : Bitmap.Table :=
  if test toggles ep.togIdx then clear toggles ep.togIdx
  else set toggles ep.togIdx

def queueTds (ep : Endpoint) (max : Nat) : Bitmap.Table → Nat → Nat → Nat → List Td × Bitmap.Table
  | toggles, 0, _, _ => ([], toggles)
  | toggles, n + 1, data, left =>
      let maxLen := if max + 1 < left then max else left - 1
      let td : Td :=
        ⟨0x80, 0, decide (left ≤ max + 1) || n == 0, ep.direction == .dirIn, ep,
          test toggles ep.togIdx, maxLen, data⟩
      if left ≤ max + 1 then ([td], flip toggles ep)
      else
        let rest := queueTds ep max (flip toggles ep) n (data + (maxLen + 1)) (left - (maxLen + 1))
        (td :: rest.1, rest.2)

/-- What the controller writes into a descriptor: the device acknowledged a packet of `len` bytes,
or the packet failed. -/
inductive Response where
  | ack (len : Nat)
  | fail (status len : Nat)
  deriving DecidableEq, Repr

def encodeLen (len : Nat) : Nat := (len + 0x7FF) % 0x800

def execute : List Td → List Response → List Td
  | td :: tds, .ack len :: rs => { td with status := 0, actLen := encodeLen len } :: execute tds rs
  | td :: tds, .fail status len :: _ => { td with status := status, actLen := encodeLen len } :: tds
  | tds, _ => tds

def acknowledged : Nat → List Response → Nat
  | n + 1, .ack _ :: rs => acknowledged n rs + 1
  | _, _ => 0

/-- The result of a walk of `check_tds`: wait again, or a status and `act_len`, which is not
written when a packet stalls or times out. -/
inductive Check where
  | again
  | done (status : Nat) (actLen : Option Nat)
  deriving DecidableEq, Repr

/-- One walk of `check_tds` over the descriptors. -/
def checkTds : List Td → Nat → Nat → Check
  | [], statusCount, len => if statusCount = 0 then .done 0 (some len) else .again
  | td :: tds, statusCount, len =>
      let active := td.status &&& 0x80 ≠ 0
      let len := if active then len else len + ((td.actLen + 1) &&& 0x7FF)
      if ¬active ∧ td.actLen ≠ td.maxLen then .done 0 (some len)
      else if td.status &&& 0x40 ≠ 0 ∨ td.status &&& 0x04 ≠ 0 then .done (td.status &&& 0x7F) none
      else checkTds tds (if active then statusCount + 1 else statusCount) len

structure Outcome where
  queueHead : Bool
  responses : List Response
  deriving DecidableEq, Repr

structure Bus where
  toggles : Bitmap.Table
  freeTds : Nat
  acked : Endpoint → Nat

/-- `uhci_bulk_transfer`, up to its result.  No packets at all leave NULL for `check_tds` to read. -/
def bulkTransfer (bus : Bus) (tr : Transfer) (out : Outcome) : Except Fault (Bus × Int) :=
  let queued := queueTds tr.ep tr.maxPacketLen bus.toggles tr.numDataPackets 0 tr.dataLen
  let num := queued.1.length
  if tr.packetLen = 0 then .error (.panic "Division Error")
  else if bus.freeTds < num then .error .nullDereference
  else if out.queueHead = false then
    .ok ({ bus with toggles := queued.2, freeTds := bus.freeTds - num }, -1)
  else if num = 0 then .error .nullDereference
  else
    match checkTds (execute queued.1 out.responses) 0 0 with
    | .again => .error .diverges
    | .done status _ =>
        let acked := bus.acked tr.ep + acknowledged num out.responses
        .ok ({ bus with toggles := queued.2, acked := update bus.acked tr.ep acked }, status)

def Bus.InStep (bus : Bus) (ep : Endpoint) : Prop :=
  test bus.toggles ep.togIdx = (bus.acked ep).bodd

instance (bus : Bus) (ep : Endpoint) : Decidable (bus.InStep ep) :=
  inferInstanceAs (Decidable (_ = _))

def abandoned (tr : Transfer) (out : Outcome) : Nat :=
  tr.numDataPackets - if out.queueHead then acknowledged tr.numDataPackets out.responses else 0

def run (bus : Bus) (calls : List (Transfer × Outcome)) : Except Fault Bus :=
  calls.foldlM (fun bus call => Prod.fst <$> bulkTransfer bus call.1 call.2) bus

variable {ep ep' : Endpoint} {toggles : Bitmap.Table} {max n data left : Nat}

theorem test_flip :
    test (flip toggles ep) ep'.togIdx = (test toggles ep'.togIdx ^^ decide (ep = ep')) := by
  by_cases heq : ep = ep'
  · rw [flip]
    split <;> simp_all [test_clear, test_set]
  · have hne : ep.togIdx ≠ ep'.togIdx := Endpoint.togIdx_injective.ne heq
    rw [flip]
    split <;> simp [test_clear, test_set, hne, heq]

theorem test_queueTds :
    test (queueTds ep max toggles n data left).2 ep'.togIdx =
      (test toggles ep'.togIdx ^^
        (decide (ep = ep') && (queueTds ep max toggles n data left).1.length.bodd)) := by
  induction n generalizing toggles data left with
  | zero => simp [queueTds]
  | succ n ih =>
    rw [queueTds]
    split
    · simp [test_flip]
    · dsimp only
      rw [ih, test_flip, List.length_cons, Nat.bodd_succ]
      cases decide (ep = ep') <;> simp

theorem length_queueTds (hle : n * (max + 1) ≤ left + max) (hge : left ≤ n * (max + 1)) :
    (queueTds ep max toggles n data left).1.length = n := by
  induction n generalizing toggles data left with
  | zero => rfl
  | succ n ih =>
    rw [Nat.succ_mul] at hle hge
    rw [queueTds]
    split
    · -- the last packet, and the last round
      have hn : n = 0 := by
        by_contra hne
        have := Nat.le_mul_of_pos_left (max + 1) (Nat.pos_of_ne_zero hne)
        omega
      simp [hn]
    · rw [List.length_cons, if_pos (by omega), ih (by omega) (by omega)]

theorem length_queueTds_transfer (tr : Transfer) :
    (queueTds tr.ep tr.maxPacketLen toggles tr.numDataPackets 0 tr.dataLen).1.length =
      tr.numDataPackets := by
  apply length_queueTds
  · exact Nat.div_mul_le_self _ _
  · have hdiv := Nat.div_add_mod' (tr.dataLen + tr.maxPacketLen) (tr.maxPacketLen + 1)
    have hmod := Nat.mod_lt (tr.dataLen + tr.maxPacketLen) (Nat.zero_lt_succ tr.maxPacketLen)
    rw [Nat.succ_eq_add_one] at hmod
    rw [Transfer.numDataPackets]
    omega

theorem test_queueTds_transfer (toggles : Bitmap.Table) (tr : Transfer) (ep : Endpoint) :
    test (queueTds tr.ep tr.maxPacketLen toggles tr.numDataPackets 0 tr.dataLen).2 ep.togIdx =
      (test toggles ep.togIdx ^^ (decide (tr.ep = ep) && tr.numDataPackets.bodd)) := by
  rw [test_queueTds, length_queueTds_transfer]

theorem acknowledged_le (n : Nat) (rs : List Response) : acknowledged n rs ≤ n := by
  fun_induction acknowledged n rs with
  | case1 n len rs ih => exact Nat.succ_le_succ ih
  | case2 => exact Nat.zero_le _

variable {bus bus' : Bus} {tr : Transfer} {out : Outcome} {result : Int}

theorem bulkTransfer_returns (hok : bulkTransfer bus tr out = .ok (bus', result)) :
    (∀ ep, test bus'.toggles ep.togIdx =
      (test bus.toggles ep.togIdx ^^ (decide (tr.ep = ep) && tr.numDataPackets.bodd))) ∧
    bus'.acked = update bus.acked tr.ep (bus.acked tr.ep +
      if out.queueHead then acknowledged tr.numDataPackets out.responses else 0) := by
  have htoggles (ep : Endpoint) := test_queueTds_transfer bus.toggles tr ep
  simp only [bulkTransfer, length_queueTds_transfer] at hok
  split at hok
  · cases hok
  split at hok
  · cases hok
  split at hok
  · rename_i hqueue
    cases hok
    exact ⟨htoggles, by simp [hqueue]⟩
  · rename_i hqueue
    split at hok
    · cases hok
    split at hok
    · cases hok
    · cases hok
      exact ⟨htoggles, by simp [hqueue]⟩

theorem even_iff_bodd {n : Nat} : Even n ↔ n.bodd = false := by
  rw [Nat.even_iff, Nat.mod_two_of_bodd]
  cases n.bodd <;> simp

theorem Bus.InStep.transfer_iff (h : bus.InStep ep)
    (hok : bulkTransfer bus tr out = .ok (bus', result)) :
    bus'.InStep ep ↔ (tr.ep = ep → Even (abandoned tr out)) := by
  obtain ⟨htoggles, hacked⟩ := bulkTransfer_returns hok
  rw [InStep, htoggles, hacked, h]
  by_cases heq : tr.ep = ep
  · subst heq
    generalize hk : (if out.queueHead then acknowledged tr.numDataPackets out.responses else 0) = k
    have hle : k ≤ tr.numDataPackets := by
      rw [← hk]
      split
      · exact acknowledged_le _ _
      · exact Nat.zero_le _
    rw [abandoned, hk, Nat.even_sub hle, even_iff_bodd, even_iff_bodd, update_self,
      Nat.bodd_add]
    cases (bus.acked tr.ep).bodd <;> cases tr.numDataPackets.bodd <;> cases k.bodd <;> simp
  · simp [heq, update_of_ne (Ne.symm heq)]

variable {calls : List (Transfer × Outcome)}

theorem run_cons {call : Transfer × Outcome} :
    run bus (call :: calls) = .ok bus' ↔
      ∃ mid result, bulkTransfer bus call.1 call.2 = .ok (mid, result) ∧ run mid calls = .ok bus' := by
  rw [run, List.foldlM_cons, bind_eq_ok]
  constructor
  · rintro ⟨mid, hcall, hrun⟩
    obtain ⟨⟨_, result⟩, hok, rfl⟩ := map_eq_ok.mp hcall
    exact ⟨_, result, hok, hrun⟩
  · rintro ⟨mid, result, hok, hrun⟩
    exact ⟨mid, map_eq_ok.mpr ⟨_, hok, rfl⟩, hrun⟩

theorem toggle_of_queueTds {td : Td} {tds : List Td} {toggles' : Bitmap.Table}
    (h : queueTds ep max toggles n data left = (td :: tds, toggles')) :
    td.toggle = test toggles ep.togIdx := by
  cases n with
  | zero => cases h
  | succ n =>
    rw [queueTds] at h
    split at h <;> cases h <;> rfl

/-- The toggle of `ep` is in step, and the next packet carries what the device expects, if and
only if each transfer to `ep` abandons an even number of packets. -/
theorem bulk_toggle_in_step_iff (bus bus' : Bus) (calls : List (Transfer × Outcome)) (ep : Endpoint)
    (hstart : bus.InStep ep) (hrun : run bus calls = .ok bus') :
    ((∀ before mid, before <+: calls → run bus before = .ok mid → mid.InStep ep) ↔
      ∀ call ∈ calls, call.1.ep = ep → Even (abandoned call.1 call.2)) ∧
    ∀ (mid : Bus) (tr : Transfer) td tds toggles, tr.ep = ep →
      queueTds tr.ep tr.maxPacketLen mid.toggles tr.numDataPackets 0 tr.dataLen = (td :: tds, toggles) →
      (mid.InStep ep ↔ td.toggle = (mid.acked ep).bodd) := by
  constructor
  · induction calls generalizing bus with
    | nil =>
      refine iff_of_true (fun before mid hbegins hmid => ?_) nofun
      obtain rfl := List.prefix_nil.mp hbegins
      cases hmid
      exact hstart
    | cons call calls ih =>
      obtain ⟨next, result, hok, hnext⟩ := run_cons.mp hrun
      have hiff := hstart.transfer_iff hok
      rw [List.forall_mem_cons]
      constructor
      · intro hall
        have hin : next.InStep ep := by
          refine hall [call] next ?_ (run_cons.mpr ⟨next, result, hok, rfl⟩)
          exact List.prefix_append [call] calls
        refine ⟨hiff.mp hin, (ih next hin hnext).mp fun before mid hbegins hmid => ?_⟩
        exact hall (call :: before) mid (List.prefix_cons_inj call |>.mpr hbegins)
          (run_cons.mpr ⟨next, result, hok, hmid⟩)
      · rintro ⟨heven, hcalls⟩ before mid hbegins hmid
        cases before with
        | nil =>
          cases hmid
          exact hstart
        | cons first before =>
          obtain ⟨rfl, hbefore⟩ := List.cons_prefix_cons.mp hbegins
          obtain ⟨next', _, hok', hmid⟩ := run_cons.mp hmid
          rw [hok] at hok'
          cases hok'
          have hin := hiff.mpr heven
          exact (ih next hin hnext).mpr hcalls before mid hbefore hmid
  · rintro mid tr td tds toggles rfl hqueue
    rw [toggle_of_queueTds hqueue, Bus.InStep]

def reset : Bus := ⟨fun _ => 0, 200, fun _ => 0⟩

def bulkIn : Endpoint := ⟨1, 2, .dirIn⟩

theorem bulk_toggle_in_step_iff_one_sector :
    reset.InStep bulkIn ∧
    ∃ bus', run reset [(⟨bulkIn, 512, 64⟩, ⟨true, List.replicate 8 (.ack 64)⟩)] = .ok bus' ∧
      bus'.InStep bulkIn := by
  have hstart : reset.InStep bulkIn := by decide
  obtain ⟨bus', hrun⟩ : ∃ bus', run reset [(⟨bulkIn, 512, 64⟩,
    ⟨true, List.replicate 8 (.ack 64)⟩)] = .ok bus' := ⟨_, rfl⟩
  have htheorem := (bulk_toggle_in_step_iff reset bus' _ bulkIn hstart hrun).1.mpr (by decide)
  exact ⟨hstart, bus', hrun, htheorem _ bus' List.prefix_rfl hrun⟩

theorem short_packet_leaves_toggle_behind :
    ∃ bus', bulkTransfer reset ⟨bulkIn, 512, 64⟩ ⟨true, [.ack 13]⟩ = .ok (bus', 0) ∧
      test bus'.toggles bulkIn.togIdx = false ∧ bus'.acked bulkIn = 1 :=
  ⟨_, rfl, by decide, by decide⟩

end Quest.Drivers.Uhci
