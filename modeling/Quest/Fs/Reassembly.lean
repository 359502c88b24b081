import Quest.Fs.Tftp
import Quest.Lib.Memory

/-! How `eztftp_dir` puts a datagram together, which comes as a chain of pbufs
(`lwip/core/pbuf.c`). -/
namespace Quest.Fs.Tftp

open Quest.Lib Memory List Function

/-- A `struct pbuf`; the list of a chain stands for its `next`. -/
structure Pbuf where
  payload : Bytes
  ref : Nat
  deriving DecidableEq, Repr

def pbufRef : List Pbuf → List Pbuf
  | [] => []
  | p :: chain => { p with ref := p.ref + 1 } :: chain

/-- `pbuf_free`: the pbufs that are deallocated, and the rest of the chain. -/
def pbufFree : List Pbuf → List Pbuf × List Pbuf
  | [] => ([], [])
  | p :: chain =>
      if p.ref - 1 = 0 then
        let (freed, left) := pbufFree chain
        (p :: freed, left)
      else ([], { p with ref := p.ref - 1 } :: chain)

def chop (p : Pbuf) (next : List Pbuf) : List Pbuf × List Pbuf :=
  let (freed, left) := pbufFree (p :: pbufRef next)
  (freed, if p.ref - 1 = 0 then left else left.tail)

def bufSize : Nat := blockSize + 4

structure Assembly where
  buf : Nat → UInt8
  ins : Nat
  rem : Nat
  len : Nat

def Assembly.copy (a : Assembly) (p : Bytes) : Assembly where
  buf := blit a.buf a.ins (fun j => p.getD j 0) p.length
  ins := a.ins + p.length
  rem := (a.rem + 2 ^ 32 - p.length) % 2 ^ 32
  len := (a.len + p.length) % 2 ^ 32

/-- The loop over a chain: what it copies, the pbufs that it frees and those that it leaves.  A
round chops one pbuf off. -/
def Assembly.copyChain : Nat → Assembly → List Pbuf → Except Fault (Assembly × List Pbuf × List Pbuf)
  | 0, _, _ => .error .diverges
  | n + 1, a, chain =>
      if a.rem = 0 then .ok (a, [], chain)
      else
        match chain with
        | [] => .ok (a, [], [])
        | p :: next =>
            if bufSize < a.ins + p.payload.length then .error .outOfBounds
            else do
              let (freed, chain) := chop p next
              let (a, freed', left) ← copyChain n (a.copy p.payload) chain
              .ok (a, freed ++ freed', left)

structure Transfer where
  buf : Nat → UInt8
  client : Client

structure Received where
  transfer : Transfer
  ack : Option Bytes
  freed : List Pbuf
  left : List Pbuf

def Cache.appendBuf (c : Cache) (buf : Nat → UInt8) (len : Nat) : Except Fault Cache :=
  if blockSize < len then .error .outOfBounds else c.append (bytesAt buf 4 len)

/-- What `eztftp_dir` does with the bytes in its buffer, and the ACK. -/
def Transfer.process (t : Transfer) (a : Assembly) : Except Fault (Transfer × Option Bytes) :=
  let len := (a.len + (2 ^ 32 - 4)) % 2 ^ 32
  let filesize := (t.client.filesize + len) % 2 ^ 32
  let result := if len < blockSize then some (toInt filesize) else none
  if a.buf 1 = opData then do
    let buf := update a.buf 1 opAck
    let cache ← t.client.cache.appendBuf buf len
    .ok (⟨buf, cache, filesize, result⟩, some (bytesAt buf 0 4))
  else if a.buf 1 = opErr then
    .ok (⟨a.buf, { t.client with result := some (-1) }⟩, none)
  else .ok (⟨a.buf, t.client.cache, filesize, result⟩, none)

def Transfer.receive (t : Transfer) (chain : List Pbuf) : Except Fault Received := do
  let (a, freed, left) ← Assembly.copyChain (chain.length + 1) ⟨t.buf, 0, bufSize, 0⟩ chain
  let (transfer, ack) ← t.process a
  .ok ⟨transfer, ack, freed, left⟩

def datagram (payloads : List Bytes) : List Pbuf := payloads.map fun payload => ⟨payload, 1⟩

variable {payloads : List Bytes} {payload : Bytes} {a : Assembly} {t : Transfer} {n : Nat}

theorem pbufFree_pbufRef (payloads : List Bytes) :
    pbufFree (pbufRef (datagram payloads)) = ([], datagram payloads) := by
  cases payloads <;> rfl

theorem chop_datagram (payload : Bytes) (payloads : List Bytes) :
    chop ⟨payload, 1⟩ (datagram payloads) = ([⟨payload, 1⟩], datagram payloads) := by
  simp [chop, pbufFree, pbufFree_pbufRef]

structure Assembly.Counts (a : Assembly) : Prop where
  rem : a.rem + a.ins = bufSize
  len : a.len = a.ins

theorem Assembly.Counts.copy (h : a.Counts) (hfits : a.ins + payload.length ≤ bufSize) :
    (a.copy payload).Counts := by
  have hsize : bufSize = 516 := rfl
  obtain ⟨hrem, hlen⟩ := h
  constructor <;> simp only [Assembly.copy] <;> omega

/-- The pbufs before the last one do not fill the buffer, and the last one fits. -/
def Fits (ins : Nat) (payloads : List Bytes) : Prop :=
  ins + payloads.dropLast.flatten.length < bufSize ∧ ins + payloads.flatten.length ≤ bufSize

instance (ins : Nat) (payloads : List Bytes) : Decidable (Fits ins payloads) :=
  inferInstanceAs (Decidable (_ ∧ _))

theorem blit_append (mem : Nat → UInt8) (dst : Nat) (p q : Bytes) :
    blit (blit mem dst (fun j => p.getD j 0) p.length) (dst + p.length) (fun j => q.getD j 0)
      q.length = blit mem dst (fun j => (p ++ q).getD j 0) (p ++ q).length := by
  funext x
  rw [length_append]
  by_cases hp : dst ≤ x ∧ x < dst + p.length
  · rw [blit_outside (by omega), blit_inside hp.1 hp.2, blit_inside hp.1 (by omega)]
    simp [getD_eq_getElem?_getD, getElem?_append_left (show x - dst < p.length by omega)]
  · by_cases hq : dst + p.length ≤ x ∧ x < dst + p.length + q.length
    · rw [blit_inside hq.1 hq.2, blit_inside (by omega) (by omega)]
      simp [getD_eq_getElem?_getD, getElem?_append_right (show p.length ≤ x - dst by omega),
        show x - dst - p.length = x - (dst + p.length) by omega]
    · rw [blit_outside (by omega), blit_outside (by omega), blit_outside (by omega)]

namespace Assembly

theorem copyChain_cons (n : Nat) (h : a.Counts) (hroom : a.ins < bufSize)
    (hfits : a.ins + payload.length ≤ bufSize) (payloads : List Bytes) :
    copyChain (n + 1) a (datagram (payload :: payloads)) = (do
      let (a, freed, left) ← copyChain n (a.copy payload) (datagram payloads)
      .ok (a, ⟨payload, 1⟩ :: freed, left)) := by
  have hrem := h.rem
  have hchop := chop_datagram payload payloads
  simp only [datagram, map_cons] at hchop ⊢
  rw [copyChain, if_neg (by omega)]
  dsimp only
  rw [if_neg (by omega), hchop]
  rfl

theorem copyChain_fits (h : a.Counts) (hn : payloads.length < n)
    (hfits : payloads ≠ [] → Fits a.ins payloads) :
    ∃ a', copyChain n a (datagram payloads) = .ok (a', datagram payloads, []) ∧ a'.Counts ∧
      a'.ins = a.ins + payloads.flatten.length ∧
      a'.buf = blit a.buf a.ins (fun j => payloads.flatten.getD j 0) payloads.flatten.length := by
  induction payloads generalizing a n with
  | nil =>
    obtain ⟨n, rfl⟩ := Nat.exists_eq_add_of_le' (Nat.one_le_of_lt hn)
    refine ⟨a, ?_, h, rfl, by simp⟩
    unfold copyChain
    split <;> rfl
  | cons payload payloads ih =>
    obtain ⟨n, rfl⟩ := Nat.exists_eq_add_of_le' (Nat.one_le_of_lt hn)
    obtain ⟨hbefore, hall⟩ := hfits (by simp)
    rw [flatten_cons, length_append] at hall
    have hnext : payloads ≠ [] → Fits (a.copy payload).ins payloads := by
      intro hne
      rw [dropLast_cons_of_ne_nil hne, flatten_cons, length_append] at hbefore
      rw [Fits, Assembly.copy]
      dsimp only
      omega
    obtain ⟨a', hret, hcounts, hins, hbuf⟩ := ih (h.copy (by omega)) (Nat.lt_of_succ_lt_succ hn) hnext
    rw [copyChain_cons n h (by omega) (by omega), hret, ok_bind]
    refine ⟨a', rfl, hcounts, ?_, ?_⟩
    · rw [hins, flatten_cons, length_append, Assembly.copy]
      dsimp only
      omega
    · rw [hbuf, Assembly.copy]
      exact blit_append _ _ _ _

theorem copyChain_left (h : a.Counts) (hne : payloads ≠ []) (hfits : ¬Fits a.ins payloads)
    {a' : Assembly} {freed left : List Pbuf}
    (hok : copyChain n a (datagram payloads) = .ok (a', freed, left)) : left ≠ [] := by
  induction payloads generalizing a n a' freed left with
  | nil => exact absurd rfl hne
  | cons payload payloads ih =>
    obtain _ | n := n
    · cases hok
    have hrem := h.rem
    by_cases hzero : a.rem = 0
    · unfold copyChain at hok
      rw [if_pos hzero] at hok
      cases hok
      simp [datagram]
    by_cases hover : bufSize < a.ins + payload.length
    · unfold copyChain at hok
      simp only [datagram, map_cons, if_neg hzero, if_pos hover] at hok
      cases hok
    rw [copyChain_cons n h (by omega) (by omega)] at hok
    obtain ⟨⟨a1, freed1, left1⟩, hrest, hok⟩ := bind_eq_ok.mp hok
    cases hok
    by_cases hnil : payloads = []
    · subst hnil
      refine absurd ⟨?_, ?_⟩ hfits
      · simp
        omega
      · simp
        omega
    · refine ih (h.copy (by omega)) hnil (fun hnext => hfits ?_) hrest
      rw [Fits, Assembly.copy] at hnext
      dsimp only at hnext
      rw [Fits, dropLast_cons_of_ne_nil hnil, flatten_cons, flatten_cons,
        length_append, length_append]
      omega

end Assembly

theorem length_minus_header (h : a.Counts) (hins : a.ins ≤ bufSize) :
    (a.len + (2 ^ 32 - 4)) % 2 ^ 32 = if 4 ≤ a.ins then a.ins - 4 else 2 ^ 32 - 4 + a.ins := by
  have hsize : bufSize = 516 := rfl
  rw [h.len]
  split <;> omega

theorem bytesAt_update_opcode (buf : Nat → UInt8) (len : Nat) :
    bytesAt (update buf 1 opAck) 4 len = bytesAt buf 4 len := by
  apply bytesAt_congr
  intro j _
  exact update_of_ne (by omega) _ _

theorem process_cases (t : Transfer) (h : a.Counts) (hins : a.ins ≤ bufSize) :
    (∃ t' ack, t.process a = .ok (t', ack) ∧ t'.client.cache.bytes = t.client.cache.bytes ++
        (if a.buf 1 = opData then bytesAt a.buf 4 (a.ins - 4) else []) ∧
      (a.buf 1 = opData → 4 ≤ a.ins ∧ a.ins - 4 ≤ t.client.cache.spare)) ∨
    (¬(a.buf 1 = opData → 4 ≤ a.ins ∧ a.ins - 4 ≤ t.client.cache.spare) ∧
      ∃ fault, t.process a = .error fault) := by
  have hsize : bufSize = 516 := rfl
  have hblock : blockSize = 512 := rfl
  rw [Transfer.process, length_minus_header h hins]
  by_cases hdata : a.buf 1 = opData
  · simp only [if_pos hdata, Cache.appendBuf, bytesAt_update_opcode]
    by_cases hheader : 4 ≤ a.ins
    · rw [if_pos hheader, if_neg (by omega)]
      obtain ⟨c, happ, hspare⟩ | ⟨hlt, happ⟩ :=
        t.client.cache.append_cases (bytesAt a.buf 4 (a.ins - 4))
      · have hbytes := Cache.append_bytes happ
        rw [length_bytesAt] at hspare
        rw [happ, ok_bind]
        exact .inl ⟨_, _, rfl, hbytes, fun _ => ⟨hheader, by omega⟩⟩
      · rw [length_bytesAt] at hlt
        rw [happ]
        exact .inr ⟨fun hall => absurd (hall hdata).2 (by omega), _, rfl⟩
    · rw [if_neg hheader, if_pos (by omega)]
      exact .inr ⟨fun hall => hheader (hall hdata).1, _, rfl⟩
  · simp only [if_neg hdata, append_nil]
    split
    · exact .inl ⟨_, _, rfl, rfl, fun h => absurd h hdata⟩
    · exact .inl ⟨_, _, rfl, rfl, fun h => absurd h hdata⟩

theorem bytesAt_copied (mem : Nat → UInt8) {bytes : Bytes} (hlen : 4 ≤ bytes.length) :
    bytesAt (blit mem 0 (fun j => bytes.getD j 0) bytes.length) 4 (bytes.length - 4) =
      bytes.drop 4 := by
  have hall := bytesAt_getD (le_refl bytes.length)
  rw [take_length] at hall
  rw [← zero_add 4, ← drop_bytesAt (by omega), bytesAt_blit_self, zero_add, hall]

def Transfer.opcode (t : Transfer) (payloads : List Bytes) : UInt8 :=
  if 1 < payloads.flatten.length then payloads.flatten.getD 1 0 else t.buf 1

structure Acceptable (t : Transfer) (payloads : List Bytes) : Prop where
  fits : Fits 0 payloads
  data : t.opcode payloads = opData →
    4 ≤ payloads.flatten.length ∧ payloads.flatten.length - 4 ≤ t.client.cache.spare

/-- No write leaves the buffer, the bytes that are cached were received, and every pbuf is freed
once. -/
def Reassembled (t : Transfer) (payloads : List Bytes) (r : Except Fault Received) : Prop :=
  ∃ received got, r = .ok received ∧ received.freed = datagram payloads ∧ received.left = [] ∧
    got <:+: payloads.flatten ∧
    received.transfer.client.cache.bytes = t.client.cache.bytes ++ got

theorem counts_start (t : Transfer) : Assembly.Counts ⟨t.buf, 0, bufSize, 0⟩ := ⟨rfl, rfl⟩

theorem copyChain_datagram (t : Transfer) (hfits : Fits 0 payloads) :
    ∃ a, Assembly.copyChain ((datagram payloads).length + 1) ⟨t.buf, 0, bufSize, 0⟩
        (datagram payloads) = .ok (a, datagram payloads, []) ∧ a.Counts ∧
      a.ins = payloads.flatten.length ∧
      a.buf = blit t.buf 0 (fun j => payloads.flatten.getD j 0) payloads.flatten.length := by
  have hrounds : payloads.length < (datagram payloads).length + 1 := by simp [datagram]
  obtain ⟨a, hcopy, ha, hins, hbuf⟩ :=
    Assembly.copyChain_fits (counts_start t) hrounds fun _ => hfits
  exact ⟨a, hcopy, ha, hins.trans (zero_add _), hbuf⟩

/-- A datagram is received safely if and only if the pbufs before its last one do not fill the
buffer, it fits, and as DATA it has a header and there is room for the rest. -/
theorem tftp_reassembly_iff (t : Transfer) (payloads : List Bytes) (hne : payloads ≠ []) :
    Reassembled t payloads (t.receive (datagram payloads)) ↔ Acceptable t payloads := by
  by_cases hfits : Fits 0 payloads
  · obtain ⟨a, hcopy, ha, hins, hbuf⟩ := copyChain_datagram t hfits
    have hle : a.ins ≤ bufSize := by
      have := hfits.2
      omega
    have hopcode : a.buf 1 = t.opcode payloads := by
      rw [hbuf, Transfer.opcode]
      split
      · rw [blit_inside (Nat.zero_le _) (by omega), Nat.sub_zero]
      · rw [blit_outside (by omega)]
    rw [Transfer.receive, hcopy, ok_bind]
    obtain ⟨t', ack, hprocess, hbytes, hdata⟩ | ⟨hdata, fault, hprocess⟩ := process_cases t ha hle
    · rw [hopcode, hins] at hdata
      refine iff_of_true ?_ ⟨hfits, hdata⟩
      dsimp only
      rw [hprocess, ok_bind]
      refine ⟨_, _, rfl, rfl, rfl, ?_, hbytes⟩
      split
      · rename_i hopcode'
        rw [hins, hbuf, bytesAt_copied _ (hdata (hopcode ▸ hopcode')).1]
        exact (List.drop_suffix 4 payloads.flatten).isInfix
      · exact List.nil_infix
    · rw [hopcode, hins] at hdata
      refine iff_of_false ?_ fun hall => hdata hall.data
      rintro ⟨received, got, hok, -⟩
      dsimp only at hok
      rw [hprocess] at hok
      cases hok
  · refine iff_of_false ?_ fun hall => hfits hall.fits
    rintro ⟨received, got, hok, -, hleft, -⟩
    obtain ⟨⟨a, freed, left⟩, hcopy, hok⟩ := bind_eq_ok.mp hok
    obtain ⟨⟨t', ack⟩, -, hok⟩ := bind_eq_ok.mp hok
    cases hok
    exact Assembly.copyChain_left (counts_start t) hne hfits hcopy hleft

def oneFrame : Transfer := ⟨fun i => if i = 1 then 1 else 0, ⟨[], 1⟩, 0, none⟩

theorem tftp_reassembly_iff_two_pbufs :
    Reassembled oneFrame [[0, 3, 0, 1], [7]] (oneFrame.receive (datagram [[0, 3, 0, 1], [7]])) :=
  (tftp_reassembly_iff oneFrame [[0, 3, 0, 1], [7]] (by decide)).mpr
    ⟨by decide, fun _ => by decide⟩

theorem tftp_reassembly_overruns :
    oneFrame.receive (datagram [List.replicate 517 0]) = .error .outOfBounds ∧
    oneFrame.receive (datagram [[0, 3]]) = .error .outOfBounds := by
  constructor
  · have hover : bufSize < 0 + (List.replicate 517 (0 : UInt8)).length := by
      rw [List.length_replicate]
      decide
    have hrem : bufSize ≠ 0 := by decide
    simp only [Transfer.receive, datagram, List.map_cons, List.map_nil, Assembly.copyChain,
      if_neg hrem, if_pos hover]
    rfl
  · rfl

end Quest.Fs.Tftp
