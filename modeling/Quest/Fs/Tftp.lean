import Quest.Basic
import Quest.Lib.Reach

/-! The TFTP client, `fs/tftp/fsys_tftp.c`, and a server that sends a block after the one before
it was acknowledged. -/
namespace Quest.Fs.Tftp

open Quest.Lib Reach List

abbrev Bytes := List UInt8

def blockSize : Nat := 512

def nodeCapacity : Nat := 7 * blockSize

def ringLen : Nat := 4

def opData : UInt8 := 3

def opAck : UInt8 := 4

def opErr : UInt8 := 5

structure Cache where
  nodes : List Bytes
  frames : Nat

namespace Cache

def bytes (c : Cache) : Bytes := c.nodes.flatten

def room (c : Cache) : Nat :=
  match c.nodes.getLast? with
  | none => 0
  | some last => nodeCapacity - last.length

def appendFrom : Nat → Cache → Bytes → Except Fault Cache
  | 0, c, _ => .ok c
  | n + 1, c, buf =>
      if buf = [] then .ok c
      else if 0 < c.room then
        let last := c.nodes.getLastD []
        let amount := min buf.length c.room
        appendFrom n { c with nodes := c.nodes.dropLast ++ [last ++ buf.take amount] }
          (buf.drop amount)
      else if c.frames = 0 then .error .nullDereference
      else
        let amount := min buf.length nodeCapacity
        appendFrom n ⟨c.nodes ++ [buf.take amount], c.frames - 1⟩ (buf.drop amount)

def append (c : Cache) (buf : Bytes) : Except Fault Cache := appendFrom buf.length c buf

def readFrom : List Bytes → Nat → Bytes × List Bytes
  | [], _ => ([], [])
  | node :: nodes, len =>
      if len = 0 then ([], node :: nodes)
      else
        let amount := min len node.length
        if node.length - amount = 0 then
          let (out, nodes) := readFrom nodes (len - amount)
          (node.take amount ++ out, nodes)
        else (node.take amount, node.drop amount :: nodes)

/-- `eztftp_read`; a node gives its frame back when it is empty. -/
def read (c : Cache) (len : Nat) : Bytes × Cache :=
  let (out, nodes) := readFrom c.nodes len
  (out, ⟨nodes, c.frames + (c.nodes.length - nodes.length)⟩)

structure Fits (c : Cache) (frames : Nat) : Prop where
  frames : c.nodes.length + c.frames = frames
  nodes : ∀ node ∈ c.nodes, node.length ≤ nodeCapacity

variable {c c' : Cache} {buf : Bytes} {n frames : Nat}

theorem exists_last (h : 0 < c.room) :
    ∃ init last, c.nodes = init ++ [last] ∧ c.room = nodeCapacity - last.length := by
  rw [room] at h ⊢
  cases hlast : c.nodes.getLast? with
  | none =>
    rw [hlast] at h
    exact absurd h (lt_irrefl 0)
  | some last =>
    obtain ⟨init, hinit⟩ := getLast?_eq_some_iff.mp hlast
    exact ⟨init, last, hinit, rfl⟩

theorem Fits.fill (hfits : c.Fits frames) (hroom : 0 < c.room) (buf : Bytes) :
    Fits { c with nodes := c.nodes.dropLast ++
      [c.nodes.getLastD [] ++ buf.take (min buf.length c.room)] } frames := by
  obtain ⟨init, last, hnodes, hlast⟩ := exists_last hroom
  refine ⟨by simpa [hnodes] using hfits.frames, fun node hnode => ?_⟩
  simp only [hnodes, dropLast_concat, getLastD_concat, mem_append,
    mem_singleton] at hnode
  obtain hinit | rfl := hnode
  · exact hfits.nodes node (by simp [hnodes, hinit])
  · have := hfits.nodes last (by simp [hnodes])
    rw [length_append, length_take, hlast]
    omega

theorem bytes_fill (hroom : 0 < c.room) (buf : Bytes) :
    bytes { c with nodes := c.nodes.dropLast ++
      [c.nodes.getLastD [] ++ buf.take (min buf.length c.room)] } =
      c.bytes ++ buf.take (min buf.length c.room) := by
  obtain ⟨init, last, hnodes, -⟩ := exists_last hroom
  simp [bytes, hnodes]

theorem Fits.push (hfits : c.Fits frames) (hframes : c.frames ≠ 0) (buf : Bytes) :
    Fits ⟨c.nodes ++ [buf.take (min buf.length nodeCapacity)], c.frames - 1⟩ frames := by
  refine ⟨?_, fun node hnode => ?_⟩
  · have := hfits.frames
    simp only [length_append, length_singleton]
    omega
  · obtain hold | rfl := mem_append.mp hnode |>.imp_right mem_singleton.mp
    · exact hfits.nodes node hold
    · rw [length_take]
      omega

theorem bytes_push (c : Cache) (buf : Bytes) :
    bytes ⟨c.nodes ++ [buf.take (min buf.length nodeCapacity)], c.frames - 1⟩ =
      c.bytes ++ buf.take (min buf.length nodeCapacity) := by
  simp [bytes]

theorem appendFrom_bytes (hn : buf.length ≤ n) (hok : appendFrom n c buf = .ok c') :
    c'.bytes = c.bytes ++ buf := by
  induction n generalizing c buf with
  | zero =>
    obtain rfl := eq_nil_of_length_eq_zero (Nat.le_zero.mp hn)
    cases hok
    exact (append_nil _).symm
  | succ n ih =>
    rw [appendFrom] at hok
    split at hok
    · rename_i hnil
      cases hok
      rw [hnil, append_nil]
    rename_i hne
    split at hok
    · rename_i hroom
      have hbytes := ih (by rw [length_drop]; omega) hok
      rwa [bytes_fill hroom, append_assoc, take_append_drop] at hbytes
    · split at hok
      · cases hok
      · have hcap : 0 < nodeCapacity := by decide
        have hbytes := ih (by rw [length_drop]; omega) hok
        rwa [bytes_push, append_assoc, take_append_drop] at hbytes

theorem appendFrom_fits (hfits : c.Fits frames) (hok : appendFrom n c buf = .ok c') :
    c'.Fits frames := by
  induction n generalizing c buf with
  | zero =>
    cases hok
    exact hfits
  | succ n ih =>
    rw [appendFrom] at hok
    split at hok
    · cases hok
      exact hfits
    split at hok
    · rename_i hroom
      exact ih (hfits.fill hroom buf) hok
    · split at hok
      · cases hok
      · rename_i hframes
        exact ih (hfits.push hframes buf) hok

theorem append_bytes (hok : c.append buf = .ok c') : c'.bytes = c.bytes ++ buf :=
  appendFrom_bytes le_rfl hok

theorem append_spec (hfits : c.Fits frames) (hok : c.append buf = .ok c') :
    c'.bytes = c.bytes ++ buf ∧ c'.Fits frames :=
  ⟨append_bytes hok, appendFrom_fits hfits hok⟩

def spare (c : Cache) : Nat := c.room + nodeCapacity * c.frames

theorem spare_fill (hroom : 0 < c.room) (buf : Bytes) :
    spare { c with nodes := c.nodes.dropLast ++
      [c.nodes.getLastD [] ++ buf.take (min buf.length c.room)] } +
      min buf.length c.room = c.spare := by
  obtain ⟨init, last, hnodes, hlast⟩ := exists_last hroom
  have hnew : room { c with nodes := c.nodes.dropLast ++
      [c.nodes.getLastD [] ++ buf.take (min buf.length c.room)] } =
      nodeCapacity - (last.length + min buf.length c.room) := by
    simp [room, hnodes]
  rw [spare, spare, hnew]
  dsimp only
  omega

theorem spare_push (hroom : c.room = 0) (hframes : c.frames ≠ 0) (buf : Bytes) :
    spare ⟨c.nodes ++ [buf.take (min buf.length nodeCapacity)], c.frames - 1⟩ +
      min buf.length nodeCapacity = c.spare := by
  have hnew : room ⟨c.nodes ++ [buf.take (min buf.length nodeCapacity)], c.frames - 1⟩ =
      nodeCapacity - min buf.length nodeCapacity := by
    simp [room]
  obtain ⟨k, hk⟩ := Nat.exists_eq_succ_of_ne_zero hframes
  rw [spare, spare, hnew, hroom, hk, Nat.mul_succ]
  dsimp only
  rw [Nat.succ_sub_one]
  omega

theorem appendFrom_cases (hn : buf.length ≤ n) :
    (∃ c', appendFrom n c buf = .ok c' ∧ c'.spare + buf.length = c.spare) ∨
      (c.spare < buf.length ∧ appendFrom n c buf = .error .nullDereference) := by
  induction n generalizing c buf with
  | zero =>
    obtain rfl := eq_nil_of_length_eq_zero (Nat.le_zero.mp hn)
    exact .inl ⟨c, rfl, rfl⟩
  | succ n ih =>
    have hcap : 0 < nodeCapacity := by decide
    rw [appendFrom]
    by_cases hnil : buf = []
    · subst hnil
      exact .inl ⟨c, rfl, rfl⟩
    have hpos := length_pos_iff.mpr hnil
    have hrest : ∀ (c1 : Cache) (amount : Nat), c1.spare + amount = c.spare → 0 < amount →
        amount ≤ buf.length →
        (∃ c', appendFrom n c1 (buf.drop amount) = .ok c' ∧ c'.spare + buf.length = c.spare) ∨
          (c.spare < buf.length ∧
            appendFrom n c1 (buf.drop amount) = .error .nullDereference) := by
      intro c1 amount hspare hamount hle
      have hlen : (buf.drop amount).length = buf.length - amount := length_drop
      obtain ⟨c', hok, hleft⟩ | ⟨hlt, hfull⟩ := ih (c := c1) (show (buf.drop amount).length ≤ n by omega)
      · exact .inl ⟨c', hok, by omega⟩
      · exact .inr ⟨by omega, hfull⟩
    rw [if_neg hnil]
    by_cases hroom : 0 < c.room
    · rw [if_pos hroom]
      exact hrest _ _ (spare_fill hroom buf) (by omega) (by omega)
    · rw [if_neg hroom]
      by_cases hframes : c.frames = 0
      · refine .inr ⟨?_, if_pos hframes⟩
        rw [spare, hframes]
        omega
      · rw [if_neg hframes]
        exact hrest _ _ (spare_push (by omega) hframes buf) (by omega) (by omega)

theorem append_cases (c : Cache) (buf : Bytes) :
    (∃ c', c.append buf = .ok c' ∧ c'.spare + buf.length = c.spare) ∨
      (c.spare < buf.length ∧ c.append buf = .error .nullDereference) :=
  appendFrom_cases le_rfl

theorem readFrom_spec (nodes : List Bytes) (len : Nat) :
    (readFrom nodes len).1 = nodes.flatten.take len ∧
      (readFrom nodes len).2.flatten = nodes.flatten.drop len := by
  induction nodes generalizing len with
  | nil => simp [readFrom]
  | cons node nodes ih =>
    rw [readFrom, flatten_cons, take_append, drop_append]
    split
    · rename_i hzero
      simp [hzero]
    dsimp only
    split
    · rename_i hempty
      obtain ⟨hout, hrest⟩ := ih (len - min len node.length)
      have hle : node.length ≤ len := by omega
      rw [Nat.min_eq_right hle] at hout hrest ⊢
      rw [take_of_length_le le_rfl, take_of_length_le hle,
        drop_of_length_le hle, nil_append]
      exact ⟨congrArg (node ++ ·) hout, hrest⟩
    · have hlt : len < node.length := by omega
      rw [Nat.min_eq_left hlt.le, Nat.sub_eq_zero_of_le hlt.le, take_zero, append_nil]
      exact ⟨rfl, by rw [flatten_cons, drop_zero]⟩

theorem read_spec (c : Cache) (len : Nat) :
    (c.read len).1 = c.bytes.take len ∧ (c.read len).2.bytes = c.bytes.drop len :=
  readFrom_spec c.nodes len

theorem Fits.length_le (h : c.Fits frames) : c.bytes.length ≤ frames * nodeCapacity := by
  have hsum : c.bytes.length ≤ c.nodes.length * nodeCapacity := by
    rw [bytes, length_flatten]
    have := sum_le_card_nsmul (c.nodes.map length) nodeCapacity (by simpa using h.nodes)
    simpa using this
  have := h.frames
  exact hsum.trans (Nat.mul_le_mul_right _ (by omega))

end Cache

/-- What `eztftp_dir` keeps between packets: the cached bytes and `filesize`, and its result. -/
structure Client where
  cache : Cache
  filesize : Nat
  result : Option Int

/-- One round of the loop of `eztftp_dir`, for a packet with a header; the ACK is the header with
another opcode. -/
def Client.receive (c : Client) (packet : Bytes) : Except Fault (Client × Option Bytes) := do
  let opcode := packet.getD 1 0
  let len := (packet.length + (2 ^ 32 - 4)) % 2 ^ 32
  if blockSize + 4 < packet.length then .error .outOfBounds
  else if opcode = opErr then .ok ({ c with result := some (-1) }, none)
  else
    let cache ← if opcode = opData then c.cache.append (packet.drop 4) else .ok c.cache
    let filesize := (c.filesize + len) % 2 ^ 32
    .ok (⟨cache, filesize, if len < blockSize then some (toInt filesize) else none⟩,
      if opcode = opData then some ((packet.set 1 opAck).take 4) else none)

def block (file : Bytes) (k : Nat) : Bytes := (file.drop (blockSize * (k - 1))).take blockSize

/-- The last block is shorter than the others. -/
def numBlocks (file : Bytes) : Nat := file.length / blockSize + 1

def header (opcode : UInt8) (k : Nat) : Bytes := [0, opcode, UInt8.ofNat (k / 256), UInt8.ofNat k]

def dataPacket (file : Bytes) (k : Nat) : Bytes := header opData k ++ block file k

structure System where
  client : Client
  ring : List Nat
  acks : List Bytes
  sent : Nat
  taken : List Nat

inductive Event where
  /-- DATA for block `k` reaches `recv_callback`, for the first time or again -/
  | deliver (k : Nat)
  | take
  /-- the ACK for its last block reaches the server -/
  | ack
  deriving DecidableEq, Repr

namespace System

def init (frames : Nat) : System := ⟨⟨⟨[], frames⟩, 0, none⟩, [], [], 1, []⟩

def step (file : Bytes) (s : System) : Event → Except Fault System
  | .deliver k => .ok { s with ring := if s.ring.length < ringLen then s.ring ++ [k] else s.ring }
  | .take =>
      match s.ring with
      | [] => .ok s
      | k :: ring => do
          let (client, ack) ← s.client.receive (dataPacket file k)
          .ok { s with client, ring, acks := s.acks ++ ack.toList, taken := s.taken ++ [k] }
  | .ack => .ok { s with sent := s.sent + 1 }

/-- Packets arrive in any order, late, often or never, but no block before it is sent. -/
def Enabled (file : Bytes) (s : System) : Event → Prop
  | .deliver k => 1 ≤ k ∧ k ≤ s.sent
  | .take => s.ring ≠ [] ∧ s.client.result = none
  | .ack => s.sent < numBlocks file ∧ s.sent ∈ s.taken ∧ header opAck s.sent ∈ s.acks

instance (file : Bytes) (s : System) (e : Event) : Decidable (s.Enabled file e) := by
  cases e <;> unfold Enabled <;> infer_instance

end System

section Receive

variable {file : Bytes} {k : Nat}

theorem length_block_le (file : Bytes) (k : Nat) : (block file k).length ≤ blockSize :=
  length_take_le _ _

theorem length_block (hk : 1 ≤ k) (hlast : k ≤ numBlocks file) :
    (block file k).length = blockSize ↔ k < numBlocks file := by
  have hpos : 0 < blockSize := by decide
  rw [block, length_take, length_drop]
  constructor
  · intro hfull
    have hle : blockSize * k ≤ file.length := by
      obtain ⟨j, rfl⟩ : ∃ j, k = j + 1 := ⟨k - 1, by omega⟩
      rw [Nat.mul_succ]
      rw [Nat.add_sub_cancel] at hfull
      omega
    rw [mul_comm] at hle
    exact Nat.lt_succ_of_le ((Nat.le_div_iff_mul_le hpos).mpr hle)
  · intro hlt
    have hle := (Nat.le_div_iff_mul_le hpos).mp (Nat.lt_succ_iff.mp hlt)
    obtain ⟨j, rfl⟩ : ∃ j, k = j + 1 := ⟨k - 1, by omega⟩
    rw [mul_comm, Nat.mul_succ] at hle
    rw [Nat.add_sub_cancel]
    omega

theorem flatMap_block (file : Bytes) (n : Nat) :
    (range' 1 n).flatMap (block file) = file.take (blockSize * n) := by
  induction n with
  | zero => simp
  | succ n ih =>
    rw [range'_concat, flatMap_append, ih, flatMap_singleton, block, Nat.mul_succ,
      take_add]
    congr 4
    omega

theorem flatMap_numBlocks (file : Bytes) :
    (range' 1 (numBlocks file)).flatMap (block file) = file := by
  rw [flatMap_block]
  apply take_of_length_le
  exact (Nat.lt_mul_div_succ file.length (by decide)).le

theorem Client.receive_data {c c' : Client} {ack : Option Bytes} {frames : Nat}
    (hfits : c.cache.Fits frames) (hok : c.receive (dataPacket file k) = .ok (c', ack)) :
    c'.cache.bytes = c.cache.bytes ++ block file k ∧ c'.cache.Fits frames ∧
      c'.filesize = (c.filesize + (block file k).length) % 2 ^ 32 ∧
      c'.result = (if (block file k).length < blockSize then some (toInt c'.filesize) else none) ∧
      ack = some (header opAck k) := by
  have hle := length_block_le file k
  have hlength : (dataPacket file k).length = 4 + (block file k).length := by
    rw [dataPacket, length_append]
    rfl
  have hlen : (4 + (block file k).length + (2 ^ 32 - 4)) % 2 ^ 32 = (block file k).length := by
    rw [blockSize] at hle
    omega
  have hop : (dataPacket file k).getD 1 0 = opData := rfl
  rw [receive, hlength, hlen, hop] at hok
  simp only [if_neg (by decide : opData ≠ opErr),
    if_neg (by omega : ¬blockSize + 4 < 4 + (block file k).length)] at hok
  obtain ⟨cache, hcache, hok⟩ := bind_eq_ok.mp hok
  obtain ⟨hbytes, hfits'⟩ := Cache.append_spec hfits hcache
  cases hok
  exact ⟨hbytes, hfits', rfl, rfl, rfl⟩

end Receive

inductive Lockstep : List Nat → Prop where
  | nil : Lockstep []
  | snoc {ks : List Nat} {k : Nat} : Lockstep ks → 1 ≤ k → (1 < k → k - 1 ∈ ks) →
      Lockstep (ks ++ [k])

theorem Lockstep.le_length {ks : List Nat} (h : Lockstep ks) : ∀ k ∈ ks, k ≤ ks.length := by
  induction h with
  | nil => nofun
  | snoc _ hpos hbefore ih =>
    intro j hj
    rw [length_append, length_singleton]
    obtain hj | hj := mem_append.mp hj
    · exact Nat.le_succ_of_le (ih j hj)
    · obtain rfl := mem_singleton.mp hj
      by_cases hone : 1 < j
      · have := ih _ (hbefore hone)
        omega
      · omega

theorem Lockstep.eq_range {ks : List Nat} (h : Lockstep ks) (hlast : ks ≠ [] → ks.length ∈ ks) :
    ks = range' 1 ks.length := by
  induction h with
  | nil => rfl
  | snoc hks hpos hbefore ih =>
    have hmem := hlast (by simp)
    rw [length_append, length_singleton] at hmem ⊢
    obtain hold | hnew := mem_append.mp hmem
    · have := hks.le_length _ hold
      omega
    · obtain rfl := mem_singleton.mp hnew
      have hks := ih fun hne => hbefore (by have := length_pos_iff.mpr hne; omega)
      rw [range'_concat, ← hks, one_mul, add_comm 1]

namespace System

variable {file : Bytes} {frames : Nat} {s s' : System} {e : Event}

structure Inv (file : Bytes) (frames : Nat) (s : System) : Prop where
  sent : s.sent ≤ numBlocks file
  before : ∀ k, 1 ≤ k → k < s.sent → k ∈ s.taken
  ring : ∀ k ∈ s.ring, 1 ≤ k ∧ k ≤ s.sent
  taken : ∀ k ∈ s.taken, 1 ≤ k ∧ k ≤ s.sent
  lockstep : Lockstep s.taken
  bytes : s.client.cache.bytes = s.taken.flatMap (block file)
  fits : s.client.cache.Fits frames
  filesize : s.client.filesize = s.client.cache.bytes.length % 2 ^ 32
  running : s.client.result = none → ∀ k ∈ s.taken, k < numBlocks file
  returned : ∀ r, s.client.result = some r → r = toInt s.client.filesize ∧
    ∃ ks, s.taken = ks ++ [numBlocks file] ∧ ∀ k ∈ ks, k < numBlocks file

theorem inv_init (file : Bytes) (frames : Nat) : Inv file frames (init frames) where
  sent := Nat.succ_le_succ (Nat.zero_le _)
  before _ hpos hlt := absurd hpos (Nat.not_le_of_lt hlt)
  ring := nofun
  taken := nofun
  lockstep := .nil
  bytes := rfl
  fits := ⟨Nat.zero_add _, nofun⟩
  filesize := rfl
  running := nofun
  returned := nofun

theorem Inv.take (h : Inv file frames s) (hres : s.client.result = none)
    (hok : s.step file .take = .ok s') : Inv file frames s' := by
  rw [step] at hok
  split at hok
  · cases hok
    exact h
  · rename_i k ring hring
    obtain ⟨⟨client, ack⟩, hreceive, hok⟩ := bind_eq_ok.mp hok
    obtain ⟨hbytes, hfits, hsize, hres', hack⟩ := Client.receive_data h.fits hreceive
    have hk := h.ring k (by simp [hring])
    have hshort : ¬(block file k).length < blockSize ↔ k < numBlocks file := by
      rw [← length_block hk.1 (hk.2.trans h.sent)]
      have := length_block_le file k
      omega
    cases hok
    exact {
      sent := h.sent
      before := fun j hpos hlt => mem_append_left _ (h.before j hpos hlt)
      ring := fun j hj => h.ring j (by simp [hring, hj])
      taken := by
        intro j hj
        obtain hj | hj := mem_append.mp hj
        · exact h.taken j hj
        · obtain rfl := mem_singleton.mp hj
          exact hk
      lockstep := .snoc h.lockstep hk.1 fun hone => h.before _ (by omega) (by omega)
      bytes := by rw [hbytes, h.bytes, flatMap_append, flatMap_singleton]
      fits := hfits
      filesize := by
        rw [hsize, hbytes, length_append, h.filesize, Nat.mod_add_mod]
      running := by
        intro hnone j hj
        rw [hres'] at hnone
        obtain hj | hj := mem_append.mp hj
        · exact h.running hres j hj
        · obtain rfl := mem_singleton.mp hj
          refine hshort.mp fun hlt => ?_
          rw [if_pos hlt] at hnone
          cases hnone
      returned := by
        intro r hr
        rw [hres'] at hr
        split at hr
        · rename_i hlt
          cases hr
          have hlast : k = numBlocks file := by
            have := hshort.not.mp (not_not.mpr hlt)
            have := h.sent
            omega
          exact ⟨rfl, s.taken, by rw [hlast], h.running hres⟩
        · cases hr }

theorem Inv.step (h : Inv file frames s) (hon : s.Enabled file e)
    (hok : s.step file e = .ok s') : Inv file frames s' := by
  cases e with
  | take => exact h.take hon.2 hok
  | deliver k =>
    cases hok
    refine { h with ring := fun j hj => ?_ }
    split at hj
    · obtain hj | hj := mem_append.mp hj
      · exact h.ring j hj
      · obtain rfl := mem_singleton.mp hj
        exact hon
    · exact h.ring j hj
  | ack =>
    obtain ⟨hlt, htaken, -⟩ := hon
    cases hok
    refine { h with
      sent := hlt
      before := fun k hpos hk => ?_
      ring := fun k hk => (h.ring k hk).imp_right Nat.le_succ_of_le
      taken := fun k hk => (h.taken k hk).imp_right Nat.le_succ_of_le }
    obtain hk | rfl := Nat.lt_succ_iff_lt_or_eq.mp hk
    · exact h.before k hpos hk
    · exact htaken

theorem inv_of_reaches (h : Reaches (System.step file) (Enabled file) (init frames) s) :
    Inv file frames s :=
  h.invariant (Inv file frames) (inv_init file frames) fun _ _ _ hinv hon hok =>
    hinv.step hon hok

theorem length_flatMap_block {ks : List Nat} (hpos : ∀ k ∈ ks, 1 ≤ k)
    (hlt : ∀ k ∈ ks, k < numBlocks file) :
    (ks.flatMap (block file)).length = ks.length * blockSize := by
  induction ks with
  | nil => simp
  | cons k ks ih =>
    rw [forall_mem_cons] at hpos hlt
    rw [flatMap_cons, length_append, (length_block hpos.1 hlt.1.le).mpr hlt.1,
      ih hpos.2 hlt.2, length_cons, Nat.succ_mul, add_comm]

theorem Inv.eq_range_iff (h : Inv file frames s) {r : Int} (hres : s.client.result = some r) :
    s.client.cache.bytes = file ↔ s.taken = range' 1 (numBlocks file) := by
  rw [h.bytes]
  constructor
  · intro hfile
    obtain ⟨-, ks, hks, hlt⟩ := h.returned r hres
    have hlen : ks.length = file.length / blockSize := by
      have hsent := congrArg length hfile
      have hall := congrArg length (flatMap_numBlocks file)
      rw [hks, flatMap_append, length_append, length_flatMap_block
        (fun k hk => (h.taken k (by simp [hks, hk])).1) hlt] at hsent
      rw [numBlocks, range'_concat, flatMap_append, length_append,
        length_flatMap_block (fun k hk => (mem_range'_1.mp hk).1) (fun k hk => by
          have := (mem_range'_1.mp hk).2
          rw [numBlocks]
          omega), length_range', one_mul, add_comm 1] at hall
      rw [numBlocks] at hsent
      exact Nat.eq_of_mul_eq_mul_right (by decide : 0 < blockSize) (by omega)
    have htaken : s.taken.length = numBlocks file := by
      rw [hks, length_append, length_singleton, hlen, numBlocks]
    have hrange := h.lockstep.eq_range fun _ => by rw [htaken, hks]; simp
    rwa [htaken] at hrange
  · intro htaken
    rw [htaken, flatMap_numBlocks]

/-- When `eztftp_dir` returns a size, the cached bytes are the file and the size is its length if
and only if every block was taken out of the ring once, in order. -/
theorem tftp_exact_iff (file : Bytes) (frames : Nat) (hframes : frames ≤ 2 ^ 20) (s : System)
    (hrun : Reaches (System.step file) (Enabled file) (init frames) s) (size : Int)
    (hresult : s.client.result = some size) (hsize : 0 ≤ size) :
    s.client.cache.bytes = file ∧ size = file.length ↔
      s.taken = List.range' 1 (numBlocks file) := by
  have hinv := inv_of_reaches hrun
  rw [← hinv.eq_range_iff hresult]
  refine and_iff_left_of_imp fun hfile => ?_
  have hlength : file.length < 2 ^ 32 := by
    have hle := hinv.fits.length_le
    rw [hfile, nodeCapacity, blockSize] at hle
    omega
  have hfilesize := hinv.filesize
  rw [hfile, Nat.mod_eq_of_lt hlength] at hfilesize
  rw [(hinv.returned size hresult).1, hfilesize, toInt] at hsize ⊢
  split
  · rfl
  · rename_i hlarge
    omega

def fullBlock : Bytes := List.replicate 512 0

theorem tftp_exact_iff_full_block :
    ∃ s, Reaches (System.step fullBlock) (Enabled fullBlock) (init 1) s ∧
      s.client.result = some 512 ∧ s.client.cache.bytes = fullBlock := by
  have hrun : (replay (System.step fullBlock) (Enabled fullBlock) (init 1)
      [.deliver 1, .take, .ack, .deliver 2, .take]).map (fun s => (s.client.result, s.taken)) =
      some (some 512, [1, 2]) := by decide +kernel
  obtain ⟨s, hs, heq⟩ := Option.map_eq_some_iff.mp hrun
  obtain ⟨hresult, htaken⟩ := Prod.mk.inj heq
  have hreaches := Reaches.replay .refl hs
  have hblocks : numBlocks fullBlock = 2 := by
    rw [numBlocks, fullBlock, List.length_replicate]
    rfl
  refine ⟨s, hreaches, hresult, ?_⟩
  refine ((tftp_exact_iff fullBlock 1 (by simp) s hreaches 512 hresult (by simp)).mpr ?_).1
  rw [htaken, hblocks]
  rfl

theorem tftp_caches_duplicate :
    ∃ s, Reaches (System.step fullBlock) (Enabled fullBlock) (init 1) s ∧
      s.client.result = some 1024 ∧ fullBlock.length = 512 := by
  have hrun : (replay (System.step fullBlock) (Enabled fullBlock) (init 1)
      [.deliver 1, .deliver 1, .take, .ack, .take, .deliver 2, .take]).map
        (fun s => s.client.result) = some (some 1024) := by decide +kernel
  obtain ⟨s, hs, hresult⟩ := Option.map_eq_some_iff.mp hrun
  exact ⟨s, Reaches.replay .refl hs, hresult, List.length_replicate⟩

end System

end Quest.Fs.Tftp
