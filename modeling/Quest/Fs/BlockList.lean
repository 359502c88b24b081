import Quest.Fs.Tftp
import Quest.Lib.LinkedList
import Quest.Lib.Memory

/-! The cached bytes as `fs/tftp/fsys_tftp.c` has them in memory: a list of nodes. -/
namespace Quest.Fs.Tftp

open Quest.Lib Memory LinkedList List Function Prod

structure BlockNode where
  next : Option Nat
  len : Nat
  start : Nat
  blocks : Nat → UInt8

def BlockNode.bytes (n : BlockNode) : Bytes := bytesAt n.blocks n.start n.len

def BlockNode.fill (n : BlockNode) (buf : Bytes) (amount : Nat) : BlockNode :=
  { n with
    blocks := blit n.blocks n.len (fun j => buf.getD j 0) amount
    len := n.len + amount }

/-- The mapped nodes, which are numbered as they are allocated, the frames that are left, and the
nodes that were given back. -/
structure BlockList where
  node : Nat → Option BlockNode
  curbuf : Option Nat
  curend : Option Nat
  allocated : Nat
  frames : Nat
  freed : List Nat

namespace BlockList

def empty (frames : Nat) : BlockList := ⟨fun _ => none, none, none, 0, frames, []⟩

def get (h : BlockList) (i : Nat) : Except Fault BlockNode :=
  match h.node i with
  | some n => .ok n
  | none => .error .pageFault

def set (h : BlockList) (i : Nat) (n : BlockNode) : BlockList :=
  { h with node := update h.node i (some n) }

/-- `alloc_node` and the new node that `cache` fills; without a frame it is at `NULL`. -/
def allocNode (h : BlockList) (n : BlockNode) : Except Fault BlockList :=
  if h.frames = 0 then .error .nullDereference
  else .ok { h with
    node := update h.node h.allocated (some n)
    allocated := h.allocated + 1
    frames := h.frames - 1 }

def freeNode (h : BlockList) (i : Nat) : Except Fault BlockList := do
  let _ ← h.get i
  .ok { h with node := update h.node i none, frames := h.frames + 1, freed := h.freed ++ [i] }

def usable (h : BlockList) : Except Fault (Option (Nat × BlockNode)) :=
  match h.curend with
  | none => .ok none
  | some e => do
    let last ← h.get e
    .ok (if last.len < nodeCapacity then some (e, last) else none)

def link (h : BlockList) (i : Nat) : Except Fault BlockList :=
  match h.curend with
  | some e => do
    let last ← h.get e
    .ok { h.set e { last with next := some i } with curend := some i }
  | none => .ok { h with curbuf := some i, curend := some i }

def cacheFrom : Nat → BlockList → Bytes → Except Fault BlockList
  | 0, h, _ => .ok h
  | n + 1, h, buf =>
      if buf = [] then .ok h
      else do
        match ← h.usable with
        | some (e, last) =>
            let amount := min buf.length (nodeCapacity - last.len)
            cacheFrom n (h.set e (last.fill buf amount)) (buf.drop amount)
        | none => do
            let amount := min buf.length nodeCapacity
            let i := h.allocated
            let h ← h.allocNode (BlockNode.fill ⟨none, 0, 0, fun _ => 0⟩ buf amount)
            let h ← h.link i
            cacheFrom n h (buf.drop amount)

def cache (h : BlockList) (buf : Bytes) : Except Fault BlockList := cacheFrom buf.length h buf

/-- The loop of `eztftp_read`; a round copies a byte or frees a node. -/
def readFrom : Nat → BlockList → Nat → Bytes → Except Fault (Bytes × BlockList)
  | 0, _, _, _ => .error .diverges
  | n + 1, h, len, out =>
      match h.curbuf with
      | none => .ok (out, h)
      | some i =>
          if len = 0 then .ok (out, h)
          else do
            let cur ← h.get i
            let amount := min len cur.len
            if nodeCapacity < cur.start + amount then .error .outOfBounds
            else do
              let out := out ++ bytesAt cur.blocks cur.start amount
              let h := h.set i { cur with start := cur.start + amount, len := cur.len - amount }
              if cur.len - amount = 0 then do
                let h ← h.freeNode i
                let curend := if cur.next = none then none else h.curend
                readFrom n { h with curbuf := cur.next, curend } (len - amount) out
              else readFrom n h (len - amount) out

def read (h : BlockList) (len : Nat) : Except Fault (Bytes × BlockList) :=
  readFrom (len + h.allocated + 1) h len []

def cacheAll (h : BlockList) (writes : List Bytes) : Except Fault BlockList :=
  writes.foldlM cache h

def readAll (h : BlockList) : List Nat → Except Fault (List Bytes × BlockList)
  | [] => .ok ([], h)
  | len :: lens => do
    let (out, h) ← h.read len
    let (outs, h) ← h.readAll lens
    .ok (out :: outs, h)

def nextOf (h : BlockList) (i : Nat) : Option Nat := (h.node i).bind BlockNode.next

structure Holds (h : BlockList) (x : Nat × Bytes) (n : BlockNode) : Prop where
  mapped : h.node x.1 = some n
  bytes : n.bytes = x.2
  inside : n.start + n.len ≤ nodeCapacity
  unread : x.2 ≠ []

/-- The list consists of the nodes `l`; all others are freed. -/
structure Describes (h : BlockList) (l : List (Nat × Bytes)) : Prop where
  chain : Chain h.nextOf h.curbuf (l.map fst)
  last : h.curend = (l.map fst).getLast?
  holds : ∀ x ∈ l, ∃ n, h.Holds x n
  all : h.freed ++ l.map fst = List.range h.allocated
  gone : ∀ i, i ∉ l.map fst → h.node i = none

def Fresh (h : BlockList) : Prop := ∀ i n, h.node i = some n → n.start = 0

def view (h : BlockList) (l : List (Nat × Bytes)) : Cache := ⟨l.map snd, h.frames⟩

variable {h h' : BlockList} {l init : List (Nat × Bytes)} {n : BlockNode} {i e len fuel : Nat}
  {buf last : Bytes} {c : Cache}

theorem describes_empty (frames : Nat) : (empty frames).Describes [] where
  chain := rfl
  last := rfl
  holds := nofun
  all := rfl
  gone := fun _ _ => rfl

theorem fresh_empty (frames : Nat) : (empty frames).Fresh := nofun

theorem nextOf_update (hnode : h'.node = update h.node i (some n)) :
    h'.nextOf = update h.nextOf i n.next := by
  funext j
  by_cases hj : j = i
  · subst hj
    simp [nextOf, hnode]
  · simp [nextOf, hnode, hj]

theorem node_set_ne {j : Nat} (hj : j ≠ i) : (h.set i n).node j = h.node j :=
  update_of_ne hj _ _

theorem node_set_self : (h.set i n).node i = some n := update_self _ _ _

theorem Holds.congr {x : Nat × Bytes} (hx : h.Holds x n) (hnode : h'.node x.1 = h.node x.1) :
    h'.Holds x n := { hx with mapped := hnode.trans hx.mapped }

theorem Holds.get {x : Nat × Bytes} (hx : h.Holds x n) : h.get x.1 = .ok n := by
  rw [BlockList.get, hx.mapped]

theorem Holds.length {x : Nat × Bytes} (hx : h.Holds x n) : n.len = x.2.length := by
  rw [← hx.bytes, BlockNode.bytes, length_bytesAt]

theorem Describes.nodup (hd : h.Describes l) : (l.map fst).Nodup := hd.chain.nodup

theorem Describes.lt_allocated (hd : h.Describes l) (hi : i ∈ l.map fst) : i < h.allocated := by
  rw [← mem_range, ← hd.all]
  exact mem_append_right _ hi

theorem Describes.replace (front : List (Nat × Bytes)) {back : List (Nat × Bytes)} {b b' : Bytes}
    (n' : BlockNode) (hd : h.Describes (front ++ (i, b) :: back)) (hold : h.Holds (i, b) n)
    (hnext : n'.next = n.next) (hnew : (h.set i n').Holds (i, b') n') :
    (h.set i n').Describes (front ++ (i, b') :: back) := by
  have hids : (front ++ (i, b') :: back).map fst = (front ++ (i, b) :: back).map fst := by
    simp
  have hnextOf : (h.set i n').nextOf = h.nextOf := by
    rw [nextOf_update rfl, hnext, update_eq_self_iff, nextOf, hold.mapped]
    rfl
  have hnodup := hd.nodup
  refine ⟨?_, ?_, ?_, ?_, ?_⟩
  · rw [hids, hnextOf]
    exact hd.chain
  · rw [hids]
    exact hd.last
  · intro x hx
    obtain hfront | rfl | hback : x ∈ front ∨ x = (i, b') ∨ x ∈ back := by simpa using hx
    · obtain ⟨m, hm⟩ := hd.holds x (by simp [hfront])
      refine ⟨m, hm.congr (node_set_ne fun heq => ?_)⟩
      have hmem := mem_map_of_mem (f := fst) hfront
      rw [heq] at hmem
      simp only [map_append, map_cons, nodup_append] at hnodup
      exact hnodup.2.2 i hmem i (by simp) rfl
    · exact ⟨n', hnew⟩
    · obtain ⟨m, hm⟩ := hd.holds x (by simp [hback])
      refine ⟨m, hm.congr (node_set_ne fun heq => ?_)⟩
      have hmem := mem_map_of_mem (f := fst) hback
      rw [heq] at hmem
      simp only [map_append, map_cons, nodup_append, nodup_cons] at hnodup
      exact hnodup.2.1.1 hmem
  · rw [hids]
    exact hd.all
  · intro j hj
    rw [hids] at hj
    rw [node_set_ne fun heq => hj (by simp [heq])]
    exact hd.gone j hj

theorem usable_nil (hd : h.Describes []) : h.usable = .ok none := by
  have hend : h.curend = none := hd.last
  simp [usable, hend]

theorem Describes.curend_concat (hd : h.Describes (init ++ [(e, last)])) : h.curend = some e := by
  simpa using hd.last

theorem usable_concat (hd : h.Describes (init ++ [(e, last)])) (hlast : h.Holds (e, last) n) :
    h.usable = .ok (if n.len < nodeCapacity then some (e, n) else none) := by
  have hget : h.get e = .ok n := hlast.get
  simp only [usable, hd.curend_concat, hget, ok_bind]

theorem bytes_fill {amount : Nat} (hstart : n.start = 0) (hle : amount ≤ buf.length) :
    (n.fill buf amount).bytes = n.bytes ++ buf.take amount := by
  simp only [BlockNode.bytes, BlockNode.fill, hstart, bytesAt_blit_end, bytesAt_getD hle]

theorem Describes.fill (hd : h.Describes (init ++ [(e, last)])) (hlast : h.Holds (e, last) n)
    (hstart : n.start = 0) {amount : Nat} (hle : amount ≤ buf.length)
    (hroom : n.len + amount ≤ nodeCapacity) :
    (h.set e (n.fill buf amount)).Describes (init ++ [(e, last ++ buf.take amount)]) := by
  have hbytes : (n.fill buf amount).bytes = last ++ buf.take amount := by
    have hold : n.bytes = last := hlast.bytes
    rw [bytes_fill hstart hle, hold]
  apply hd.replace init (n.fill buf amount) hlast rfl
  refine ⟨node_set_self, hbytes, ?_, ?_⟩
  · simp [BlockNode.fill, hstart, hroom]
  · simp [hlast.unread]

theorem Fresh.set (hfresh : h.Fresh) (hstart : n.start = 0) : (h.set i n).Fresh := by
  intro j m hm
  by_cases hj : j = i
  · subst hj
    rw [node_set_self] at hm
    cases hm
    exact hstart
  · rw [node_set_ne hj] at hm
    exact hfresh j m hm

theorem Describes.appended {b : Bytes} (hd : h.Describes l) (hnew : h'.Holds (h.allocated, b) n)
    (hchain : Chain h'.nextOf h'.curbuf (l.map fst ++ [h.allocated]))
    (hend : h'.curend = some h.allocated) (hold : ∀ x ∈ l, ∃ m, h'.Holds x m)
    (hfreed : h'.freed = h.freed) (halloc : h'.allocated = h.allocated + 1)
    (hgone : ∀ i, i ∉ l.map fst → i ≠ h.allocated → h'.node i = none) :
    h'.Describes (l ++ [(h.allocated, b)]) where
  chain := by simpa using hchain
  last := by simp [hend]
  holds := by
    intro x hx
    obtain hx | rfl : x ∈ l ∨ x = (h.allocated, b) := by simpa using hx
    · exact hold x hx
    · exact ⟨n, hnew⟩
  all := by
    rw [hfreed, halloc, range_succ, ← hd.all]
    simp
  gone := by
    intro i hi
    simp only [map_append, mem_append, not_or] at hi
    exact hgone i hi.1 (by simpa using hi.2)

theorem link_nil (hend : h.curend = none) :
    h.link i = .ok { h with curbuf := some i, curend := some i } := by
  simp [link, hend]

theorem link_concat (hend : h.curend = some e) (hnode : h.node e = some n) :
    h.link i = .ok { h.set e { n with next := some i } with curend := some i } := by
  simp [link, hend, get, hnode, ok_bind]

structure Allocated (h h₁ : BlockList) (n : BlockNode) : Prop where
  node : h₁.node = update h.node h.allocated (some n)
  curbuf : h₁.curbuf = h.curbuf
  curend : h₁.curend = h.curend
  allocated : h₁.allocated = h.allocated + 1
  frames : h₁.frames = h.frames - 1
  freed : h₁.freed = h.freed

theorem allocNode_spec (hframes : h.frames ≠ 0) (n : BlockNode) :
    ∃ h1, h.allocNode n = .ok h1 ∧ h.Allocated h1 n := by
  rw [allocNode, if_neg hframes]
  exact ⟨_, rfl, rfl, rfl, rfl, rfl, rfl, rfl⟩

theorem Allocated.node_new {h1 : BlockList} (ha : h.Allocated h1 n) :
    h1.node h.allocated = some n := by
  simp [ha.node]

theorem Allocated.node_old {h1 : BlockList} (ha : h.Allocated h1 n) (hi : i ≠ h.allocated) :
    h1.node i = h.node i := by
  simp [ha.node, hi]

theorem Allocated.fresh {h1 : BlockList} (ha : h.Allocated h1 n) (hfresh : h.Fresh)
    (hstart : n.start = 0) : h1.Fresh := by
  intro i m hm
  by_cases hi : i = h.allocated
  · subst hi
    rw [ha.node_new] at hm
    cases hm
    exact hstart
  · exact hfresh i m (ha.node_old hi ▸ hm)

theorem Describes.append (hd : h.Describes l) (hframes : h.frames ≠ 0) {b : Bytes}
    (hnext : n.next = none) (hbytes : n.bytes = b) (hin : n.start + n.len ≤ nodeCapacity)
    (hunread : b ≠ []) :
    ∃ h1 h', h.allocNode n = .ok h1 ∧ h1.link h.allocated = .ok h' ∧
      h'.Describes (l ++ [(h.allocated, b)]) ∧ h'.frames = h.frames - 1 ∧ h'.freed = h.freed ∧
      (h.Fresh → n.start = 0 → h'.Fresh) := by
  have hfar : ∀ i ∈ l.map fst, i ≠ h.allocated := fun i hi => (hd.lt_allocated hi).ne
  have hchain := hd.chain.append fun hmem => hfar _ hmem rfl
  obtain ⟨h1, halloc, ha⟩ := allocNode_spec hframes n
  have hnextOf := hnext ▸ nextOf_update ha.node
  have hold : ∀ x ∈ l, ∃ m, h1.Holds x m := by
    intro x hx
    obtain ⟨m, hm⟩ := hd.holds x hx
    exact ⟨m, hm.congr (ha.node_old (hfar x.1 (mem_map_of_mem hx)))⟩
  have hgone : ∀ i, i ∉ l.map fst → i ≠ h.allocated → h1.node i = none :=
    fun i hi hne => (ha.node_old hne).trans (hd.gone i hi)
  obtain rfl | ⟨init, ⟨e, last⟩, rfl⟩ := eq_nil_or_concat' l
  · refine ⟨h1, _, halloc, link_nil (ha.curend.trans hd.last), ?_, ha.frames, ha.freed, ha.fresh⟩
    apply hd.appended
    · exact ⟨ha.node_new, hbytes, hin, hunread⟩
    · refine ⟨rfl, ?_⟩
      show h1.nextOf h.allocated = none
      simp [hnextOf]
    · rfl
    · exact nofun
    · exact ha.freed
    · exact ha.allocated
    · exact hgone
  · obtain ⟨m, hm⟩ := hold (e, last) (by simp)
    have he : e ≠ h.allocated := hfar e (by simp)
    have hdist : ∀ x ∈ init, x.1 ≠ e := by
      intro x hx heq
      have hmem := mem_map_of_mem (f := fst) hx
      have hnodup := hd.nodup
      simp only [map_append, nodup_append] at hnodup
      exact hnodup.2.2 x.1 hmem e (by simp) heq
    refine ⟨h1, _, halloc, link_concat (ha.curend.trans hd.curend_concat) hm.mapped, ?_, ha.frames,
      ha.freed, fun hfresh hstart => ((ha.fresh hfresh hstart).set (ha.fresh hfresh hstart e m hm.mapped))⟩
    apply hd.appended
    · exact ⟨(node_set_ne he.symm).trans ha.node_new, hbytes, hin, hunread⟩
    · have hlink : linkAfter none ((init ++ [(e, last)]).map fst) = some e := by
        simp [linkAfter]
      have hnextOf' : (h1.set e { m with next := some h.allocated }).nextOf =
          update (update h.nextOf e (some h.allocated)) h.allocated none := by
        rw [nextOf_update rfl, hnextOf, update_comm he]
      rw [hlink] at hchain
      show Chain (h1.set e { m with next := some h.allocated }).nextOf h1.curbuf _
      rw [hnextOf', ha.curbuf]
      exact hchain
    · rfl
    · intro x hx
      obtain hx | rfl : x ∈ init ∨ x = (e, last) := by simpa using hx
      · obtain ⟨m', hm'⟩ := hold x (by simp [hx])
        exact ⟨m', hm'.congr (node_set_ne (hdist x hx))⟩
      · exact ⟨_, node_set_self, hm.bytes, hm.inside, hm.unread⟩
    · exact ha.freed
    · exact ha.allocated
    · exact fun i hi hne => (node_set_ne fun heq => hi (by simp [heq])).trans (hgone i hi hne)

theorem room_view_concat (hlast : h.Holds (e, last) n) :
    (h.view (init ++ [(e, last)])).room = nodeCapacity - n.len := by
  simp [view, Cache.room, hlast.length]

theorem cacheFrom_refines (hd : h.Describes l) (hfresh : h.Fresh)
    (hok : Cache.appendFrom fuel (h.view l) buf = .ok c) :
    ∃ h' l', cacheFrom fuel h buf = .ok h' ∧ h'.Describes l' ∧ h'.Fresh ∧ h'.freed = h.freed ∧
      h'.view l' = c := by
  induction fuel generalizing h l buf with
  | zero =>
    cases hok
    exact ⟨h, l, rfl, hd, hfresh, rfl, rfl⟩
  | succ fuel ih =>
    rw [Cache.appendFrom] at hok
    rw [cacheFrom]
    by_cases hnil : buf = []
    · rw [if_pos hnil] at hok ⊢
      cases hok
      exact ⟨h, l, rfl, hd, hfresh, rfl, rfl⟩
    rw [if_neg hnil] at hok ⊢
    by_cases hroom : 0 < (h.view l).room
    · obtain rfl | ⟨init, ⟨e, last⟩, rfl⟩ := eq_nil_or_concat' l
      · exact absurd hroom (lt_irrefl 0)
      obtain ⟨n, hn⟩ := hd.holds (e, last) (by simp)
      have hstart := hfresh e n hn.mapped
      rw [if_pos hroom, room_view_concat hn] at hok
      rw [room_view_concat hn] at hroom
      rw [usable_concat hd hn, if_pos (by omega), ok_bind]
      refine ih (hd.fill hn hstart (Nat.min_le_left _ _) (by omega)) (hfresh.set hstart) ?_
      simpa [view, set] using hok
    · have hunusable : h.usable = .ok none := by
        obtain rfl | ⟨init, ⟨e, last⟩, rfl⟩ := eq_nil_or_concat' l
        · exact usable_nil hd
        · obtain ⟨n, hn⟩ := hd.holds (e, last) (by simp)
          rw [room_view_concat hn] at hroom
          rw [usable_concat hd hn, if_neg (by omega)]
      rw [if_neg hroom] at hok
      by_cases hframes : (h.view l).frames = 0
      · rw [if_pos hframes] at hok
        cases hok
      rw [if_neg hframes] at hok
      have hcap : 0 < nodeCapacity := by decide
      have hpos := length_pos_iff.mpr hnil
      have hbytes : (BlockNode.fill ⟨none, 0, 0, fun _ => 0⟩ buf (min buf.length nodeCapacity)).bytes =
          buf.take (min buf.length nodeCapacity) := bytes_fill rfl (Nat.min_le_left _ _)
      have hin : 0 + (0 + min buf.length nodeCapacity) ≤ nodeCapacity := by omega
      have hunread : buf.take (min buf.length nodeCapacity) ≠ [] := by
        rw [← length_pos_iff, length_take]
        omega
      obtain ⟨h1, h', halloc, hlink, hd', hframes', hfreed, hfresh'⟩ :=
        hd.append hframes rfl hbytes hin hunread
      rw [hunusable, ok_bind]
      dsimp only
      rw [halloc, ok_bind, hlink, ok_bind]
      rw [← hfreed]
      refine ih hd' (hfresh' hfresh rfl) ?_
      rw [← hok]
      simp [view, hframes']

def unread : List (Nat × Bytes) → Nat → List (Nat × Bytes)
  | [], _ => []
  | (i, b) :: l, pos => if b.length ≤ pos then unread l (pos - b.length) else (i, b.drop pos) :: l

theorem unread_zero (hne : ∀ x ∈ l, x.2 ≠ []) : unread l 0 = l := by
  cases l with
  | nil => rfl
  | cons x l =>
    have hx := length_pos_iff.mpr (hne x (by simp))
    rw [unread, if_neg (by omega), drop_zero]

theorem unread_sublist (l : List (Nat × Bytes)) (pos : Nat) :
    ((unread l pos).map fst).Sublist (l.map fst) := by
  induction l generalizing pos with
  | nil => exact List.Sublist.refl _
  | cons x l ih =>
    rw [unread]
    split
    · exact (ih _).cons _
    · exact List.Sublist.refl _

theorem Describes.free {b : Bytes} (hd : h.Describes ((i, b) :: l))
    (hnode : h'.node = update h.node i none) (hbuf : h'.curbuf = h.nextOf i)
    (hend : h'.curend = if h.nextOf i = none then none else h.curend)
    (hfreed : h'.freed = h.freed ++ [i]) (halloc : h'.allocated = h.allocated) :
    h'.Describes l := by
  have hi : i ∉ l.map fst := (nodup_cons.mp hd.nodup).1
  have hchain : Chain h.nextOf (h.nextOf i) (l.map fst) := hd.chain.2
  have hother : ∀ j, j ≠ i → h'.node j = h.node j := by
    intro j hj
    simp [hnode, hj]
  refine ⟨?_, ?_, ?_, ?_, ?_⟩
  · rw [hbuf]
    apply hchain.congr
    intro j hj
    rw [nextOf, nextOf, hother j fun heq => hi (heq ▸ hj)]
  · rw [hend, hd.last]
    cases l with
    | nil => rw [if_pos (hchain.head_isNone.mpr rfl)]; rfl
    | cons x l => rw [if_neg fun hnone => by simpa using hchain.head_isNone.mp hnone]; rfl
  · intro x hx
    obtain ⟨m, hm⟩ := hd.holds x (by simp [hx])
    exact ⟨m, hm.congr (hother x.1 fun heq => hi (heq ▸ mem_map_of_mem hx))⟩
  · rw [hfreed, halloc, ← hd.all]
    simp
  · intro j hj
    by_cases hji : j = i
    · simp [hnode, hji]
    · rw [hother j hji]
      exact hd.gone j (by simp [hji, hj])

theorem Describes.cut {b : Bytes} (hd : h.Describes ((i, b) :: l)) (hold : h.Holds (i, b) n)
    (hlt : len < b.length) :
    (h.set i { n with start := n.start + len, len := n.len - len }).Describes
      ((i, b.drop len) :: l) := by
  have hlength : n.len = b.length := hold.length
  have hbytes : bytesAt n.blocks n.start n.len = b := hold.bytes
  have hin := hold.inside
  apply hd.replace [] { n with start := n.start + len, len := n.len - len } hold rfl
  refine ⟨node_set_self, ?_, ?_, ?_⟩
  · rw [← hbytes, drop_bytesAt (by omega)]
    rfl
  · dsimp only
    omega
  · rw [← length_pos_iff, length_drop]
    omega

theorem freeNode_eq (hnode : h.node i = some n) : h.freeNode i = .ok { h with
    node := update h.node i none, frames := h.frames + 1, freed := h.freed ++ [i] } := by
  simp [freeNode, get, hnode, ok_bind]

section Round

variable {b : Bytes} (hd : h.Describes ((i, b) :: l)) (hlen : len ≠ 0)
include hd hlen

theorem readFrom_round (hn : h.Holds (i, b) n) (fuel : Nat) (out : Bytes) :
    readFrom (fuel + 1) h len out = (do
      let amount := min len b.length
      let h := h.set i { n with start := n.start + amount, len := n.len - amount }
      if b.length - amount = 0 then do
        let h ← h.freeNode i
        let curend := if n.next = none then none else h.curend
        readFrom fuel { h with curbuf := n.next, curend } (len - amount) (out ++ b.take amount)
      else readFrom fuel h (len - amount) (out ++ b.take amount)) := by
  have hbuf : h.curbuf = some i := hd.chain.1
  have hget : h.get i = .ok n := hn.get
  have hlength : n.len = b.length := hn.length
  have hbytes : bytesAt n.blocks n.start n.len = b := hn.bytes
  have hin := hn.inside
  have htake : b.take (min len b.length) = bytesAt n.blocks n.start (min len b.length) := by
    rw [← hlength, ← hbytes, take_bytesAt (Nat.min_le_right _ _)]
  rw [readFrom, hbuf]
  dsimp only
  rw [if_neg hlen, hget, ok_bind, hlength, if_neg (by omega), htake]

theorem readFrom_whole (fuel : Nat) (out : Bytes) (hend : b.length ≤ len) :
    ∃ h1, readFrom (fuel + 1) h len out = readFrom fuel h1 (len - b.length) (out ++ b) ∧
      h1.Describes l ∧ h1.allocated = h.allocated ∧ h1.frames = h.frames + 1 := by
  obtain ⟨n, hn⟩ := hd.holds (i, b) (by simp)
  have hnext : h.nextOf i = n.next := by simp [nextOf, hn.mapped]
  refine ⟨{ h with
    node := update h.node i none
    curbuf := n.next
    curend := if n.next = none then none else h.curend
    frames := h.frames + 1
    freed := h.freed ++ [i] }, ?_, hd.free rfl hnext.symm (by rw [hnext]) rfl rfl, rfl, rfl⟩
  rw [readFrom_round hd hlen hn]
  dsimp only
  rw [Nat.min_eq_right hend, if_pos (Nat.sub_self _), freeNode_eq node_set_self, ok_bind,
    take_length]
  simp only [set, update_idem]

theorem readFrom_part (fuel : Nat) (out : Bytes) (hlt : len < b.length) :
    ∃ h1, readFrom (fuel + 2) h len out = .ok (out ++ b.take len, h1) ∧
      h1.Describes ((i, b.drop len) :: l) ∧ h1.allocated = h.allocated ∧ h1.frames = h.frames := by
  obtain ⟨n, hn⟩ := hd.holds (i, b) (by simp)
  have hbuf : h.curbuf = some i := hd.chain.1
  refine ⟨_, ?_, hd.cut hn hlt, rfl, rfl⟩
  rw [readFrom_round hd hlen hn]
  dsimp only
  rw [Nat.min_eq_left hlt.le, if_neg (by omega), Nat.sub_self]
  simp only [readFrom, set, hbuf, if_true]

end Round

/-- `eztftp_read` copies what the list of the nodes' bytes says, and leaves the nodes that are not
read to their end. -/
theorem readFrom_refines {out : Bytes} (hd : h.Describes l) (hfuel : len + l.length < fuel) :
    ∃ h', readFrom fuel h len out = .ok (out ++ (Cache.readFrom (l.map snd) len).1, h') ∧
      h'.Describes (unread l len) ∧
      (unread l len).map snd = (Cache.readFrom (l.map snd) len).2 ∧
      h'.allocated = h.allocated ∧
      h'.frames + (unread l len).length = h.frames + l.length := by
  induction l generalizing h len fuel out with
  | nil =>
    obtain ⟨fuel, rfl⟩ := Nat.exists_eq_add_of_le' (Nat.one_le_of_lt hfuel)
    have hbuf : h.curbuf = none := hd.chain
    refine ⟨h, ?_, hd, rfl, rfl, rfl⟩
    simp [readFrom, hbuf, Cache.readFrom]
  | cons x l ih =>
    obtain ⟨i, b⟩ := x
    rw [length_cons] at hfuel
    obtain ⟨fuel, rfl⟩ := Nat.exists_eq_add_of_le' (show 2 ≤ fuel by omega)
    have hunread : b ≠ [] := (hd.holds (i, b) (by simp)).elim fun _ hn => hn.unread
    rw [map_cons, Cache.readFrom, unread]
    dsimp only
    by_cases hzero : len = 0
    · have hpos := length_pos_iff.mpr hunread
      have hbuf : h.curbuf = some i := hd.chain.1
      subst hzero
      rw [if_pos rfl, if_neg (by omega), append_nil, drop_zero, readFrom, hbuf]
      exact ⟨h, rfl, hd, rfl, rfl, rfl⟩
    rw [if_neg hzero]
    by_cases hend : b.length ≤ len
    · obtain ⟨h1, hround, hd1, halloc1, hframes1⟩ := readFrom_whole hd hzero (fuel + 1) out hend
      have hfuel1 : len - b.length + l.length < fuel + 1 := by
        have := length_pos_iff.mpr hunread
        omega
      obtain ⟨h', hret, hd', hsnd, halloc, hframes⟩ := ih hd1 hfuel1
      rw [Nat.min_eq_right hend, if_pos (Nat.sub_self _), if_pos hend, take_length,
        ← append_assoc, hround]
      exact ⟨h', hret, hd', hsnd, halloc.trans halloc1, by rw [length_cons]; omega⟩
    · obtain ⟨h1, hround, hd1, halloc1, hframes1⟩ := readFrom_part hd hzero fuel out (by omega)
      rw [Nat.min_eq_left (by omega), if_neg (by omega), if_neg hend]
      exact ⟨h1, hround, hd1, rfl, halloc1, by simp [hframes1]⟩

theorem unread_unread (l : List (Nat × Bytes)) (pos k : Nat) :
    unread (unread l pos) k = unread l (pos + k) := by
  induction l generalizing pos with
  | nil => rfl
  | cons x l ih =>
    obtain ⟨i, b⟩ := x
    rw [unread, unread]
    by_cases hpos : b.length ≤ pos
    · rw [if_pos hpos, if_pos (by omega), ih, show pos - b.length + k = pos + k - b.length by omega]
    · rw [if_neg hpos, unread, length_drop, drop_drop]
      by_cases hend : b.length ≤ pos + k
      · rw [if_pos (by omega), if_pos hend, show k - (b.length - pos) = pos + k - b.length by omega]
      · rw [if_neg (by omega), if_neg hend]

theorem mem_unread_iff {front back : List (Nat × Bytes)} {b : Bytes}
    (hnodup : ((front ++ (i, b) :: back).map fst).Nodup) (pos : Nat) :
    i ∈ (unread (front ++ (i, b) :: back) pos).map fst ↔
      pos < ((front.map snd).flatten ++ b).length := by
  induction front generalizing pos with
  | nil =>
    rw [nil_append, map_cons, nodup_cons] at hnodup
    rw [nil_append, unread]
    split
    · have hgone : i ∉ (unread back (pos - b.length)).map fst :=
        fun hmem => hnodup.1 ((unread_sublist back (pos - b.length)).subset hmem)
      simp only [hgone, false_iff, map_nil, flatten_nil, nil_append]
      omega
    · simp only [map_cons, mem_cons, true_or, true_iff, map_nil, flatten_nil,
        nil_append]
      omega
  | cons x front ih =>
    rw [cons_append, map_cons, nodup_cons] at hnodup
    rw [cons_append, unread]
    simp only [map_cons, flatten_cons, append_assoc, length_append]
    split
    · rw [ih hnodup.2, length_append]
      omega
    · simp only [map_cons, map_append, mem_cons, mem_append, true_or, or_true,
        true_iff]
      omega

theorem read_refines (hd : h.Describes l) (len : Nat) :
    ∃ h', h.read len = .ok (((h.view l).read len).1, h') ∧
      h'.view (unread l len) = ((h.view l).read len).2 ∧ h'.Describes (unread l len) ∧
      h'.allocated = h.allocated := by
  have hall := congrArg length hd.all
  simp only [length_append, length_map, length_range] at hall
  have hfuel : len + l.length < len + h.allocated + 1 := by omega
  obtain ⟨h', hret, hd', hsnd, halloc, hframes⟩ := readFrom_refines hd hfuel
  refine ⟨h', hret, ?_, hd', halloc⟩
  have hlength : (Cache.readFrom (l.map snd) len).2.length = (unread l len).length := by
    rw [← hsnd, length_map]
  have hle := (unread_sublist l len).length_le
  simp only [length_map] at hle
  simp only [view, Cache.read, hsnd, hlength, length_map, Cache.mk.injEq, true_and]
  omega

theorem readAll_refines (hd : h.Describes l) (lens : List Nat) :
    ∃ outs h', h.readAll lens = .ok (outs, h') ∧
      outs.flatten = (h.view l).bytes.take lens.sum ∧
      h'.Describes (unread l lens.sum) ∧ h'.allocated = h.allocated := by
  induction lens generalizing h l with
  | nil =>
    refine ⟨[], h, rfl, by simp, ?_, rfl⟩
    rwa [sum_nil, unread_zero fun x hx => (hd.holds x hx).elim fun _ hn => hn.unread]
  | cons len lens ih =>
    obtain ⟨h1, hret, hview, hd1, halloc1⟩ := read_refines hd len
    obtain ⟨outs, h', hrets, houts, hd', halloc⟩ := ih hd1
    obtain ⟨hout, hrest⟩ := (h.view l).read_spec len
    refine ⟨((h.view l).read len).1 :: outs, h', ?_, ?_, ?_, halloc.trans halloc1⟩
    · rw [readAll, hret, ok_bind]
      dsimp only
      rw [hrets, ok_bind]
    · rw [flatten_cons, houts, hview, hrest, hout, sum_cons, take_add]
    · rwa [unread_unread] at hd'

theorem cacheAll_refines (hd : h.Describes l) (hfresh : h.Fresh) (writes : List Bytes)
    (hspare : writes.flatten.length ≤ (h.view l).spare) :
    ∃ h' l', h.cacheAll writes = .ok h' ∧ h'.Describes l' ∧ h'.freed = h.freed ∧
      (h'.view l').bytes = (h.view l).bytes ++ writes.flatten := by
  induction writes generalizing h l with
  | nil => exact ⟨h, l, rfl, hd, rfl, by simp⟩
  | cons buf writes ih =>
    rw [flatten_cons, length_append] at hspare
    obtain ⟨c, happ, hspare1⟩ | ⟨hlt, -⟩ := (h.view l).append_cases buf
    · have hbytes := Cache.append_bytes happ
      obtain ⟨h1, l1, hcache, hd1, hfresh1, hfreed1, rfl⟩ := cacheFrom_refines hd hfresh happ
      obtain ⟨h', l', hrest, hd', hfreed, hbytes'⟩ := ih hd1 hfresh1 (by omega)
      refine ⟨h', l', ?_, hd', hfreed.trans hfreed1, ?_⟩
      · rw [cacheAll, foldlM_cons, cache, hcache]
        exact hrest
      · rw [hbytes', hbytes, flatten_cons, append_assoc]
    · omega

/-- What a sequence of writes and a sequence of reads do: `l` are the nodes with their bytes between
the two. -/
structure Streams (writes : List Bytes) (lens : List Nat) (h h' : BlockList)
    (l : List (Nat × Bytes)) (outs : List Bytes) : Prop where
  cached : (l.map snd).flatten = writes.flatten
  nodes : h.Describes l
  bytes : outs.flatten = writes.flatten.take lens.sum
  length : outs.flatten.length = min lens.sum writes.flatten.length
  left : h'.Describes (unread l lens.sum)
  freedOnce : h'.freed ++ (unread l lens.sum).map fst = l.map fst
  freed : ∀ front i b back, l = front ++ (i, b) :: back →
    (i ∈ h'.freed ↔ ((front.map snd).flatten ++ b).length ≤ lens.sum)
  done : writes.flatten.length ≤ lens.sum →
    h'.curbuf = none ∧ h'.curend = none ∧ h'.freed = l.map fst

theorem unread_all {pos : Nat} (hle : (l.map snd).flatten.length ≤ pos) : unread l pos = [] := by
  induction l generalizing pos with
  | nil => rfl
  | cons x l ih =>
    rw [map_cons, flatten_cons, length_append] at hle
    rw [unread, if_pos (by omega)]
    exact ih (by omega)

/-- What is read is the first part of what was written, and a node is given back once, with its
last byte. -/
theorem block_cache_streams (frames : Nat) (writes : List Bytes) (lens : List Nat)
    (hframes : writes.flatten.length ≤ nodeCapacity * frames) :
    ∃ h l outs h', (empty frames).cacheAll writes = .ok h ∧ h.readAll lens = .ok (outs, h') ∧
      Streams writes lens h h' l outs := by
  have hspare : ((empty frames).view []).spare = nodeCapacity * frames := Nat.zero_add _
  obtain ⟨h, l, hcache, hd, hfreed, hbytes⟩ := cacheAll_refines (describes_empty frames)
    (fresh_empty frames) writes (hspare ▸ hframes)
  obtain ⟨outs, h', hread, houts, hd', halloc⟩ := readAll_refines hd lens
  have hall : l.map fst = List.range h.allocated := by
    have := hd.all
    rwa [hfreed] at this
  have hcached : (l.map snd).flatten = writes.flatten := hbytes
  have honce : h'.freed ++ (unread l lens.sum).map fst = l.map fst := by
    rw [hd'.all, halloc, hall]
  refine ⟨h, l, outs, h', hcache, hread, hcached, hd, ?_, ?_, hd', honce, ?_, ?_⟩
  · rw [houts, hbytes]
    rfl
  · rw [houts, hbytes, List.length_take]
    rfl
  · rintro front i b back rfl
    have hnodup := hd.nodup
    rw [← not_lt, ← mem_unread_iff hnodup lens.sum]
    rw [← honce, List.nodup_append] at hnodup
    have hmem : i ∈ h'.freed ++ (unread (front ++ (i, b) :: back) lens.sum).map fst := by
      rw [honce]
      simp
    constructor
    · exact fun hi hi' => hnodup.2.2 i hi i hi' rfl
    · exact fun hi => (List.mem_append.mp hmem).resolve_right hi
  · intro hle
    rw [unread_all (hcached ▸ hle)] at hd' honce
    exact ⟨hd'.chain, hd'.last, by simpa using honce⟩

theorem block_cache_streams_four_bytes :
    ∃ h l outs h', (empty 1).cacheAll [[1, 2, 3], [4]] = .ok h ∧
      h.readAll [2, 5] = .ok (outs, h') ∧ Streams [[1, 2, 3], [4]] [2, 5] h h' l outs :=
  block_cache_streams 1 [[1, 2, 3], [4]] [2, 5] (by decide)

end BlockList

end Quest.Fs.Tftp
