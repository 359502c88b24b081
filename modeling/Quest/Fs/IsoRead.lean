import Quest.Fs.Iso9660
import Quest.Lib.Cursor
import Quest.Lib.Memory

/-! Reading a file of an ISO 9660 volume: `fs/iso9660/fsys_iso9660.c`. -/
namespace Quest.Fs.Iso9660

open Quest.Lib Memory Cursor List

def Handle.left (h : Handle) : Nat := (sectorSize + 2 ^ 32 - h.offset) % 2 ^ 32

def Handle.advance (h : Handle) (curlen : Nat) : Handle :=
  let length := (h.length + 2 ^ 32 - curlen) % 2 ^ 32
  if h.offset + curlen = sectorSize then ⟨h.sector + 1, 0, length⟩
  else ⟨h.sector, h.offset + curlen, length⟩

/-- The loop of `iso9660_read`, with `rem` bytes to go; `none` is the result -1. -/
def readFrom (v : Volume) : Nat → Handle → Nat → Name → Except Fault (Option Name × Handle)
  | 0, _, _, _ => .error .diverges
  | n + 1, h, rem, buf =>
      if rem = 0 then .ok (some buf, h)
      else
        match v.sectors[h.sector]? with
        | none => .ok (none, h)
        | some page =>
            let curlen := min rem h.left
            if 4096 < h.offset + curlen then .error .outOfBounds
            else readFrom v n (h.advance curlen) (rem - curlen) (buf ++ bytesAt page h.offset curlen)

def iso9660Read (v : Volume) (h : Handle) (len : Nat) : Except Fault (Option Name × Handle) :=
  readFrom v (len + 1) h len []

def ezisoRead (v : Volume) (h : Handle) (len : Nat) : Except Fault (Name × Handle) :=
  Prod.map (fun buf => buf.getD []) id <$> iso9660Read v h len

def Volume.view (v : Volume) (first : Nat) : Name :=
  (v.sectors.drop first).flatMap fun page => bytesAt page 0 sectorSize

structure Handle.At (first : Nat) (h : Handle) (pos : Nat) : Prop where
  sector : h.sector = first + pos / sectorSize
  offset : h.offset = pos % sectorSize

variable {v : Volume} {h : Handle} {first pos rem n len : Nat} {buf : Name}

theorem length_view : (v.view first).length = sectorSize * (v.sectors.length - first) := by
  rw [Volume.view, length_blocks fun _ => length_bytesAt, length_drop]

section

variable (hat : h.At first pos)
include hat

theorem Handle.At.left : h.left = sectorSize - pos % sectorSize := by
  rw [Handle.left, hat.offset]
  rw [sectorSize] at *
  omega

theorem Handle.At.advance {curlen : Nat}
    (hle : pos % sectorSize + curlen ≤ sectorSize) : (h.advance curlen).At first (pos + curlen) := by
  have hsec := hat.sector
  rw [Handle.advance, hat.offset]
  rw [sectorSize] at *
  split <;> constructor <;> dsimp only <;> rw [sectorSize] <;> omega

theorem readFrom_spec (hpos : pos ≤ (v.view first).length) (hn : rem < n) :
    ∃ h', readFrom v n h rem buf =
        .ok (if pos + rem ≤ (v.view first).length then
          some (buf ++ ((v.view first).drop pos).take rem) else none, h') ∧
      h'.At first (min (pos + rem) (v.view first).length) := by
  have hsize : 0 < sectorSize := by decide
  induction n generalizing h pos rem buf with
  | zero => omega
  | succ n ih =>
    rw [readFrom]
    by_cases hrem : rem = 0
    · subst hrem
      rw [if_pos rfl, add_zero, if_pos hpos, Nat.min_eq_left hpos, take_zero,
        append_nil]
      exact ⟨h, rfl, hat⟩
    rw [if_neg hrem]
    cases hpage : v.sectors[h.sector]? with
    | none =>
      rw [hat.sector, getElem?_eq_none_iff] at hpage
      have hend : pos = (v.view first).length := by
        have hdiv := Nat.div_add_mod pos sectorSize
        have hle := Nat.mul_le_mul_left sectorSize (Nat.sub_le_iff_le_add'.mpr hpage)
        rw [length_view] at hpos ⊢
        omega
      dsimp only
      rw [if_neg (by omega), Nat.min_eq_right (by omega), ← hend]
      exact ⟨h, rfl, hat⟩
    | some page =>
      have hmod := Nat.mod_lt pos hsize
      have hdiv := Nat.div_add_mod pos sectorSize
      have hblock : (v.sectors.drop first)[pos / sectorSize]? = some page := by
        rw [getElem?_drop, ← hat.sector, hpage]
      have hbytes := take_drop_blocks (f := fun page => bytesAt page 0 sectorSize)
        (fun _ => length_bytesAt) hblock
        (show pos % sectorSize + min rem (sectorSize - pos % sectorSize) ≤ sectorSize by omega)
      have hin : pos + min rem (sectorSize - pos % sectorSize) ≤ (v.view first).length := by
        have hlt := (List.getElem?_eq_some_iff.mp hblock).1
        rw [length_drop] at hlt
        have hle := Nat.mul_le_mul_left sectorSize hlt
        rw [Nat.mul_succ] at hle
        rw [length_view]
        omega
      dsimp only
      rw [hat.left, hat.offset]
      generalize hcurlen : min rem (sectorSize - pos % sectorSize) = curlen at *
      rw [drop_bytesAt hmod.le, take_bytesAt (by omega), zero_add, Nat.div_add_mod,
        ← Volume.view] at hbytes
      have hfits : ¬4096 < pos % sectorSize + curlen := by
        rw [sectorSize] at *
        omega
      obtain ⟨rest, rfl⟩ := Nat.exists_eq_add_of_le (show curlen ≤ rem by omega)
      rw [if_neg hfits, Nat.add_sub_cancel_left, ← hbytes]
      obtain ⟨h', hret, hat'⟩ := ih (hat.advance (by omega)) hin (show rest < n by omega)
      rw [add_assoc] at hret hat'
      refine ⟨h', hret.trans ?_, hat'⟩
      rw [append_assoc, take_add, drop_drop]

theorem ezisoRead_spec (hpos : pos ≤ (v.view first).length) :
    ∃ h', ezisoRead v h len = .ok (got (v.view first) false pos len, h') ∧
      h'.At first (min (pos + len) (v.view first).length) := by
  obtain ⟨h', hret, hat'⟩ := readFrom_spec hat hpos (Nat.lt_succ_self len)
  refine ⟨h', ?_, hat'⟩
  rw [ezisoRead, iso9660Read, hret, got]
  by_cases hin : pos + len ≤ (v.view first).length
  · rw [if_pos hin, if_pos (.inr hin)]
    rfl
  · rw [if_neg hin, if_neg (by simpa using hin)]
    rfl

end

theorem at_iso9660Open {pathname : Name} (hopen : iso9660Open v pathname = .ok (some h)) :
    h.At h.sector 0 := by
  rw [iso9660Open] at hopen
  split at hopen
  · cases hopen
  · obtain ⟨entry, -, hentry⟩ := map_eq_ok.mp hopen
    obtain ⟨de, -, rfl⟩ := Option.map_eq_some_iff.mp hentry
    exact ⟨rfl, rfl⟩

theorem Handle.At.eq {h' : Handle} (hat : h.At first pos) (hat' : h'.At first pos)
    (hlen : h'.length = h.length) : h' = h := by
  obtain ⟨sector, offset, length⟩ := h
  obtain ⟨sector', offset', length'⟩ := h'
  simp only [Handle.mk.injEq]
  exact ⟨hat'.sector.trans hat.sector.symm, hat'.offset.trans hat.offset.symm, hlen⟩

theorem Handle.length_advance (h : Handle) (curlen : Nat) :
    (h.advance curlen).length = (h.length + 2 ^ 32 - curlen) % 2 ^ 32 := by
  rw [Handle.advance]
  split <;> rfl

theorem readFrom_length {out : Name} {h' : Handle} (hrem : rem ≠ 0)
    (hret : readFrom v n h rem buf = .ok (some out, h')) :
    h'.length = (h.length + (2 ^ 32 - 1) * rem) % 2 ^ 32 := by
  induction n generalizing h rem buf with
  | zero => cases hret
  | succ n ih =>
    rw [readFrom, if_neg hrem] at hret
    split at hret
    · cases hret
    · dsimp only at hret
      split at hret
      · cases hret
      · have hlen := h.length_advance (min rem h.left)
        generalize hcurlen : min rem h.left = curlen at *
        by_cases hlast : rem - curlen = 0
        · rw [hlast] at hret
          cases n with
          | zero => cases hret
          | succ n =>
            cases hret
            omega
        · rw [ih hlast hret, hlen]
          omega

theorem iso9660Read_inside (v : Volume) (len : Nat) (hat : h.At 0 pos)
    (hin : pos + len ≤ (v.view 0).length) :
    ∃ h', iso9660Read v h len = .ok (some (((v.view 0).drop pos).take len), h') ∧
      h'.At 0 (pos + len) ∧
      h'.length = if len = 0 then h.length else (h.length + (2 ^ 32 - 1) * len) % 2 ^ 32 := by
  have hpos : pos ≤ (v.view 0).length := by omega
  obtain ⟨h', hret, hat'⟩ := readFrom_spec hat hpos (Nat.lt_succ_self len)
  rw [if_pos hin, nil_append] at hret
  rw [Nat.min_eq_left hin] at hat'
  refine ⟨h', hret, hat', ?_⟩
  split
  · rename_i hzero
    subst hzero
    cases hret
    rfl
  · rename_i hne
    exact readFrom_length hne hret

/-- Reads compose: two of them give the bytes and leave the handle of one that is as long as
both. -/
theorem iso9660_reads_compose (v : Volume) (h : Handle) (l1 l2 : Nat)
    (hoffset : h.offset < sectorSize)
    (hdrive : sectorSize * h.sector + h.offset + (l1 + l2) ≤ sectorSize * v.sectors.length) :
    ∃ b1 b2 h1 h2, iso9660Read v h l1 = .ok (some b1, h1) ∧
      iso9660Read v h1 l2 = .ok (some b2, h2) ∧
      iso9660Read v h (l1 + l2) = .ok (some (b1 ++ b2), h2) ∧
      b1 ++ b2 = ((v.view 0).drop (sectorSize * h.sector + h.offset)).take (l1 + l2) := by
  have hat : h.At 0 (sectorSize * h.sector + h.offset) := by
    rw [sectorSize] at *
    constructor <;> rw [sectorSize] <;> omega
  have hview : (v.view 0).length = sectorSize * v.sectors.length := by
    rw [length_view, Nat.sub_zero]
  generalize sectorSize * h.sector + h.offset = pos at *
  obtain ⟨h1, hret1, hat1, hlength1⟩ := iso9660Read_inside v l1 hat (by omega)
  obtain ⟨h2, hret2, hat2, hlength2⟩ := iso9660Read_inside v l2 hat1 (by omega)
  obtain ⟨h3, hret3, hat3, hlength3⟩ := iso9660Read_inside v (l1 + l2) hat (by omega)
  have hbytes : ((v.view 0).drop pos).take l1 ++ ((v.view 0).drop (pos + l1)).take l2 =
      ((v.view 0).drop pos).take (l1 + l2) := by
    rw [List.take_add, List.drop_drop]
  have hlength : h3.length = h2.length := by
    rw [hlength3, hlength2, hlength1]
    split_ifs <;> omega
  rw [Nat.add_assoc] at hat2
  rw [hat2.eq hat3 hlength] at hret3
  exact ⟨_, _, h1, h2, hret1, hret2, hbytes ▸ hret3, hbytes⟩

theorem iso9660_reads_compose_two_sectors :
    ∃ b1 b2 h1 h2, iso9660Read ⟨[fun _ => 1, fun _ => 2], ⟨0, 0⟩⟩ ⟨0, 2000, 100⟩ 50 =
        .ok (some b1, h1) ∧
      iso9660Read ⟨[fun _ => 1, fun _ => 2], ⟨0, 0⟩⟩ h1 10 = .ok (some b2, h2) ∧
      iso9660Read ⟨[fun _ => 1, fun _ => 2], ⟨0, 0⟩⟩ ⟨0, 2000, 100⟩ (50 + 10) =
        .ok (some (b1 ++ b2), h2) ∧
      b1 ++ b2 = ((Volume.view ⟨[fun _ => 1, fun _ => 2], ⟨0, 0⟩⟩ 0).drop
        (sectorSize * 0 + 2000)).take (50 + 10) :=
  iso9660_reads_compose ⟨[fun _ => 1, fun _ => 2], ⟨0, 0⟩⟩ ⟨0, 2000, 100⟩ 50 10 (by decide)
    (by decide)

end Quest.Fs.Iso9660
