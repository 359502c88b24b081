import Quest.Fs.Vfs

/-! Reading files in the C library (`libc/src/stdio.c`) over `_open` and `_read` of the kernel's
`interrupt_handler.c`. -/
namespace Quest.Libc

open Lib.Memory Lib.Cursor Fs
open Iso9660 (Name)

def tmpBufSize : Nat := 8192

structure OpenFile where
  fp : Int
  filesize : Int
  tmpBuf : Nat → UInt8

namespace OpenFile

def memcpy (s : OpenFile) (cb : Int) : Except Fault (List UInt8) :=
  let count : Nat := (cb % 2 ^ 32).toNat
  if count = 0 ∨ 0 ≤ s.fp ∧ s.fp + count ≤ tmpBufSize then .ok (bytesAt s.tmpBuf s.fp.toNat count)
  else .error .outOfBounds

def fread (s : OpenFile) (size nmemb : Int) : Except Fault (List UInt8 × Int × OpenFile) := do
  let nmemb :=
    if s.filesize < wrap (wrap (size * nmemb) + s.fp) then (wrap (s.filesize - s.fp)).tdiv size
    else nmemb
  let bytes ← s.memcpy (wrap (size * nmemb))
  .ok (bytes, nmemb, { s with fp := wrap (s.fp + wrap (size * nmemb)) })

def fopen (found : Found) (s : OpenFile) (v : Vfs) (path : Name) :
    Except Fault (Bool × OpenFile × Vfs) := do
  let (filesize, v) ← v.vfsDir found path
  if filesize < 0 then .ok (false, { s with filesize }, v)
  else do
    let (out, v) ← v.vfsRead s.tmpBuf path filesize.toNat
    if tmpBufSize < (out.getD []).length then .error .outOfBounds
    else .ok (true, ⟨0, filesize, place s.tmpBuf 0 (out.getD [])⟩, v)

def freads : OpenFile → List (Nat × Nat) → Except Fault (List (List UInt8 × Int))
  | _, [] => .ok []
  | s, (size, nmemb) :: calls => do
      let (bytes, count, s) ← s.fread size nmemb
      ((bytes, count) :: ·) <$> s.freads calls

def Whole (call : Nat × Nat) (result : List UInt8 × Int) : Prop :=
  (result.1.length : Int) = call.1 * result.2 ∧ result.2 ≤ call.2

/-- The file is opened, no access is outside of a buffer, and the calls deliver whole elements that
are the front of the file. -/
def Delivers (found : Found) (s : OpenFile) (v : Vfs) (path : Name) (file : List UInt8)
    (calls : List (Nat × Nat)) : Prop :=
  ∃ s' v' results, fopen found s v path = .ok (true, s', v') ∧ s'.freads calls = .ok results ∧
    results.flatMap Prod.fst <+: file ∧ List.Forall₂ Whole calls results

def elements (L pos : Nat) (call : Nat × Nat) : Nat := min call.2 ((L - pos) / call.1)

def finish (L : Nat) : Nat → List (Nat × Nat) → Nat
  | pos, [] => pos
  | pos, call :: calls => finish L (pos + call.1 * elements L pos call) calls

/-- The `int` that the end of a request wraps to is behind the end of the file, too. -/
def Seen (L : Nat) : Nat → List (Nat × Nat) → Prop
  | _, [] => True
  | pos, call :: calls =>
      (L < pos + call.1 * call.2 → (L : Int) < wrap ↑(pos + call.1 * call.2)) ∧
        Seen L (pos + call.1 * elements L pos call) calls

variable {L pos : Nat} {call : Nat × Nat} {calls : List (Nat × Nat)} {buf : Nat → UInt8}

theorem elements_le (L pos : Nat) (call : Nat × Nat) :
    call.1 * elements L pos call ≤ L - pos :=
  (Nat.mul_le_mul_left _ (Nat.min_le_right _ _)).trans (Nat.mul_div_le _ _)

theorem elements_eq (hsize : 0 < call.1) (hpos : pos ≤ L) :
    elements L pos call = if L < pos + call.1 * call.2 then (L - pos) / call.1 else call.2 := by
  split
  · apply Nat.min_eq_right
    exact (Nat.div_lt_of_lt_mul (by omega)).le
  · apply Nat.min_eq_left
    rw [Nat.le_div_iff_mul_le hsize, mul_comm]
    omega

theorem memcpy_eq {count : Nat} (hcount : count < 2 ^ 31) :
    memcpy ⟨pos, L, buf⟩ (wrap count) =
      if count = 0 ∨ pos + count ≤ tmpBufSize then .ok (bytesAt buf pos count)
      else .error .outOfBounds := by
  have hmod : ((count : Int) % 2 ^ 32).toNat = count := by omega
  rw [memcpy, wrap_eq (by omega) (by omega), hmod]
  simp only [Int.toNat_natCast]
  congr 1
  apply propext
  omega

theorem fread_seen (hsize : 0 < call.1) (hpos : pos ≤ L) (hL : L < 2 ^ 31)
    (hseen : L < pos + call.1 * call.2 → (L : Int) < wrap ↑(pos + call.1 * call.2)) :
    fread ⟨pos, L, buf⟩ call.1 call.2 =
      if call.1 * elements L pos call = 0 ∨
          pos + call.1 * elements L pos call ≤ tmpBufSize then
        .ok (bytesAt buf pos (call.1 * elements L pos call), elements L pos call,
          ⟨↑(pos + call.1 * elements L pos call), L, buf⟩)
      else .error .outOfBounds := by
  have hle := elements_le L pos call
  have hcompare : (L : Int) < wrap (wrap (↑call.1 * ↑call.2) + pos) ↔ L < pos + call.1 * call.2 := by
    have hwrap := wrap_le (x := ↑(pos + call.1 * call.2)) (by omega)
    rw [wrap_wrap_add, Int.add_comm]
    push_cast at hseen hwrap ⊢
    omega
  have hnmemb : (if (L : Int) < wrap (wrap (↑call.1 * ↑call.2) + pos) then
      (wrap (↑L - ↑pos)).tdiv call.1 else ↑call.2) = (elements L pos call : Int) := by
    rw [elements_eq hsize hpos, wrap_eq (x := ↑L - ↑pos) (by omega) (by omega)]
    by_cases hlt : L < pos + call.1 * call.2
    · rw [if_pos (hcompare.mpr hlt), if_pos hlt, ← Nat.cast_sub hpos, Int.ofNat_tdiv]
    · rw [if_neg (mt hcompare.mp hlt), if_neg hlt]
  rw [fread]
  rw [hnmemb, ← Nat.cast_mul, memcpy_eq (by omega)]
  split
  · rw [ok_bind, wrap_eq (x := ↑(call.1 * elements L pos call)) (by omega) (by omega),
      ← Nat.cast_add, wrap_eq (by omega) (by omega)]
  · rfl

theorem fread_unseen {result : List UInt8 × Int × OpenFile} (hpos : pos ≤ L)
    (hlt : L < pos + call.1 * call.2) (hunseen : wrap ↑(pos + call.1 * call.2) ≤ L)
    (hret : fread ⟨pos, L, buf⟩ call.1 call.2 = .ok result) :
    ¬ Whole call (result.1, result.2.1) := by
  have hcompare : ¬ (L : Int) < wrap (wrap (↑call.1 * ↑call.2) + pos) := by
    rw [wrap_wrap_add, Int.add_comm]
    push_cast at hunseen
    omega
  rw [fread] at hret
  rw [if_neg hcompare] at hret
  obtain ⟨bytes, hbytes, hret⟩ := bind_eq_ok.mp hret
  cases hret
  rw [memcpy, wrap_emod] at hbytes
  split at hbytes
  · rename_i hin
    cases hbytes
    rintro ⟨hlen, -⟩
    rw [length_bytesAt] at hlen
    -- All bytes were copied, so the request ends inside of `tmp_buf` and did not wrap.
    have hend : ((pos + call.1 * call.2 : Nat) : Int) < 2 ^ 31 := by
      rw [tmpBufSize] at hin
      dsimp only at hin hlen
      omega
    rw [wrap_eq (by omega) hend] at hunseen
    omega
  · cases hbytes

theorem le_finish (L pos : Nat) (calls : List (Nat × Nat)) : pos ≤ finish L pos calls := by
  induction calls generalizing pos with
  | nil => exact le_rfl
  | cons call calls ih => exact (Nat.le_add_right _ _).trans (ih _)

theorem finish_le (hpos : pos ≤ L) : finish L pos calls ≤ L := by
  induction calls generalizing pos with
  | nil => exact hpos
  | cons call calls ih =>
    have := elements_le L pos call
    exact ih (by omega)

theorem bytesAt_finish (buf : Nat → UInt8) (L pos : Nat) (call : Nat × Nat)
    (calls : List (Nat × Nat)) :
    bytesAt buf pos (call.1 * elements L pos call) ++
        bytesAt buf (pos + call.1 * elements L pos call)
          (finish L (pos + call.1 * elements L pos call) calls -
            (pos + call.1 * elements L pos call)) =
      bytesAt buf pos (finish L pos (call :: calls) - pos) := by
  have := le_finish L (pos + call.1 * elements L pos call) calls
  rw [← bytesAt_add, finish]
  congr 1
  omega

theorem freads_of_seen (buf : Nat → UInt8) (hsizes : ∀ call ∈ calls, 0 < call.1) (hpos : pos ≤ L)
    (hL : L < 2 ^ 31) (hseen : Seen L pos calls) (hfin : finish L pos calls ≤ tmpBufSize) :
    ∃ results, freads ⟨pos, L, buf⟩ calls = .ok results ∧ List.Forall₂ Whole calls results ∧
      results.flatMap Prod.fst = bytesAt buf pos (finish L pos calls - pos) := by
  induction calls generalizing pos with
  | nil => exact ⟨[], rfl, .nil, by simp [finish]⟩
  | cons call calls ih =>
    rw [List.forall_mem_cons] at hsizes
    have hle := elements_le L pos call
    have hnext := le_finish L (pos + call.1 * elements L pos call) calls
    have hin : pos + call.1 * elements L pos call ≤ tmpBufSize := hnext.trans hfin
    obtain ⟨results, hret, hwhole, hbytes⟩ := ih hsizes.2 (by omega) hseen.2 hfin
    refine ⟨(bytesAt buf pos (call.1 * elements L pos call), elements L pos call) :: results, ?_,
      .cons ⟨?_, ?_⟩ hwhole, ?_⟩
    · rw [freads, fread_seen hsizes.1 hpos hL hseen.1, if_pos (.inr hin), ok_bind]
      dsimp only
      rw [hret]
      rfl
    · rw [length_bytesAt]
      push_cast
      rfl
    · exact Int.ofNat_le.mpr (Nat.min_le_left _ _)
    · rw [List.flatMap_cons, hbytes]
      exact bytesAt_finish buf L pos call calls

theorem seen_of_freads {results : List (List UInt8 × Int)} (hsizes : ∀ call ∈ calls, 0 < call.1)
    (hpos : pos ≤ L) (hL : L < 2 ^ 31) (hbuf : pos ≤ tmpBufSize)
    (hret : freads ⟨pos, L, buf⟩ calls = .ok results) (hwhole : List.Forall₂ Whole calls results) :
    Seen L pos calls ∧ finish L pos calls ≤ tmpBufSize ∧
      results.flatMap Prod.fst = bytesAt buf pos (finish L pos calls - pos) := by
  induction hwhole generalizing pos with
  | nil => exact ⟨trivial, hbuf, by simp [finish]⟩
  | @cons call result calls results hcall _ ih =>
    rw [List.forall_mem_cons] at hsizes
    have hle := elements_le L pos call
    rw [freads] at hret
    obtain ⟨first, hfirst, hret⟩ := bind_eq_ok.mp hret
    obtain ⟨rest, hrest, hcons⟩ := map_eq_ok.mp hret
    rw [List.cons.injEq] at hcons
    obtain ⟨rfl, rfl⟩ := hcons
    by_cases hseen : L < pos + call.1 * call.2 → (L : Int) < wrap ↑(pos + call.1 * call.2)
    · rw [fread_seen hsizes.1 hpos hL hseen] at hfirst
      split at hfirst
      · rename_i hin
        cases hfirst
        obtain ⟨hrestSeen, hfin, hbytes⟩ := ih hsizes.2 (by omega) (by omega) hrest
        refine ⟨⟨hseen, hrestSeen⟩, hfin, ?_⟩
        rw [List.flatMap_cons, hbytes]
        exact bytesAt_finish buf L pos call calls
      · cases hfirst
    · rw [Classical.not_imp] at hseen
      exact absurd hcall (fread_unseen hpos hseen.1 (by omega) hfirst)

end OpenFile

open OpenFile Vfs

section

variable {found : Found} {s : OpenFile} {v v' : Vfs} {path filepart : Name} {type : Fsys} {L : Nat}
  {c : Content} {calls : List (Nat × Nat)}

variable (hparse : parsePathname v.rootType path = some (type, filepart))
include hparse

variable (hdir : v.vfsDir found path = .ok (L, v'))
include hdir

theorem fopen_eq
    (hholds : v'.Holds L type c) (hL : L < 2 ^ 31) :
    ∃ v'', fopen found s v path =
      if (got c.view c.short 0 L).length ≤ tmpBufSize then
        .ok (true, ⟨0, L, place s.tmpBuf 0 (got c.view c.short 0 L)⟩, v'')
      else .error .outOfBounds := by
  obtain ⟨At, -, hat, hread⟩ := hholds.opened s.tmpBuf hparse hdir
  obtain ⟨v'', hret⟩ := hread v' L hat (hholds.fine_front hL)
  refine ⟨v'', ?_⟩
  rw [fopen, hdir, ok_bind]
  dsimp only
  rw [if_neg (by omega), Int.toNat_natCast, hret, ok_bind]
  dsimp only [Option.getD_some]
  by_cases hfits : (got c.view c.short 0 L).length ≤ tmpBufSize
  · rw [if_pos hfits, if_neg (not_lt.mpr hfits)]
  · rw [if_neg hfits, if_pos (Nat.lt_of_not_le hfits)]

/-- The file is delivered exactly when what is read and what the calls ask for fit into `tmp_buf`,
no request wraps to the front of the file, and `tmp_buf` has the front of the file. -/
theorem delivers_iff
    (hholds : v'.Holds L type c) (hL : L < 2 ^ 31)
    (hsizes : ∀ call ∈ calls, 0 < call.1) :
    Delivers found s v path c.file calls ↔
      (got c.view c.short 0 L).length ≤ tmpBufSize ∧ finish L 0 calls ≤ tmpBufSize ∧
        Seen L 0 calls ∧
        bytesAt (place s.tmpBuf 0 (got c.view c.short 0 L)) 0 (finish L 0 calls) <+: c.file := by
  obtain ⟨v'', hopen⟩ := fopen_eq (s := s) hparse hdir hholds hL
  constructor
  · rintro ⟨s', v1, results, hopened, hret, hfront, hwhole⟩
    rw [hopen] at hopened
    split at hopened
    · rename_i hfits
      cases hopened
      obtain ⟨hseen, hfin, hbytes⟩ :=
        seen_of_freads hsizes (Nat.zero_le _) hL (Nat.zero_le _) hret hwhole
      rw [hbytes] at hfront
      exact ⟨hfits, hfin, hseen, hfront⟩
    · cases hopened
  · rintro ⟨hfits, hfin, hseen, hfront⟩
    obtain ⟨results, hret, hwhole, hbytes⟩ := freads_of_seen
      (place s.tmpBuf 0 (got c.view c.short 0 L)) hsizes (Nat.zero_le _) hL hseen hfin
    refine ⟨_, v'', results, ?_, hret, ?_, hwhole⟩
    · rw [hopen, if_pos hfits]
      rfl
    · rw [hbytes]
      exact hfront

theorem delivers_file_iff
    (hholds : v'.Holds L type c) (hL : L < 2 ^ 31)
    (hsizes : ∀ call ∈ calls, 0 < call.1) (hfile : c.file = c.view.take L)
    (hle : L ≤ c.view.length) :
    Delivers found s v path c.file calls ↔ L ≤ tmpBufSize ∧ Seen L 0 calls := by
  have hgot : got c.view c.short 0 L = c.file := by
    rw [got, if_pos (.inr (by omega)), List.drop_zero, hfile]
  have hlen : c.file.length = L := by rw [hfile, List.length_take, Nat.min_eq_left hle]
  rw [delivers_iff hparse hdir hholds hL hsizes, hgot, hlen]
  have hfin : finish L 0 calls ≤ L := finish_le (Nat.zero_le _)
  have hfront : bytesAt (place s.tmpBuf 0 c.file) 0 (finish L 0 calls) <+: c.file := by
    rw [bytesAt_place (by omega)]
    exact List.take_prefix _ _
  constructor
  · rintro ⟨hfits, -, hseen, -⟩
    exact ⟨hfits, hseen⟩
  · rintro ⟨hfits, hseen⟩
    exact ⟨hfits, hfin.trans hfits, hseen, hfront⟩

end

/-- For the files of the four file systems; the second part is for a file that is what the kernel
can read. -/
theorem fread_delivers_iff (found : Found) (s : OpenFile) (v v' : Vfs) (path filepart : Name)
    (type : Fsys) (L : Nat) (c : Content) (calls : List (Nat × Nat))
    (hparse : parsePathname v.rootType path = some (type, filepart))
    (hdir : v.vfsDir found path = .ok (L, v')) (hholds : v'.Holds L type c) (hL : L < 2 ^ 31)
    (hsizes : ∀ call ∈ calls, 0 < call.1) :
    (Delivers found s v path c.file calls ↔
      (got c.view c.short 0 L).length ≤ tmpBufSize ∧ finish L 0 calls ≤ tmpBufSize ∧
        Seen L 0 calls ∧
        bytesAt (place s.tmpBuf 0 (got c.view c.short 0 L)) 0 (finish L 0 calls) <+: c.file) ∧
    (c.file = c.view.take L → L ≤ c.view.length →
      (Delivers found s v path c.file calls ↔ L ≤ tmpBufSize ∧ Seen L 0 calls)) :=
  ⟨delivers_iff hparse hdir hholds hL hsizes, delivers_file_iff hparse hdir hholds hL hsizes⟩

theorem fread_delivers_iff_cd :
    Delivers nothing ⟨0, 0, fun _ => 0⟩ oneFile [47, 65] [97, 97, 97] [(1, 2), (1, 5)] := by
  have hview : (oneFile.volume.view 1).length = 2048 := Iso9660.length_view
  have hfile : (oneFile.volume.view 1).take 3 = [97, 97, 97] := by decide +kernel
  obtain ⟨-, hiff⟩ := fread_delivers_iff nothing ⟨0, 0, fun _ => 0⟩ oneFile _ [47, 65] [47, 65] .eziso
    3 ⟨oneFile.volume.view 1, false, fun _ _ => True, (oneFile.volume.view 1).take 3⟩ [(1, 2), (1, 5)]
    rfl oneFile_dir (.iso (by rw [hview]; decide)) (by decide) (by decide)
  dsimp only at hiff
  rw [hfile] at hiff
  exact (hiff rfl (by rw [hview]; decide)).mpr ⟨by decide, by decide, by decide, trivial⟩

def largeFile : Vfs :=
  { oneFile with
    volume :=
      ⟨[fun i => ([34, 0, 1, 0, 0, 0, 0, 0, 0, 0, 1, 32, 0, 0, 0, 0, 0, 0, 0, 0, 0, 0, 0, 0, 0, 0, 0, 0,
        0, 0, 0, 0, 1, 65] : List UInt8).getD i 0, fun _ => 97, fun _ => 97, fun _ => 97, fun _ => 97,
        fun _ => 97], ⟨0, 2048⟩⟩ }

theorem largeFile_dir :
    largeFile.vfsDir nothing [47, 65] = .ok (8193, { largeFile with iso := ⟨1, 0, 8193⟩ }) := by
  have hopen : Iso9660.iso9660Open largeFile.volume [47, 65] = .ok (some ⟨1, 0, 8193⟩) := by decide
  have hparse : parsePathname largeFile.rootType [47, 65] = some (.eziso, [47, 65]) := rfl
  rw [Vfs.vfsDir, hparse]
  dsimp only
  rfl

theorem fopen_overruns :
    fopen nothing ⟨0, 0, fun _ => 0⟩ largeFile [47, 65] = .error .outOfBounds ∧
      ∀ file, ¬ Delivers nothing ⟨0, 0, fun _ => 0⟩ largeFile [47, 65] file [] := by
  have hview : (largeFile.volume.view 1).length = 10240 := Iso9660.length_view
  have hgot : (got (largeFile.volume.view 1) false 0 8193).length = 8193 := by
    rw [got, if_pos (.inr (by rw [hview]; decide)), List.drop_zero, List.length_take, hview]
    rfl
  have hfopen : fopen nothing ⟨0, 0, fun _ => 0⟩ largeFile [47, 65] = .error .outOfBounds := by
    obtain ⟨v'', hopen⟩ := fopen_eq (s := ⟨0, 0, fun _ => 0⟩)
      (show parsePathname _ [47, 65] = some (.eziso, [47, 65]) from rfl) largeFile_dir
      (.iso (by rw [hview]; decide)) (by decide)
    rw [hopen, hgot]
    rfl
  refine ⟨hfopen, ?_⟩
  rintro file ⟨s', v', results, hopened, -⟩
  rw [hfopen] at hopened
  cases hopened

end Quest.Libc
