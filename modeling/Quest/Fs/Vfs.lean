import Quest.Fs.Ext2
import Quest.Fs.IsoRead
import Quest.Fs.Tftp
import Quest.Fs.Vfat

/-! The file systems behind `vfs_dir` and `vfs_read`: `fs/fsys.c`. -/
namespace Quest.Fs

open Quest.Lib Reach Cursor
open Iso9660 (Name)

inductive Fsys where
  | none
  | ezext2
  | eziso
  | eztftp
  | ezusb
  deriving DecidableEq, Repr

def vfsTable : List (Name × Fsys) :=
  [([104, 100], .ezext2), ([99, 100], .eziso), ([116, 102, 116, 112], .eztftp),
    ([117, 115, 98], .ezusb)]

/-- What is behind `)`, if the name is in front of it. -/
def stripName : Name → Name → Option Name
  | _, [] => none
  | [], c :: vfs => if c = 41 then some vfs else none
  | x :: name, c :: vfs => if c = 41 ∨ c ≠ x then none else stripName name vfs

/-- `parse_pathname`; `none` is the result -1. -/
def parsePathname (rootType : Fsys) (pathname : Name) : Option (Fsys × Name) :=
  match pathname with
  | 40 :: vfs => vfsTable.findSome? fun entry => (stripName entry.1 vfs).map fun rest => (entry.2, rest)
  | _ => some (rootType, pathname)

structure DirEntry where
  firstCluster : Int
  fileLength : Nat
  deriving DecidableEq, Repr

structure Found where
  ext2 : Name → Option Ext2.Inode
  vfat : Name → Option DirEntry
  tftp : Name → Option Tftp.Client

structure Vfs where
  rootType : Fsys
  partition : Ext2.Partition
  ext2 : Ext2.State
  volume : Iso9660.Volume
  iso : Iso9660.Handle
  drive : Vfat.Drive
  super : Vfat.Superblock
  vfat : Vfat.State
  tftp : Tftp.Cache

namespace Vfs

def vfsDir (found : Found) (v : Vfs) (pathname : Name) : Except Fault (Int × Vfs) :=
  match parsePathname v.rootType pathname with
  | some (.ezext2, filepart) =>
      match found.ext2 filepart with
      | some inode =>
          let (length, ext2) := v.ext2.dirFound inode
          .ok (length, { v with ext2 })
      | none => .ok (-1, v)
  | some (.eziso, filepart) => do
      match ← Iso9660.iso9660Open v.volume filepart with
      | some iso => .ok (toInt iso.length, { v with iso })
      | none => .ok (-1, v)
  | some (.ezusb, filepart) =>
      match found.vfat filepart with
      | some entry =>
          let (length, vfat) := v.vfat.dirFound entry.firstCluster entry.fileLength
          .ok (length, { v with vfat })
      | none => .ok (-1, v)
  | some (.eztftp, filepart) =>
      match found.tftp filepart with
      | some client => .ok (client.result.getD (-1), { v with tftp := client.cache })
      | none => .ok (-1, v)
  | _ => .ok (-1, v)

/-- `vfs_read`, into a buffer that holds `stale`; `none` is the result -1. -/
def vfsRead (stale : Nat → UInt8) (pathname : Name) (v : Vfs) (len : Nat) :
    Except Fault (Option (List UInt8) × Vfs) :=
  match parsePathname v.rootType pathname with
  | some (.ezext2, _) =>
      (fun (out, ext2) => (some out, { v with ext2 })) <$> v.ext2.read v.partition len
  | some (.eziso, _) =>
      (fun (out, iso) => (some out, { v with iso })) <$> Iso9660.ezisoRead v.volume v.iso len
  | some (.ezusb, _) =>
      (fun (out, vfat) => (some out, { v with vfat })) <$> v.vfat.read v.drive v.super stale len
  | some (.eztftp, _) =>
      let (out, tftp) := v.tftp.read len
      .ok (some out, { v with tftp })
  | _ => .ok (none, v)

end Vfs

/-- An open file: the bytes that `vfs_read` can come to, whether a read over their end is cut off
or returns nothing, the reads that do not fault, and the bytes of the file. -/
structure Content where
  view : List UInt8
  short : Bool
  Fine : Nat → Nat → Prop
  file : List UInt8

/-- What the file of length `L` holds that `vfs_dir` has opened. -/
inductive Vfs.Holds (v : Vfs) (L : Nat) : Fsys → Content → Prop where
  | ext2 {count : Nat} : v.partition.Readable v.ext2.inode count →
      Holds v L .ezext2 ⟨v.partition.view v.ext2.inode count, true,
        v.partition.Fine v.ext2.inode count, v.partition.file v.ext2.inode⟩
  | iso : L ≤ (v.volume.view v.iso.sector).length →
      Holds v L .eziso ⟨v.volume.view v.iso.sector, false, fun _ _ => True,
        (v.volume.view v.iso.sector).take L⟩
  | usb {first : Nat} {clusters : List Nat} {marked : Bool} : (∀ i, v.drive i ≠ none) →
      v.vfat.Cached v.drive v.super → v.vfat.fileCluster = first →
      v.super.Chain v.drive first clusters marked → L ≤ (v.super.view v.drive clusters).length →
      Holds v L .ezusb ⟨v.super.view v.drive clusters, marked, v.super.Fine,
        (v.super.view v.drive clusters).take L⟩
  | tftp {file : List UInt8} {frames : Nat} {s : Tftp.System} : frames ≤ 1024 →
      Reaches (Tftp.System.step file) (Tftp.System.Enabled file) (Tftp.System.init frames) s →
      s.client.result = some L → v.tftp = s.client.cache →
      Holds v L .eztftp ⟨v.tftp.bytes, true, fun _ _ => True, file⟩

namespace Vfs

variable {root : Fsys} {pathname filepart : Name} {stale : Nat → UInt8}

variable {p : Ext2.Partition} {inode : Ext2.Inode} {pos len : Nat}

section

variable (hparse : parsePathname root pathname = some (.ezext2, filepart))
include hparse

theorem ext2_returns {count : Nat}
    (hread : p.Readable inode count) {v : Vfs}
    (hat : v.rootType = root ∧ v.partition = p ∧ v.ext2.At p inode pos)
    (hpos : pos ≤ (p.view inode count).length) (hfine : p.Fine inode count pos len) :
    ∃ v', v.vfsRead stale pathname len = .ok (some (got (p.view inode count) true pos len), v') ∧
      v'.rootType = root ∧ v'.partition = p ∧
      v'.ext2.At p inode (min (pos + len) (p.view inode count).length) := by
  obtain ⟨rfl, rfl, hat⟩ := hat
  obtain ⟨s', hret, hat'⟩ :=
    Ext2.State.readFrom_fine hat hread hpos (Nat.lt_succ_self len) fun _ => hfine
  refine ⟨{ v with ext2 := s' }, ?_, rfl, rfl, hat'⟩
  rw [vfsRead, hparse, got, if_pos (.inl rfl)]
  exact map_eq_ok.mpr ⟨_, hret, rfl⟩

theorem follows_ext2 {count : Nat}
    (hread : p.Readable inode count) :
    Follows (vfsRead stale pathname) (p.view inode count) true (p.Fine inode count)
      fun v pos => v.rootType = root ∧ v.partition = p ∧ v.ext2.At p inode pos where
  returns hat hpos _ := ext2_returns hparse hread hat hpos
  fails := by
    rintro v pos len ⟨rfl, rfl, hat⟩ hpos hlen hfine
    obtain ⟨fault, hfault⟩ :=
      Ext2.State.readFrom_faults hat hread hpos (Nat.lt_succ_self len) hlen hfine
    refine ⟨fault, ?_⟩
    rw [vfsRead, hparse]
    rw [Ext2.State.read, hfault]
    rfl

end

variable {volume : Iso9660.Volume} {first : Nat}

section

variable (hparse : parsePathname root pathname = some (.eziso, filepart))
include hparse

theorem iso_returns {v : Vfs}
    (hat : v.rootType = root ∧ v.volume = volume ∧ v.iso.At first pos)
    (hpos : pos ≤ (volume.view first).length) :
    ∃ v', v.vfsRead stale pathname len = .ok (some (got (volume.view first) false pos len), v') ∧
      v'.rootType = root ∧ v'.volume = volume ∧
      v'.iso.At first (min (pos + len) (volume.view first).length) := by
  obtain ⟨rfl, rfl, hat⟩ := hat
  obtain ⟨h', hret, hat'⟩ := Iso9660.ezisoRead_spec hat hpos
  refine ⟨{ v with iso := h' }, ?_, rfl, rfl, hat'⟩
  rw [vfsRead, hparse]
  exact map_eq_ok.mpr ⟨_, hret, rfl⟩

theorem follows_iso :
    Follows (vfsRead stale pathname) (volume.view first) false (fun _ _ => True)
      fun v pos => v.rootType = root ∧ v.volume = volume ∧ v.iso.At first pos where
  returns hat hpos _ _ := iso_returns hparse hat hpos
  fails _ _ _ hfine := absurd trivial hfine

end

variable {sb : Vfat.Superblock} {clusters : List Nat}

section

variable (hparse : parsePathname root pathname = some (.ezusb, filepart))
include hparse

theorem usb_returns {d : Vfat.Drive} {marked : Bool}
    (hd : ∀ i, d i ≠ none)
    (hchain : sb.Chain d first clusters marked) {v : Vfs}
    (hat : v.rootType = root ∧ v.drive = d ∧ v.super = sb ∧ v.vfat.At d sb clusters pos)
    (hpos : pos ≤ (sb.view d clusters).length) (hfine : sb.Fine pos len) :
    ∃ v', v.vfsRead stale pathname len = .ok (some (got (sb.view d clusters) marked pos len), v') ∧
      v'.rootType = root ∧ v'.drive = d ∧ v'.super = sb ∧
      v'.vfat.At d sb clusters (min (pos + len) (sb.view d clusters).length) := by
  obtain ⟨rfl, rfl, rfl, hat⟩ := hat
  obtain ⟨s', hret, hat'⟩ := Vfat.State.read_fine hd hchain hat hpos hfine
  refine ⟨{ v with vfat := s' }, ?_, rfl, rfl, rfl, hat'⟩
  rw [vfsRead, hparse]
  exact map_eq_ok.mpr ⟨_, hret, rfl⟩

theorem follows_usb {d : Vfat.Drive} {marked : Bool}
    (hd : ∀ i, d i ≠ none)
    (hchain : sb.Chain d first clusters marked) :
    Follows (vfsRead stale pathname) (sb.view d clusters) marked sb.Fine
      fun v pos => v.rootType = root ∧ v.drive = d ∧ v.super = sb ∧ v.vfat.At d sb clusters pos where
  returns hat hpos _ := usb_returns hparse hd hchain hat hpos
  fails := by
    rintro v pos len ⟨rfl, rfl, rfl, hat⟩ hpos hlen hfine
    obtain ⟨fault, hfault⟩ := Vfat.State.read_faults hd hchain hat hpos hlen hfine
    refine ⟨fault, ?_⟩
    rw [vfsRead, hparse]
    rw [hfault]
    rfl

end

variable {view : List UInt8}

section

variable (hparse : parsePathname root pathname = some (.eztftp, filepart))
include hparse

theorem tftp_returns {v : Vfs}
    (hat : v.rootType = root ∧ v.tftp.bytes = view.drop pos) :
    ∃ v', v.vfsRead stale pathname len = .ok (some (got view true pos len), v') ∧
      v'.rootType = root ∧ v'.tftp.bytes = view.drop (min (pos + len) view.length) := by
  obtain ⟨rfl, hbytes⟩ := hat
  obtain ⟨hout, hrest⟩ := v.tftp.read_spec len
  refine ⟨{ v with tftp := (v.tftp.read len).2 }, ?_, rfl, ?_⟩
  · rw [vfsRead, hparse, got, if_pos (.inl rfl), ← hbytes, ← hout]
  · dsimp only
    rw [hrest, hbytes, List.drop_drop, drop_min]

theorem follows_tftp :
    Follows (vfsRead stale pathname) view true (fun _ _ => True)
      fun v pos => v.rootType = root ∧ v.tftp.bytes = view.drop pos where
  returns hat _ _ _ := tftp_returns hparse hat
  fails _ _ _ hfine := absurd trivial hfine

end

variable {found : Found} {v v' : Vfs} {type : Fsys} {L : Nat} {c : Content}

theorem Holds.opened (stale : Nat → UInt8) (hholds : v'.Holds L type c)
    (hparse : parsePathname v.rootType pathname = some (type, filepart))
    (hdir : v.vfsDir found pathname = .ok (L, v')) :
    ∃ At, Follows (vfsRead stale pathname) c.view c.short c.Fine At ∧ At v' 0 ∧
      ∀ s len, At s 0 → c.Fine 0 len →
        ∃ s', s.vfsRead stale pathname len = .ok (some (got c.view c.short 0 len), s') := by
  rw [vfsDir, hparse] at hdir
  cases hholds with
  | ext2 hread =>
    dsimp only at hdir
    split at hdir
    · rw [Except.ok.injEq, Prod.mk.injEq] at hdir
      obtain ⟨-, rfl⟩ := hdir
      refine ⟨_, follows_ext2 hparse hread, ⟨rfl, rfl, Ext2.State.at_dirFound _ _ _⟩, ?_⟩
      intro s len hat hfine
      exact (ext2_returns hparse hread hat (Nat.zero_le _) hfine).imp fun _ h => h.1
    · cases hdir
  | iso hle =>
    obtain ⟨h, hopen, hdir⟩ := bind_eq_ok.mp hdir
    cases h with
    | none => cases hdir
    | some h =>
      dsimp only at hdir
      rw [Except.ok.injEq, Prod.mk.injEq] at hdir
      obtain ⟨-, rfl⟩ := hdir
      refine ⟨_, follows_iso hparse, ⟨rfl, rfl, Iso9660.at_iso9660Open hopen⟩, ?_⟩
      intro s len hat _
      exact (iso_returns hparse hat (Nat.zero_le _)).imp fun _ h => h.1
  | usb hd hcache hfile hchain hle =>
    dsimp only at hdir
    split at hdir
    · rw [Except.ok.injEq, Prod.mk.injEq] at hdir
      obtain ⟨-, rfl⟩ := hdir
      rename_i entry _
      obtain ⟨firstCluster, fileLength⟩ := entry
      obtain rfl : firstCluster = _ := hfile
      refine ⟨_, follows_usb hparse hd hchain, ⟨rfl, rfl, rfl,
        Vfat.State.at_dirFound hcache fileLength hchain⟩, ?_⟩
      intro s len hat hfine
      exact (usb_returns hparse hd hchain hat (Nat.zero_le _) hfine).imp fun _ h => h.1
    · cases hdir
  | tftp hframes hreaches hres htftp =>
    dsimp only at hdir
    split at hdir
    · rw [Except.ok.injEq, Prod.mk.injEq] at hdir
      obtain ⟨-, rfl⟩ := hdir
      refine ⟨_, follows_tftp hparse, ⟨rfl, rfl⟩, ?_⟩
      intro s len hat _
      exact (tftp_returns hparse hat).imp fun _ h => h.1
    · cases hdir

theorem Holds.fine_front (hholds : v'.Holds L type c) (hL : L < 2 ^ 31) : c.Fine 0 L := by
  cases hholds with
  | ext2 hread => exact ⟨.inl (Nat.zero_mod _), fun _ => by omega⟩
  | iso hle => trivial
  | usb hd hcache hfile hchain hle =>
    exact ⟨by decide, by rw [Nat.zero_mod]; exact Nat.zero_le _⟩
  | tftp hframes hreaches hres htftp => trivial

theorem Holds.length_le (hholds : v'.Holds L type c)
    (hparse : parsePathname v.rootType pathname = some (type, filepart))
    (hdir : v.vfsDir found pathname = .ok (L, v')) : c.file.length ≤ L ∨ c.view.length ≤ L := by
  rw [vfsDir, hparse] at hdir
  cases hholds with
  | ext2 hread =>
    left
    dsimp only at hdir
    split at hdir
    · rename_i inode _
      rw [Except.ok.injEq, Prod.mk.injEq, Ext2.State.dirFound] at hdir
      obtain ⟨hL, rfl⟩ := hdir
      have hsize : inode.size = L := by
        have := inode.size_lt
        rw [toInt] at hL
        split at hL <;> omega
      rw [← hsize]
      exact (List.length_map _).trans_le (List.length_range).le
    · cases hdir
  | iso | usb => exact .inl (List.length_take_le _ _)
  | tftp hframes hreaches hres htftp =>
    have hinv := Tftp.System.inv_of_reaches hreaches
    have hlen := hinv.fits.length_le.trans (Nat.mul_le_mul_right _ hframes)
    have hL := (hinv.returned _ hres).1
    rw [hinv.filesize, toInt] at hL
    rw [Tftp.nodeCapacity, Tftp.blockSize] at hlen
    rw [htftp]
    dsimp only
    split at hL <;> omega

/-- The reads stay in the file exactly when none of them faults and what they deliver is the front
of the file; that is when they do not ask for more than the length, or there is no more. -/
theorem vfs_reads_in_file_iff (found : Found) (v v' : Vfs) (pathname filepart : Name) (type : Fsys)
    (L : Nat) (c : Content) (stale : Nat → UInt8) (lens : List Nat)
    (hparse : parsePathname v.rootType pathname = some (type, filepart))
    (hdir : v.vfsDir found pathname = .ok (L, v')) (hholds : v'.Holds L type c)
    (hlens : ∀ len ∈ lens, 0 < len) :
    (InFile (vfsRead stale pathname) v' c.file L lens ↔
      FineAll c.Fine c.view.length 0 lens ∧ delivered c.view c.short 0 lens <+: c.file) ∧
    (c.file = c.view.take L → L ≤ c.view.length →
      (delivered c.view c.short 0 lens <+: c.file ↔
        if c.short = true then lens.sum ≤ L ∨ c.view.length = L
        else ∀ ns, ns <+: lens → ns.sum ≤ L ∨ c.view.length < ns.sum)) := by
  constructor
  · obtain ⟨At, hfollows, hat, -⟩ := hholds.opened _ hparse hdir
    rw [hfollows.inFile_iff hat hlens]
    apply and_congr_right
    intro _
    apply and_iff_left_of_imp
    intro hfront
    obtain hfile | hview := hholds.length_le hparse hdir
    · exact hfront.length_le.trans hfile
    · exact (length_delivered_le (Nat.zero_le _)).trans hview
  · intro hfile hL
    rw [hfile]
    split
    · rename_i hshort
      rw [hshort]
      exact delivered_short_inFile hL
    · rename_i hshort
      rw [Bool.not_eq_true] at hshort
      rw [hshort]
      exact delivered_whole_inFile hL hlens

end Vfs

def oneFile : Vfs where
  rootType := .eziso
  partition := ⟨fun _ => 0, 0, by decide⟩
  ext2 := ⟨⟨0, fun _ => 0, by decide⟩, 0, 0, 0, [], []⟩
  volume :=
    ⟨[fun i => ([34, 0, 1, 0, 0, 0, 0, 0, 0, 0, 3, 0, 0, 0, 0, 0, 0, 0, 0, 0, 0, 0, 0, 0, 0, 0, 0, 0, 0,
      0, 0, 0, 1, 65] : List UInt8).getD i 0, fun i => if i < 3 then 97 else 0], ⟨0, 2048⟩⟩
  iso := ⟨0, 0, 0⟩
  drive := fun _ => none
  super := ⟨.fat16, 0, 0, 0, 0, 0, 9, by decide⟩
  vfat := ⟨0, 0, 0, 0, fun _ => 0, 0⟩
  tftp := ⟨[], 0⟩

def nothing : Found := ⟨fun _ => none, fun _ => none, fun _ => none⟩

theorem oneFile_dir :
    oneFile.vfsDir nothing [47, 65] = .ok (3, { oneFile with iso := ⟨1, 0, 3⟩ }) := by
  have hopen : Iso9660.iso9660Open oneFile.volume [47, 65] = .ok (some ⟨1, 0, 3⟩) := by decide
  have hparse : parsePathname oneFile.rootType [47, 65] = some (.eziso, [47, 65]) := rfl
  rw [Vfs.vfsDir, hparse]
  dsimp only
  rfl

theorem vfs_reads_in_file_iff_cd :
    ∃ v', oneFile.vfsDir nothing [47, 65] = .ok (3, v') ∧
      InFile (Vfs.vfsRead (fun _ => 0) [47, 65]) v' [97, 97, 97] 3 [2, 1] := by
  refine ⟨_, oneFile_dir, ?_⟩
  have hview : (oneFile.volume.view 1).length = 2048 := Iso9660.length_view
  have hfile : (oneFile.volume.view 1).take 3 = [97, 97, 97] := by decide +kernel
  obtain ⟨hiff, hsum⟩ := Vfs.vfs_reads_in_file_iff nothing oneFile _ [47, 65] [47, 65] .eziso 3
    ⟨oneFile.volume.view 1, false, fun _ _ => True, (oneFile.volume.view 1).take 3⟩ (fun _ => 0)
    [2, 1] rfl oneFile_dir (.iso (by rw [hview]; decide)) (by decide)
  have hle : 3 ≤ (oneFile.volume.view 1).length := by
    rw [hview]
    decide
  dsimp only at hiff hsum
  rw [hfile] at hiff hsum
  have hwithin : ∀ ns, ns <+: [2, 1] → ns.sum ≤ 3 ∨ (oneFile.volume.view 1).length < ns.sum := by
    rintro ns ⟨rest, hrest⟩
    have := congrArg List.sum hrest
    rw [List.sum_append] at this
    exact .inl (Nat.le.intro this)
  rw [hsum rfl hle, if_neg (by decide)] at hiff
  exact hiff.mpr ⟨fineAll_of_forall (fun _ _ => trivial) _ _ _, hwithin⟩

theorem vfs_read_passes_end :
    ∃ v' out v'', oneFile.vfsDir nothing [47, 65] = .ok (3, v') ∧
      v'.vfsRead (fun _ => 0) [47, 65] 4 = .ok (some out, v'') ∧ 3 < out.length := by
  refine ⟨_, [97, 97, 97, 0], _, oneFile_dir, rfl, by decide⟩

end Quest.Fs
