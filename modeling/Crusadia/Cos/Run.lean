import Crusadia.Cos.Format

/-!
# Crusadia.Cos.Run

**Runs of the filesystem** and the ownership invariant over them.

A run starts with `qformat_fs` and goes on with any of `fs_create_file`, `fs_create_dir`,
`fs_write` and `fs_delete_in`, in any order and with any arguments whose inode numbers are
in use and of the right type; calls may fail. `Cos.Run.sound` shows that every state of
every run stores an image with `Img.Inv`, so that in particular every block pointer that
can be reached from a used inode has its block to itself. `Cos.img` is the image that is
read off the state; properties of a call's input are stated on it.
-/

namespace Crusadia

open Relation (ReflTransGen)

/-- One call of the driver. -/
inductive Op
  /-- `fs_create_file` with `g_current_dir` set to `dir`. -/
  | createFile (dir : Nat) (name tag : CStr)
  /-- `fs_create_dir`. -/
  | createDir (name : CStr) (parent : Nat)
  /-- `fs_write`; the offset is a `uint32_t`. -/
  | write (i offset : Nat) (data : List Byte)
  /-- `fs_delete_in`. -/
  | delete (parent : Nat) (name : CStr)

namespace Cos

/-- Inode `i` is marked used in the inode bitmap. -/
def InUse (s : Cos) (i : Nat) : Prop :=
  i < s.gSuperblock.inodeCount ∧ s.inodeBitmap.bit i = true

/-- Inode `i` is in use and a directory. -/
def DirInode (s : Cos) (i : Nat) : Prop := s.InUse i ∧ (s.readInode i).type = 2

/-- Inode `i` is in use and a file. -/
def FileInode (s : Cos) (i : Nat) : Prop := s.InUse i ∧ (s.readInode i).type = 1

/-- The inode numbers of a call are in use and of the right type. -/
def Allowed (s : Cos) : Op → Prop
  | .createFile dir _ _ => s.DirInode dir
  | .createDir _ parent => s.DirInode parent
  | .write i offset _ => s.FileInode i ∧ offset < 2 ^ 32
  | .delete parent _ => s.DirInode parent

/-- The state after a call. -/
def apply (s : Cos) : Op → Cos
  | .createFile dir name tag => ({ s with gCurrentDir := dir }.fsCreateFile name tag).2
  | .createDir name parent => (s.fsCreateDir name parent).2
  | .write i offset data => (s.fsWrite i offset data).2
  | .delete parent name => (s.fsDeleteIn parent name).2

/-- One allowed call. -/
def Step (s s' : Cos) : Prop := ∃ op, s.Allowed op ∧ s' = s.apply op

/-- State `s` is reached from `s₀` by formatting it and any number of calls. -/
def Run (s₀ s : Cos) : Prop := ReflTransGen Step s₀.qformatFs s

/-- The block pointer found below block pointer `r` of inode `i` by following `p`. -/
def pointerAt (s : Cos) (i r : Nat) (p : List Nat) : Nat :=
  Forest.walk (fun b k => (s.blockRead b).get32 (4 * k)) ((s.readInode i).ptr r) p

/-- `p` leads from block pointer `r` of the used inode `i` to a pointer: nothing below
`direct[0..11]`, then up to one, two and three slots. -/
def Pointer (s : Cos) (i r : Nat) (p : List Nat) : Prop :=
  s.InUse i ∧ r < 15 ∧ p.length ≤ r - 11 ∧ ∀ k ∈ p, k < ptrsPerBlock

end Cos

namespace Rep

variable {L : Layout} {s : Cos} {v : Img}

theorem inUse_iff (h : Rep L s v) {i : Nat} :
    s.InUse i ↔ i < L.sb.inodeCount ∧ v.used i = true := by
  rw [Cos.InUse, h.sb]
  exact and_congr_right fun hi => by rw [h.used i hi]

theorem dirInode_iff (h : Rep L s v) {i : Nat} : s.DirInode i ↔ Img.IsDir L v i := by
  rw [Cos.DirInode, h.inUse_iff]
  constructor
  · rintro ⟨⟨hi, hu⟩, ht⟩
    exact ⟨hi, hu, h.ino i hi ▸ ht⟩
  · rintro ⟨hi, hu, ht⟩
    exact ⟨⟨hi, hu⟩, h.ino i hi ▸ ht⟩

theorem fileInode_iff (h : Rep L s v) {i : Nat} :
    s.FileInode i ↔ i < L.sb.inodeCount ∧ v.used i = true ∧ (v.ino i).type = 1 := by
  rw [Cos.FileInode, h.inUse_iff, and_assoc]
  refine and_congr_right fun hi => and_congr_right fun _ => ?_
  rw [h.ino i hi]

/-- The pointers of the state are those of its image. -/
theorem pointerAt_eq (h : Rep L s v) (hb : Img.Blocks L v) {i r : Nat} {p : List Nat}
    (hp : s.Pointer i r p) : s.pointerAt i r p = v.ptr L (i, r) p := by
  obtain ⟨huse, hr, hlen, hk⟩ := hp
  obtain ⟨hi, hu⟩ := h.inUse_iff.mp huse
  -- Along the path: every block read on the way is a data block.
  induction p using List.reverseRecOn with
  | nil =>
    rw [Cos.pointerAt, Forest.walk_nil, h.ino i hi]
    exact (Img.forest_root hi hu hr).symm
  | append_singleton p k ih =>
    rw [List.length_append, List.length_singleton] at hlen
    have hp : PtrPlace (i, r) p :=
      ⟨show p.length ≤ r - 11 by omega, fun j hj => hk j (by simp [hj])⟩
    have ih := ih (by omega) fun j hj => hk j (by simp [hj])
    rw [Cos.pointerAt, Forest.walk_append, ← Cos.pointerAt, ih, Img.ptr_snoc, Forest.walk,
      Forest.walk_nil]
    split
    · rfl
    · rename_i h0
      rw [h.blockRead_ptr hb hp h0]

end Rep

namespace Cos

/-- The invariant of a reachable state: it stores an image that satisfies `Img.Inv`. -/
def Sound (L : Layout) (s : Cos) : Prop := ∃ v, Rep L s v ∧ Img.Inv L v

/-- A sound state with `boot` in sector 0, unless a write that overran the drive zeroed it. -/
def SoundFrom (L : Layout) (boot : Sector) (s : Cos) : Prop :=
  ∃ v, Rep L s v ∧ Img.Inv L v ∧ (v.boot = boot ∨ v.boot = Buf.zero)

variable {L : Layout} {s : Cos}

/-- Sector 0 was already kept or zeroed. -/
theorem SoundFrom.of_boot {boot boot' : Sector} (h : SoundFrom L boot s)
    (hboot : boot = boot' ∨ boot = Buf.zero) : SoundFrom L boot' s := by
  obtain ⟨v, hrep, hv, hv'⟩ := h
  refine ⟨v, hrep, hv, ?_⟩
  rcases hv' with hv' | hv'
  · rwa [hv']
  · exact Or.inr hv'

end Cos

/-- What one call does to the image of a sound state. -/
inductive Img.Effect (L : Layout) (v : Img) : Img → Prop
  | cwd (c : Nat) : Effect L v { v with cwd := c }
  | create {c d : Nat} {name : CStr} {node : Inode} {zeroed : Bool} {v' : Img} {res : Option Nat}
      (hd : IsDir L { v with cwd := c } d) (hn : node.Fresh) (hz : node.type = 2 → zeroed = true)
      (hc : Create L { v with cwd := c } d name node zeroed v' res) : Effect L v v'
  | write {i o w sz : Nat} {data : List Byte} {ok : Bool} {v' : Img} (ht : (v.ino i).type ≠ 2)
      (hw : Wrote L i o data v w sz v') (hend : Rep.WriteEnd L i o data v v' ok w) : Effect L v v'
  | delete {d : Nat} {name : CStr} {v' : Img} {rc : Int} (hc : Delete L v d name v' rc) :
      Effect L v v'

theorem Img.Effect.inv {L : Layout} {v v' : Img} (h : Effect L v v') (hv : Inv L v) : Inv L v' := by
  cases h with
  | cwd c => exact hv.cwd c
  | create hd hn hz hc => exact hc.inv (hv.cwd _) hd hn hz
  | write ht hw hend => exact hv.edit hw.edit hw.blocks ht
  | delete hc => exact hc.inv hv

theorem Img.Effect.boot {L : Layout} {v v' : Img} (h : Effect L v v') :
    v'.boot = v.boot ∨ v'.boot = Buf.zero := by
  cases h with
  | cwd c => exact Or.inl rfl
  | create hd hn hz hc => exact Or.inl hc.boot
  | write ht hw hend => exact hend.boot
  | delete hc => exact Or.inl hc.boot

/-- One call. -/
theorem Rep.effect_apply {L : Layout} {s : Cos} {v : Img} (h : Rep L s v) (hv : Img.Inv L v)
    {op : Op} (hok : s.Allowed op) : ∃ v', Rep L (s.apply op) v' ∧ Img.Effect L v v' := by
  cases op with
  | createFile dir name tag =>
    by_cases htag : tag.length = 0
    · refine ⟨_, ?_, .cwd dir⟩
      rw [Cos.apply, Cos.fsCreateFile, if_pos htag]
      exact h.setCwd dir
    · have hd : Img.IsDir L { v with cwd := dir } dir := (h.dirInode_iff.mp hok).congr rfl rfl
      obtain ⟨v', h', hc⟩ := (h.setCwd dir).fsCreateFile_spec (hv.cwd dir) hd name tag htag
      exact ⟨v', h', .create hd (Rep.fresh_fileNode tag) (Rep.fileNode_not_dir tag) hc⟩
  | createDir name parent =>
    have hd := h.dirInode_iff.mp hok
    obtain ⟨v', h', hc⟩ := h.fsCreateDir_spec hv hd name
    exact ⟨v', h', .create (c := v.cwd) hd (Inode.fresh_blank 2) (fun _ => rfl) hc⟩
  | write i offset data =>
    obtain ⟨hi, hu, ht⟩ := h.fileInode_iff.mp hok.1
    obtain ⟨v', w, sz, ok, h', hw, hend, -⟩ := h.fsWrite_spec hv.blocks hi hu hok.2 data
    exact ⟨v', h', .write (by rw [ht]; decide) hw hend⟩
  | delete parent name =>
    obtain ⟨v', h', hc⟩ := h.fsDeleteIn_spec hv (h.dirInode_iff.mp hok) name
    exact ⟨v', h', .delete hc⟩

namespace Cos

variable {L : Layout} {s : Cos}

/-- What one call keeps. -/
theorem Sound.step {s' : Cos} (h : Sound L s) (hstep : Step s s') :
    Sound L s' := by
  obtain ⟨v, hrep, hv⟩ := h
  obtain ⟨op, hok, rfl⟩ := hstep
  obtain ⟨v', hrep', he⟩ := hrep.effect_apply hv hok
  exact ⟨v', hrep', he.inv hv⟩

/-- The image read off a state. -/
def img (s : Cos) : Img where
  boot := s.blockRead 0
  bit := s.blockBit
  used := s.inodeBitmap.bit
  ino := s.readInode
  blk := s.blockRead
  cwd := s.gCurrentDir

theorem img_ino (s : Cos) (i : Nat) : s.img.ino i = s.readInode i := rfl

theorem img_blk (s : Cos) (b : Nat) : s.img.blk b = s.blockRead b := rfl

theorem img_freeList {v : Img} (h : Rep L s v) :
    s.img.freeList L = v.freeList L := by
  refine List.filter_congr fun b hb => ?_
  have := List.mem_range'_1.mp hb
  exact congrArg _ (h.bit b (by omega))

/-- In a sound state the image read off it is as good as any. -/
theorem Sound.img (h : Sound L s) : Rep L s s.img ∧ Img.Inv L s.img := by
  obtain ⟨v, hrep, hv⟩ := h
  have hrep' : Rep L s s.img :=
    ⟨hrep.sb, hrep.bbs, hrep.ibs, rfl, rfl, fun _ _ => rfl, fun _ _ => rfl, hrep.sync,
      fun _ _ => rfl, fun _ _ _ => rfl⟩
  refine ⟨hrep', hv.congr (fun i hi => hrep.used i hi) (fun i hi => hrep.ino i hi) ?_ ?_⟩
  · exact fun b hb => hrep.bit b hb
  · exact fun b h1 h2 => hrep.blk b h1 h2

variable {s₀ s : Cos}

/-- Every state of a run is sound. -/
theorem Run.sound (h : Run s₀ s) (hsize : 6 ≤ s₀.driveSectors) :
    Sound s₀.layout s := by
  induction h with
  | refl =>
    obtain ⟨v, hrep, hv, -⟩ := Rep.qformatFs_ind s₀ hsize (P := fun _ => True) trivial
      fun _ _ _ => trivial
    exact ⟨v, hrep, hv⟩
  | tail _ hstep ih => exact ih.step hstep

theorem not_allowed (hnone : ∀ i, ¬ s.DirInode i ∧ ¬ s.FileInode i) (op : Op) : ¬ s.Allowed op := by
  cases op with
  | createFile dir => exact (hnone dir).1
  | createDir _ parent => exact (hnone parent).1
  | write i => exact fun hok => (hnone i).2 hok.1
  | delete parent => exact (hnone parent).1

/-- On a drive without data blocks there is nothing to work on. -/
theorem Run.small (h : Run s₀ s) (hsize : s₀.driveSectors < 6) :
    (s.readInode 0).type ≠ 2 ∧ ∀ i, ¬ s.DirInode i ∧ ¬ s.FileInode i := by
  obtain ⟨v, hrep, hv⟩ := Rep.qformatFs_small s₀ hsize
  have hnone : ∀ i, ¬ s₀.qformatFs.DirInode i ∧ ¬ s₀.qformatFs.FileInode i := by
    refine fun i => ⟨fun hd => ?_, fun hf => ?_⟩
    · have hd := hrep.dirInode_iff.mp hd
      exact absurd ((hv.type hd.used).symm.trans hd.type) (by decide)
    · obtain ⟨-, hu, ht⟩ := hrep.fileInode_iff.mp hf
      exact absurd ((hv.type hu).symm.trans ht) (by decide)
  -- No call is allowed in the first state, so it is the only one.
  rcases ReflTransGen.cases_head h with rfl | ⟨_, ⟨op, hok, -⟩, -⟩
  · refine ⟨?_, hnone⟩
    rw [hrep.ino 0 (Nat.zero_lt_of_lt (Layout.inodes_pos _)), hv.type hv.root]
    decide
  · exact absurd hok (not_allowed hnone op)

/-- A state with a file or a directory is sound. -/
theorem Run.sound_of_inode {i : Nat} (h : Run s₀ s) (hi : s.DirInode i ∨ s.FileInode i) :
    Sound s₀.layout s := by
  by_cases hsize : 6 ≤ s₀.driveSectors
  · exact h.sound hsize
  · obtain ⟨h1, h2⟩ := (h.small (by omega)).2 i
    exact absurd hi (not_or.mpr ⟨h1, h2⟩)

/-- A drive of `sectors` sectors, as it comes. -/
def rawDrive (sectors : Nat) (read : Nat → Sector) : Cos where
  disk := ⟨read, []⟩
  driveSectors := sectors
  inodeBitmap := Buf.zero
  gSuperblock := Superblock.decode Buf.zero
  blockBitmapSectors := 0
  inodeBitmapSectors := 0
  gCurrentDir := 0

/-- A drive that holds zeros. -/
abbrev zeroDrive (sectors : Nat) : Cos := rawDrive sectors fun _ => Buf.zero

/-- The block of logical block `l` of inode `i`, looked up without `do_alloc`. -/
def lookup (s : Cos) (i l : Nat) : Nat := (s.getPhysicalBlock i (s.readInode i) l false).1

theorem lookup_eq {v : Img} (h : Rep L s v) (hb : Img.Blocks L v) {i : Nat}
    (hi : i < L.sb.inodeCount ∧ v.used i = true) (l : Nat) : s.lookup i l = v.dataBlock L i l := by
  rw [lookup, h.ino i hi.1, h.getPhysicalBlock_read hb hi.1 hi.2]

end Cos

end Crusadia
