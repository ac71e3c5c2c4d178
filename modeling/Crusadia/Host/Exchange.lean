import Crusadia.Cos.Loaded
import Crusadia.Host.Format

/-!
# Crusadia.Host.Exchange

**An image goes back and forth.** An image is made by `qformat_fs` or by `cmd_mkfs` and is then
changed by either side: by the driver after `init_fs`, by the tool after `mount_image`
(`CosImage`). Whoever changed it last, `mount_image` and `init_fs` open the same file system, and
from there the functions of the same name do the same (`functions_agree`).

The state of the driver has its counterpart in the tool all along (`Shared`): a step lemma for each
side, and an induction over the history of the image.
-/

namespace Crusadia

open Relation (ReflTransGen)

namespace Host

/-- A command of the tool that changes the image. -/
inductive Cmd
  | put (dirpart : List CStr) (base : CStr) (tag : Option CStr) (data : List Byte)
  | mkdir (dirpart : List CStr) (base : CStr)
  | rm (dirpart : List CStr) (base : CStr)

/-- The state after a command, whether it went through or not. -/
def run (h : Host) : Cmd → Host
  | .put dirpart base tag data => (h.cmdPut dirpart base tag data).2
  | .mkdir dirpart base => (h.cmdMkdir dirpart base).2
  | .rm dirpart base => (h.cmdRm dirpart base).2

/-- A call on the driver's side: one of the file system, or a change of sector 0 outside the
superblock (the header of the VFS). -/
inductive Call (s : Cos) : Cos → Prop
  | fs {s' : Cos} (step : Cos.Step s s') : Call s s'
  | header (sec : Sector) (hsec : Superblock.decode sec = Superblock.decode (s.blockRead 0)) :
      Call s (s.blockWrite 0 sec)

/-- The images that the two sides exchange. A file system has at most 262144 blocks, and `mkfs` is
not asked for more inodes than that: the bitmap in memory has no more bits, and `load_inode_bitmap`
of either side would write behind it. -/
inductive CosImage : Disk → Prop
  | qformat {s s' : Cos} (small : (Cos.formatSuperblock s.driveSectors).totalBlocks ≤ 262144)
      (run : ReflTransGen Call s.qformatFs s') : CosImage s'.disk
  | mkfs {image : Disk} {n hint : Nat} {h : Host} (empty : ∀ a, image.read a = Buf.zero)
      (inodes : hint ≤ 262144) (made : cmdMkfs image n hint = some h) : CosImage h.image
  | driver {s s' : Cos} (image : CosImage s.disk)
      (magic : (Superblock.decode (s.blockRead 0)).magic = fsMagic)
      (run : ReflTransGen Call s.initFs s') : CosImage s'.disk
  | tool {d : Disk} {h : Host} (image : CosImage d) (mount : mountImage d = some h) (cmd : Cmd) :
      CosImage (h.run cmd).image

/-! ### What both sides keep -/

/-- The driver has a file system open, and the tool could. Sector 0 still has the superblock, or no
superblock at all. -/
structure Shared (L : Layout) (s : Cos) : Prop where
  tool : ∃ h, Sim L h s
  image : ∃ v, Rep L s v ∧ (Img.Inv L v ∨ v.Bare L) ∧
    (Superblock.decode v.boot = L.sb ∨ (Superblock.decode v.boot).magic ≠ fsMagic)

variable {L : Layout} {h : Host} {s s' : Cos} {v : Img}

theorem decode_zero_magic : (Superblock.decode Buf.zero).magic ≠ fsMagic := by
  rw [Superblock.decode, Buf.get32_zero]
  decide

theorem Shared.of_sound (hs : Sim L h s) (hsound : Cos.SoundFrom L v.boot s)
    (hboot : Superblock.decode v.boot = L.sb ∨ (Superblock.decode v.boot).magic ≠ fsMagic) :
    Shared L s := by
  obtain ⟨v', hrep, hv, hb⟩ := hsound
  refine ⟨⟨h, hs⟩, v', hrep, Or.inl hv, ?_⟩
  rcases hb with hb | hb
  · rwa [hb]
  · rw [hb]
    exact Or.inr decode_zero_magic

/-- On a drive without data blocks no call of the driver is allowed. -/
theorem not_allowed_of_bare (hrep : Rep L s v) (hv : v.Bare L) (op : Op) : ¬ s.Allowed op := by
  have hdir : ∀ i, ¬ s.DirInode i := fun i hd =>
    absurd ((hv.type (hrep.dirInode_iff.mp hd).used).symm.trans (hrep.dirInode_iff.mp hd).type)
      (by decide)
  have hfile : ∀ i, ¬ s.FileInode i := fun i hf =>
    absurd ((hv.type (hrep.fileInode_iff.mp hf).2.1).symm.trans (hrep.fileInode_iff.mp hf).2.2)
      (by decide)
  cases op with
  | createFile dir name tag => exact hdir dir
  | createDir name parent => exact hdir parent
  | write i offset data => exact fun hok => hfile i hok.1
  | delete parent name => exact hdir parent

/-- What one call of the driver keeps. -/
theorem Shared.call (hs : Shared L s) (hcall : Call s s') : Shared L s' := by
  obtain ⟨⟨h, hsim⟩, v, hrep, hv, hboot⟩ := hs
  cases hcall with
  | fs step =>
    obtain ⟨op, hok, rfl⟩ := step
    rcases hv with hv | hv
    · obtain ⟨h', hsim'⟩ := hsim.apply hrep hv hok
      obtain ⟨v', hrep', he⟩ := hrep.effect_apply hv hok
      exact .of_sound hsim' ⟨v', hrep', he.inv hv, he.boot⟩ hboot
    · exact absurd hok (not_allowed_of_bare hrep hv op)
  | header sec hsec =>
    refine ⟨⟨_, hsim.blockWrite (Or.inl rfl) sec⟩, _, hrep.writeBoot sec, ?_, ?_⟩
    · rcases hv with hv | hv
      · exact Or.inl (hv.congr (fun _ _ => rfl) (fun _ _ => rfl) (fun _ _ => rfl) fun _ _ _ => rfl)
      · exact Or.inr ⟨hv.full, hv.root, hv.ino⟩
    · rw [hrep.boot] at hsec
      show Superblock.decode sec = L.sb ∨ (Superblock.decode sec).magic ≠ fsMagic
      rwa [hsec]

theorem Shared.calls (hs : Shared L s) (hrun : ReflTransGen Call s s') : Shared L s' := by
  induction hrun with
  | refl => exact hs
  | tail _ hcall ih => exact ih.call hcall

theorem magic_of_mountImage {d : Disk} (hmount : mountImage d = some h) :
    (Superblock.decode (d.read 0)).magic = fsMagic := by
  by_contra hne
  rw [mountImage, if_pos hne] at hmount
  cases hmount

/-- Both sides open the image, and have the same file system then. -/
theorem Shared.mount (hs : Shared L s) {image : Disk} (hread : ∀ a, image.read a = s.blockRead a)
    (hmagic : (Superblock.decode (image.read 0)).magic = fsMagic) {k : Cos} (hk : k.disk = image) :
    ∃ h, mountImage image = some h ∧ Sim L h k.initFs ∧ Shared L k.initFs := by
  obtain ⟨⟨h0, hsim⟩, v, hrep, hv, hboot⟩ := hs
  have hreadk : ∀ a, k.blockRead a = s.blockRead a := fun a => by rw [Cos.blockRead, hk, hread]
  have hv0 : Superblock.decode v.boot = L.sb := by
    refine hboot.resolve_right fun hne => hne ?_
    rwa [← hrep.boot, ← hread]
  have hsb : Superblock.decode (k.blockRead 0) = L.sb := by rwa [hreadk, hrep.boot]
  obtain ⟨s1, hrep1, hdisk, -, heq⟩ := Cos.initFs_of_rep hrep hreadk hsb
  have hread1 : ∀ a, s1.blockRead a = s.blockRead a := fun a => by
    rw [Cos.blockRead, hdisk]
    exact hreadk a
  -- without data blocks `init_fs` makes the root again, which changes nothing
  obtain ⟨w, hrepw, hw, hbootw, hreadw⟩ : ∃ w, Rep L k.initFs w ∧ (Img.Inv L w ∨ w.Bare L) ∧
      w.boot = v.boot ∧ ∀ a, k.initFs.blockRead a = s.blockRead a := by
    rw [heq]
    rcases hv with hv | hv
    · rw [if_pos hv.root.type]
      exact ⟨_, hrep1, Or.inl (hv.cwd _), rfl, hread1⟩
    · rw [if_neg (by rw [hv.type hv.root]; decide)]
      have hbare : Img.Bare L { v with cwd := k.gCurrentDir } := ⟨hv.full, hv.root, hv.ino⟩
      obtain ⟨hrep2, hsame⟩ := hrep1.createRoot_bare hbare
      exact ⟨_, hrep2, Or.inr hbare, rfl, fun a => (hsame a).trans (hread1 a)⟩
  obtain ⟨h, hmount, hsim'⟩ := Sim.mountImage hsim.small hrepw
    (fun a => (hread a).trans (hreadw a).symm) (by rwa [hrepw.boot, hbootw])
    (fun j i hj hi hpast => by rw [hreadw]; exact hsim.padded hj hi hpast)
  exact ⟨h, hmount, hsim', ⟨h, hsim'⟩, w, hrepw, hw, Or.inl (by rwa [hbootw])⟩

/-! ### Commands of the tool -/

section

variable (hroot : (h.readInode 0).type ≠ 2)
include hroot

/-- A root that is no directory leads nowhere. -/
theorem resolvePath_of_root {path : List CStr} {p : Nat}
    (hres : h.resolvePath path = some p) : p = 0 := by
  cases path with
  | nil => exact (Option.some.inj hres).symm
  | cons tok rest =>
    rw [resolvePath, resolveFrom, Option.bind_eq_some_iff] at hres
    obtain ⟨found, hstep, -⟩ := hres
    unfold resolveStep at hstep
    rw [dirLookup, if_pos hroot] at hstep
    cases hstep

theorem target_of_root (dirpart : List CStr) (base : CStr) : h.target dirpart base = none := by
  rw [target]
  split
  · rfl
  · split
    · rfl
    · rename_i p hp
      rw [resolvePath_of_root hroot hp, if_pos hroot]

/-- Without a root directory every command gives up. -/
theorem run_of_root (cmd : Cmd) : h.run cmd = h := by
  cases cmd with
  | put dirpart base tag data => rw [run, cmdPut, target_of_root hroot]
  | mkdir dirpart base => rw [run, cmdMkdir, target_of_root hroot]
  | rm dirpart base =>
    rw [run, cmdRm]
    cases hp : h.resolvePath dirpart with
    | none => rfl
    | some p =>
      obtain rfl := resolvePath_of_root hroot hp
      have hlook : h.dirLookup (h.readInode 0) base = none := by rw [dirLookup, if_pos hroot]
      simp only [hlook]

end

/-- What a command keeps. -/
theorem Shared.run (hs : Shared L s) (hsim : Sim L h s) (cmd : Cmd) :
    ∃ s', Sim L (h.run cmd) s' ∧ Shared L s' := by
  obtain ⟨-, v, hrep, hv, hboot⟩ := hs
  rcases hv with hv | hv
  · obtain ⟨s', hsim', hsound⟩ : ∃ s', Sim L (h.run cmd) s' ∧ Cos.SoundFrom L v.boot s' := by
      cases cmd with
      | put dirpart base tag data => exact hsim.cmdPut hrep hv dirpart base tag data
      | mkdir dirpart base => exact hsim.cmdMkdir hrep hv dirpart base
      | rm dirpart base => exact hsim.cmdRm hrep hv dirpart base
    exact ⟨s', hsim', .of_sound hsim' hsound hboot⟩
  · have hpos := L.inodes_pos
    have hroot : (h.readInode 0).type ≠ 2 := by
      rw [hsim.readInode, hrep.ino 0 (by omega), hv.type hv.root]
      decide
    rw [run_of_root hroot]
    exact ⟨s, hsim, ⟨h, hsim⟩, v, hrep, Or.inr hv, hboot⟩

/-! ### New images -/

/-- The default directories. -/
theorem Sim.createDirs (names : List CStr) : ∀ {h : Host} {s : Cos} {v : Img}, Sim L h s →
    Rep L s v → Img.Inv L v → v.cwd = 0 →
    ∃ h', Sim L h' (names.foldl (fun s name => (s.fsCreateDir name s.gCurrentDir).2) s) := by
  induction names with
  | nil => exact fun hs _ _ _ => ⟨_, hs⟩
  | cons name names ih =>
    intro h s v hs hrep hv hcwd
    rw [List.foldl_cons, hrep.cwd, hcwd]
    obtain ⟨h1, hs1⟩ := hs.fsCreateDir hrep hv hv.root name
    obtain ⟨v1, hrep1, hc⟩ := hrep.fsCreateDir_spec hv hv.root name
    exact ih hs1 hrep1 (hc.inv hv hv.root (Inode.fresh_blank 2) fun _ => rfl) (hc.cwd.trans hcwd)

theorem Sim.createRoot_exists (hs : Sim L h s) : ∃ h', Sim L h' s.createRoot := by
  rcases hs.createRoot with ⟨-, -, hs'⟩ | ⟨-, h', -, hs'⟩
  · exact hs'
  · exact ⟨h', hs'⟩

/-- A drive that was formatted by the driver. -/
theorem shared_qformatFs (s : Cos)
    (hsmall : (Cos.formatSuperblock s.driveSectors).totalBlocks ≤ 262144) :
    Shared s.layout s.qformatFs := by
  have hsize : s.layout.sb.totalBlocks ≤ 8 * blockBitmapMaxSize := hsmall
  have hblank : Sim s.layout ((start (s.wipeFs s.layout.sb).disk).geometry s.layout.sb)
      (s.wipeFs s.layout.sb) :=
    Sim.blank s hsize fun _ => rfl
  have hmark := hblank.markBlocks s.layout.sb.dataStart
  by_cases h6 : 6 ≤ s.driveSectors
  · obtain ⟨hrep0, hinv0⟩ := Rep.formatRoot_spec s _ (s.room_iff.mpr h6)
    obtain ⟨v, hrep, hv, -, hboot, -⟩ := Rep.createDirs_spec (P := fun _ => True)
      (fun _ _ _ => trivial) Cos.defaultDirs hrep0 hinv0 rfl trivial
    have hboot' := hboot.trans Img.born_boot
    obtain ⟨h1, hs1⟩ := hmark.createRoot_exists
    obtain ⟨h2, hs2⟩ := hs1.createDirs Cos.defaultDirs hrep0 hinv0 rfl
    rw [Rep.qformatFs_eq hrep hv hboot']
    refine ⟨⟨h2, hs2⟩, v, hrep, Or.inl hv, Or.inl ?_⟩
    rw [hboot']
    exact Layout.decode_encode _
  · obtain ⟨v, hrep, hv, hboot, htool⟩ := Rep.qformatFs_small_ind s (by omega)
      (P := fun s' => ∃ h, Sim s.layout h s') ⟨_, hmark⟩
      (fun _ _ ⟨_, hs⟩ => hs.createRoot_exists)
      fun hrep hff ⟨_, hs⟩ => hs.fsCreateDir_none hrep hff _ 0
    refine ⟨htool, v, hrep, Or.inr hv, Or.inl ?_⟩
    rw [hboot]
    exact Layout.decode_encode _

/-- An image that was made by the tool. -/
theorem shared_cmdMkfs {image : Disk} {n hint : Nat} (hempty : ∀ a, image.read a = Buf.zero)
    (hinodes : hint ≤ 262144) (hmade : cmdMkfs image n hint = some h) :
    ∃ L s, Sim L h s ∧ Shared L s := by
  obtain ⟨L, hsb, hsmall⟩ := mkfsSuperblock_layout n hinodes
  obtain ⟨-, hsim⟩ := cmdMkfs_spec (s := Cos.rawDrive n fun _ => Buf.zero) hsb hsmall hempty
    fun _ => rfl
  obtain ⟨hroom, hs⟩ := hsim h hmade
  obtain ⟨hrep0, hinv0⟩ := Rep.formatRoot_spec _ L hroom
  obtain ⟨v, hrep, hv, -, hboot, -⟩ := Rep.createDirs_spec (P := fun _ => True)
    (fun _ _ _ => trivial) Cos.defaultDirs hrep0 hinv0 rfl trivial
  refine ⟨L, _, hs, ⟨h, hs⟩, v, hrep, Or.inl hv, Or.inl ?_⟩
  rw [hboot, Rep.rootImg, Img.born_boot]
  exact Layout.decode_encode _

/-- A drive that was just formatted can be mounted. -/
theorem exists_mount_qformatFs (s : Cos) (h6 : 6 ≤ s.driveSectors)
    (hsmall : (Cos.formatSuperblock s.driveSectors).totalBlocks ≤ 262144) :
    ∃ h, mountImage s.qformatFs.disk = some h := by
  have hboot := (Cos.loaded_qformatFs s h6).boot
  obtain ⟨h, hmount, -⟩ := (shared_qformatFs s hsmall).mount (k := s.qformatFs) (fun _ => rfl)
    ((congrArg Superblock.magic hboot).trans (Layout.magic _)) rfl
  exact ⟨h, hmount⟩

/-- Every image that goes back and forth can be opened by both sides. -/
theorem CosImage.shared {d : Disk} (hd : CosImage d) :
    ∃ L s, Shared L s ∧ ∀ a, d.read a = s.blockRead a := by
  induction hd with
  | qformat small run => exact ⟨_, _, (shared_qformatFs _ small).calls run, fun _ => rfl⟩
  | mkfs empty inodes made =>
    obtain ⟨L, s, hsim, hs⟩ := shared_cmdMkfs empty inodes made
    exact ⟨L, s, hs, hsim.sectors⟩
  | driver image magic run ih =>
    obtain ⟨L, s, hs, hread⟩ := ih
    obtain ⟨-, -, -, hs'⟩ := hs.mount hread magic rfl
    exact ⟨L, _, hs'.calls run, fun _ => rfl⟩
  | @tool d h image mount cmd ih =>
    obtain ⟨L, s, hs, hread⟩ := ih
    obtain ⟨h1, hmount, hsim, hs1⟩ := hs.mount hread (magic_of_mountImage mount)
      (k := { Cos.rawDrive 0 (fun _ => Buf.zero) with disk := d }) rfl
    rw [mount] at hmount
    cases hmount
    obtain ⟨s', hsim', hs'⟩ := hs1.run hsim cmd
    exact ⟨L, s', hs', hsim'.sectors⟩

/-! ### Agreement -/

/-- The same result, and the same sectors. -/
def Same {α : Type} (x : α × Host) (y : α × Cos) : Prop :=
  x.1 = y.1 ∧ ∀ a, x.2.blockRead a = y.2.blockRead a

/-- The tool in state `h` and the driver in state `s` do the same. To write to an inode it has to be
in use; whatever only reads or frees takes any inode, node and block. -/
structure Agree (h : Host) (s : Cos) : Prop where
  fsWrite : ∀ i o data, s.InUse i → o + data.length < 2 ^ 32 →
    Same (h.fsWrite i o data) (s.fsWrite i o data)
  getPhysicalBlock : ∀ i l, s.InUse i →
    let x := h.getPhysicalBlock i (h.readInode i) l true
    let y := s.getPhysicalBlock i (s.readInode i) l true
    x.2.1 = y.2.1 ∧ Same (x.1, x.2.2) (y.1, y.2.2)
  findPhysicalBlock : ∀ i node l,
    let x := h.getPhysicalBlock i node l false
    let y := s.getPhysicalBlock i node l false
    x.2.1 = y.2.1 ∧ Same (x.1, x.2.2) (y.1, y.2.2)
  allocBlock : Same h.allocBlock s.allocBlock
  freeIndirectTree : ∀ b depth,
    Same ((), Host.freeIndirectTree depth b h) ((), Cos.freeIndirectTree depth b s)
  fsRead : ∀ i node o size, o + size < 2 ^ 32 → h.fsRead i node o size = s.fsRead i node o size

theorem Shared.agree (hs : Shared L s) (hsim : Sim L h s) : Agree h s := by
  obtain ⟨-, v, hrep, hv, -⟩ := hs
  have hb : Img.Blocks L v := by
    rcases hv with hv | hv
    · exact hv.blocks
    · exact hv.blocks
  refine ⟨fun i o data hi hsum => ?_, fun i l hi => ?_, fun i node l => ?_, ?_, fun b depth => ?_,
    fun i node o size hsum => hsim.fsRead i node hsum⟩
  · obtain ⟨hlt, hu⟩ := hrep.inUse_iff.mp hi
    obtain ⟨hres, hsim'⟩ := hsim.fsWrite hrep hb hlt hu (o := o) (by omega) data
    exact ⟨hres, hsim'.sectors⟩
  · obtain ⟨hlt, hu⟩ := hrep.inUse_iff.mp hi
    obtain ⟨hres, hnode, hsim'⟩ := hsim.getPhysicalBlock_true hrep hb hlt hu l
    rw [← hrep.ino i hlt] at hres hnode hsim'
    rw [hsim.readInode]
    exact ⟨hnode, hres, hsim'.sectors⟩
  · obtain ⟨b, hh, hk⟩ := hsim.getPhysicalBlock_false i node l
    rw [hh, hk]
    exact ⟨rfl, rfl, hsim.sectors⟩
  · obtain ⟨hres, hsim'⟩ := hsim.allocBlock
    exact ⟨hres, hsim'.sectors⟩
  · exact ⟨rfl, (Sim.freeIndirectTree depth b hsim).sectors⟩

/-- **One file system, two implementations.** Whoever made the image and whoever changed it, the
tool after `mount_image` and the driver after `init_fs` do the same. -/
theorem functions_agree {d : Disk} (hd : CosImage d) (hmount : mountImage d = some h)
    (hs : s.disk = d) : Agree h s.initFs := by
  obtain ⟨L, t, hshared, hread⟩ := hd.shared
  obtain ⟨h', hmount', hsim, hshared'⟩ := hshared.mount hread (magic_of_mountImage hmount) hs
  rw [hmount] at hmount'
  obtain rfl := Option.some.inj hmount'
  exact hshared'.agree hsim

/-- The smallest image that `mkfs` and `qformat_fs` are used for. -/
theorem functions_agree_smallest :
    ∃ h, mountImage (Cos.zeroDrive 1024).qformatFs.disk = some h ∧
      Agree h (Cos.zeroDrive 1024).qformatFs.initFs := by
  have hsmall : (Cos.formatSuperblock (Cos.zeroDrive 1024).driveSectors).totalBlocks
      ≤ 262144 := by decide
  obtain ⟨h, hmount⟩ := exists_mount_qformatFs _ (by decide) hsmall
  exact ⟨h, hmount, functions_agree (.qformat hsmall Relation.ReflTransGen.refl) hmount rfl⟩

/-! ### Inodes that are not in use -/

/-- `get_physical_block` on a direct block. -/
theorem getPhysicalBlock_direct (h : Host) (i : Nat) (node : Inode) {l : Nat} (hl : l < 12) :
    h.getPhysicalBlock i node l true =
      if node.ptr l = 0 then (h.allocBlock.1, node.setPtr l h.allocBlock.1,
        h.allocBlock.2.writeInode i (node.setPtr l h.allocBlock.1))
      else (node.ptr l, node, h) := by
  rw [getPhysicalBlock, blockPath_eq, if_pos hl]
  by_cases h0 : node.ptr l = 0
  · simp [rootBlock, descend, h0]
  · simp [rootBlock, descend, h0]

theorem cos_getPhysicalBlock_direct (s : Cos) (i : Nat) (node : Inode) {l : Nat} (hl : l < 12) :
    s.getPhysicalBlock i node l true =
      if node.ptr l = 0 then (s.allocBlock.1, node.setPtr l s.allocBlock.1,
        s.allocBlock.2.writeInode i (node.setPtr l s.allocBlock.1))
      else (node.ptr l, node, s) := by
  rw [Cos.getPhysicalBlock, blockPath_eq, if_pos hl]
  by_cases h0 : node.ptr l = 0
  · simp [Cos.rootBlock, Cos.descend, h0]
  · simp [Cos.rootBlock, Cos.descend, h0]

/-- Two sectors of ones. -/
def ones : List Byte := List.replicate 1024 0xFF

theorem length_ones : ones.length = 1024 := List.length_replicate

theorem getD_ones {j : Nat} (hj : j < 1024) : ones.getD j 0 = 0xFF := by
  rw [List.getD_eq_getElem?_getD, ones, List.getElem?_replicate, if_pos hj, Option.getD_some]

/-- A sector of ones, over whatever was in the buffer. -/
theorem bit_splice_ones (buf : Sector) {b : Nat} (hb : b < 4096) :
    (buf.splice 0 512 fun j => ones.getD (0 + j) 0).bit b = true := by
  rw [Buf.bit_eq_getLsbD, Buf.get_splice, if_pos (by omega), getD_ones (by omega)]
  have : ∀ k, k < 8 → (0xFF : Byte).getLsbD k = true := by decide
  exact this _ (Nat.mod_lt _ (by omega))

/-- Direct block 0 is the bitmap's sector and direct block 1 is missing: the driver fills the bitmap
and then finds no free block. -/
theorem fsWrite_ones_driver (hrep : Rep L s v) (hbbs : L.bbs = 1) {i : Nat}
    (h0 : (s.readInode i).ptr 0 = 1) (h1 : (s.readInode i).ptr 1 = 0) :
    (s.fsWrite i 0 ones).1 = -1 := by
  have hfail : ∀ buf : Sector, (∀ b, b < 4096 → buf.bit b = true) →
      ((s.blockWrite 1 buf).getPhysicalBlock i (s.readInode i) 1 true).1 = 0 := by
    intro buf hbuf
    have hbits := L.bits
    have hrep' : Rep L (s.blockWrite (1 + 0) buf) { v with bit := fun _ => true } :=
      hrep.writeBitmap (by omega) (fun b _ _ => hbuf _ (by omega)) fun b hb hne => by omega
    rw [cos_getPhysicalBlock_direct _ _ _ (by omega), if_pos h1, hrep'.allocBlock_fst,
      Img.firstFree_eq_none.mpr fun _ _ _ => rfl]
    rfl
  have hstart : s.getPhysicalBlock i (s.readInode i) 0 true = (1, s.readInode i, s) := by
    rw [cos_getPhysicalBlock_direct _ _ _ (by omega), if_neg (by omega), h0]
  have hok : (Cos.fsWriteLoop i 0 ones 0 (s.readInode i) Buf.zero s).ok = false := by
    rw [Cos.fsWriteLoop, length_ones, if_pos (by omega), show (0 + 0) % 2 ^ 32 = 0 from rfl]
    simp only [sectorSize, Nat.zero_mod, Nat.zero_div, hstart, Nat.one_ne_zero, if_false,
      show min (512 - 0) (1024 - 0) = 512 by omega,
      if_neg (show ¬ (0 > 0 ∨ 1024 - 0 < 512) by omega)]
    rw [Cos.fsWriteLoop, length_ones, if_pos (by omega),
      show (0 + (0 + 512)) % 2 ^ 32 = 512 from rfl]
    simp only [sectorSize, show 512 / 512 = 1 by omega]
    rw [if_pos (hfail _ fun b hb => bit_splice_ones _ hb)]
  rw [Cos.fsWrite]
  simp only [hok, Bool.not_false, if_true]

/-- The tool looks for a free block in memory. -/
theorem allocBlock_blockWrite (h : Host) (a : Nat) (sec : Sector) :
    (h.blockWrite a sec).allocBlock.1 = h.allocBlock.1 := by
  rw [allocBlock, allocBlock]
  have hbit : ∀ i, (h.blockWrite a sec).getBlockBit i = h.getBlockBit i := fun _ => rfl
  simp only [show (h.blockWrite a sec).gSb = h.gSb from rfl, hbit]
  split
  · rfl
  · rfl

/-- The tool has the bitmap in memory and finds one. -/
theorem fsWrite_ones_tool (hs : Sim L h s) (hrep : Rep L s v) {i b : Nat}
    (hff : v.firstFree L = some b)
    (h0 : (s.readInode i).ptr 0 = 1) (h1 : (s.readInode i).ptr 1 = 0) :
    (h.fsWrite i 0 ones).1 = 1024 := by
  have hb := (Img.firstFree_facts hff).2.2.1
  have hfound : ∀ buf : Sector,
      ((h.blockWrite 1 buf).getPhysicalBlock i (h.readInode i) 1 true).1 = b := by
    intro buf
    have halloc : (h.blockWrite 1 buf).allocBlock.1 = b := by
      rw [allocBlock_blockWrite, hs.allocBlock.1, hrep.allocBlock_fst, hff, Option.getD_some]
    rw [getPhysicalBlock_direct _ _ _ (by omega), if_pos (by rw [hs.readInode]; exact h1), halloc]
  have hstart : h.getPhysicalBlock i (h.readInode i) 0 true = (1, h.readInode i, h) := by
    rw [getPhysicalBlock_direct _ _ _ (by omega), hs.readInode, if_neg (by omega), h0]
  obtain ⟨hok, hwritten⟩ : (fsWriteLoop i 0 ones 0 (h.readInode i) Buf.zero h).ok = true ∧
      (fsWriteLoop i 0 ones 0 (h.readInode i) Buf.zero h).written = 1024 := by
    rw [fsWriteLoop, length_ones, if_pos (by omega), show (0 + 0) % 2 ^ 32 = 0 from rfl]
    simp only [sectorSize, Nat.zero_mod, Nat.zero_div, hstart, Nat.one_ne_zero, if_false,
      show min (512 - 0) (1024 - 0) = 512 by omega,
      if_neg (show ¬ (0 > 0 ∨ 1024 - 0 < 512) by omega)]
    rw [fsWriteLoop, length_ones, if_pos (by omega), show (0 + (0 + 512)) % 2 ^ 32 = 512 from rfl]
    simp only [sectorSize, show 512 / 512 = 1 by omega, show 512 % 512 = 0 by omega,
      show min (512 - 0) (1024 - (0 + 512)) = 512 by omega]
    rw [if_neg (by rw [hfound]; exact hb), fsWriteLoop, length_ones, if_neg (by omega)]
    exact ⟨rfl, rfl⟩
  rw [fsWrite]
  simp only [hok, hwritten, Bool.not_true, Bool.false_eq_true, if_false]
  split
  · rfl
  · rfl

/-- A drive of 2048 sectors with old data in sector 67, which `qformat_fs` does not clear: it is
where inode 256 will be. -/
def usedDrive : Cos := Cos.rawDrive 2048 fun a => if a = 67 then Buf.zero.put32 4 1 else Buf.zero

/-- The inode that is found there has the bitmap's sector as its first block. -/
theorem readInode_usedDrive (r : Nat) (hr : r < 15) :
    ((usedDrive.wipeFs (Layout.ofDrive 2048).sb).readInode 256).ptr r = if r = 0 then 1 else 0 := by
  have hbits : Cos.bitmapSectors (Layout.ofDrive 2048).sb.totalBlocks = 1 := rfl
  have hinodes : Cos.inodeSectors (Layout.ofDrive 2048).sb.inodeCount = 1 := rfl
  have hstart : (Layout.ofDrive 2048).sb.inodeStart = 3 := rfl
  have hsec : (usedDrive.wipeFs (Layout.ofDrive 2048).sb).blockRead 67 = Buf.zero.put32 4 1 := by
    simp only [Cos.wipeFs, Cos.blockRead, Disk.read_write, Disk.read_fill, hbits, hinodes, hstart,
      (Layout.ofDrive 2048).bitmapStart]
    rw [if_neg (by omega), if_neg (by omega), if_neg (by omega), if_neg (by omega)]
    rfl
  have hsb : (usedDrive.wipeFs (Layout.ofDrive 2048).sb).gSuperblock = (Layout.ofDrive 2048).sb :=
    rfl
  rw [Cos.readInode, hsb, hstart, inodesPerBlock, inodeSize, show 3 + 256 / 4 = 67 from rfl, hsec,
    Inode.ptr, Buf.get32_slice _ (by omega), show 256 % 4 * 128 + (4 + 4 * r) = 4 + 4 * r by omega]
  split
  · rename_i h0
    rw [h0]
    exact Buf.get32_put32_same 1 (by omega)
  · rw [Buf.get32_put32_out (by omega), Buf.get32_zero]

/-- A file system of 2048 blocks whose unused inode 256 has the bitmap's sector as its first
block. -/
theorem fsWrite_unused_differs (s : Cos) (hsize : s.driveSectors = 2048)
    (hptr : ∀ r, r < 15 → ((s.wipeFs (Layout.ofDrive 2048).sb).readInode 256).ptr r =
      if r = 0 then 1 else 0) :
    CosImage s.qformatFs.disk ∧ ∃ h, mountImage s.qformatFs.disk = some h ∧
      256 < s.qformatFs.initFs.gSuperblock.inodeCount ∧ (h.fsWrite 256 0 ones).1 = 1024 ∧
      (s.qformatFs.initFs.fsWrite 256 0 ones).1 = -1 := by
  have hsmall : (Cos.formatSuperblock s.driveSectors).totalBlocks ≤ 262144 := by
    rw [hsize]
    decide
  have hL : s.layout = Layout.ofDrive 2048 := congrArg Layout.ofDrive hsize
  obtain ⟨v, hrep, hv, -, hboot, hf, -, hino, -⟩ := Rep.qformatFs_filled s
    (by rw [hL]; decide) (by rw [hL]; decide)
  have hshared := shared_qformatFs s hsmall
  have hroot := (Cos.loaded_qformatFs s (by omega)).boot
  rw [hL] at hrep hv hboot hf hino hshared hroot
  have hinit := hrep.initFs_eq hboot hv.root
  obtain ⟨h, hmount, hsim, -⟩ := hshared.mount (k := s.qformatFs) (fun _ => rfl)
    ((congrArg Superblock.magic hroot).trans (Layout.magic _)) rfl
  have hnode : ∀ r, r < 15 → (s.qformatFs.readInode 256).ptr r = if r = 0 then 1 else 0 := by
    intro r hr
    rw [hrep.ino 256 (by decide), hino 256 (by omega)]
    exact hptr r hr
  rw [hinit] at hsim ⊢
  refine ⟨.qformat hsmall ReflTransGen.refl, h, hmount, ?_, ?_, ?_⟩
  · rw [hrep.sb]
    decide
  · exact fsWrite_ones_tool hsim hrep (hf.firstFree (by decide)) (hnode 0 (by omega))
      (hnode 1 (by omega))
  · exact fsWrite_ones_driver hrep rfl (hnode 0 (by omega)) (hnode 1 (by omega))

/-- On an inode that is not in use the two sides may differ: on a used drive `qformat_fs` leaves it
as it finds it. -/
theorem functions_differ_unused : ∃ (d : Disk) (h : Host) (s : Cos),
    CosImage d ∧ mountImage d = some h ∧ s.disk = d ∧
      ∃ i o data, i < s.initFs.gSuperblock.inodeCount ∧ o + data.length < 2 ^ 32 ∧
        (h.fsWrite i o data).1 = 1024 ∧ (s.initFs.fsWrite i o data).1 = -1 := by
  obtain ⟨himage, h, hmount, hlt, htool, hdriver⟩ :=
    fsWrite_unused_differs usedDrive rfl readInode_usedDrive
  exact ⟨_, h, usedDrive.qformatFs, himage, hmount, rfl, 256, 0, ones, hlt,
    by rw [length_ones]; omega, htool, hdriver⟩

end Host

end Crusadia
