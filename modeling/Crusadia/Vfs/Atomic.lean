import Crusadia.Cos.Metadata
import Crusadia.Vfs.Create

/-!
# Crusadia.Vfs.Atomic

**Failed creations on a mounted drive.** `Cos.run_create_atomic_iff` says for every state of
a mounted drive which calls of `be_mkdir` and `be_create` are atomic: those that do not strand
an object for which its directory has no room. `Cos.stranded_inode` is a call that does.
-/

namespace Crusadia

open Relation (ReflTransGen)

namespace Cos

/-! ### States of a mounted drive -/

theorem beMkdir_eq (s : Cos) (rel : CStr) : (s.beMkdir rel).2 = s ∨
    ∃ p leaf, s.beParent rel = .ok (p, leaf) ∧ (s.beMkdir rel).2 = s.apply (.createDir leaf p) := by
  rw [beMkdir]
  cases hp : s.beParent rel with
  | error e => exact Or.inl rfl
  | ok pl =>
    refine Or.inr ⟨pl.1, pl.2, rfl, ?_⟩
    rw [apply]

theorem beCreate_eq (s : Cos) (rel tag : CStr) : (s.beCreate rel tag).2 = s ∨
    ∃ p leaf, s.beParent rel = .ok (p, leaf) ∧
      (s.beCreate rel tag).2 = { s.apply (.createFile p leaf tag) with gCurrentDir := 0 } := by
  rw [beCreate]
  cases hp : s.beParent rel with
  | error e => exact Or.inl rfl
  | ok pl =>
    refine Or.inr ⟨pl.1, pl.2, rfl, ?_⟩
    rw [apply]

/-- The invariant of a mounted drive. -/
structure Mounted (L : Layout) (s : Cos) : Prop where
  sound : Sound L s
  named : s.img.Named L

namespace Mounted

variable {L : Layout} {s s' : Cos}

theorem apply (h : Mounted L s) (op : Op) (hok : s.Allowed op) : Mounted L (s.apply op) := by
  obtain ⟨hrep, hv⟩ := h.sound.img
  exact ⟨h.sound.step ⟨op, hok, rfl⟩, hrep.named_apply hv h.named hok⟩

theorem setCwd (h : Mounted L s) (d : Nat) : Mounted L { s with gCurrentDir := d } := by
  obtain ⟨v, hrep, hv⟩ := h.sound
  exact ⟨⟨_, hrep.setCwd d, hv.cwd d⟩, h.named.cwd d⟩

theorem parent (h : Mounted L s) {rel : CStr} {p : Nat} {leaf : CStr}
    (hp : s.beParent rel = .ok (p, leaf)) : s.DirInode p := by
  obtain ⟨hrep, hv⟩ := h.sound.img
  exact hrep.dirInode_iff.mpr (hrep.beParent_ok hv hp).1

theorem step (h : Mounted L s) (hstep : MountStep s s') : Mounted L s' := by
  rcases hstep with ⟨op, hok, rfl⟩ | ⟨rel, rfl⟩ | ⟨rel, tag, rfl⟩
  · exact h.apply op hok
  · rcases s.beMkdir_eq rel with heq | ⟨p, leaf, hp, heq⟩
    · rwa [heq]
    · rw [heq]
      exact h.apply (.createDir leaf p) (h.parent hp)
  · rcases s.beCreate_eq rel tag with heq | ⟨p, leaf, hp, heq⟩
    · rwa [heq]
    · rw [heq]
      exact (h.apply (.createFile p leaf tag) (h.parent hp)).setCwd 0

end Mounted

theorem MountRun.mounted {s0 s : Cos} (h : MountRun s0 s) (hsize : 6 ≤ s0.driveSectors) :
    Mounted s0.layout s := by
  induction h with
  | refl =>
    have hrun : Run s0 s0.qformatFs := ReflTransGen.refl
    exact ⟨hrun.sound hsize, hrun.named hsize⟩
  | tail _ hstep ih => exact ih.step hstep

/-! ### Drives without a root directory -/

/-- Without a root directory nothing can be created. -/
theorem beParent_ne_ok {s : Cos} (h : (s.readInode 0).type ≠ 2) (rel : CStr) (p : Nat)
    (leaf : CStr) : s.beParent rel ≠ .ok (p, leaf) := by
  -- The parent path resolves only if it is empty, and then to inode 0.
  have hres : ∀ (path : CStr) (q : Nat), s.cosResolve path = some q → q = 0 := by
    intro path q hq
    rw [cosResolve] at hq
    cases hc : components path with
    | nil =>
      rw [hc] at hq
      exact (Option.some.inj hq).symm
    | cons c comps =>
      rw [hc, resolveFrom, resolveStep, if_pos h] at hq
      cases hq
  rw [beParent]
  repeat' split
  all_goals rintro ⟨⟩
  rename_i hq hdir _ _
  rw [hres _ _ hq] at hdir
  exact hdir h

/-- A drive without a root directory stays as it is. -/
theorem MountStep.eq_of_rootless {s s' : Cos} (hstep : MountStep s s')
    (hroot : (s.readInode 0).type ≠ 2) (hnone : ∀ i, ¬ s.DirInode i ∧ ¬ s.FileInode i) :
    s' = s := by
  rcases hstep with ⟨op, hok, -⟩ | ⟨rel, rfl⟩ | ⟨rel, tag, rfl⟩
  · exact absurd hok (not_allowed hnone op)
  · rcases s.beMkdir_eq rel with heq | ⟨p, leaf, hp, -⟩
    · exact heq
    · exact absurd hp (beParent_ne_ok hroot rel p leaf)
  · rcases s.beCreate_eq rel tag with heq | ⟨p, leaf, hp, -⟩
    · exact heq
    · exact absurd hp (beParent_ne_ok hroot rel p leaf)

theorem MountRun.small {s0 s : Cos} (h : MountRun s0 s) (hsize : s0.driveSectors < 6) :
    (s.readInode 0).type ≠ 2 ∧ ∀ i, ¬ s.DirInode i ∧ ¬ s.FileInode i := by
  induction h with
  | refl => exact Run.small ReflTransGen.refl hsize
  | tail _ hstep ih =>
    rw [hstep.eq_of_rootless ih.1 ih.2]
    exact ih

theorem Untouched.refl (s : Cos) : s.Untouched s :=
  ⟨fun _ _ => ⟨rfl, rfl⟩, fun _ _ => rfl, fun _ => Iff.rfl, fun _ _ => ⟨rfl, fun _ _ _ => rfl⟩⟩

/-- **Atomic creation.** In every state of a mounted drive, a call of `be_mkdir` or
`be_create` that fails changes nothing exactly if it does not get as far as an object for
which its directory has no room. -/
theorem run_create_atomic_iff (s₀ : Cos) {s : Cos} (hrun : MountRun s₀ s) (rel tag : CStr) :
    (s.Atomic (s.beMkdir rel) ↔ ∀ p leaf, s.beParent rel = .ok (p, leaf) →
        ¬ s.Strands (Layout.ofDrive s₀.driveSectors) p) ∧
      (s.Atomic (s.beCreate rel tag) ↔ ∀ p leaf, s.beParent rel = .ok (p, leaf) →
        tag.length ≠ 0 → ¬ s.Strands (Layout.ofDrive s₀.driveSectors) p) := by
  by_cases hsize : 6 ≤ s₀.driveSectors
  · have hm := hrun.mounted hsize
    obtain ⟨hrep, hv⟩ := hm.sound.img
    exact ⟨hrep.beMkdir_atomic_iff hv hm.named rel, hrep.beCreate_atomic_iff hv hm.named rel tag⟩
  · have hroot := beParent_ne_ok (hrun.small (by omega)).1 rel
    refine ⟨iff_of_true (fun _ => ?_) fun p leaf hp => absurd hp (hroot p leaf),
      iff_of_true (fun _ => ?_) fun p leaf hp => absurd hp (hroot p leaf)⟩
    · rcases s.beMkdir_eq rel with heq | ⟨p, leaf, hp, -⟩
      · rw [heq]
        exact Untouched.refl s
      · exact absurd hp (hroot p leaf)
    · rcases s.beCreate_eq rel tag with heq | ⟨p, leaf, hp, -⟩
      · rw [heq]
        exact Untouched.refl s
      · exact absurd hp (hroot p leaf)

theorem Run.mount {s0 s : Cos} (h : Run s0 s) : MountRun s0 s :=
  ReflTransGen.mono (fun _ _ => Or.inl) _ _ h

end Cos

/-! ### A crowded root directory -/

namespace Cos

/-- The names `"0"` to `"9"`. -/
def digitNames : List CStr := (List.range 10).map fun k => CStr.ofBytes [BitVec.ofNat 8 (0x30 + k)]

/-- Creating directories in the root one after the other is a run. -/
theorem createDirs_run {L : Layout} (rest : List CStr) : ∀ {s : Cos} {v : Img}, Rep L s v →
    Img.Inv L v → v.cwd = 0 →
    ReflTransGen Step s (rest.foldl (fun s name => (s.fsCreateDir name s.gCurrentDir).2) s) := by
  induction rest with
  | nil => exact fun _ _ _ => ReflTransGen.refl
  | cons name rest ih =>
    intro s v h hv hcwd
    rw [List.foldl_cons, h.cwd, hcwd]
    obtain ⟨v1, h1, hc⟩ := h.fsCreateDir_spec hv hv.root name
    have hstep : Step s (s.fsCreateDir name 0).2 :=
      ⟨.createDir name 0, h.dirInode_iff.mpr hv.root, by rw [apply]⟩
    exact ReflTransGen.head hstep (ih h1
      (hc.inv hv hv.root (Inode.fresh_blank 2) fun _ => rfl) (hc.cwd.trans hcwd))

/-- A formatted drive with ten directories in the root next to the default ones. -/
def manyDirs : Cos :=
  digitNames.foldl (fun s name => (s.fsCreateDir name s.gCurrentDir).2)
    (zeroDrive 1024).qformatFs

/-- One file more: the root has sixteen entries, which is all that fits in its block. -/
def fullRoot : Cos := manyDirs.apply (.createFile 0 fName fName)

/-- The file, inode 16, is written until one block is left. -/
def crowded : Cos := fullRoot.apply (.write 16 71680 (List.replicate 476160 1))

/-- The names in the root. -/
def crowdedNames : List CStr := defaultDirs ++ digitNames ++ [fName]

theorem fullRoot_spec : Run (zeroDrive 1024) fullRoot ∧
    ∃ v, Rep (Layout.ofDrive 1024) fullRoot v ∧ Img.Inv (Layout.ofDrive 1024) v ∧
      Img.Filled (Layout.ofDrive 1024) crowdedNames v ∧
      v.ino 16 = (Rep.fileNode fName).setPtr 0 83 := by
  have hlen : (defaultDirs ++ digitNames).length = 15 := rfl
  obtain ⟨v, hrep, hv, hcwd, -, hf, -⟩ :=
    Rep.qformatFs_filled (zeroDrive 1024) (by decide) (by decide)
  have hdirs := createDirs_run digitNames hrep hv hcwd
  obtain ⟨v1, hrep1, hv1, hcwd1, -, hf1, -⟩ := Rep.createDirs_filled digitNames hrep hv hcwd hf
    (by decide) (by decide) (by decide) (by decide) (by decide)
  rw [← manyDirs] at hdirs hrep1
  obtain ⟨-, hrep2, hv2⟩ := hrep1.createFile_filled hv1 hcwd1 hf1 fName fName (by decide)
    (by decide) (by decide) (by decide) (by decide)
  have hstep : Step manyDirs fullRoot :=
    ⟨.createFile 0 fName fName, hrep1.dirInode_iff.mpr hv1.root, rfl⟩
  have happly : fullRoot = (manyDirs.fsCreateFile fName fName).2 := by
    rw [fullRoot, apply, setCwd_self (hrep1.cwd.trans hcwd1)]
  refine ⟨ReflTransGen.tail hdirs hstep, _, happly ▸ hrep2, hv2,
    hf1.extend _ _ (by decide) (by decide), ?_⟩
  have hblock : (Layout.ofDrive (zeroDrive 1024).driveSectors).sb.dataStart + 15 + 1
      = 83 := by decide
  rw [Img.extend_ino, hlen, if_pos rfl, hblock]

theorem crowded_cost {v : Img} (hf : Img.Filled (Layout.ofDrive 1024) crowdedNames v)
    (hino : v.ino 16 = (Rep.fileNode fName).setPtr 0 83) :
    (v.neededSet (Layout.ofDrive 1024) 16 140 930).card = 939 ∧
      v.free (Layout.ofDrive 1024) = 940 := by
  constructor
  · refine Img.neededSet_double (a := 0) (by decide) (by rw [hf.used]; decide) ?_ (by omega)
      (by omega)
    rw [hino, (Rep.fresh_fileNode fName).ptr_setPtr (by omega) (by decide), if_neg (by omega)]
  · rw [Img.free, hf.freeList, List.length_range']
    decide

theorem crowded_spec : MountRun (zeroDrive 1024) crowded ∧
    ∃ v v', Rep (Layout.ofDrive 1024) crowded v' ∧ Img.Inv (Layout.ofDrive 1024) v' ∧
      Img.Inv (Layout.ofDrive 1024) v ∧ Img.Filled (Layout.ofDrive 1024) crowdedNames v ∧
      Img.Edit (Layout.ofDrive 1024) 16 v v' ∧ v'.free (Layout.ofDrive 1024) = 1 := by
  obtain ⟨hrun, v, hrep, hv, hf, hino⟩ := fullRoot_spec
  obtain ⟨hcost, hfree⟩ := crowded_cost hf hino
  have hu : v.used 16 = true := by
    rw [hf.used]
    decide
  have htype : (v.ino 16).type = 1 := by
    rw [hino, Inode.type, Inode.raw_setPtr (by omega) (by omega)]
    exact Rep.fileNode_type _
  have hfile : fullRoot.FileInode 16 := hrep.fileInode_iff.mpr ⟨by decide, hu, htype⟩
  have hstep : Step fullRoot crowded :=
    ⟨.write 16 71680 (List.replicate 476160 1), ⟨hfile, by decide⟩, by rw [crowded]⟩
  refine ⟨Run.mount (ReflTransGen.tail hrun hstep), v, ?_⟩
  have hlen : (List.replicate 476160 (1 : Byte)).length = 476160 := List.length_replicate
  obtain ⟨v', w, sz, ok, hrep', hw, hend, -⟩ := hrep.fsWrite_spec (i := 16) (o := 71680) hv.blocks
    (by decide) hu (by decide) (List.replicate 476160 1)
  have happly : crowded = (fullRoot.fsWrite 16 71680 (List.replicate 476160 1)).2 := by
    rw [crowded, apply]
  refine ⟨v', happly ▸ hrep', hv.edit hw.edit hw.blocks (by rw [htype]; decide), hv, hf,
    hw.edit, ?_⟩
  cases hend with
  | full _ _ _ _ hpaid =>
    have := hpaid (List.ne_nil_of_length_pos (by rw [hlen]; decide))
    rw [hlen, show (71680 + 476160 - 1) / 512 - 71680 / 512 + 1 = 930 by decide, hcost,
      hfree] at this
    omega
  | short k _ hwk hlt hfail _ _ =>
    -- All the blocks are there for the taking.
    rw [hwk, hlen] at hlt
    refine absurd ⟨?_, ?_⟩ hfail
    · rw [maxBlocks]
      omega
    · have hle := Finset.card_le_card (Img.neededSet_mono (L := Layout.ofDrive 1024) (v := v)
        (i := 16) (l := 140) (show k + 1 ≤ 930 by omega))
      rw [hcost] at hle
      rw [hfree]
      exact Nat.le_trans hle (by decide)

/-- The path `"/z"`. -/
def zPath : CStr := CStr.ofBytes [slash, 0x7a]

/-- The name `"z"`. -/
def zName : CStr := CStr.ofBytes [0x7a]

/-- A name in the root that is new may be created. -/
theorem beParent_zPath {L : Layout} {s : Cos} {v : Img} (h : Rep L s v) (hv : Img.Inv L v)
    (hnew : v.lookup 0 zName = none) : s.beParent zPath = .ok (0, zName) := by
  have hsplit : splitRel zPath = some (CStr.ofBytes [slash], zName) := by decide
  have hcomp : components zPath = [zName] := by decide
  have hroot : components (CStr.ofBytes [slash]) = [] := by decide
  have hname : nameOk .cosfs zName = true := by decide
  have hnone : s.cosResolve zPath = none := by
    rw [cosResolve, hcomp, resolveFrom, Option.bind_eq_none_iff]
    intro i hi
    rw [h.resolveStep_eq_some hv hv.root.lt hv.root.used, hnew] at hi
    cases hi.2
  have hres : s.cosResolve (CStr.ofBytes [slash]) = some 0 := by
    rw [cosResolve, hroot, resolveFrom]
  have htype : ¬ (s.readInode 0).type ≠ 2 := by
    rw [h.ino 0 hv.root.lt, not_not]
    exact hv.root.type
  simp only [beParent, hsplit, hname, beStat, hnone, hres, htype, Bool.not_true, Option.map_none,
    Option.isSome_none, Bool.false_eq_true, if_false]

theorem run_create_atomic_iff_new_drive :
    (zeroDrive 1024).qformatFs.Atomic
      ((zeroDrive 1024).qformatFs.beMkdir zPath) := by
  obtain ⟨v, hrep, hv, -, -, hf, -⟩ :=
    Rep.qformatFs_filled (zeroDrive 1024) (by decide) (by decide)
  have hlook : v.lookup 0 zName = none := Img.lookup_eq_none.mpr (hf.findSlot (by decide))
  refine (run_create_atomic_iff _ ReflTransGen.refl zPath zName).1.mpr fun p leaf hp hs => ?_
  rw [beParent_zPath hrep hv hlook] at hp
  obtain ⟨rfl, rfl⟩ := Prod.mk.inj (Except.ok.inj hp)
  -- The root has eleven empty slots.
  have hino := hrep.ino 0 hv.root.lt
  have hptr : (v.ino 0).ptr 0 = 67 := (hf.ptr 0 (by omega)).trans (by decide)
  refine hs.slots 0 15 (by omega) (by omega) (by rw [hino, hptr]; decide) ?_
  rw [hino, hptr, hrep.blk 67 (by decide) (by decide)]
  exact (hf.ent 15 (by omega)).trans (by decide)

/-- **A stranded inode.** One block is left and the root's block is full: `be_mkdir("/z")`
takes the inode and the block and fails. -/
theorem stranded_inode : MountRun (zeroDrive 1024) crowded ∧
    ¬ crowded.Atomic (crowded.beMkdir zPath) := by
  obtain ⟨hrun, v, v', hrep, hv', hv, hf, hedit, hfree⟩ := crowded_spec
  have hm := hrun.mounted (by decide)
  obtain ⟨himg, hinv⟩ := hm.sound.img
  have hlook : v'.lookup 0 zName = none := by
    refine (hedit.toFrame.findSlot (by decide) hv.root zName 12 0 (by omega)).trans ?_
    rw [hf.findSlot (by decide), Option.map_none]
  refine ⟨hrun, fun hatomic => ?_⟩
  refine (himg.beMkdir_atomic_iff hinv hm.named zPath).mp hatomic 0 zName
    (beParent_zPath hrep hv' hlook) ?_
  have himgfree : crowded.img.free (Layout.ofDrive 1024) = 1 := by
    rw [Img.free, img_freeList hrep]
    exact hfree
  have hino : crowded.readInode 0 = v.ino 0 :=
    (hrep.ino 0 (by decide)).trans (hedit.ino 0 (by decide))
  refine ⟨⟨17, ?_, ?_⟩, Nat.lt_of_lt_of_eq Nat.zero_lt_one himgfree.symm, fun b k hb hk h0 => ?_,
    Or.inr himgfree⟩
  · rw [hrep.sb]
    decide
  · rw [hrep.used 17 (by decide), hedit.used, hf.used]
    decide
  · -- The root has one block, and it is full.
    rw [hino, hf.ptr b (by omega)] at h0 ⊢
    have hroot : v.ptr (Layout.ofDrive 1024) (0, 0) [] = (Layout.ofDrive 1024).sb.dataStart :=
      (Img.forest_root hv.root.lt hv.root.used (by omega)).trans (hf.ptr 0 (by omega))
    have hblk := hedit.blk (0, 0) [] (Forest.place_nil _) (by decide) (by rw [hroot]; decide)
    rw [hroot] at hblk
    split at h0
    · rw [if_pos ‹_›, hrep.blk _ (by decide) (by decide), hblk, hf.ent k hk,
        if_pos (show k < crowdedNames.length from hk)]
      omega
    · exact absurd rfl h0

end Cos

end Crusadia
