import Crusadia.Cos.Loaded
import Crusadia.Vfs.Atomic
import Crusadia.Vfs.Kept

/-!
# Crusadia.Vfs.Work

**Work on mounted drives.** Most of what the VFS layer does is to find the mount of a path, to
enter its drive, to run an operation of the backend there and to leave the drive again.
`Vfs.Work` is any sequence of this; each function that does nothing else has one lemma here, and
every invariant is shown for `Vfs.Work` once.
-/

namespace Crusadia

namespace Cos

variable {L : Layout} {s : Cos}

section

variable (h : Loaded L s)
include h

/-- The parent of a new object is a directory. -/
theorem Loaded.parent {rel : CStr} {p : Nat} {leaf : CStr}
    (hp : s.beParent rel = .ok (p, leaf)) : s.DirInode p := by
  obtain ⟨v, hrep, hv⟩ := h.sound
  exact hrep.dirInode_iff.mpr (hrep.beParent_ok hv hp).1

theorem Loaded.beMkdir (rel : CStr) : Loaded L (s.beMkdir rel).2 := by
  rcases s.beMkdir_eq rel with heq | ⟨p, leaf, hp, heq⟩
  · rwa [heq]
  · rw [heq]
    exact h.fsCreateDir (h.parent hp) leaf

theorem Loaded.beCreate (rel tag : CStr) : Loaded L (s.beCreate rel tag).2 := by
  rcases s.beCreate_eq rel tag with heq | ⟨p, leaf, hp, heq⟩
  · rwa [heq]
  · rw [heq]
    exact ((h.setCwd p).fsCreateFile (h.parent hp) leaf tag).setCwd 0

/-- Deleting below a path that resolves; if it is no directory, nothing happens. -/
theorem Loaded.deleteBelow {parent : CStr} {p : Nat}
    (hp : s.cosResolve parent = some p) (leaf : CStr) : Loaded L (s.fsDeleteIn p leaf).2 := by
  by_cases htype : (s.readInode p).type = 2
  · obtain ⟨v, hrep, hv⟩ := h.sound
    obtain ⟨hlt, hu⟩ := hrep.resolve_used hv _ 0 hv.root.lt hv.root.used hp
    exact h.fsDeleteIn (hrep.dirInode_iff.mpr ⟨hlt, hu, hrep.ino p hlt ▸ htype⟩) leaf
  · rw [Cos.fsDeleteIn, if_pos htype]
    exact h

theorem Loaded.beRemove (rel : CStr) : Loaded L (s.beRemove rel).2 := by
  rw [Cos.beRemove]
  split
  · exact h
  split
  · exact h
  rename_i parent leaf _
  cases hn : s.beStat rel with
  | none => exact h
  | some n =>
    cases hp : s.cosResolve parent with
    | none => exact h
    | some p =>
      dsimp only
      split
      · exact h
      · dsimp only
        exact h.deleteBelow hp leaf

theorem Loaded.beTruncate (rel tag : CStr) : Loaded L (s.beTruncate rel tag).2 := by
  rw [Cos.beTruncate]
  split
  · exact h
  rename_i parent leaf _
  cases hi : s.cosResolve rel with
  | none => exact h
  | some i =>
    cases hp : s.cosResolve parent with
    | none => exact h
    | some p =>
      have hd := h.deleteBelow hp leaf
      dsimp only
      generalize s.fsDeleteIn p leaf = r at hd ⊢
      split
      · exact hd
      · exact hd.beCreate rel (keptTag (s.readInode i) tag)

end

end Cos

theorem Fat.fat32Stat_size {s : Fat} {path : CStr} {d : Fat.FatDirent}
    (h : s.fat32Stat path = some (some d)) : d.size < 2 ^ 32 := by
  rw [Fat.fat32Stat] at h
  split at h
  · cases h
  · obtain ⟨r, -, h⟩ := Option.map_eq_some_iff.mp h
    obtain ⟨e, -, rfl⟩ := Option.map_eq_some_iff.mp h
    exact Buf.get32_lt _ _

namespace Vfs

variable {v v' : Vfs} {i : Nat} {abs path rel : CStr} {r e : Int} {fl : OpenFlags} {tag : CStr}

/-- A slot of the mount table that is in use. -/
def Mounted (v : Vfs) (i : Nat) : Prop := i < vfsMaxMounts ∧ (v.mounts i).used = true

theorem SameTables.mounted (h : SameTables v v') : v'.Mounted i ↔ v.Mounted i := by
  rw [Mounted, Mounted, h.used]

/-- A search by rounds that skips the slots not in use chooses one in use. -/
theorem mounted_of_foldl {f : Option Nat → Nat → Option Nat}
    (hskip : ∀ best k, (v.mounts k).used = false → f best k = best)
    (hf : ∀ best k, f best k = best ∨ f best k = some k)
    (h : (List.range vfsMaxMounts).foldl f none = some i) : v.Mounted i := by
  refine List.foldlRecOn (motive := fun o => ∀ j, o = some j → v.Mounted j)
    (List.range vfsMaxMounts) f (fun j hj => by cases hj) ?_ i h
  intro best ih k hk j hj
  cases hu : (v.mounts k).used with
  | false => exact ih j (hskip best k hu ▸ hj)
  | true =>
    rcases hf best k with hb | hb
    · exact ih j (hb ▸ hj)
    · obtain rfl := Option.some.inj (hb ▸ hj)
      exact ⟨List.mem_range.mp hk, hu⟩

theorem mounted_of_findMount (h : v.findMount abs = some (i, rel)) : v.Mounted i := by
  obtain ⟨j, hj, heq⟩ := Option.map_eq_some_iff.mp h
  cases heq
  refine mounted_of_foldl (fun best k hu => ?_) (fun best k => ?_) hj <;>
    rw [betterMount.eq_def] <;> dsimp only
  · rw [hu]
    rfl
  · split
    · exact .inl rfl
    · cases best <;> dsimp only <;> split
      exacts [.inr rfl, .inl rfl, .inr rfl, .inl rfl]

/-! ### Work -/

/-- What happens to a drive that has been entered: it is only looked at, or the backend runs an
operation that leaves a loaded COS drive loaded. -/
inductive Backed (i : Nat) (w : Vfs) : Vfs → Prop
  | look : Backed i w w
  | run {α : Type} {cos : Cos → α × Cos} {fat : Fat → Option (α × Fat)} {r : α} {w' : Vfs}
      (hcos : ∀ {L s}, s.Loaded L → (cos s).2.Loaded L) (h : w.backend i cos fat = some (r, w')) :
      Backed i w w'

/-- Work on mounted drives. -/
inductive Work : Vfs → Vfs → Prop
  | refl (v : Vfs) : Work v v
  | inside {v w : Vfs} {i : Nat} (hi : v.Mounted i) (h : Backed i (v.ctxEnter i) w) :
      Work v (w.ctxLeave i)
  | trans {u v w : Vfs} (h : Work u v) (h' : Work v w) : Work u w

theorem Work.within {α : Type} {f : Vfs → Option (α × Vfs)} {r : α} (hi : v.Mounted i)
    (hf : ∀ {w w' : Vfs} {r : α}, f w = some (r, w') → Backed i w w')
    (h : v.within i f = some (r, v')) : Work v v' := by
  obtain ⟨w, hw, heq⟩ := Option.map_eq_some_iff.mp h
  cases heq
  exact .inside hi (hf hw)

theorem Work.kept (h : Work v v') : Kept v v' := by
  induction h with
  | refl v => exact .refl v
  | inside _ h =>
    refine Kept.trans ?_ kept_ctxLeave
    cases h with
    | look => exact kept_ctxEnter
    | run _ h => exact kept_ctxEnter.trans (kept_backend h)
  | trans _ _ ih ih' => exact ih.trans ih'

theorem work_ensureDirAbs (h : v.ensureDirAbs abs = some (r, v')) : Work v v' := by
  rw [ensureDirAbs] at h
  split at h
  · cases h
    exact .refl v
  · rename_i hfind
    refine .within (mounted_of_findMount hfind) (fun {w w' r} hw => ?_) h
    obtain ⟨n, -, hn⟩ := Option.bind_eq_some_iff.mp hw
    cases n with
    | none => exact .run (fun hL => hL.beMkdir _) hn
    | some n =>
      cases hn
      exact .look

theorem work_removeAbs (h : v.removeAbs abs = some (r, v')) : Work v v' := by
  rw [removeAbs] at h
  split at h
  · cases h
    exact .refl v
  · rename_i hfind
    exact .within (mounted_of_findMount hfind) (fun hw => .run (fun hL => hL.beRemove _) hw) h

theorem work_ensureDefaults (names : List CStr) : ∀ {v : Vfs},
    v.ensureDefaults names = some v' → Work v v' := by
  induction names with
  | nil =>
    intro v h
    rw [← Option.some.inj h]
    exact .refl v
  | cons name names ih =>
    intro v h
    obtain ⟨r, hr, hrest⟩ := Option.bind_eq_some_iff.mp h
    exact (work_ensureDirAbs hr).trans (ih hrest)

theorem work_mountDirs {t : CStr} (h : v.mountDirs t = some (r, v')) : Work v v' := by
  rw [mountDirs] at h
  split at h
  · cases h
    exact .refl v
  · split at h
    · obtain ⟨⟨c, w⟩, hw, hrest⟩ := Option.bind_eq_some_iff.mp h
      split at hrest
      · cases hrest
        exact work_ensureDirAbs hw
      · exact (work_ensureDirAbs hw).trans (work_ensureDirAbs hrest)
    · exact work_ensureDirAbs h

theorem backed_openNode {r : Except Int Cos.Vnode}
    (h : v.openNode i rel fl tag = some (r, v')) : Backed i v v' := by
  obtain rfl | ⟨c, hc⟩ | ⟨c, hc⟩ := (openNode_cases h).1
  · exact .look
  · exact .run (fun hL => hL.beCreate _ _) hc
  · exact .run (fun hL => hL.beTruncate _ _) hc

/-! ### Opening a file -/

theorem size_beStat {n : Cos.Vnode} (h : v.beStat i rel = some (some n)) : n.size < 2 ^ 32 := by
  rw [beStat] at h
  split at h
  · obtain ⟨idx, -, rfl⟩ := Option.map_eq_some_iff.mp (Option.some.inj h)
    exact Buf.get32_lt _ _
  · rw [Fat.beStat] at h
    split at h
    · rw [← Option.some.inj (Option.some.inj h)]
      exact Nat.two_pow_pos 32
    · obtain ⟨r, hr, h⟩ := Option.map_eq_some_iff.mp h
      obtain ⟨e, rfl, rfl⟩ := Option.map_eq_some_iff.mp h
      exact Fat.fat32Stat_size hr

theorem cosBeParent_neg {s : Cos} (h : s.beParent rel = .error e) : e < 0 := by
  rw [Cos.beParent] at h
  repeat' split at h
  all_goals cases h
  all_goals decide

theorem cosBeCreate_le (s : Cos) (rel tag : CStr) : (s.beCreate rel tag).1 ≤ 0 := by
  rw [Cos.beCreate]
  split
  · exact Int.le_of_lt (cosBeParent_neg ‹_›)
  · dsimp only [Cos.beFinish]
    split
    · decide
    · split <;> decide

theorem cosBeTruncate_le (s : Cos) (rel tag : CStr) : (s.beTruncate rel tag).1 ≤ 0 := by
  rw [Cos.beTruncate]
  split
  · show vfsEName ≤ 0
    decide
  · split
    · dsimp only
      split
      · show vfsEIo ≤ 0
        decide
      · exact cosBeCreate_le _ _ _
    · show vfsENoent ≤ 0
      decide

theorem fatParentCluster_neg {s : Fat} (h : s.fatParentCluster rel = some (.error e)) :
    e < 0 := by
  rw [Fat.fatParentCluster] at h
  split at h
  · cases h
  · obtain ⟨r, -, hr⟩ := Option.map_eq_some_iff.mp h
    repeat' split at hr
    all_goals cases hr
    all_goals decide

theorem fatBeParent_neg {s : Fat} (h : s.beParent rel = some (.error e)) : e < 0 := by
  rw [Fat.beParent] at h
  split at h
  · cases h
    decide
  split at h
  · cases h
    decide
  obtain ⟨n, -, h⟩ := Option.bind_eq_some_iff.mp h
  split at h
  · cases h
    decide
  obtain ⟨c, hc, h⟩ := Option.bind_eq_some_iff.mp h
  split at h
  · cases h
    exact fatParentCluster_neg hc
  · cases h

/-- Failures of the FAT driver are all `VFS_E_IO`. -/
theorem io_le (c : Int) : (if c ≠ 0 then vfsEIo else 0) ≤ 0 := by
  split <;> decide

theorem fatBeCreate_le {s s' : Fat} (h : s.beCreate rel = some (r, s')) :
    r ≤ 0 := by
  obtain ⟨e, he, h⟩ := Option.bind_eq_some_iff.mp h
  split at h
  · cases h
    exact Int.le_of_lt (fatBeParent_neg he)
  · obtain ⟨t, -, h⟩ := Option.bind_eq_some_iff.mp h
    cases h
    exact io_le _

theorem fatBeTruncate_le {s s' : Fat} (h : s.beTruncate rel = some (r, s')) :
    r ≤ 0 := by
  rw [Fat.beTruncate] at h
  split at h
  · cases h
    decide
  · obtain ⟨c, hc, h⟩ := Option.bind_eq_some_iff.mp h
    split at h
    · cases h
      exact Int.le_of_lt (fatParentCluster_neg hc)
    · obtain ⟨t, -, h⟩ := Option.bind_eq_some_iff.mp h
      cases h
      exact io_le _

/-- A backend call returns 0 or an error if both drivers' calls do. -/
theorem backend_le {cos : Cos → Int × Cos} {fat : Fat → Option (Int × Fat)}
    (hcos : ∀ s, (cos s).1 ≤ 0) (hfat : ∀ {s s' r}, fat s = some (r, s') → r ≤ 0)
    (h : v.backend i cos fat = some (r, v')) : r ≤ 0 := by
  rw [backend] at h
  dsimp only at h
  split at h
  · cases h
    exact hcos _
  · obtain ⟨t, ht, h⟩ := Option.map_eq_some_iff.mp h
    cases h
    exact hfat ht

theorem openNode_neg (h : v.openNode i rel fl tag = some (.error e, v')) : e < 0 := by
  rcases (openNode_cases h).2.2 e rfl with hneg | ⟨hne, hc | hc⟩
  · exact hneg
  · have := backend_le (fun s => cosBeCreate_le s rel tag) fatBeCreate_le hc
    omega
  · have := backend_le (fun s => cosBeTruncate_le s rel tag) fatBeTruncate_le hc
    omega

theorem freeFd_eq_some {fd : Nat} (h : v.freeFd = some fd) :
    fd < vfsMaxFds ∧ (v.files fd).used = false := by
  refine ⟨List.mem_range.mp (List.mem_of_find?_eq_some h), ?_⟩
  have hp := List.find?_some h
  rwa [Bool.not_eq_true'] at hp

/-- What `open_locked` does: work on the drives and, unless it fails, a descriptor in a slot
that was free. -/
theorem openLocked_cases (h : v.openLocked path fl tag = some (r, v')) : r < 0 ∧ Work v v' ∨
    ∃ (fd : Nat) (f : VfsFile) (u : Vfs), (fd < vfsMaxFds ∧ (v.files fd).used = false) ∧
      v.Mounted f.mount ∧ f.used = true ∧ (f.pos < 2 ^ 32 ∧ f.size < 2 ^ 32) ∧ Work v u ∧ r = fd ∧
      v' = (u.setFile fd f).setMount f.mount
        { u.mounts f.mount with openCount := (u.mounts f.mount).openCount + 1 } := by
  rw [openLocked] at h
  split at h
  · cases h
    exact .inl ⟨by decide, .refl v⟩
  split at h
  · cases h
    exact .inl ⟨by decide, .refl v⟩
  · cases h
    exact .inl ⟨by decide, .refl v⟩
  rename_i i rel fd hfind hfd
  obtain ⟨⟨res, u⟩, hu, h⟩ := Option.bind_eq_some_iff.mp h
  have hi := mounted_of_findMount hfind
  have hwork := Work.within hi backed_openNode hu
  obtain ⟨⟨res', w⟩, hw, heq⟩ := Option.map_eq_some_iff.mp hu
  obtain ⟨rfl, -⟩ := Prod.mk.inj heq
  cases res' with
  | error e =>
    cases h
    exact .inl ⟨openNode_neg hw, hwork⟩
  | ok n =>
    cases h
    have hsize : n.size < 2 ^ 32 := size_beStat ((openNode_cases hw).2.1 n rfl)
    refine .inr ⟨fd, ⟨true, i, fl.writable, fl.append, if fl.append then n.size else 0,
      n.size, n.id, rel⟩, u, freeFd_eq_some hfd, hi, rfl, ⟨?_, hsize⟩, hwork, rfl, rfl⟩
    dsimp only
    split
    · exact hsize
    · decide

/-! ### The calls on paths -/

theorem work_vfsMkdir (h : v.vfsMkdir path = some (r, v')) : Work v v' := by
  have hsame : ∀ {c : Int}, some (c, v) = some (r, v') → Work v v' := by
    intro c hc
    cases hc
    exact .refl v
  rw [vfsMkdir] at h
  split at h
  · exact hsame h
  split at h
  · exact hsame h
  rename_i hfind
  split at h
  · exact hsame h
  · exact .within (mounted_of_findMount hfind) (fun hw => .run (fun hL => hL.beMkdir _) hw) h

theorem work_vfsRemove (h : v.vfsRemove path = some (r, v')) : Work v v' := by
  rw [vfsRemove] at h
  split at h
  · cases h
    exact .refl v
  split at h
  · cases h
    exact .refl v
  · exact work_removeAbs h

theorem Work.look {α β : Type} {r : β} (hi : v.Mounted i) {f : Vfs → Option α} {g : α → β}
    (h : v.within i (fun w => (f w).map fun a => (g a, w)) = some (r, v')) : Work v v' := by
  refine .within hi (fun hw => ?_) h
  obtain ⟨a, -, ha⟩ := Option.map_eq_some_iff.mp hw
  cases ha
  exact .look

theorem work_statAbs {r : Except Int Cos.Vnode} (h : v.statAbs abs = some (r, v')) : Work v v' := by
  rw [statAbs] at h
  split at h
  · cases h
    exact .refl v
  · rename_i hfind
    exact .look (mounted_of_findMount hfind) h

theorem work_vfsReaddir {max : Nat} {r : Except Int (List VfsDirent)}
    (h : v.vfsReaddir path max = some (r, v')) : Work v v' := by
  rw [vfsReaddir] at h
  split at h
  · cases h
    exact .refl v
  split at h
  · cases h
    exact .refl v
  · rename_i hfind
    exact .look (g := id) (mounted_of_findMount hfind) h

end Vfs

end Crusadia
