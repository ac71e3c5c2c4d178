import Crusadia.Cos.DirMap
import Crusadia.Vfs.Cos

/-!
# Crusadia.Vfs.Create

`be_mkdir` and `be_create` in terms of the image: `Rep.beMkdir_atomic_iff` and
`Rep.beCreate_atomic_iff` say exactly which calls are atomic. Two facts carry them: a path
that was created resolves, because a new entry changes no other lookup (`Rep.resolve_keep`),
and an entry cannot be added just when every slot is taken and the directory cannot grow
(`Img.dirAdd_born_iff`).
-/

namespace Crusadia

namespace Img

variable {L : Layout} {v v' : Img} {d nb idx : Nat} {name : CStr}

theorem lookup_live (hv : Inv L v) (hd : IsDir L v d) {i : Nat} (h : v.lookup d name = some i) :
    i < L.sb.inodeCount ∧ v.used i = true := by
  rw [lookup, Option.map_eq_some_iff] at h
  obtain ⟨bk, hbk, rfl⟩ := h
  exact (hv.find hd hbk).2.2

theorem lookup_eq_none : v.lookup d name = none ↔ v.findSlot d name 12 0 = none :=
  Option.map_eq_none_iff

/-- After the object's own block, one free block fewer is left. -/
theorem born_free (hff : v.firstFree L = some nb) (idx : Nat) (node : Inode)
    (zeroed : Bool) :
    v.free L = (v.born idx nb node zeroed).free L + 1 := by
  have hbit : (v.born idx nb node zeroed).bit = (v.setBit nb true).bit := by
    funext c
    rw [born_bit, bit_setBit]
  rw [free, freeList_eq hff, List.length_cons, free, freeList, freeList, hbit]

/-- **No room for the entry.** `dir_add` fails just when every slot of the directory is taken
and it has its twelve blocks or the object has taken the last free one. -/
theorem dirAdd_born_iff {node : Inode} {zeroed : Bool} {rc : Int} (hv : Inv L v)
    (hd : IsDir L v d) (hidx : idx < L.sb.inodeCount) (hu : v.used idx = false)
    (hff : v.firstFree L = some nb) (hn : node.Fresh)
    (ha : DirAdd L (v.born idx nb node zeroed) d name idx v' rc) :
    rc ≠ 0 ↔ (∀ b k, b < 12 → k < 16 → (v.ino d).ptr b ≠ 0 → v.ent d b k ≠ 0) ∧
      ((v.ino d).ptr 11 ≠ 0 ∨ v.free L = 1) := by
  have hf : Frame L idx v (v.born idx nb node zeroed) := born_frame hv.blocks hidx hu hff hn
  have hino := hf.ino d (hd.ne hu)
  have hent : ∀ b k, b < 12 → k < 16 → (v.ino d).ptr b ≠ 0 →
      (v.born idx nb node zeroed).ent d b k = v.ent d b k := fun b k hb hk h0 =>
    (hf.entry (hd.ne hu) ⟨hd.born hu, hb, hino ▸ h0, hk⟩).2
  have hfree := born_free hff idx node zeroed
  cases ha with
  | slot b k hs hfr hfull hfirst =>
    refine iff_of_false (by simp) fun hh => ?_
    have h0 := hs.ptr
    rw [hino] at h0
    rw [hent b k hs.block hs.slot h0] at hfr
    exact hh.1 b k hs.block hs.slot h0 hfr
  | block b nb' hb h0 hfull hff' =>
    refine iff_of_false (by simp) fun hh => ?_
    rw [hino] at h0
    rcases hh.2 with h11 | h1
    · exact (hv.dirWf hd).ptr_before (by omega) h11 (by omega) h0
    · have : (v.born idx nb node zeroed).free L = 0 := by omega
      rw [free_eq_zero.mp this] at hff'
      cases hff'
  | noBlock b hb h0 hfull hff' =>
    rw [hino] at h0
    refine iff_of_true (by simp) ⟨fun b' k hb' hk hp => ?_, Or.inr ?_⟩
    · have hlt : b' < b := by
        by_contra hge
        exact (hv.dirWf hd).ptr_before hb' hp (by omega) h0
      rw [← hent b' k hb' hk hp]
      exact (hfull b' k hlt hk).2
    · rw [hfree, free_eq_zero.mpr hff']
  | full hfull =>
    refine iff_of_true (by simp) ⟨fun b k hb hk hp => ?_, Or.inl ?_⟩
    · rw [← hent b k hb hk hp]
      exact (hfull b k hb hk).2
    · rw [← hino]
      exact (hfull 11 0 (by omega) (by omega)).1

/-- Lookups across the creation of an object: what was found is found still, and the new
name is found just when its entry was stored. -/
theorem DirAdd.path {node : Inode} {zeroed : Bool} {rc : Int}
    (ha : DirAdd L (v.born idx nb node zeroed) d name idx v' rc) (hn : Named L v) (hv : Inv L v)
    (hd : IsDir L v d) (hidx : idx < L.sb.inodeCount) (hu : v.used idx = false)
    (hff : v.firstFree L = some nb) (hf : node.Fresh) (hz : node.type = 2 → zeroed = true)
    (hnew : v.findSlot d name 12 0 = none) (hlen : name.length ≤ 27) (hidx0 : idx ≠ 0) :
    (∀ d' nm i, IsDir L v d' → v.lookup d' nm = some i →
      IsDir L v' d' ∧ v'.lookup d' nm = some i) ∧
    IsDir L v' d ∧ v'.lookup d name = if rc = 0 then some idx else none := by
  have hb := born_inv hv hidx hu hff hf hz
  have hfr : Frame L idx v (v.born idx nb node zeroed) := born_frame hv.blocks hidx hu hff hf
  have hborn : ∀ d' nm, IsDir L v d' →
      (v.born idx nb node zeroed).lookup d' nm = v.lookup d' nm := by
    intro d' nm hd'
    exact hfr.findSlot (hd'.ne hu) hd' nm 12 0 (by omega)
  have hnone : (v.born idx nb node zeroed).findSlot d name 12 0 = none := by
    rw [← lookup_eq_none, hborn d name hd, lookup_eq_none]
    exact hnew
  have hdir : ∀ d', IsDir L v d' → IsDir L (v.born idx nb node zeroed) d' := fun d' hd' =>
    hd'.born hu
  rcases ha.added hb (hdir d hd) with ⟨rfl, hadd⟩ | ⟨rfl, rfl⟩
  · have hdir' : ∀ d', IsDir L v d' → IsDir L v' d' := fun d' hd' =>
      hadd.edit.isDir.mpr (hdir d' hd')
    obtain ⟨hfound, hkeep⟩ := ha.lookup (hb.dirOk (hn.born hv hidx hu hff hf hz) (hdir d hd)) hnone
      hlen hidx0 hidx
    refine ⟨fun d' nm i hd' hi => ⟨hdir' d' hd', ?_⟩, hdir' d hd, hfound⟩
    rw [← hborn d' nm hd'] at hi
    by_cases hdd : d' = d
    · subst hdd
      exact hkeep nm i hi
    · rw [← hi]
      exact hadd.edit.toFrame.findSlot hdd (hdir d' hd') nm 12 0 (by omega)
  · refine ⟨fun d' nm i hd' hi => ⟨hdir d' hd', (hborn d' nm hd').trans hi⟩, hdir d hd, ?_⟩
    exact lookup_eq_none.mpr hnone

/-- A free inode is not the root. -/
theorem Inv.idx_ne_zero (hv : Inv L v) (hu : v.used idx = false) : idx ≠ 0 :=
  (hv.root.ne hu).symm

end Img

/-! ### Paths -/

namespace Cos

theorem resolveFrom_append (s : Cos) (c : CStr) (comps : List CStr) : ∀ cur,
    s.resolveFrom (comps ++ [c]) cur = (s.resolveFrom comps cur).bind (s.resolveStep · c) := by
  induction comps with
  | nil =>
    intro cur
    rw [List.nil_append, resolveFrom, resolveFrom, Option.bind_some]
    cases s.resolveStep cur c <;> rfl
  | cons c' comps ih =>
    intro cur
    rw [List.cons_append, resolveFrom, resolveFrom, Option.bind_assoc]
    exact congrArg _ (funext ih)

end Cos

namespace Rep

variable {L : Layout} {s s' : Cos} {v v' : Img} {rel : CStr} {p c : Nat} {leaf : CStr}

section

variable (h : Rep L s v) (hv : Img.Inv L v)
include h hv

/-- A round finds something only in a directory. -/
theorem resolveStep_eq_some {cur i : Nat} {c : CStr}
    (hlt : cur < L.sb.inodeCount) (hu : v.used cur = true) :
    s.resolveStep cur c = some i ↔ Img.IsDir L v cur ∧ v.lookup cur c = some i := by
  rw [Cos.resolveStep, h.ino cur hlt]
  by_cases ht : (v.ino cur).type = 2
  · have hd : Img.IsDir L v cur := ⟨hlt, hu, ht⟩
    rw [if_neg (fun hne => hne ht), h.dirLookup_eq hv hd]
    exact (and_iff_right hd).symm
  · rw [if_pos ht]
    exact iff_of_false (by simp) fun hh => ht hh.1.type

/-- A path leads to an inode in use. -/
theorem resolve_used (comps : List CStr) : ∀ cur,
    cur < L.sb.inodeCount → v.used cur = true → s.resolveFrom comps cur = some p →
    p < L.sb.inodeCount ∧ v.used p = true := by
  induction comps with
  | nil =>
    intro cur hlt hu hres
    cases hres
    exact ⟨hlt, hu⟩
  | cons c comps ih =>
    intro cur hlt hu hres
    rw [Cos.resolveFrom, Option.bind_eq_some_iff] at hres
    obtain ⟨next, hnext, hres⟩ := hres
    obtain ⟨hd, hlook⟩ := (h.resolveStep_eq_some hv hlt hu).mp hnext
    obtain ⟨h1, h2⟩ := Img.lookup_live hv hd hlook
    exact ih next h1 h2 hres

/-- Paths lead where they led as long as every lookup that found something finds it still. -/
theorem resolve_keep (h' : Rep L s' v') (hv' : Img.Inv L v')
    (hkeep : ∀ d nm i, Img.IsDir L v d → v.lookup d nm = some i →
      Img.IsDir L v' d ∧ v'.lookup d nm = some i) (comps : List CStr) : ∀ cur,
    cur < L.sb.inodeCount → v.used cur = true → s.resolveFrom comps cur = some p →
    s'.resolveFrom comps cur = some p := by
  induction comps with
  | nil => exact fun _ _ _ hres => hres
  | cons c comps ih =>
    intro cur hlt hu hres
    rw [Cos.resolveFrom, Option.bind_eq_some_iff] at hres ⊢
    obtain ⟨next, hnext, hres⟩ := hres
    obtain ⟨hd, hlook⟩ := (h.resolveStep_eq_some hv hlt hu).mp hnext
    obtain ⟨h1, h2⟩ := Img.lookup_live hv hd hlook
    obtain ⟨hd', hlook'⟩ := hkeep cur c next hd hlook
    exact ⟨next, (h'.resolveStep_eq_some hv' hlt hd'.used).mpr ⟨hd', hlook'⟩,
      ih next h1 h2 hres⟩

/-- What the checks before a creation establish. -/
theorem beParent_ok (hp : s.beParent rel = .ok (p, leaf)) :
    Img.IsDir L v p ∧ v.findSlot p leaf 12 0 = none ∧ leaf.length ≤ 27 ∧
      ∃ comps, components rel = comps ++ [leaf] ∧ s.resolveFrom comps 0 = some p := by
  rw [Cos.beParent] at hp
  split at hp
  · cases hp
  · rename_i parent leaf' hsplit
    obtain ⟨hcomp, -⟩ := splitRel_components hsplit
    split at hp
    · cases hp
    · rename_i hname
      split at hp
      · cases hp
      · rename_i hstat
        split at hp
        · cases hp
        · rename_i p' hres
          split at hp
          · cases hp
          · rename_i ht
            obtain ⟨rfl, rfl⟩ := Prod.mk.inj (Except.ok.inj hp)
            obtain ⟨hlt, hu⟩ := h.resolve_used hv _ 0 hv.root.lt hv.root.used hres
            have hd : Img.IsDir L v p' := ⟨hlt, hu, h.ino p' hlt ▸ not_not.mp ht⟩
            have hlen : leaf'.length ≤ 27 := by
              rw [Bool.not_eq_true', Bool.not_eq_false, nameOk, Bool.and_eq_true] at hname
              exact of_decide_eq_true hname.2
            refine ⟨hd, ?_, hlen, _, hcomp, hres⟩
            -- The path did not resolve, so its last component is not there.
            rw [Cos.beStat, Option.isSome_map, Option.not_isSome_iff_eq_none, Cos.cosResolve, hcomp,
              s.resolveFrom_append, show s.resolveFrom (components parent) 0 = some p' from hres,
              Option.bind_some] at hstat
            by_contra hfound
            obtain ⟨i, hi⟩ := Option.ne_none_iff_exists'.mp fun hn =>
              hfound (Img.lookup_eq_none.mp hn)
            rw [(h.resolveStep_eq_some hv hlt hu).mpr ⟨hd, hi⟩] at hstat
            cases hstat

end

/-! ### The outcome of a call -/

theorem inodeBit_eq (h : Rep L s v) {i : Nat} (hi : i < L.sb.inodeCount) :
    s.inodeBit i = v.used i := by
  have hk : i / 4096 < L.ibs := by
    have := L.inodes
    omega
  rw [Cos.inodeBit, h.sb, L.bitmapStart, h.bbs, h.sync _ hk, ← h.used i hi,
    Buf.bit_slice _ (by omega), show 8 * (i / 4096 * 512) + i % 4096 = i by omega]

theorem untouched (h : Rep L s v) (hv : Img.Inv L v) (h' : Rep L s' { v with cwd := c }) :
    s.Untouched s' := by
  have hdir : ∀ d, s'.DirInode d ↔ s.DirInode d := by
    intro d
    rw [h.dirInode_iff, h'.dirInode_iff]
    exact ⟨fun hd => hd.congr rfl rfl, fun hd => hd.congr rfl rfl⟩
  refine ⟨fun i hi => ?_, fun b hb => ?_, hdir, fun d hd => ?_⟩
  · rw [h.sb] at hi
    rw [h.used i hi, h'.used i hi, h.inodeBit_eq hi, h'.inodeBit_eq hi]
    exact ⟨rfl, rfl⟩
  · rw [h.sb] at hb
    rw [h.bit b hb, h'.bit b hb]
  · have hd := h.dirInode_iff.mp hd
    rw [h.ino d hd.lt, h'.ino d hd.lt]
    refine ⟨rfl, fun b hb h0 => ?_⟩
    obtain ⟨h1, h2⟩ := Img.dir_range hv.blocks hd hb h0
    rw [h.blk _ h1 h2, h'.blk _ h1 h2]

/-- The condition, as the state has it. -/
theorem strands_iff (h : Rep L s s.img) : s.Strands L p ↔
    (((∃ i, i < L.sb.inodeCount ∧ s.img.used i = false) ∧ 0 < s.img.free L) ∧
      (∀ b k, b < 12 → k < 16 → (s.img.ino p).ptr b ≠ 0 → s.img.ent p b k ≠ 0) ∧
      ((s.img.ino p).ptr 11 ≠ 0 ∨ s.img.free L = 1)) := by
  rw [← h.sb]
  exact ⟨fun hs => ⟨⟨hs.inode, hs.block⟩, hs.slots, hs.grow⟩,
    fun hs => ⟨hs.1.1, hs.1.2, hs.2.1, hs.2.2⟩⟩

section

variable (h : Rep L s v) (hv : Img.Inv L v) (hn : v.Named L) (hp : s.beParent rel = .ok (p, leaf))
  {node : Inode} {zeroed : Bool}
include h hv hn hp

/-- The path of a new object: its parent is found again, and so is its entry if there is one. -/
theorem cosResolve_made (hf : node.Fresh)
    (hz : node.type = 2 → zeroed = true) {c0 idx nb : Nat} {rc : Int} (hidx : idx < L.sb.inodeCount)
    (hu : v.used idx = false) (hff : Img.firstFree L { v with cwd := c0 } = some nb)
    (hadd : Img.DirAdd L (Img.born { v with cwd := c0 } idx nb node zeroed) p leaf idx v' rc)
    (hv' : Img.Inv L v') (h' : Rep L s' { v' with cwd := c }) :
    s'.cosResolve rel = if rc = 0 then some idx else none := by
  obtain ⟨hd, hnew, hlen, comps, hcomp, hres⟩ := h.beParent_ok hv hp
  have hd0 : Img.IsDir L { v with cwd := c0 } p := hd.congr rfl rfl
  obtain ⟨hkeep, hd', hleaf⟩ := hadd.path (hn.cwd c0) (hv.cwd c0) hd0 hidx hu hff hf hz hnew hlen
    (hv.idx_ne_zero hu)
  have hres' : s'.resolveFrom comps 0 = some p :=
    h.resolve_keep hv h' (hv'.cwd c) (fun d nm i hd hi => by
      obtain ⟨hd', hi'⟩ := hkeep d nm i (hd.congr rfl rfl) hi
      exact ⟨hd'.congr rfl rfl, hi'⟩) comps 0 hv.root.lt hv.root.used hres
  rw [Cos.cosResolve, hcomp, s'.resolveFrom_append, hres', Option.bind_some, ← hleaf]
  refine Option.ext fun i =>
    (h'.resolveStep_eq_some (hv'.cwd c) hd'.lt hd'.used).trans (and_iff_right ?_)
  exact hd'.congr rfl rfl

/-- **The outcome of a creation**, in terms of the image before it. -/
theorem beFinish_atomic_iff {res : Option Nat} (himg : v = s.img)
    (hf : node.Fresh) (hz : node.type = 2 → zeroed = true) {c0 : Nat}
    (hc : Img.Create L { v with cwd := c0 } p leaf node zeroed v' res)
    (h' : Rep L s' { v' with cwd := c }) :
    s.Atomic (s'.beFinish rel res, s') ↔ ¬ s.Strands L p := by
  subst himg
  rw [h.strands_iff]
  obtain ⟨hd, hnew, -⟩ := h.beParent_ok hv hp
  have hv0 : Img.Inv L { s.img with cwd := c0 } := hv.cwd c0
  have hd0 : Img.IsDir L { s.img with cwd := c0 } p := hd.congr rfl rfl
  have hv' := hc.inv hv0 hd0 hf hz
  cases hc with
  | refused why =>
    refine iff_of_true (fun _ => h.untouched hv h') ?_
    rintro ⟨⟨⟨i, hi, hu⟩, hfree⟩, -⟩
    rcases why with h1 | h1 | h1
    · exact h1 hnew
    · exact absurd ((h1 i hi).symm.trans hu) (by decide)
    · have h0 : s.img.free L = 0 := Img.free_eq_zero.mpr h1
      omega
  | made idx nb _ rc _ hidx hu hfirst hff hadd =>
    have hpos : 0 < s.img.free L := Nat.pos_of_ne_zero fun h0 =>
      absurd ((Img.free_eq_zero.mp h0).symm.trans hff) (by simp)
    have hroom : (∃ i, i < L.sb.inodeCount ∧ s.img.used i = false) ∧ 0 < s.img.free L :=
      ⟨⟨idx, hidx, hu⟩, hpos⟩
    have hfails := Img.dirAdd_born_iff hv0 hd0 hidx hu hff hf hadd
    rw [and_iff_right hroom]
    refine Iff.trans ?_ (not_congr hfails)
    have hrel := h.cosResolve_made hv hn hp hf hz hidx hu hff hadd hv' h'
    by_cases hrc : rc = 0
    · refine iff_of_true (fun hne => absurd ?_ hne) (not_not.mpr hrc)
      rw [Cos.beFinish, if_neg (by simp), hrel, if_pos hrc, if_neg (by simp)]
    · refine iff_of_false (fun hatomic => ?_) (not_not.mpr hrc)
      have hun := hatomic (by
        rw [Cos.beFinish, if_neg (by simp), hrel, if_neg hrc, if_pos (by simp)]
        show vfsEIo ≠ 0
        decide)
      -- The new inode's bit stays set.
      have hbit := (hun.inodes idx (by rw [h.sb]; exact hidx)).1
      rw [h.used idx hidx, h'.used idx hidx] at hbit
      rcases hadd.added (Img.born_inv hv0 hidx hu hff hf hz) (hd0.born hu) with ⟨h0, -⟩ | ⟨-, rfl⟩
      · exact hrc h0
      · have hset : (Img.born { s.img with cwd := c0 } idx nb node zeroed).used idx = true :=
          (Img.born_used idx).trans (if_pos rfl)
        exact absurd (hset.symm.trans (hbit.trans hu)) (by decide)

end

theorem beMkdir_atomic_iff (h : Rep L s s.img) (hv : Img.Inv L s.img) (hn : s.img.Named L)
    (rel : CStr) : s.Atomic (s.beMkdir rel) ↔
      ∀ p leaf, s.beParent rel = .ok (p, leaf) → ¬ s.Strands L p := by
  rw [Cos.beMkdir]
  cases hp : s.beParent rel with
  | error e =>
    refine iff_of_true (fun _ => h.untouched hv (c := s.img.cwd) h) ?_
    intro p leaf heq
    cases heq
  | ok pl =>
    obtain ⟨p, leaf⟩ := pl
    obtain ⟨v', h', hc⟩ := h.fsCreateDir_spec hv (h.beParent_ok hv hp).1 leaf
    have h0 : Rep L (s.fsCreateDir leaf p).2 { v' with cwd := v'.cwd } := h'
    have hc0 : Img.Create L { s.img with cwd := s.img.cwd } p leaf (Inode.blank 2) true v'
      (s.fsCreateDir leaf p).1 := hc
    have hiff := h.beFinish_atomic_iff hv hn hp rfl (Inode.fresh_blank 2) (fun _ => rfl) hc0 h0
    refine hiff.trans ⟨fun hs p' leaf' heq => ?_, fun hs => hs p leaf rfl⟩
    obtain ⟨rfl, rfl⟩ := Prod.mk.inj (Except.ok.inj heq)
    exact hs

theorem beCreate_atomic_iff (h : Rep L s s.img) (hv : Img.Inv L s.img) (hn : s.img.Named L)
    (rel tag : CStr) : s.Atomic (s.beCreate rel tag) ↔
      ∀ p leaf, s.beParent rel = .ok (p, leaf) → tag.length ≠ 0 → ¬ s.Strands L p := by
  rw [Cos.beCreate]
  cases hp : s.beParent rel with
  | error e =>
    refine iff_of_true (fun _ => h.untouched hv (c := s.img.cwd) h) ?_
    intro p leaf heq
    cases heq
  | ok pl =>
    obtain ⟨p, leaf⟩ := pl
    have hd := (h.beParent_ok hv hp).1
    have hrep := h.setCwd p
    by_cases htag : tag.length = 0
    · have hnone : { s with gCurrentDir := p }.fsCreateFile leaf tag =
          (none, { s with gCurrentDir := p }) := by
        rw [Cos.fsCreateFile, if_pos htag]
      dsimp only
      rw [hnone]
      exact iff_of_true (fun _ => h.untouched hv (h.setCwd 0)) fun _ _ _ hne => absurd htag hne
    · obtain ⟨v', h', hc⟩ := hrep.fsCreateFile_spec (hv.cwd p) (hd.congr rfl rfl) leaf tag htag
      have hiff := h.beFinish_atomic_iff hv hn hp rfl (fresh_fileNode tag) (fileNode_not_dir tag) hc
        (h'.setCwd 0)
      refine hiff.trans ⟨fun hs p' leaf' heq _ => ?_, fun hs => hs p leaf rfl htag⟩
      obtain ⟨rfl, rfl⟩ := Prod.mk.inj (Except.ok.inj heq)
      exact hs

end Rep

end Crusadia
