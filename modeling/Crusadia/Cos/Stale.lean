import Crusadia.Cos.ReadBack

/-!
# Crusadia.Cos.Stale

**What a file shows of its drive's past.** A run is followed together with the set of bytes
that writes have stored in each file since it was created (`Cos.History`); a byte below a
file's size that was never stored should read as 0.

Neither `fs_create_file` nor `get_physical_block` clears the block it makes a data block,
so a write can bring old contents into view: by moving the end of the file over them, or by
covering only part of a new block. `Img.Leaks` says which writes do, in terms of the state
before them. As long as no write of a run does, the property holds in all its states, and
the first write that does breaks it (`Cos.run_no_stale`).
-/

namespace Crusadia

namespace Img

/-- Every byte of a file below its size that was never stored is 0. -/
def Clean (L : Layout) (v : Img) (stored : Nat → Nat → Prop) : Prop :=
  ∀ i, i < L.sb.inodeCount → v.used i = true → (v.ino i).type = 1 →
    ∀ pos, pos < (v.ino i).size → ¬ stored i pos → v.fileByte L i pos = 0

/-- Writing `data` at `o` brings the byte at `pos` into view, which was never stored: it is
below the size the file will have, outside the data, and either in a block of the file, past
its present end, or in a block that the write puts in the place of a hole. -/
structure Leaks (L : Layout) (v : Img) (stored : Nat → Nat → Prop) (i o : Nat)
    (data : List Byte) (pos : Nat) : Prop where
  unstored : ¬ stored i pos
  outside : ¬ (o ≤ pos ∧ pos < o + data.length)
  below : pos < (v.ino i).size ∨ v.Fits L i o data ∧ pos < o + data.length
  byte : (v.dataBlock L i (pos / 512) ≠ 0 ∧ (v.ino i).size ≤ pos ∧ v.fileByte L i pos ≠ 0) ∨
    (v.dataBlock L i (pos / 512) = 0 ∧
      (∃ q, o ≤ q ∧ q < o + data.length ∧ q / 512 = pos / 512 ∧
        Takes L v i (o / 512) (q / 512 - o / 512)) ∧
      (v.blk (v.leaf L i (o / 512) (pos / 512))).get (pos % 512) ≠ 0)

/-! ### Creations and deletions -/

variable {L : Layout} {v v' v'' : Img} {i j d : Nat} {stored stored' : Nat → Nat → Prop}

/-- The property, from one file of the image to the same file of another. -/
theorem Frame.clean_at (h : Frame L i v v') (hj : j ≠ i) {pos : Nat}
    (hclean : v.used j = true → (v.ino j).type = 1 → pos < (v.ino j).size →
      v.fileByte L j pos = 0) :
    v'.used j = true → (v'.ino j).type = 1 → pos < (v'.ino j).size → v'.fileByte L j pos = 0 := by
  rw [h.used_ne j hj, h.ino j hj, h.fileByte hj]
  exact hclean

/-- A new inode is empty and the other files are as they were. -/
theorem Create.clean {name : CStr} {node : Inode} {zeroed : Bool} {res : Option Nat}
    (hc : Create L v d name node zeroed v' res) (hv : Inv L v) (hd : IsDir L v d)
    (hn : node.Fresh) (hz : node.type = 2 → zeroed = true) (hclean : v.Clean L stored)
    (hst : ∀ j pos, res ≠ some j → stored j pos → stored' j pos) : v'.Clean L stored' := by
  cases hc with
  | refused =>
    intro j hj hu ht pos hpos hun
    exact hclean j hj hu ht pos hpos fun h => hun (hst j pos (by simp) h)
  | made idx nb _ rc hnew hidx hu hfirst hff hadd =>
    have hborn : Frame L idx v (v.born idx nb node zeroed) := born_frame hv.blocks hidx hu hff hn
    have hd' : IsDir L (v.born idx nb node zeroed) d := hd.born hu
    have hedit : Edit L d (v.born idx nb node zeroed) v' := by
      rcases hadd.added (born_inv hv hidx hu hff hn hz) hd' with ⟨-, ha⟩ | ⟨-, rfl⟩
      · exact ha.edit
      · exact Edit.refl _ _ _
    intro j hj huj htj pos hpos hun
    have hjd : j ≠ d := by
      rintro rfl
      rw [hedit.type, hd'.type] at htj
      exact absurd htj (by decide)
    refine hedit.toFrame.clean_at hjd ?_ huj htj hpos
    by_cases hji : j = idx
    · intro _ _ hlt
      rw [hji, born_ino, if_pos rfl] at hlt
      have hsize : (node.setPtr 0 nb).size = node.size := Buf.get32_put32_out (by omega)
      rw [hsize, hn.size] at hlt
      omega
    · refine hborn.clean_at hji fun hu' ht' hlt => hclean j hj hu' ht' pos hlt fun h => ?_
      exact hun (hst j pos (by simpa using fun he => hji he.symm) h)

theorem Delete.clean {name : CStr} {rc : Int} (hc : Delete L v d name v' rc) (hv : Inv L v)
    (hd : IsDir L v d) (hclean : v.Clean L stored) : v'.Clean L stored := by
  cases hc with
  | refused => exact hclean
  | done b k _ hfind hs hent hempty hdrop =>
    have hedit := (clear_inv hv hs).2
    intro j hj hu ht pos hpos hun
    have hje : j ≠ v.ent d b k := by
      rintro rfl
      rw [hdrop.not_used] at hu
      cases hu
    refine hdrop.frame.clean_at hje (fun hu' ht' => ?_) hu ht hpos
    have hjd : j ≠ d := by
      rintro rfl
      rw [hedit.type, hd.type] at ht'
      exact absurd ht' (by decide)
    exact hedit.toFrame.clean_at hjd (fun hu' ht' hlt => hclean j hj hu' ht' pos hlt hun) hu' ht'

end Img

/-! ### Writes -/

namespace Rep

variable {L : Layout} {v v' : Img} {i o w sz : Nat} {ok : Bool} {data : List Byte}
  {stored : Nat → Nat → Prop}

/-- The blocks that a write stored bytes in are the ones it could have. -/
theorem WriteEnd.stored_iff (h : WriteEnd L i o data v v' ok w) {q : Nat} (h1 : o ≤ q)
    (h2 : q < o + data.length) : q < o + w ↔ Img.Takes L v i (o / 512) (q / 512 - o / 512) := by
  cases h with
  | full _ hw _ htakes => exact iff_of_true (by omega) (htakes q h1 h2)
  | short k _ hw _ hfail htakes _ =>
    constructor
    · intro hq
      exact htakes _ (by omega)
    · intro ht
      by_contra hge
      exact hfail (ht.mono (by omega))

/-- A write that stops short does so at the end of a block. -/
theorem WriteEnd.rest (h : WriteEnd L i o data v v' ok w) {q pos : Nat} (h1 : o ≤ q)
    (hq : q < o + w) (hpos : o + w ≤ pos) (hlt : pos < o + data.length) : q / 512 ≠ pos / 512 := by
  cases h with
  | full _ hw _ _ => omega
  | short k _ hw _ _ _ _ => omega

/-- **One write.** The property survives just the writes that leak nothing. -/
theorem clean_write_iff (hclean : v.Clean L stored) (hi : i < L.sb.inodeCount)
    (hu : v.used i = true) (ht : (v.ino i).type = 1) (hw : Img.Wrote L i o data v w sz v')
    (hend : WriteEnd L i o data v v' ok w)
    (hsz : (ok = true ∧ sz = max (v.ino i).size (o + data.length)) ∨
      (ok = false ∧ sz = (v.ino i).size)) :
    v'.Clean L (fun j pos => stored j pos ∨ (j = i ∧ o ≤ pos ∧ pos < o + w)) ↔
      ∀ pos, ¬ v.Leaks L stored i o data pos := by
  have htype : ∀ j, (v'.ino j).type = (v.ino j).type := by
    intro j
    by_cases hj : j = i
    · rw [hj]
      exact hw.edit.raw 64 (by omega)
    · rw [hw.edit.ino j hj]
  have hwle : w ≤ data.length := by
    cases hend with
    | full _ hlen _ _ => omega
    | short k _ _ hlt _ _ _ => omega
  -- The new size, as `Leaks` has it.
  have hbelow : ∀ pos, pos < sz → ¬ (o ≤ pos ∧ pos < o + data.length) →
      pos < (v.ino i).size ∨ v.Fits L i o data ∧ pos < o + data.length := by
    intro pos hpos hout
    rcases hsz with ⟨hok, rfl⟩ | ⟨-, rfl⟩
    · by_cases hold : pos < (v.ino i).size
      · exact Or.inl hold
      · exact Or.inr ⟨hend.ok_iff.mp hok, by omega⟩
    · exact Or.inl hpos
  constructor
  · intro hclean' pos hleak
    have hpos : pos < (v'.ino i).size := by
      rw [hw.size]
      rcases hleak.below with hold | ⟨hfits, hnew⟩
      · rcases hsz with ⟨-, rfl⟩ | ⟨-, rfl⟩ <;> omega
      · rcases hsz with ⟨-, rfl⟩ | ⟨hok, -⟩
        · omega
        · rw [hend.ok_iff.mpr hfits] at hok
          cases hok
    have hzero := hclean' i hi (hw.edit.used ▸ hu) ((htype i).trans ht) pos hpos (by
      rintro (hst | ⟨-, h1, h2⟩)
      · exact hleak.unstored hst
      · exact hleak.outside ⟨h1, by omega⟩)
    have hout : ¬ (o ≤ pos ∧ pos < o + w) := fun hh => hleak.outside ⟨hh.1, by omega⟩
    rcases hleak.byte with ⟨hm, -, hne⟩ | ⟨hhole, ⟨q, h1, h2, hq, htakes⟩, hne⟩
    · exact hne ((hw.kept pos hm hout).symm.trans hzero)
    · have hm := (hw.stored q h1 ((hend.stored_iff h1 h2).mpr htakes)).1
      rw [hq] at hm
      exact hne ((hw.stale pos hhole hm hout).symm.trans hzero)
  · intro hno j hj huj htj pos hpos hunst
    rw [htype] at htj
    rw [hw.edit.used] at huj
    by_cases hji : j = i
    · subst hji
      rw [hw.size] at hpos
      have hst : ¬ stored j pos := fun h => hunst (Or.inl h)
      have hout : ¬ (o ≤ pos ∧ pos < o + w) := fun h => hunst (Or.inr ⟨rfl, h⟩)
      by_cases hin : o ≤ pos ∧ pos < o + data.length
      · -- Not reached: the write stopped before, and the size is what it was.
        have hsame : v'.fileByte L j pos = v.fileByte L j pos := by
          by_cases hm : v.dataBlock L j (pos / 512) = 0
          · have hm' : v'.dataBlock L j (pos / 512) = 0 := by
              by_contra hne
              obtain ⟨q, h1, h2, hq⟩ := hw.hole _ hm hne
              exact hend.rest h1 h2 (by omega) hin.2 hq
            rw [Img.fileByte_of_zero hm, Img.fileByte_of_zero hm']
          · exact hw.kept pos hm hout
        have hold : pos < (v.ino j).size := by
          rcases hsz with ⟨hok, -⟩ | ⟨-, rfl⟩
          · cases hend with
            | full _ hlen _ _ => omega
            | short k hfalse _ _ _ _ _ => rw [hok] at hfalse; cases hfalse
          · exact hpos
        rw [hsame]
        exact hclean j hj huj htj pos hold hst
      · by_cases hm : v.dataBlock L j (pos / 512) = 0
        · by_cases hm' : v'.dataBlock L j (pos / 512) = 0
          · exact Img.fileByte_of_zero hm'
          · rw [hw.stale pos hm hm' hout]
            by_contra hne
            obtain ⟨q, h1, h2, hq⟩ := hw.hole _ hm hm'
            exact hno pos ⟨hst, hin, hbelow pos hpos hin, Or.inr ⟨hm, ⟨q, h1, by omega, hq,
              (hend.stored_iff h1 (by omega)).mp h2⟩, hne⟩⟩
        · rw [hw.kept pos hm hout]
          by_cases hold : pos < (v.ino j).size
          · exact hclean j hj huj htj pos hold hst
          · by_contra hne
            exact hno pos ⟨hst, hin, hbelow pos hpos hin, Or.inl ⟨hm, by omega, hne⟩⟩
    · rw [hw.edit.ino j hji] at hpos
      rw [hw.edit.toFrame.fileByte hji]
      exact hclean j hj huj htj pos hpos fun h => hunst (Or.inl h)

end Rep

/-! ### Runs -/

namespace Cos

/-- Every byte of a file below its size that is not in `stored` reads as 0. -/
def NoStale (s : Cos) (stored : Nat → Nat → Prop) : Prop :=
  ∀ i, s.FileInode i → ∀ pos, pos < (s.readInode i).size → ¬ stored i pos →
    s.readByte i pos = some 0

/-- The bytes stored since creation, after one more call: a new file has none, and a write
adds those it stores. -/
def record (s : Cos) (stored : Nat → Nat → Prop) : Op → Nat → Nat → Prop
  | .createFile dir name tag => fun i pos =>
    ({ s with gCurrentDir := dir }.fsCreateFile name tag).1 ≠ some i ∧ stored i pos
  | .createDir _ _ => stored
  | .write i offset data => fun j pos =>
    stored j pos ∨ (j = i ∧ offset ≤ pos ∧ pos < offset + s.storedLength i offset data)
  | .delete _ _ => stored

/-- A run whose calls all meet `C`, with the bytes stored in each file since its creation. -/
inductive History (s₀ : Cos) (C : Cos → (Nat → Nat → Prop) → Op → Prop) :
    Cos → (Nat → Nat → Prop) → Prop
  | format : History s₀ C s₀.qformatFs fun _ _ => False
  | call {s : Cos} {stored : Nat → Nat → Prop} (op : Op) (h : History s₀ C s stored)
      (hok : s.Allowed op) (hC : C s stored op) : History s₀ C (s.apply op) (s.record stored op)

/-- The call brings no byte into view that was not stored. -/
def NoLeak (L : Layout) (s : Cos) (stored : Nat → Nat → Prop) : Op → Prop
  | .write i offset data => ∀ pos, ¬ s.img.Leaks L stored i offset data pos
  | _ => True

theorem History.run {s₀ s : Cos} {C : Cos → (Nat → Nat → Prop) → Op → Prop}
    {stored : Nat → Nat → Prop} (h : History s₀ C s stored) : Run s₀ s := by
  induction h with
  | format => exact .refl
  | call op _ hok _ ih => exact ih.tail ⟨op, hok, rfl⟩

end Cos

namespace Rep

variable {L : Layout} {s : Cos} {v : Img} {stored : Nat → Nat → Prop}

theorem noStale_iff (h : Rep L s v) (hb : Img.Blocks L v) :
    s.NoStale stored ↔ v.Clean L stored := by
  constructor
  · intro hs i hi hu ht pos hpos hun
    have hread := hs i (h.fileInode_iff.mpr ⟨hi, hu, ht⟩) pos (by rw [h.ino i hi]; exact hpos) hun
    rw [h.readByte_eq hb hi hu hpos] at hread
    exact Option.some.inj hread
  · intro hs i hfile pos hpos hun
    obtain ⟨hi, hu, ht⟩ := h.fileInode_iff.mp hfile
    rw [h.ino i hi] at hpos
    rw [h.readByte_eq hb hi hu hpos, hs i hi hu ht pos hpos hun]

/-- **One call.** From a state with the property, the calls that lead to one are those that
leak nothing. -/
theorem noStale_apply_iff (h : Rep L s s.img) (hv : Img.Inv L s.img) (hs : s.NoStale stored)
    {op : Op} (hok : s.Allowed op) :
    (s.apply op).NoStale (s.record stored op) ↔ s.NoLeak L stored op := by
  have hclean := (h.noStale_iff hv.blocks).mp hs
  cases op with
  | createFile dir name tag =>
    refine iff_of_true ?_ trivial
    have hd := h.dirInode_iff.mp hok
    have hrep := h.setCwd dir
    have hv' : Img.Inv L { s.img with cwd := dir } := hv.cwd dir
    have hd' : Img.IsDir L { s.img with cwd := dir } dir := hd.congr rfl rfl
    by_cases htag : tag.length = 0
    · rw [Cos.apply, Cos.record, Cos.fsCreateFile, if_pos htag]
      refine (hrep.noStale_iff hv'.blocks).mpr fun i hi hu ht pos hpos hun => ?_
      exact hclean i hi hu ht pos hpos fun hst => hun ⟨by simp, hst⟩
    · obtain ⟨v', h', hc⟩ := hrep.fsCreateFile_spec hv' hd' name tag htag
      have hinv := hc.inv hv' hd' (fresh_fileNode tag) (fileNode_not_dir tag)
      refine (h'.noStale_iff hinv.blocks).mpr ?_
      exact hc.clean hv' hd' (fresh_fileNode tag) (fileNode_not_dir tag) hclean
        fun j pos hne hst => ⟨hne, hst⟩
  | createDir name parent =>
    refine iff_of_true ?_ trivial
    have hd := h.dirInode_iff.mp hok
    obtain ⟨v', h', hc⟩ := h.fsCreateDir_spec hv hd name
    have hinv := hc.inv hv hd (Inode.fresh_blank 2) fun _ => rfl
    refine (h'.noStale_iff hinv.blocks).mpr ?_
    exact hc.clean hv hd (Inode.fresh_blank 2) (fun _ => rfl) hclean fun _ _ _ hst => hst
  | write i offset data =>
    obtain ⟨hfile, hoff⟩ := hok
    obtain ⟨hi, hu, ht⟩ := h.fileInode_iff.mp hfile
    obtain ⟨v', w, sz, ok, h', hw, hend, hlen, hres⟩ := h.fsWrite_spec hv.blocks hi hu hoff data
    rw [Cos.apply, h'.noStale_iff hw.blocks, Cos.record, ← hlen]
    refine clean_write_iff hclean hi hu ht hw hend ?_
    rcases hres with ⟨hok, -, hsz, -⟩ | ⟨hok, -, hsz⟩
    · exact Or.inl ⟨hok, hsz⟩
    · exact Or.inr ⟨hok, hsz⟩
  | delete parent name =>
    refine iff_of_true ?_ trivial
    have hd := h.dirInode_iff.mp hok
    obtain ⟨v', h', hc⟩ := h.fsDeleteIn_spec hv hd name
    refine (h'.noStale_iff (hc.inv hv).blocks).mpr ?_
    exact hc.clean hv hd hclean

end Rep

namespace Cos

/-- A state where some call is allowed is sound. -/
theorem Run.sound_of_allowed {s₀ s : Cos} {op : Op} (h : Run s₀ s) (hok : s.Allowed op) :
    Sound s₀.layout s := by
  cases op with
  | createFile dir name tag => exact h.sound_of_inode (Or.inl hok)
  | createDir name parent => exact h.sound_of_inode (Or.inl hok)
  | write i offset data => exact h.sound_of_inode (Or.inr hok.1)
  | delete parent name => exact h.sound_of_inode (Or.inl hok)

/-- The only inode of the root's image is a directory. -/
theorem clean_rootImg (s₀ : Cos) (L : Layout) : (Rep.rootImg s₀ L).Clean L fun _ _ => False := by
  intro i hi hu ht
  rw [Rep.rootImg, Img.born_used] at hu
  by_cases h0 : i = 0
  · rw [h0, Rep.rootImg, Img.born_type] at ht
    exact absurd (ht.symm.trans (Rep.blank_type 2)) (by decide)
  · rw [if_neg h0] at hu
    cases hu

/-- A new drive has no files. -/
theorem format_noStale (s₀ : Cos) : s₀.qformatFs.NoStale fun _ _ => False := by
  by_cases hsize : 6 ≤ s₀.driveSectors
  · obtain ⟨v, hrep, hv, hclean⟩ := Rep.qformatFs_ind s₀ hsize (clean_rootImg s₀ _)
      fun hv hclean hc => hc.clean hv hv.root (Inode.fresh_blank 2) (fun _ => rfl) hclean
        fun _ _ _ h => h
    exact (hrep.noStale_iff hv.blocks).mpr hclean
  · exact fun i hfile => absurd hfile ((Run.small .refl (by omega)).2 i).2

theorem History.noStale {s₀ s : Cos} {stored : Nat → Nat → Prop}
    (h : History s₀ (NoLeak s₀.layout) s stored) : s.NoStale stored := by
  induction h with
  | format => exact format_noStale s₀
  | call op h hok hC ih =>
    obtain ⟨hrep, hv⟩ := (h.run.sound_of_allowed hok).img
    exact (hrep.noStale_apply_iff hv ih hok).mpr hC

/-- **No stale data, over runs.** In every state of a run whose writes leak nothing, every
byte of a file below its size that was not stored since the file was created reads as 0;
and the calls that keep it so are just those. -/
theorem run_no_stale (s₀ : Cos) {s : Cos} {stored : Nat → Nat → Prop}
    (hrun : History s₀ (NoLeak (Layout.ofDrive s₀.driveSectors)) s stored) :
    s.NoStale stored ∧ ∀ op, s.Allowed op →
      ((s.apply op).NoStale (s.record stored op) ↔
        s.NoLeak (Layout.ofDrive s₀.driveSectors) stored op) := by
  refine ⟨hrun.noStale, fun op hok => ?_⟩
  obtain ⟨hrep, hv⟩ := (hrun.run.sound_of_allowed hok).img
  exact hrep.noStale_apply_iff hv hrun.noStale hok

/-! ### A file on a drive that was in use before -/

/-- What has been stored when the file `"f"` has just been created: nothing. -/
def noneStored : Nat → Nat → Prop :=
  staleDrive.qformatFs.record (fun _ _ => False) (.createFile 0 fName fName)

theorem oneFile_history (C : Cos → (Nat → Nat → Prop) → Op → Prop)
    (hC : C staleDrive.qformatFs (fun _ _ => False) (.createFile 0 fName fName)) :
    History staleDrive C staleDrive.oneFile noneStored := by
  obtain ⟨v, hrep, hv, -⟩ := Rep.qformatFs_ind staleDrive (by decide) (P := fun _ => True) trivial
    fun _ _ _ => trivial
  exact .call (.createFile 0 fName fName) .format (hrep.dirInode_iff.mpr hv.root) hC

/-- The file as the image read off the state has it. -/
theorem oneFile_img : staleDrive.oneFile.FileInode 6 ∧
    (staleDrive.oneFile.img.ino 6).size = 0 ∧ (staleDrive.oneFile.img.ino 6).ptr 0 = 73 ∧
    staleDrive.oneFile.img.blk 73 = Buf.ofFn fun _ => 0xAA := by
  obtain ⟨-, v, hrep, hv⟩ := oneFile_spec staleDrive (by decide)
  change Rep (Layout.ofDrive 1024) _ v at hrep
  change Img.OneFile _ (Layout.ofDrive 1024) v at hv
  have hino : staleDrive.oneFile.img.ino 6 = v.ino 6 := by rw [img_ino, hrep.ino 6 six_lt]
  refine ⟨hrep.fileInode_iff.mpr ⟨six_lt, hv.used, hv.type⟩, by rw [hino, hv.size], ?_, ?_⟩
  · rw [hino, hv.ptr (by omega)]
    decide
  · rw [img_blk, hrep.blk 73 (by decide) (by decide), hv.blk 73 (by decide), blockRead, staleDrive,
      rawDrive]

theorem run_no_stale_first_byte : (staleDrive.oneFile.apply (.write 6 0 [1])).NoStale
    (staleDrive.oneFile.record noneStored (.write 6 0 [1])) := by
  obtain ⟨hfile, hsize, -, -⟩ := oneFile_img
  have hok : staleDrive.oneFile.Allowed (.write 6 0 [1]) := ⟨hfile, by decide⟩
  refine (run_no_stale staleDrive (.call _ (oneFile_history _ trivial) hok ?_)).1
  rintro pos ⟨-, hout, hbelow, -⟩
  rw [List.length_singleton] at hout hbelow
  omega

/-- A one-byte write at offset 1 of a new file: byte 0, which nobody stored, is `0xAA`. -/
theorem stale_byte_in_new_file :
    History staleDrive (fun _ _ _ => True) (staleDrive.oneFile.apply (.write 6 1 [0x42]))
        (staleDrive.oneFile.record noneStored (.write 6 1 [0x42])) ∧
      ¬ (staleDrive.oneFile.apply (.write 6 1 [0x42])).NoStale
        (staleDrive.oneFile.record noneStored (.write 6 1 [0x42])) := by
  obtain ⟨hfile, hsize, hptr, hblk⟩ := oneFile_img
  have hok : staleDrive.oneFile.Allowed (.write 6 1 [0x42]) := ⟨hfile, by decide⟩
  have hhist := oneFile_history (fun _ _ _ => True) trivial
  refine ⟨.call _ hhist hok trivial, ?_⟩
  obtain ⟨hrep, hv⟩ := (hhist.run.sound_of_allowed hok).img
  obtain ⟨h6, hu, -⟩ := hrep.fileInode_iff.mp hfile
  have hnone : staleDrive.oneFile.NoStale noneStored :=
    (oneFile_history (NoLeak (Layout.ofDrive 1024)) trivial).noStale
  rw [hrep.noStale_apply_iff hv hnone hok]
  have hpath : blockPath 0 = some (0, []) := by decide
  have hdata : staleDrive.oneFile.img.dataBlock staleDrive.layout 6 0 = 73 := by
    rw [Img.dataBlock_eq hpath]
    exact (Img.forest_root h6 hu (by omega)).trans hptr
  intro hno
  refine hno 0 ⟨fun h => h.2, by decide, Or.inr ⟨fun pos h₁ h₂ => ?_, by decide⟩,
    Or.inl ⟨?_, by omega, ?_⟩⟩
  · rw [List.length_singleton] at h₂
    obtain rfl : pos = 1 := by omega
    have hmiss : staleDrive.oneFile.img.missingBlocks 6 0 = 0 := by
      rw [Img.missingBlocks, hpath]
      simp [hptr, Img.missing]
    refine ⟨by decide, ?_⟩
    rw [show 1 / 512 = 0 from rfl, Nat.sub_self, Img.neededSet_one_card h6 hu, hmiss]
    exact Nat.zero_le _
  · rw [show 0 / 512 = 0 from rfl]
    omega
  · rw [Img.fileByte_of_ne_zero (by rw [show 0 / 512 = 0 from rfl]; omega),
      show 0 / 512 = 0 from rfl, hdata, hblk, Buf.get_ofFn_lt _ (by decide)]
    decide

end Cos

end Crusadia
