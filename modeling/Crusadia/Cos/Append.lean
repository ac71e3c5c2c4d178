import Crusadia.Cos.ReadBack

/-!
# Crusadia.Cos.Append

**Writers that append where they believe the end to be.** Each writer has a size of its own,
which it learnt from the inode or set when it last wrote, and writes there. `Cos.AppendRun` is
a sequence of such events on one file, all writes successful.

A write at the end makes the file longer by its data; a write before the end makes it longer
by less. So the file is the old contents and all the data in order exactly if every write was
at the end, which depends only on the order of the events (`Cos.Current`), and if the first
write does not bring in what was on the drive before (`Img.Exposes`).
-/

namespace Crusadia

/-- Inode `i` is a file of the drive. -/
structure Rep.File (L : Layout) (s : Cos) (v : Img) (i : Nat) : Prop where
  rep : Rep L s v
  inv : Img.Inv L v
  lt : i < L.sb.inodeCount
  used : v.used i = true
  type : (v.ino i).type = 1

namespace Cos

/-- The contents of inode `i`. -/
def contents (s : Cos) (i : Nat) : List Byte := s.fsRead i (s.readInode i) 0 (s.readInode i).size

/-- What a writer of a file does: `k` learns the size of the file, or writes. -/
inductive AppendEvent
  | learn (k : Nat)
  | write (k : Nat) (data : List Byte)

/-- The data of an event. -/
def AppendEvent.data : AppendEvent → List Byte
  | .learn _ => []
  | .write _ data => data

/-- Events on inode `i`. `size k` is the size that `k` knows, if it has learnt one; it writes
there. -/
inductive AppendRun (i : Nat) : Cos → (Nat → Option Nat) → List AppendEvent → Cos → Prop
  | done {s : Cos} {size : Nat → Option Nat} : AppendRun i s size [] s
  | learn {s s' : Cos} {size : Nat → Option Nat} {es : List AppendEvent} (k : Nat) :
      AppendRun i s (Function.update size k (some (s.readInode i).size)) es s' →
      AppendRun i s size (.learn k :: es) s'
  | empty {s s' : Cos} {size : Nat → Option Nat} {es : List AppendEvent} (k : Nat) :
      AppendRun i s size es s' → AppendRun i s size (.write k [] :: es) s'
  | write {s s' : Cos} {size : Nat → Option Nat} {es : List AppendEvent} {k o : Nat}
      {data : List Byte} : size k = some o → data ≠ [] →
      (s.fsWrite i o data).1 = data.length →
      AppendRun i (s.fsWrite i o data).2
        (Function.update size k (some ((s.fsWrite i o data).2.readInode i).size)) es s' →
      AppendRun i s size (.write k data :: es) s'

/-- Data comes only from writers who know the end of the file. Those in `K` do at the
beginning, and after a write the one who wrote is the only one. -/
def Current (K : Set Nat) : List AppendEvent → Prop
  | [] => True
  | .learn k :: es => Current (insert k K) es
  | .write k data :: es => if data = [] then Current K es else k ∈ K ∧ Current {k} es

/-- The first data that is written. -/
def firstData (es : List AppendEvent) : Option (List Byte) :=
  (es.map AppendEvent.data).find? fun data => data ≠ []

end Cos

namespace Rep.File

variable {L : Layout} {s s' : Cos} {v : Img} {i o : Nat} {data : List Byte}

section

variable (h : File L s v i)
include h

theorem size_eq : (s.readInode i).size = (v.ino i).size := by
  rw [h.rep.ino i h.lt]

theorem contents_eq : s.contents i = (List.range (v.ino i).size).map (v.fileByte L i) := by
  rw [Cos.contents, h.rep.fsRead_inside h.inv.blocks h.lt h.used (by rw [h.size_eq]; omega),
    h.size_eq]
  exact List.map_congr_left fun k _ => by rw [Nat.zero_add]

/-- A write that succeeds. -/
theorem write (ho : o < 2 ^ 32) (hok : (s.fsWrite i o data).1 = data.length) :
    ∃ v', File L (s.fsWrite i o data).2 v' i ∧ v.Fits L i o data ∧
      Img.Wrote L i o data v data.length (max (v.ino i).size (o + data.length)) v' := by
  obtain ⟨v', w, sz, ok, hrep, hw, hend, -, hres⟩ :=
    h.rep.fsWrite_spec h.inv.blocks h.lt h.used ho data
  obtain ⟨hok, -, hsz, -⟩ | ⟨-, hret, -⟩ := hres
  · obtain rfl : w = data.length := by
      cases hend with
      | full _ hwlen _ _ => exact hwlen
      | short _ hfalse _ _ _ _ _ =>
        rw [hok] at hfalse
        cases hfalse
    have hnotdir : (v.ino i).type ≠ 2 := by
      rw [h.type]
      decide
    refine ⟨v', ⟨hrep, h.inv.edit hw.edit hw.blocks hnotdir, h.lt, hw.edit.used ▸ h.used, ?_⟩,
      hend.ok_iff.mp hok, hsz ▸ hw⟩
    exact (hw.edit.raw 64 (by omega)).trans h.type
  · omega

/-- One byte in the first block, if there is one. -/
theorem write_byte (hptr : (v.ino i).ptr 0 ≠ 0) (ho : o < 512) (b : Byte) :
    (s.fsWrite i o [b]).1 = ([b] : List Byte).length := by
  obtain ⟨v', w, sz, ok, -, -, hend, -, hres⟩ :=
    h.rep.fsWrite_spec h.inv.blocks h.lt h.used (show o < 2 ^ 32 by omega) [b]
  obtain ⟨-, hret, -⟩ | ⟨hok, -⟩ := hres
  · exact hret
  · refine absurd (hend.ok_iff.mpr fun pos h1 h2 => ?_) (by rw [hok]; decide)
    rw [List.length_singleton] at h2
    have hmiss : v.missingBlocks i 0 = 0 := by
      rw [Img.missingBlocks, show Cos.blockPath 0 = some (0, []) by decide]
      simp [hptr, Img.missing]
    rw [show o / 512 = 0 by omega, show pos / 512 - 0 = 0 by omega]
    refine ⟨by decide, ?_⟩
    rw [Img.neededSet_one_card h.lt h.used, hmiss]
    exact Nat.zero_le _

theorem dataBlock_zero : v.dataBlock L i 0 = (v.ino i).ptr 0 := by
  rw [Img.dataBlock_eq (show Cos.blockPath 0 = some (0, []) by decide)]
  exact Img.forest_root h.lt h.used (by omega)

end

end Rep.File

namespace Img

variable {L : Layout} {v v' : Img} {i o sz : Nat} {data : List Byte}

/-- A write at the end of a file whose last byte has a block exposes nothing. -/
theorem not_exposes_of_tail (htail : v.dataBlock L i (((v.ino i).size - 1) / 512) ≠ 0) :
    ¬v.Exposes L i (v.ino i).size data := by
  rintro ⟨-, pos, hpos, -, ⟨q, h1, -, hq⟩, hhole, -⟩
  -- the block is that of the last byte
  rw [show pos / 512 = ((v.ino i).size - 1) / 512 by omega] at hhole
  exact htail hhole

theorem Wrote.tail (h : Wrote L i o data v data.length sz v') (hne : data ≠ []) :
    v'.dataBlock L i ((o + data.length - 1) / 512) ≠ 0 := by
  have := List.length_pos_of_ne_nil hne
  exact (h.stored (o + data.length - 1) (by omega) (by omega)).1

end Img

namespace Cos

variable {L : Layout} {s s' : Cos} {v : Img} {i o : Nat} {data : List Byte}

/-- A write at the end of a file appends exactly if it exposes nothing. -/
theorem contents_fsWrite_iff {v1 : Img} (hf : Rep.File L s v i)
    (hf1 : Rep.File L (s.fsWrite i (v.ino i).size data).2 v1 i)
    (hfits : v.Fits L i (v.ino i).size data)
    (hw : Img.Wrote L i (v.ino i).size data v data.length ((v.ino i).size + data.length) v1) :
    (s.fsWrite i (v.ino i).size data).2.contents i = s.contents i ++ data ↔
      ¬v.Exposes L i (v.ino i).size data := by
  have hdata : (List.range data.length).map (v1.fileByte L i ∘ ((v.ino i).size + ·)) = data := by
    refine List.ext_getElem? fun n => ?_
    by_cases hn : n < data.length
    · rw [List.getElem?_map, List.getElem?_range hn, Option.map_some, Function.comp_apply,
        (hw.stored _ (by omega) (by omega)).2, Nat.add_sub_cancel_left,
        List.getD_eq_getElem?_getD, List.getElem?_eq_getElem hn]
      rfl
    · rw [List.getElem?_eq_none (by simpa using hn), List.getElem?_eq_none (by omega)]
  rw [hf.contents_eq, hf1.contents_eq, hw.size, List.range_add, List.map_append, List.map_map,
    hdata, List.append_left_inj, List.map_inj_left]
  constructor
  · rintro hsame ⟨-, pos, hpos, hstale⟩
    exact (Rep.wrote_outside hw hstale.outside).mp (hsame pos (List.mem_range.mpr hpos)) hstale
  · intro hexp pos hpos
    have hlt := List.mem_range.mp hpos
    exact (Rep.wrote_outside hw (by omega)).mpr fun hstale => hexp ⟨hfits, pos, hlt, hstale⟩

section

variable {size : Nat → Option Nat} {k : Nat}

/-- Writer `k` knows the end `e` from now on. -/
theorem known_learn (e : Nat) :
    {j | Function.update size k (some e) j = some e} = insert k {j | size j = some e} := by
  ext j
  by_cases hj : j = k <;> simp [hj]

/-- Nobody knew the end `e` before. -/
theorem known_write {e e' : Nat} (hle : ∀ j o, size j = some o → o ≤ e) (h : e < e') :
    {j | Function.update size k (some e') j = some e'} = {k} := by
  rw [known_learn, show {j | size j = some e'} = ∅ from
    Set.eq_empty_of_forall_notMem fun j hj => absurd (hle j e' hj) (Nat.not_le.mpr h)]
  exact insert_empty_eq k

/-- A writer that learns the end keeps the sizes within the file. -/
theorem sizes_le {e e' : Nat} (hle : ∀ j o, size j = some o → o ≤ e) (h : e ≤ e') :
    ∀ j o, Function.update size k (some e') j = some o → o ≤ e' := by
  intro j o hj
  rw [Function.update_apply] at hj
  split at hj
  · exact (Option.some.inj hj).ge
  · exact (hle j o hj).trans h

end

namespace AppendRun

variable {size : Nat → Option Nat} {es : List AppendEvent} (h : AppendRun i s size es s')
include h

/-- A run makes the file longer by at most its data, and by all of it exactly if every write
comes from a writer who knows the end. -/
theorem length_eq_iff : ∀ {v : Img}, Rep.File L s v i →
    (∀ k o, size k = some o → o ≤ (v.ino i).size) → ∃ v', Rep.File L s' v' i ∧
      (v'.ino i).size ≤ (v.ino i).size + (es.flatMap (·.data)).length ∧
      ((v'.ino i).size = (v.ino i).size + (es.flatMap (·.data)).length ↔
        Current {k | size k = some (v.ino i).size} es) := by
  induction h with
  | done => exact fun hf _ => ⟨_, hf, Nat.le_refl _, iff_of_true rfl trivial⟩
  | learn k _ ih =>
    intro v hf hle
    rw [hf.size_eq] at ih
    rw [Current, ← known_learn]
    exact ih hf (sizes_le hle (Nat.le_refl _))
  | empty k _ ih =>
    intro v hf hle
    rw [Current, if_pos rfl]
    exact ih hf hle
  | @write s s' size es k o data hk hne hok _ ih =>
    intro v hf hle
    have hpos := List.length_pos_of_ne_nil hne
    have ho := hle k o hk
    obtain ⟨v1, hf1, -, hw⟩ := hf.write (Nat.lt_of_le_of_lt ho (Buf.get32_lt _ _)) hok
    rw [hf1.size_eq, hw.size] at ih
    obtain ⟨v', hf', hlen, hiff⟩ :=
      ih hf1 (by rw [hw.size]; exact sizes_le hle (Nat.le_max_left _ _))
    refine ⟨v', hf', ?_⟩
    rw [Current, if_neg hne, Set.mem_ofPred_eq, hk, Option.some.injEq, List.flatMap_cons,
      List.length_append, AppendEvent.data]
    rw [hw.size] at hlen hiff
    by_cases hend : o = (v.ino i).size
    · rw [known_write hle (by omega)] at hiff
      rw [← hiff]
      omega
    · -- a write before the end adds less than its data
      exact ⟨by omega, iff_of_false (by omega) fun hc => hend hc.1⟩

/-- When all writers know the end, the first write decides whether the file is the old contents
and the data. -/
theorem contents_eq_iff_of_current : ∀ {v : Img}, Rep.File L s v i →
    (∀ k o, size k = some o → o ≤ (v.ino i).size) →
    Current {k | size k = some (v.ino i).size} es →
    (s'.contents i = s.contents i ++ es.flatMap (·.data) ↔
      ∀ data, firstData es = some data → ¬v.Exposes L i (v.ino i).size data) := by
  induction h with
  | done => exact fun _ _ _ => iff_of_true (List.append_nil _).symm fun _ hd => by cases hd
  | learn k _ ih =>
    intro v hf hle hcur
    rw [hf.size_eq] at ih
    rw [Current, ← known_learn] at hcur
    exact ih hf (sizes_le hle (Nat.le_refl _)) hcur
  | empty k _ ih =>
    intro v hf hle hcur
    rw [Current, if_pos rfl] at hcur
    exact ih hf hle hcur
  | @write s s' size es k o data hk hne hok _ ih =>
    intro v hf hle hcur
    have hpos := List.length_pos_of_ne_nil hne
    rw [Current, if_neg hne] at hcur
    obtain ⟨hknow, hcur⟩ := hcur
    obtain rfl := Option.some.inj (hk.symm.trans hknow)
    obtain ⟨v1, hf1, hfits, hw⟩ := hf.write (o := (v.ino i).size) (Buf.get32_lt _ _) hok
    rw [Nat.max_eq_right (Nat.le_add_right _ _)] at hw
    rw [hf1.size_eq, hw.size] at ih
    -- the last byte has a block from now on
    have hrest := (ih hf1 (by rw [hw.size]; exact sizes_le hle (Nat.le_add_right _ _))
      (by rw [hw.size, known_write hle (by omega)]; exact hcur)).mpr fun data _ =>
        Img.not_exposes_of_tail (by rw [hw.size]; exact hw.tail hne)
    rw [hrest, List.flatMap_cons, ← List.append_assoc, List.append_left_inj, AppendEvent.data,
      contents_fsWrite_iff hf hf1 hfits hw]
    simp [firstData, AppendEvent.data, hne]

/-- **Appending.** The file ends up as the old contents and all the data in order exactly if all
data came from writers who knew the end and the first write exposed nothing. -/
theorem contents_eq_iff (hf : Rep.File L s v i)
    (hle : ∀ k o, size k = some o → o ≤ (v.ino i).size) :
    s'.contents i = s.contents i ++ es.flatMap (·.data) ↔
      Current {k | size k = some (v.ino i).size} es ∧
        ∀ data, firstData es = some data → ¬v.Exposes L i (v.ino i).size data := by
  obtain ⟨v', hf', -, hlen⟩ := h.length_eq_iff hf hle
  rw [← and_iff_right_of_imp (a := Current _ _) (b := s'.contents i = _) fun heq => hlen.mp ?_]
  · exact and_congr_right fun hcur => h.contents_eq_iff_of_current hf hle hcur
  · have := congrArg List.length heq
    rwa [hf.contents_eq, hf'.contents_eq, List.length_append, List.length_map, List.length_map,
      List.length_range, List.length_range] at this

end AppendRun

end Cos

end Crusadia
