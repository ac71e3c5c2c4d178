import Crusadia.Kernel.Space

/-!
# Crusadia.Kernel.Paging

What the functions of `paging.c` do to **address translation**.

`walk` is the two-level walk of the processor. In a state that satisfies `Inv`, where
every directory entry is present, `unmap_page_dir` does one of two things (`Unmap`):
without a free frame nothing, otherwise it moves the directory to a copy of its table
and maps the frame of the copy to itself in the kernel directory. `map_page_dir` then
writes one entry of whatever table the directory has. Who sees that entry depends on
whether the table is the kernel's.
-/

namespace Crusadia.Kernel

/-! ### The walk -/

/-- The frame a table entry maps, if it is present. -/
def leaf (e : Nat) : Option Nat := if present e then some (pageOf e) else none

/-- The two-level walk: the frame that `virt` is mapped to. -/
def walk (m : Mem) (dir virt : Nat) : Option Nat :=
  let pde := m.entry dir (pdIndex virt)
  if present pde then leaf (m.entry (pageOf pde) (ptIndex virt)) else none

/-- A translation depends on two entries. -/
theorem walk_congr {m m' : Mem} {q q' v : Nat}
    (hdir : m'.entry q' (pdIndex v) = m.entry q (pdIndex v))
    (htab : m'.entry (pageOf (m.entry q (pdIndex v))) (ptIndex v) =
      m.entry (pageOf (m.entry q (pdIndex v))) (ptIndex v)) : walk m' q' v = walk m q v := by
  unfold walk
  dsimp only
  rw [hdir, htab]

theorem leaf_or {a f : Nat} (ha : Mem.Page a) (hf : f < 4096) (hp : present f = true) :
    leaf (a ||| f) = some a := by
  have hpres : present (a ||| f) = true := by
    rw [← hp]
    exact present_congr ((or_mod ha hf).trans (Nat.mod_eq_of_lt hf).symm)
  rw [leaf, if_pos hpres, pageOf_or ha hf]

variable {I : Image} {X : Set Nat} {k : State} {q q' a virt v i j : Nat}

theorem Inv.walk_eq (h : Inv I X k) (hq : k.IsDir q) (hv : v < 2 ^ 32) :
    walk k.mem q v = leaf (k.mem.entry (k.table q (pdIndex v)) (ptIndex v)) := by
  rw [walk, if_pos (h.present_entry hq (pdIndex_lt hv))]
  rfl

/-! ### protect_table_frame -/

/-- The store of `protect_table_frame`. -/
def protectMem (m : Mem) (a : Nat) : Mem :=
  m.setEntry (pageOf (m.entry pageDirectory (pdIndex a))) (ptIndex a) (pageOf a ||| 0x03)

theorem Inv.protectTableFrame_eq (h : Inv I X k) (ha : a < 2 ^ 32) (p : Pmm) :
    protectTableFrame ⟨k.mem, p⟩ a = ⟨protectMem k.mem a, p⟩ := by
  unfold protectTableFrame
  dsimp only
  rw [if_pos (h.present_entry k.isDir_kernel (pdIndex_lt ha))]
  rfl

section

variable (h : Inv I X k) (hpage : Mem.Page a) (ha : a < 2 ^ 32)
include h hpage ha

theorem Inv.entry_protectMem {p : Nat}
    (hp : Mem.Page p) (hj : j < 1024) :
    (protectMem k.mem a).entry p j =
      if p = k.table pageDirectory (pdIndex a) ∧ j = ptIndex a then a ||| 0x03
      else k.mem.entry p j := by
  have htab := (h.table_inUse k.isDir_kernel (pdIndex_lt ha)).page
  unfold protectMem
  change (k.mem.setEntry (k.table pageDirectory (pdIndex a)) _ _).entry p j = _
  rw [pageOf_of_page hpage]
  by_cases hpt : p = k.table pageDirectory (pdIndex a)
  · subst hpt
    by_cases hjt : j = ptIndex a
    · subst hjt
      rw [Mem.entry_setEntry_same, if_pos ⟨rfl, rfl⟩,
        Nat.mod_eq_of_lt (or_lt hpage ha (by decide))]
    · rw [Mem.entry_setEntry_index hjt, if_neg fun hc => hjt hc.2]
  · rw [Mem.entry_setEntry_page htab hp (ptIndex_lt a) hj hpt, if_neg fun hc => hpt hc.1]

/-- Directories are not tables, so their entries stay. -/
theorem Inv.entry_protectMem_dir (hq : k.IsDir q) (hi : i < 1024) :
    (protectMem k.mem a).entry q i = k.mem.entry q i := by
  rw [h.entry_protectMem hpage ha (h.dir_inUse hq).page hi, if_neg fun hc =>
    h.table_ne_dir k.isDir_kernel (pdIndex_lt ha) hq hc.1.symm]

/-- Mapping a page to itself in the kernel directory is seen by the directories that
share that table of the kernel. -/
theorem Inv.walk_protectMem (hq : k.IsDir q)
    (hv : v < 2 ^ 32) :
    (walk (protectMem k.mem a) q v = some a ∧ v / 4096 = a / 4096 ∧ k.Shares q (pdIndex a)) ∨
      walk (protectMem k.mem a) q v = walk k.mem q v ∧
        ¬ (v / 4096 = a / 4096 ∧ k.Shares q (pdIndex a)) := by
  have hpd := pdIndex_lt hv
  have hpda := pdIndex_lt ha
  have hwalk : walk (protectMem k.mem a) q v =
      leaf ((protectMem k.mem a).entry (k.table q (pdIndex v)) (ptIndex v)) := by
    rw [walk, h.entry_protectMem_dir hpage ha hq hpd, if_pos (h.present_entry hq hpd)]
    rfl
  rw [hwalk, h.walk_eq hq hv, h.entry_protectMem hpage ha (h.table_inUse hq hpd).page
    (ptIndex_lt v)]
  have hiff : (k.table q (pdIndex v) = k.table pageDirectory (pdIndex a) ∧ ptIndex v = ptIndex a) ↔
      v / 4096 = a / 4096 ∧ k.Shares q (pdIndex a) := by
    rw [page_eq_iff]
    constructor
    · rintro ⟨htab, hpt⟩
      obtain ⟨hpdeq, -⟩ := h.table_eq hq k.isDir_kernel hpd hpda htab
      rw [hpdeq] at htab
      exact ⟨⟨hpdeq, hpt⟩, htab⟩
    · rintro ⟨⟨hpdeq, hpt⟩, hshare⟩
      rw [hpdeq]
      exact ⟨hshare, hpt⟩
  by_cases hc : v / 4096 = a / 4096 ∧ k.Shares q (pdIndex a)
  · rw [if_pos (hiff.mpr hc)]
    exact Or.inl ⟨leaf_or hpage (by decide) (by decide), hc⟩
  · rw [if_neg fun hc' => hc (hiff.mp hc')]
    exact Or.inr ⟨rfl, hc⟩

end

/-! ### unmap_page_dir -/

/-- The stores of `unmap_page_dir` when it gets the frame at `a`. -/
def unmapMem (m : Mem) (dir virt a : Nat) : Mem :=
  let mem := ((protectMem m a).copy a (pageOf (m.entry dir (pdIndex virt))) 4096).setEntry a
    (ptIndex virt) 0
  mem.setEntry dir (pdIndex virt) (a ||| mem.entry dir (pdIndex virt) % 4096)

/-- The two outcomes of `unmap_page_dir`: no frame is free and nothing happens, or the
directory gets a copy of its table in the next free frame. -/
inductive Unmap (k : State) (q virt : Nat) : Phys → Prop
  | full (hfree : k.pmm.free = ∅) : Unmap k q virt k.toPhys
  | copied {f : Nat} {p : Pmm} (hnext : k.pmm.next = some f) (hmem : f ∈ k.pmm.free)
      (hfree : p.free = k.pmm.free.erase f) : Unmap k q virt ⟨unmapMem k.mem q virt (f * 4096), p⟩

theorem Inv.unmapPageDir_spec (h : Inv I X k) (hq : k.IsDir q) (hv : virt < 2 ^ 32) :
    Unmap k q virt (unmapPageDir k.toPhys q virt) := by
  unfold unmapPageDir
  rw [if_pos (h.present_entry hq (pdIndex_lt hv))]
  refine k.pmm.allocBlock_cases (fun hfree => ?_) fun f p hnext hmem hfree => ?_ <;> dsimp only
  · rw [if_pos rfl]
    exact Unmap.full hfree
  · obtain ⟨-, hne, hlt⟩ := h.fresh_page hmem
    rw [if_neg hne, h.protectTableFrame_eq hlt]
    exact Unmap.copied hnext hmem hfree

section copied

variable {f : Nat}

section

variable (h : Inv I X k) (hq : k.IsDir q) (hv : virt < 2 ^ 32) (hf : f ∈ k.pmm.free)
include h hq hv hf

theorem Inv.entry_copied {p : Nat} (hp : Mem.Page p) (hj : j < 1024) (hpa : p ≠ f * 4096)
    (hpq : ¬ (p = q ∧ j = pdIndex virt)) :
    (unmapMem k.mem q virt (f * 4096)).entry p j = (protectMem k.mem (f * 4096)).entry p j := by
  obtain ⟨hpage, -, -⟩ := h.fresh_page hf
  have hqp := (h.dir_inUse hq).page
  have hstep : ∀ m : Mem, ∀ w, (m.setEntry q (pdIndex virt) w).entry p j = m.entry p j := by
    intro m w
    by_cases hpq' : p = q
    · subst hpq'
      exact Mem.entry_setEntry_index fun hj' => hpq ⟨rfl, hj'⟩
    · exact Mem.entry_setEntry_page hqp hp (pdIndex_lt hv) hj hpq'
  rw [unmapMem, hstep, Mem.entry_setEntry_page hpage hp (ptIndex_lt virt) hj hpa,
    Mem.entry_copy_page hpage hp hj hpa]

theorem Inv.entry_copied_dir : (unmapMem k.mem q virt (f * 4096)).entry q (pdIndex virt) =
      f * 4096 ||| k.mem.entry q (pdIndex virt) % 4096 := by
  obtain ⟨hpage, -, hlt⟩ := h.fresh_page hf
  have hpd := pdIndex_lt hv
  have hqp := (h.dir_inUse hq).page
  have hqa := h.fresh_ne_dir hf hq
  have hmod : k.mem.entry q (pdIndex virt) % 4096 < 4096 := Nat.mod_lt _ (by decide)
  rw [unmapMem, Mem.entry_setEntry_same, Mem.entry_setEntry_page hpage hqp (ptIndex_lt virt)
    hpd hqa, Mem.entry_copy_page hpage hqp hpd hqa, h.entry_protectMem_dir hpage hlt hq hpd]
  exact Nat.mod_eq_of_lt (or_lt hpage hlt hmod)

theorem Inv.entry_copied_new (hj : j < 1024) :
    (unmapMem k.mem q virt (f * 4096)).entry (f * 4096) j =
      if j = ptIndex virt then 0
      else (protectMem k.mem (f * 4096)).entry (k.table q (pdIndex virt)) j := by
  obtain ⟨hpage, -, -⟩ := h.fresh_page hf
  rw [unmapMem, Mem.entry_setEntry_page (h.dir_inUse hq).page hpage (pdIndex_lt hv) hj
    (h.fresh_ne_dir hf hq).symm]
  by_cases hjt : j = ptIndex virt
  · subst hjt
    rw [Mem.entry_setEntry_same, if_pos rfl, Nat.zero_mod]
  · rw [Mem.entry_setEntry_index hjt, if_neg hjt, Mem.entry_copy_same hj]
    rfl

/-- The entries of the directories after the copy: only one has changed. -/
theorem Inv.entry_copied_isDir (hq' : k.IsDir q') (hi : i < 1024)
    (hne : ¬ (q' = q ∧ i = pdIndex virt)) :
    (unmapMem k.mem q virt (f * 4096)).entry q' i = k.mem.entry q' i := by
  obtain ⟨hpage, -, hlt⟩ := h.fresh_page hf
  rw [h.entry_copied hq hv hf (h.dir_inUse hq').page hi (h.fresh_ne_dir hf hq') hne,
    h.entry_protectMem_dir hpage hlt hq' hi]

/-- After the copy the page is gone from the directory; everything else translates as
after `protect_table_frame` alone. -/
theorem Inv.walk_copied (hq' : k.IsDir q') (hv' : v < 2 ^ 32) :
    walk (unmapMem k.mem q virt (f * 4096)) q' v =
      if q' = q ∧ v / 4096 = virt / 4096 then none
      else walk (protectMem k.mem (f * 4096)) q' v := by
  obtain ⟨hpage, -, hlt⟩ := h.fresh_page hf
  have hpd := pdIndex_lt hv'
  have hprot := h.entry_protectMem_dir hpage hlt hq' hpd
  have hpres := h.present_entry hq' hpd
  by_cases hself : q' = q ∧ pdIndex v = pdIndex virt
  · -- the directory entry that now leads to the copy
    obtain ⟨rfl, hpdv⟩ := hself
    have hmod : k.mem.entry q' (pdIndex v) % 4096 < 4096 := Nat.mod_lt _ (by decide)
    have hentry : (unmapMem k.mem q' virt (f * 4096)).entry q' (pdIndex v) =
        f * 4096 ||| k.mem.entry q' (pdIndex v) % 4096 := by
      rw [hpdv]
      exact h.entry_copied_dir hq hv hf
    have hpres' : present (f * 4096 ||| k.mem.entry q' (pdIndex v) % 4096) = true := by
      rw [← hpres]
      exact present_congr (or_mod hpage hmod)
    have hpt : (q' = q' ∧ v / 4096 = virt / 4096) ↔ ptIndex v = ptIndex virt := by
      rw [page_eq_iff]
      exact ⟨fun hc => hc.2.2, fun hc => ⟨rfl, hpdv, hc⟩⟩
    unfold walk
    dsimp only
    rw [hentry, if_pos hpres', pageOf_or hpage hmod,
      h.entry_copied_new hq hv hf (ptIndex_lt v), hprot, if_pos hpres]
    by_cases hc : ptIndex v = ptIndex virt
    · rw [if_pos hc, if_pos (hpt.mpr hc)]
      decide
    · rw [if_neg hc, if_neg fun hc' => hc (hpt.mp hc'), ← hpdv]
      rfl
  · have hne : ¬ (q' = q ∧ v / 4096 = virt / 4096) := by
      rintro ⟨hqq, hpv⟩
      exact hself ⟨hqq, ((page_eq_iff v virt).mp hpv).1⟩
    rw [if_neg hne]
    refine walk_congr ((h.entry_copied_isDir hq hv hf hq' hpd hself).trans hprot.symm) ?_
    rw [hprot]
    exact h.entry_copied hq hv hf (h.table_inUse hq' hpd).page (ptIndex_lt v)
      (h.fresh_ne_table hf hq' hpd) fun hc => h.table_ne_dir hq' hpd hq hc.1

end

end copied

/-- `unmap_page_dir` on a task's directory keeps the invariant. A private table it
replaces is no object any more, and nobody frees it. -/
theorem Inv.unmapPageDir (h : Inv I X k) {s : Nat} (hs : k.HasDir s) (hv : virt < 2 ^ 32) :
    Inv I X { k with toPhys := unmapPageDir k.toPhys (k.tasks s).pageDirectory virt } := by
  have hspec := h.unmapPageDir_spec hs.isDir hv
  generalize Kernel.unmapPageDir k.toPhys (k.tasks s).pageDirectory virt = p' at hspec
  cases hspec with
  | full hfree => exact h
  | @copied f p hnext hmem hfree =>
    obtain ⟨hpage, hne, hlt⟩ := h.fresh_page hmem
    have hmod : k.pde s (pdIndex virt) % 4096 < 4096 := Nat.mod_lt _ (by decide)
    have hk : ∀ i, i < 1024 → (unmapMem k.mem (k.tasks s).pageDirectory virt (f * 4096)).entry
        pageDirectory i = k.kpde i := fun i hi =>
      h.entry_copied_isDir hs.isDir hv hmem k.isDir_kernel hi fun hc => hs.2 hc.1.symm
    have hd : ∀ t, k.HasDir t → ∀ i, i < 1024 → ¬ (t = s ∧ i = pdIndex virt) →
        (unmapMem k.mem (k.tasks s).pageDirectory virt (f * 4096)).entry
          (k.tasks t).pageDirectory i = k.pde t i := fun t ht i hi hne =>
      h.entry_copied_isDir hs.isDir hv hmem ht.isDir hi fun hc =>
        hne ⟨h.dir_inj ht hs hc.1, hc.2⟩
    have hself := h.entry_copied_dir hs.isDir hv hmem
    have hplain : Plain I { k with
        toPhys := ⟨unmapMem k.mem (k.tasks s).pageDirectory virt (f * 4096), p⟩ } := by
      refine ⟨h.nodup, fun i hi => ?_, fun t ht i hi => ?_, h.slot, h.num⟩
      · have := h.kflags i hi
        rwa [← hk i hi] at this
      · have hkf := congrArg (· % 4096) (hk i hi)
        by_cases hts : t = s ∧ i = pdIndex virt
        · obtain ⟨rfl, rfl⟩ := hts
          exact (congrArg (· % 4096) hself).trans ((or_mod hpage hmod).trans
            ((h.flags t ht _ hi).trans hkf.symm))
        · exact (congrArg (· % 4096) (hd t ht i hi hts)).trans
            ((h.flags t ht i hi).trans hkf.symm)
    refine h.extend hplain (n := .tab s (pdIndex virt)) hmem hfree fun o ho => ?_
    cases o with
    | kdir => exact Or.inl ⟨trivial, rfl⟩
    | ktab i => exact Or.inl ⟨ho, congrArg pageOf (hk i ho)⟩
    | dir t => exact Or.inl ⟨ho, rfl⟩
    | own t a => exact Or.inl ⟨ho, rfl⟩
    | ext a => exact Or.inl ⟨ho, rfl⟩
    | tab t i =>
      obtain ⟨ht, hi, hpriv⟩ := ho
      by_cases hts : t = s ∧ i = pdIndex virt
      · obtain ⟨rfl, rfl⟩ := hts
        exact Or.inr ⟨rfl, (congrArg pageOf hself).trans (pageOf_or hpage hmod)⟩
      · refine Or.inl ⟨⟨ht, hi, ?_⟩, congrArg pageOf (hd t ht i hi hts)⟩
        intro heq
        apply hpriv
        exact (congrArg pageOf (hd t ht i hi hts)).trans
          (heq.trans (congrArg pageOf (hk i hi)).symm)

/-! ### map_page_dir -/

section

variable (h : Inv I X k) (hq : k.IsDir q) (hv : virt < 2 ^ 32)
include h hq hv

theorem Inv.mapPageDir_eq (phys flags : Nat) : mapPageDir k.toPhys q phys virt flags =
      ⟨k.mem.setEntry (k.table q (pdIndex virt)) (ptIndex virt) (pageOf phys ||| flags),
        k.pmm⟩ := by
  unfold mapPageDir
  dsimp only
  rw [if_pos (h.present_entry hq (pdIndex_lt hv))]
  rfl

theorem Inv.mapPageDir (phys flags : Nat) :
    Inv I X { k with toPhys := mapPageDir k.toPhys q phys virt flags } := by
  rw [h.mapPageDir_eq hq hv]
  refine h.mem_congr (fun q' hq' i hi => ?_) (Finset.Subset.refl _)
  exact Mem.entry_setEntry_page (h.table_inUse hq (pdIndex_lt hv)).page (h.dir_inUse hq').page
    (ptIndex_lt virt) hi (h.table_ne_dir hq (pdIndex_lt hv) hq').symm

/-- An entry written to a table is seen by the directories that use the table. -/
theorem Inv.walk_mapPageDir {phys flags : Nat}
    (hphys : phys < 2 ^ 32) (hflags : flags < 4096) (hpres : present flags = true)
    (hq' : k.IsDir q') (hv' : v < 2 ^ 32) :
    walk (Kernel.mapPageDir k.toPhys q phys virt flags).mem q' v =
      if v / 4096 = virt / 4096 ∧ k.table q' (pdIndex virt) = k.table q (pdIndex virt)
        then some (pageOf phys) else walk k.mem q' v := by
  have hpd := pdIndex_lt hv
  have hpd' := pdIndex_lt hv'
  have htab := (h.table_inUse hq hpd).page
  have hplt := pageOf_lt hphys
  rw [h.mapPageDir_eq hq hv, h.walk_eq hq' hv']
  unfold walk
  dsimp only
  rw [Mem.entry_setEntry_page htab (h.dir_inUse hq').page (ptIndex_lt virt) hpd'
    (h.table_ne_dir hq hpd hq').symm, if_pos (h.present_entry hq' hpd')]
  change leaf ((k.mem.setEntry _ _ _).entry (k.table q' (pdIndex v)) (ptIndex v)) = _
  by_cases hpage : k.table q' (pdIndex v) = k.table q (pdIndex virt)
  · obtain ⟨hpdv, -⟩ := h.table_eq hq' hq hpd' hpd hpage
    have htv : k.table q' (pdIndex virt) = k.table q (pdIndex virt) := by rwa [hpdv] at hpage
    rw [hpage]
    by_cases hpt : ptIndex v = ptIndex virt
    · rw [if_pos ⟨(page_eq_iff v virt).mpr ⟨hpdv, hpt⟩, htv⟩, hpt,
        Mem.entry_setEntry_same, Nat.mod_eq_of_lt (or_lt (pageOf_page phys) hplt hflags),
        leaf_or (pageOf_page phys) hflags hpres]
    · rw [if_neg fun hc => hpt ((page_eq_iff v virt).mp hc.1).2, Mem.entry_setEntry_index hpt]
  · have hne : ¬ (v / 4096 = virt / 4096 ∧
        k.table q' (pdIndex virt) = k.table q (pdIndex virt)) := by
      rintro ⟨hpv, htv⟩
      rw [((page_eq_iff v virt).mp hpv).1] at hpage
      exact hpage htv
    rw [if_neg hne, Mem.entry_setEntry_page htab (h.table_inUse hq' hpd').page (ptIndex_lt virt)
      (ptIndex_lt v) hpage]

end

end Crusadia.Kernel
