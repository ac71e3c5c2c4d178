import Crusadia.Kernel.Paging

/-!
# Crusadia.Kernel.UserPage

What **`task_map_user_page`** changes, and what a user program can do with the page.

With a free frame the task gets a table of its own and only its own page moves, apart
from the frame of the new table, which is mapped to itself in the kernel directory.
Without one `unmap_page_dir` gives up silently and `map_page_dir` writes the entry into
the table the task still shares with the kernel and with every other task
(`Inv.touchesOnly_iff`). The permission bits of the directory entry are the kernel's, so
a page is open to user code only in the regions where the kernel's entry is
(`Inv.pdeBits_taskMapUserPage`).
-/

namespace Crusadia.Kernel

variable {I : Image} {X : Set Nat} {k : State} {s virt phys v : Nat} {q : Nat}

/-! ### The state after a mapping -/

/-- `task_translate_user_ptr` is the walk, with the offset put in. -/
theorem taskTranslateUserPtr_eq (hslot : s < k.numTasks) (hs : k.HasDir s) (v : Nat) :
    taskTranslateUserPtr k s v =
      match walk k.mem (k.tasks s).pageDirectory v with
      | some a => a ||| v % 4096
      | none => 0 := by
  unfold taskTranslateUserPtr walk leaf
  rw [if_neg (slot_ok hslot), Int.toNat_natCast]
  dsimp only
  rw [if_neg hs.1]
  split
  · rename_i hp
    rw [Bool.not_eq_true'] at hp
    rw [hp]
    rfl
  · rename_i hp
    rw [Bool.not_eq_true', Bool.not_eq_false] at hp
    rw [if_pos hp]
    split
    · rename_i hq
      rw [Bool.not_eq_true'] at hq
      rw [hq]
      rfl
    · rename_i hq
      rw [Bool.not_eq_true', Bool.not_eq_false] at hq
      rw [if_pos hq]

/-- `task_map_user_page` on a slot with a directory. -/
theorem taskMapUserPage_eq (hslot : s < k.numTasks) (hs : k.HasDir s) (phys virt flags : Nat) :
    taskMapUserPage k s phys virt flags =
      (true, { k with
        toPhys := mapPageDir (unmapPageDir k.toPhys (k.tasks s).pageDirectory virt)
          (k.tasks s).pageDirectory phys virt flags }) := by
  unfold taskMapUserPage
  rw [if_neg (slot_ok hslot), Int.toNat_natCast]
  dsimp only
  rw [if_neg hs.1]

/-- `task_map_user_page` keeps the invariant. -/
theorem Inv.taskMapUserPage (h : Inv I X k) (hs : k.HasDir s) (hv : virt < 2 ^ 32)
    (phys flags : Nat) : Inv I X (taskMapUserPage k s phys virt flags).2 := by
  unfold Kernel.taskMapUserPage
  split
  · exact h
  · dsimp only
    rw [Int.toNat_natCast, if_neg hs.1]
    exact (h.unmapPageDir hs hv).mapPageDir hs.isDir hv phys flags

/-- The directories after a mapping: with a free frame, one entry of the task leads to a
table of its own. -/
theorem Inv.dirEntry_taskMapUserPage (h : Inv I X k) (hslot : s < k.numTasks) (hs : k.HasDir s)
    (hv : virt < 2 ^ 32) (phys flags : Nat) {i : Nat} (hq : k.IsDir q) (hi : i < 1024) :
    (Kernel.taskMapUserPage k s phys virt flags).2.mem.entry q i =
      match k.pmm.next with
      | some f => if q = (k.tasks s).pageDirectory ∧ i = pdIndex virt
          then f * 4096 ||| k.mem.entry q i % 4096 else k.mem.entry q i
      | none => k.mem.entry q i := by
  have hinv := h.unmapPageDir hs hv
  have hspec := h.unmapPageDir_spec hs.isDir hv
  have hpd := pdIndex_lt hv
  rw [taskMapUserPage_eq hslot hs]
  dsimp only
  generalize Kernel.unmapPageDir k.toPhys (k.tasks s).pageDirectory virt = p' at hinv hspec
  have hmap := hinv.mapPageDir_eq (k := { k with toPhys := p' }) hs.isDir hv phys flags
  dsimp only at hmap
  rw [hmap]
  dsimp only
  rw [Mem.entry_setEntry_page (hinv.table_inUse hs.isDir hpd).page (h.dir_inUse hq).page
    (ptIndex_lt virt) hi (hinv.table_ne_dir hs.isDir hpd hq).symm]
  cases hspec with
  | full hfree => rw [Pmm.next_eq_none_iff.mpr hfree]
  | copied hnext hmem hfree =>
    rw [hnext]
    dsimp only
    split
    · rename_i hc
      rw [hc.1, hc.2]
      exact h.entry_copied_dir hs.isDir hv hmem
    · rename_i hc
      exact h.entry_copied_isDir hs.isDir hv hmem hq hi hc

/-- Unmapping and mapping a page in directory `q`, which may be the kernel's. -/
def remap (s : Phys) (q phys virt : Nat) : Phys :=
  mapPageDir (unmapPageDir s q virt) q phys virt 0x07

section

variable (h : Inv I X k) (hq : k.IsDir q) (hphys : phys < 2 ^ 32) (hv : virt < 2 ^ 32)
include h hq hphys hv

/-- Translation after a page was mapped and a frame was free. -/
theorem Inv.walk_remap_some {f : Nat} (hnext : k.pmm.next = some f) {q' : Nat} (hq' : k.IsDir q')
    (hv' : v < 2 ^ 32) :
    walk (remap k.toPhys q phys virt).mem q' v =
      if q' = q ∧ v / 4096 = virt / 4096 then some (pageOf phys)
      else walk (protectMem k.mem (f * 4096)) q' v := by
  have hmem := Pmm.next_mem hnext
  obtain ⟨hpage, -, hlt⟩ := h.fresh_page hmem
  have hpd := pdIndex_lt hv
  have hpd' := pdIndex_lt hv'
  have hplt := pageOf_lt hphys
  have hmod : k.mem.entry q (pdIndex virt) % 4096 < 4096 := Nat.mod_lt _ (by decide)
  have hspec := h.unmapPageDir_spec hq hv
  have hwalk := h.walk_copied hq hv hmem hq' hv'
  have hdir := h.entry_copied_dir hq hv hmem
  have hother := fun hne => h.entry_copied_isDir hq hv hmem hq' hpd' hne
  unfold remap
  generalize Kernel.unmapPageDir k.toPhys q virt = p' at hspec
  cases hspec with
  | full hfree => simp [hfree] at hmem
  | @copied f' p hnext' _ hfree =>
    rw [hnext] at hnext'
    obtain rfl := Option.some.inj hnext'
    have hpres : present (f * 4096 ||| k.mem.entry q (pdIndex virt) % 4096) = true := by
      rw [← h.present_entry hq hpd]
      exact present_congr (or_mod hpage hmod)
    unfold Kernel.mapPageDir
    dsimp only
    rw [hdir, if_pos hpres, pageOf_or hpage hmod]
    generalize unmapMem k.mem q virt (f * 4096) = m at hwalk hdir hother
    have hentry : (m.setEntry (f * 4096) (ptIndex virt) (pageOf phys ||| 0x07)).entry q'
        (pdIndex v) = m.entry q' (pdIndex v) :=
      Mem.entry_setEntry_page hpage (h.dir_inUse hq').page (ptIndex_lt virt) hpd'
        (h.fresh_ne_dir hmem hq')
    by_cases hself : q' = q ∧ pdIndex v = pdIndex virt
    · -- the entry is in the table that `q` has for the region
      obtain ⟨rfl, hpdv⟩ := hself
      rw [hpdv] at hentry
      have hwalk1 : walk (m.setEntry (f * 4096) (ptIndex virt) (pageOf phys ||| 0x07)) q' v =
          leaf ((m.setEntry (f * 4096) (ptIndex virt) (pageOf phys ||| 0x07)).entry (f * 4096)
            (ptIndex v)) := by
        rw [walk, hpdv, hentry, hdir, if_pos hpres, pageOf_or hpage hmod]
      have hwalk2 : walk m q' v = leaf (m.entry (f * 4096) (ptIndex v)) := by
        rw [walk, hpdv, hdir, if_pos hpres, pageOf_or hpage hmod]
      rw [hwalk1]
      by_cases hpt : ptIndex v = ptIndex virt
      · rw [if_pos ⟨rfl, (page_eq_iff v virt).mpr ⟨hpdv, hpt⟩⟩, hpt, Mem.entry_setEntry_same,
          Nat.mod_eq_of_lt (or_lt (pageOf_page phys) hplt (by decide)),
          leaf_or (pageOf_page phys) (by decide) (by decide)]
      · have hne : ¬ (q' = q' ∧ v / 4096 = virt / 4096) := fun hc =>
          hpt ((page_eq_iff v virt).mp hc.2).2
        rw [if_neg hne] at hwalk ⊢
        rw [Mem.entry_setEntry_index hpt, ← hwalk2, hwalk]
    · have hne : ¬ (q' = q ∧ v / 4096 = virt / 4096) := fun hc =>
        hself ⟨hc.1, ((page_eq_iff v virt).mp hc.2).1⟩
      rw [if_neg hne] at hwalk ⊢
      rw [← hwalk]
      refine walk_congr hentry ?_
      rw [hother hself]
      exact Mem.entry_setEntry_page hpage (pageOf_page _) (ptIndex_lt virt) (ptIndex_lt v)
        (h.fresh_ne_table hmem hq' hpd')

/-- Translation after a page was mapped and no frame was free. -/
theorem Inv.walk_remap_none (hnext : k.pmm.next = none) {q' : Nat} (hq' : k.IsDir q')
    (hv' : v < 2 ^ 32) :
    walk (remap k.toPhys q phys virt).mem q' v =
      if v / 4096 = virt / 4096 ∧ k.table q' (pdIndex virt) = k.table q (pdIndex virt)
        then some (pageOf phys) else walk k.mem q' v := by
  have hspec := h.unmapPageDir_spec hq hv
  unfold remap
  generalize Kernel.unmapPageDir k.toPhys q virt = p' at hspec
  cases hspec with
  | full hfree => exact h.walk_mapPageDir hq hv hphys (by decide) (by decide) hq' hv'
  | copied hnext' _ _ =>
    rw [hnext] at hnext'
    simp at hnext'

end

section

variable (h : Inv I X k) (hslot : s < k.numTasks) (hs : k.HasDir s) (hphys : phys < 2 ^ 32)
  (hv : virt < 2 ^ 32)
include h hslot hs hphys hv

/-- Translation after `task_map_user_page` when a frame is free. -/
theorem Inv.walk_taskMapUserPage_some {f : Nat} (hnext : k.pmm.next = some f)
    (hq : k.IsDir q) (hv' : v < 2 ^ 32) :
    walk (Kernel.taskMapUserPage k s phys virt 0x07).2.mem q v =
      if q = (k.tasks s).pageDirectory ∧ v / 4096 = virt / 4096 then some (pageOf phys)
      else walk (protectMem k.mem (f * 4096)) q v := by
  rw [taskMapUserPage_eq hslot hs]
  exact h.walk_remap_some hs.isDir hphys hv hnext hq hv'

/-- Translation after `task_map_user_page` when no frame is free. -/
theorem Inv.walk_taskMapUserPage_none (hnext : k.pmm.next = none) (hq : k.IsDir q)
    (hv' : v < 2 ^ 32) : walk (Kernel.taskMapUserPage k s phys virt 0x07).2.mem q v =
      if v / 4096 = virt / 4096 ∧
          k.table q (pdIndex virt) = k.table (k.tasks s).pageDirectory (pdIndex virt)
        then some (pageOf phys) else walk k.mem q v := by
  rw [taskMapUserPage_eq hslot hs]
  exact h.walk_remap_none hs.isDir hphys hv hnext hq hv'

end

/-! ### Who is affected -/

/-- The kernel and every other task translate every address as before, and the task
itself every address outside the page of `virt`. -/
structure TouchesOnly (k k' : State) (s virt : Nat) : Prop where
  kernel : ∀ v, v < 2 ^ 32 → walk k'.mem pageDirectory v = walk k.mem pageDirectory v
  others : ∀ t, t ≠ s → k.HasDir t → ∀ v, v < 2 ^ 32 →
    walk k'.mem (k.tasks t).pageDirectory v = walk k.mem (k.tasks t).pageDirectory v
  own : k.HasDir s → ∀ v, v < 2 ^ 32 → v / 4096 ≠ virt / 4096 →
    walk k'.mem (k.tasks s).pageDirectory v = walk k.mem (k.tasks s).pageDirectory v

/-- When a mapping touches nobody else. If a frame is free, the one handed out for the new
table is mapped to itself by the kernel already, or no other page shows its entry. And if
the mapping goes into the kernel's own table, because no frame is left or because the
slot runs on the kernel directory, it is what the kernel has there. -/
structure MapSafe (k : State) (s phys virt : Nat) : Prop where
  frame : ∀ f, k.pmm.next = some f → ∀ q, k.IsDir q → k.Shares q (pdIndex (f * 4096)) →
    ¬ (q = (k.tasks s).pageDirectory ∧ f = virt / 4096) →
      walk k.mem pageDirectory (f * 4096) = some (f * 4096)
  entry : k.pmm.next = none ∧ k.Shares (k.tasks s).pageDirectory (pdIndex virt) ∨
    (k.tasks s).pageDirectory = pageDirectory →
      walk k.mem pageDirectory virt = some (pageOf phys)

/-- A directory that shares the kernel's table for a page translates the page as the
kernel does. -/
theorem Inv.walk_of_shares (h : Inv I X k) {w : Nat} (hq : k.IsDir q) (hv : v < 2 ^ 32)
    (hw : w < 2 ^ 32) (hpage : v / 4096 = w / 4096) (hshare : k.Shares q (pdIndex w)) :
    walk k.mem q v = walk k.mem pageDirectory w := by
  obtain ⟨hpd, hpt⟩ := (page_eq_iff v w).mp hpage
  rw [h.walk_eq hq hv, h.walk_eq k.isDir_kernel hw, hpd, hpt, hshare]

section

variable (h : Inv I X k) (hq : k.IsDir (k.tasks s).pageDirectory) (hphys : phys < 2 ^ 32)
  (hv : virt < 2 ^ 32)
include h hq hphys hv

/-- A safe mapping changes no other translation. -/
theorem Inv.walk_remap_safe (hsafe : MapSafe k s phys virt) (hq' : k.IsDir q)
    (hv' : v < 2 ^ 32) (hne : ¬ (q = (k.tasks s).pageDirectory ∧ v / 4096 = virt / 4096)) :
    walk (remap k.toPhys (k.tasks s).pageDirectory phys virt).mem q v = walk k.mem q v := by
  cases hnext : k.pmm.next with
  | some f =>
    obtain ⟨hpage, -, hlt⟩ := h.fresh_page (Pmm.next_mem hnext)
    rw [h.walk_remap_some hq hphys hv hnext hq' hv', if_neg hne]
    rcases h.walk_protectMem hpage hlt hq' hv' with ⟨hwalk, hpv, hshare⟩ | ⟨hwalk, -⟩
    · rw [Nat.mul_div_cancel _ (by decide)] at hpv
      rw [hwalk, h.walk_of_shares hq' hv' hlt (by omega) hshare]
      exact (hsafe.frame f hnext q hq' hshare fun hc => hne ⟨hc.1, hpv.trans hc.2⟩).symm
    · exact hwalk
  | none =>
    rw [h.walk_remap_none hq hphys hv hnext hq' hv']
    split
    · -- another directory sees the entry only through the kernel's table
      rename_i hc
      have hpd := pdIndex_lt hv
      rcases (h.table_eq hq' hq hpd hpd hc.2).2 with hqs | ⟨hshare, hshare'⟩
      · exact absurd ⟨hqs, hc.1⟩ hne
      · rw [h.walk_of_shares hq' hv' hv hc.1 hshare, hsafe.entry (Or.inl ⟨hnext, hshare'⟩)]
    · rfl

/-- What the mapping puts into a table of the kernel's. -/
theorem Inv.walk_remap_entry
    (hcase : k.pmm.next = none ∧ k.Shares (k.tasks s).pageDirectory (pdIndex virt) ∨
      (k.tasks s).pageDirectory = pageDirectory) (hv' : v < 2 ^ 32) (hpv : v / 4096 = virt / 4096) :
    walk (remap k.toPhys (k.tasks s).pageDirectory phys virt).mem pageDirectory v =
      some (pageOf phys) := by
  cases hnext : k.pmm.next with
  | none =>
    have hshare : k.Shares (k.tasks s).pageDirectory (pdIndex virt) := by
      rcases hcase with hcase | hcase
      · exact hcase.2
      · rw [hcase]
        rfl
    rw [h.walk_remap_none hq hphys hv hnext k.isDir_kernel hv', if_pos ⟨hpv, hshare.symm⟩]
  | some f =>
    rcases hcase with hcase | hcase
    · rw [hnext] at hcase
      simp at hcase
    · rw [h.walk_remap_some hq hphys hv hnext k.isDir_kernel hv', if_pos ⟨hcase.symm, hpv⟩]

theorem Inv.touchesOnly_iff :
    TouchesOnly k { k with toPhys := remap k.toPhys (k.tasks s).pageDirectory phys virt } s virt ↔
      MapSafe k s phys virt := by
  constructor
  · intro ht
    refine ⟨fun f hnext q hq' hshare hne => ?_, fun hcase => ?_⟩
    · obtain ⟨hpage, -, hlt⟩ := h.fresh_page (Pmm.next_mem hnext)
      have hdiv : f * 4096 / 4096 = f := Nat.mul_div_cancel _ (by decide)
      have hne' : ¬ (q = (k.tasks s).pageDirectory ∧ f * 4096 / 4096 = virt / 4096) := by
        rwa [hdiv]
      have hafter : walk (remap k.toPhys (k.tasks s).pageDirectory phys virt).mem q (f * 4096) =
          some (f * 4096) := by
        rw [h.walk_remap_some hq hphys hv hnext hq' hlt, if_neg hne']
        rcases h.walk_protectMem hpage hlt hq' hlt with ⟨hw, -⟩ | ⟨-, hno⟩
        · exact hw
        · exact absurd ⟨rfl, hshare⟩ hno
      rw [← h.walk_of_shares hq' hlt hlt rfl hshare, ← hafter]
      rcases hq' with rfl | ⟨t, ht', rfl⟩
      · exact (ht.kernel _ hlt).symm
      · by_cases hts : t = s
        · subst hts
          exact (ht.own ht' _ hlt fun hpv => hne' ⟨rfl, hpv⟩).symm
        · exact (ht.others t hts ht' _ hlt).symm
    · rw [← ht.kernel virt hv]
      exact h.walk_remap_entry hq hphys hv hcase hv rfl
  · intro hsafe
    have hsame := fun {q v : Nat} => h.walk_remap_safe (q := q) (v := v) hq hphys hv hsafe
    refine ⟨fun v hv' => ?_, fun t hts ht v hv' => ?_, fun hs v hv' hpv => ?_⟩
    · by_cases hown : pageDirectory = (k.tasks s).pageDirectory ∧ v / 4096 = virt / 4096
      · have hcase := Or.inr (a := k.pmm.next = none ∧
          k.Shares (k.tasks s).pageDirectory (pdIndex virt)) hown.1.symm
        rw [h.walk_remap_entry hq hphys hv hcase hv' hown.2,
          h.walk_of_shares k.isDir_kernel hv' hv hown.2 rfl, hsafe.entry hcase]
      · exact hsame k.isDir_kernel hv' hown
    · refine hsame ht.isDir hv' fun hc => ?_
      rcases hq with hk | ⟨u, hu, hsu⟩
      · exact ht.2 (hc.1.trans hk)
      · have hs : k.HasDir s := (State.hasDir_congr hsu).mpr hu
        exact hts (h.dir_inj ht hs hc.1)
    · exact hsame hs.isDir hv' fun hc => hpv hc.2

end

/-! ### What user code may do with the page -/

/-- The walk of `virt` ends at the frame of `phys`, and both entries are present,
writable and open to user mode. -/
structure UserWritable (m : Mem) (dir virt phys : Nat) : Prop where
  pde : ∀ b, b < 3 → (m.entry dir (pdIndex virt)).testBit b = true
  pte : ∀ b, b < 3 →
    (m.entry (pageOf (m.entry dir (pdIndex virt))) (ptIndex virt)).testBit b = true
  frame : pageOf (m.entry (pageOf (m.entry dir (pdIndex virt))) (ptIndex virt)) = pageOf phys

section

variable (h : Inv I X k) (hslot : s < k.numTasks) (hs : k.HasDir s)
include h hslot hs

/-- A mapping changes no entry of the kernel directory. -/
theorem Inv.kpde_taskMapUserPage (hv : virt < 2 ^ 32) (phys flags : Nat) {i : Nat} (hi : i < 1024) :
    (Kernel.taskMapUserPage k s phys virt flags).2.kpde i = k.kpde i := by
  unfold State.kpde
  rw [h.dirEntry_taskMapUserPage hslot hs hv phys flags k.isDir_kernel hi]
  split
  · exact if_neg fun hc => hs.2 hc.1.symm
  · rfl

/-- The table entry that `task_map_user_page` leaves for its page. -/
theorem Inv.entry_taskMapUserPage (hphys : phys < 2 ^ 32) (hv : virt < 2 ^ 32) {m : Mem}
    (hm : (Kernel.taskMapUserPage k s phys virt 0x07).2.mem = m) :
    m.entry (pageOf (m.entry (k.tasks s).pageDirectory (pdIndex virt))) (ptIndex virt) =
      pageOf phys ||| 0x07 := by
  have hinv := h.unmapPageDir hs hv
  have hpd := pdIndex_lt hv
  rw [taskMapUserPage_eq hslot hs] at hm
  generalize Kernel.unmapPageDir k.toPhys (k.tasks s).pageDirectory virt = p' at hinv hm
  have hmap := hinv.mapPageDir_eq (k := { k with toPhys := p' }) hs.isDir hv phys 0x07
  dsimp only at hm hmap
  rw [hmap] at hm
  dsimp only at hm
  have hplt := pageOf_lt hphys
  have hdir : m.entry (k.tasks s).pageDirectory (pdIndex virt) =
      p'.mem.entry (k.tasks s).pageDirectory (pdIndex virt) := by
    rw [← hm]
    exact Mem.entry_setEntry_page (hinv.table_inUse hs.isDir hpd).page
      (hinv.dir_inUse (k := { k with toPhys := p' }) hs.isDir).page (ptIndex_lt virt) hpd
      (hinv.table_ne_dir hs.isDir hpd hs.isDir).symm
  rw [hdir, ← hm]
  exact Mem.entry_setEntry_same.trans
    (Nat.mod_eq_of_lt (or_lt (pageOf_page phys) hplt (by decide)))

/-- The low bits of the directory entry for the page are the kernel's. -/
theorem Inv.pdeBits_taskMapUserPage (hv : virt < 2 ^ 32) (phys flags : Nat) {b : Nat} (hb : b < 3) :
    ((Kernel.taskMapUserPage k s phys virt flags).2.mem.entry (k.tasks s).pageDirectory
      (pdIndex virt)).testBit b = (k.kpde (pdIndex virt)).testBit b := by
  have hpd := pdIndex_lt hv
  have hinv := h.taskMapUserPage hs hv phys flags
  have hk := h.kpde_taskMapUserPage hslot hs hv phys flags hpd
  have htasks := (taskMapUserPage_tasks k s phys virt flags).2
  generalize (Kernel.taskMapUserPage k s phys virt flags).2 = k' at hinv hk htasks
  have hs' : k'.HasDir s := (State.hasDir_congr (by rw [htasks])).mpr hs
  have hflags := hinv.flags s hs' _ hpd
  unfold State.pde at hflags
  rw [htasks, hk] at hflags
  have hmod : ∀ x : Nat, (x % 2 ^ 12).testBit b = x.testBit b := fun x => by
    rw [Nat.testBit_mod_two_pow]
    simp
    omega
  rw [← hmod, ← hmod (k.kpde _)]
  exact congrArg (fun x => x.testBit b) hflags

/-- A page of a region whose kernel entry has the user bit is open to user code. -/
theorem Inv.userWritable (hphys : phys < 2 ^ 32) (hv : virt < 2 ^ 32)
    (hbit : (k.kpde (pdIndex virt)).testBit 2 = true) :
    UserWritable (Kernel.taskMapUserPage k s phys virt 0x07).2.mem (k.tasks s).pageDirectory virt
      phys := by
  have hpte := h.entry_taskMapUserPage hslot hs hphys hv rfl
  refine ⟨fun b hb => ?_, fun b hb => ?_, ?_⟩
  · rw [h.pdeBits_taskMapUserPage hslot hs hv phys 0x07 hb]
    have hwrite : ∀ x : Nat, x % 4096 = 3 ∨ x % 4096 = 7 → x.testBit 0 = true ∧
        x.testBit 1 = true := by
      intro x hx
      simp only [Nat.testBit_eq_decide_div_mod_eq, decide_eq_true_eq]
      omega
    obtain ⟨h0, h1⟩ := hwrite _ (h.kflags _ (pdIndex_lt hv))
    obtain rfl | rfl | rfl : b = 0 ∨ b = 1 ∨ b = 2 := by omega
    · exact h0
    · exact h1
    · exact hbit
  · have h7 : ∀ b, b < 3 → Nat.testBit 7 b = true := by decide
    rw [hpte, Nat.testBit_or, h7 b hb, Bool.or_true]
  · rw [hpte, pageOf_or (pageOf_page phys) (by decide)]

end

end Crusadia.Kernel
