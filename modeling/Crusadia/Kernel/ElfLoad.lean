import Crusadia.Kernel.Elf

/-!
# Crusadia.Kernel.ElfLoad

What **`elf_exec_argv`** leaves in memory.

The pages of the segments are loaded in the order of the program headers (`loads`), each
in a frame of its own. `Held` is the invariant of the loader's frames, `Placed` says what
the pages loaded so far look like in the task: a page shows the frame that was mapped
there last, and the frame holds what the file has for it.
-/

namespace Crusadia.Kernel

variable {I : Image} {X : Set Nat} {k k' k₁ : State} {s v va : Nat} {fr : List Nat} {ph : Phdr}
  {file : List Byte} {f : Nat} {p : Pmm}

/-! ### One page -/

/-- What the file has at address `a` for a segment. -/
def Phdr.byteAt (file : List Byte) (ph : Phdr) (a : Nat) : Byte :=
  if ph.vaddr ≤ a ∧ a < ph.vaddr + ph.filesz then file.getD (ph.offset + (a - ph.vaddr)) 0 else 0

/-- The checks of `load_segment` on the part of the segment that is in the file. -/
structure Phdr.InFile (ph : Phdr) (file : List Byte) : Prop where
  le : ph.filesz ≤ ph.memsz
  offset : ph.offset + ph.filesz ≤ file.length
  size : file.length < 2 ^ 31

/-- A page of a segment, whose addresses do not wrap. -/
structure Phdr.PageAt (ph : Phdr) (va : Nat) : Prop where
  page : va % 4096 = 0
  start : ph.start ≤ va
  lt : va + 4096 < 2 ^ 32

theorem Phdr.PageAt.overlap_le (h : ph.PageAt va) :
    va ≤ (ph.overlap va).1 ∧ (ph.overlap va).1 - va + (ph.overlap va).2 ≤ 4096 := by
  have hstart := h.start
  have hlt := h.lt
  have hp := h.page
  have hwrap : wrap (va + 4096) = va + 4096 := Nat.mod_eq_of_lt hlt
  unfold Phdr.start pageOf at hstart
  unfold Phdr.overlap
  dsimp only
  rw [hwrap]
  split <;> split <;> omega

/-- Loading a page changes its frame only. -/
theorem loadPage_out {phys b : Nat} (h : ph.PageAt va) (hphys : Mem.Page phys)
    (hb : b / 4096 ≠ phys / 4096) (m : Mem) :
    loadPage file ph va phys m b = m b := by
  obtain ⟨hge, hle⟩ := h.overlap_le
  have hlen : (ph.pageBytes file va).length ≤ (ph.overlap va).2 := by
    unfold Phdr.pageBytes pread
    rw [List.length_take]
    omega
  unfold Mem.Page at hphys
  unfold loadPage
  rw [Mem.store_out (by omega), Mem.fill, Mem.store_out (by omega)]

theorem getD_pread {off count j : Nat} (hj : j < count) :
    (pread file off count).getD j 0 = file.getD (off + j) 0 := by
  unfold pread
  simp [List.getD_eq_getElem?_getD, hj, List.getElem?_drop]

/-- The frame of a page of a segment that does not wrap holds the file's bytes, and zero
around them. -/
theorem loadPage_byte {phys i : Nat} (h : ph.PageAt va) (hfile : ph.InFile file)
    (hfits : ph.vaddr + ph.memsz < 2 ^ 32) (hi : i < 4096) (m : Mem) :
    loadPage file ph va phys m (phys + i) = ph.byteAt file (va + i) := by
  have hle := hfile.le
  have hoff := hfile.offset
  have hsize := hfile.size
  have hlt := h.lt
  have hp := h.page
  have hwrap : wrap (va + 4096) = va + 4096 := Nat.mod_eq_of_lt hlt
  have hend : ph.fileEnd = ph.vaddr + ph.filesz := Nat.mod_eq_of_lt (by omega)
  obtain ⟨hge, hle'⟩ := h.overlap_le
  have hov : ((ph.overlap va).1 ≤ va + i ∧ va + i < (ph.overlap va).1 + (ph.overlap va).2) ↔
      ph.vaddr ≤ va + i ∧ va + i < ph.vaddr + ph.filesz := by
    unfold Phdr.overlap
    dsimp only
    rw [hwrap, hend]
    split <;> split <;> omega
  have hvge : ph.vaddr ≤ (ph.overlap va).1 := by
    unfold Phdr.overlap
    dsimp only
    split <;> omega
  have hin : (ph.overlap va).2 ≠ 0 → (ph.overlap va).1 - ph.vaddr + (ph.overlap va).2 ≤
      ph.filesz := by
    unfold Phdr.overlap
    dsimp only
    rw [hwrap, hend]
    split <;> split <;> omega
  generalize hr : ph.overlap va = r at hge hle' hov hvge hin
  obtain ⟨st, len⟩ := r
  dsimp only at hge hle' hov hvge hin
  have hbytes : ph.pageBytes file va = pread file (wrap (ph.offset + (st - ph.vaddr))) len := by
    rw [Phdr.pageBytes, hr]
  unfold loadPage
  rw [hr, hbytes]
  dsimp only
  unfold Phdr.byteAt
  by_cases hc : st ≤ va + i ∧ va + i < st + len
  · have hin' := hin (by omega)
    have hw : wrap (ph.offset + (st - ph.vaddr)) = ph.offset + (st - ph.vaddr) :=
      Nat.mod_eq_of_lt (by omega)
    have hlen : (pread file (ph.offset + (st - ph.vaddr)) len).length = len := by
      unfold pread
      rw [List.length_take, List.length_drop]
      omega
    have hidx : ph.offset + (st - ph.vaddr) + (phys + i - (phys + (st - va))) =
        ph.offset + (va + i - ph.vaddr) := by omega
    rw [if_pos (hov.mp hc), hw, Mem.store_in (by omega) (by omega), getD_pread (by omega), hidx]
  · have hlen : (pread file (wrap (ph.offset + (st - ph.vaddr))) len).length ≤ len := by
      unfold pread
      rw [List.length_take]
      omega
    rw [if_neg fun hc' => hc (hov.mpr hc'), Mem.store_out (by omega), Mem.fill,
      Mem.store_in (by omega) (by omega)]

/-! ### The frames of the loader -/

/-- The loader holds the frames `fr`; since `k₁` only frames that were free have changed. -/
structure Held (I : Image) (X : Set Nat) (k₁ : State) (fr : List Nat) (k : State) : Prop where
  inv : Inv I (X ∪ {a | a ∈ fr}) k
  nodup : fr.Nodup
  new : ∀ a ∈ fr, a ∉ X
  ext : Extends X k₁ k
  own : ∀ t, (k.tasks t).ownedFrames = (k₁.tasks t).ownedFrames

/-- A page of a segment and the frame it was loaded into. -/
structure Placement where
  ph : Phdr
  va : Nat
  frame : Nat

/-- The placement of the page of `v`, where `ps` lists the placements, the last one first. -/
def placedAt (ps : List Placement) (v : Nat) : Option Placement := ps.find? fun e => e.va = pageOf v

/-- The address space of slot `s` with the placements `ps`, compared to `k₁`. -/
structure Placed (I : Image) (file : List Byte) (s : Nat) (k₁ : State) (ps : List Placement)
    (fr : List Nat) (k : State) : Prop where
  frames : fr = (ps.map Placement.frame).reverse
  /-- a page shows the frame mapped there last -/
  walk : ∀ v, v < 2 ^ 32 → ∀ e, placedAt ps v = some e →
    walk k.mem (k.tasks s).pageDirectory v = some e.frame ∧ k.Pinned s v
  bytes : ∀ e ∈ ps, e.ph.InFile file → e.ph.vaddr + e.ph.memsz < 2 ^ 32 → ∀ i, i < 4096 →
    k.mem (e.frame + i) = e.ph.byteAt file (e.va + i)
  keep : ∀ v, v < 2 ^ 32 → placedAt ps v = none → v < I.kernelEnd ∨ k₁.Pinned s v →
    Kernel.walk k.mem (k.tasks s).pageDirectory v = Kernel.walk k₁.mem (k₁.tasks s).pageDirectory v
  pin : ∀ v, v < 2 ^ 32 → k₁.Pinned s v → k.Pinned s v
  card : k.pmm.free.card = k₁.pmm.free.card - 2 * ps.length

/-- A free frame is taken and written; nothing else changes. -/
theorem Inv.takeFrame (h : Inv I X k) {m : Mem} (hmem : f ∈ k.pmm.free)
    (hfree : p.free = k.pmm.free.erase f) (hm : ∀ b, b / 4096 ≠ f → m b = k.mem b) :
    Inv I (insert (f * 4096) X) { k with toPhys := ⟨m, p⟩ } ∧
      Extends X k { k with toPhys := ⟨m, p⟩ } ∧
      (∀ q, k.IsDir q → ∀ i, i < 1024 → m.entry q i = k.mem.entry q i) ∧
      ∀ q v, k.IsDir q → v < 2 ^ 32 → walk m q v = walk k.mem q v := by
  have hpageEntry : ∀ q, InUse I k.pmm q → ∀ i, i < 1024 → m.entry q i = k.mem.entry q i :=
    fun q hq i hi => Mem.entry_congr hq.page hi fun b hb => hm b fun hbf => hq.used (by
      rw [← hb, hbf]
      exact hmem)
  have hdir : ∀ q, k.IsDir q → ∀ i, i < 1024 → m.entry q i = k.mem.entry q i :=
    fun q hq => hpageEntry q (h.dir_inUse hq)
  have hsub : p.free ⊆ k.pmm.free := by
    rw [hfree]
    exact Finset.erase_subset _ _
  refine ⟨?_, ⟨rfl, fun _ => rfl, fun _ => rfl, fun _ => List.Subset.refl _,
    fun i hi => hdir _ k.isDir_kernel i hi, hsub, fun a ha b hb => ?_⟩, hdir, fun q v hq hv => ?_⟩
  · exact (h.hold hmem hfree).mem_congr (p := ⟨m, p⟩) hdir (Finset.Subset.refl _)
  · exact hm b fun hbf => (h.data_ne ha).2.2 f hmem (hb.symm.trans hbf)
  · have hpd := pdIndex_lt hv
    exact walk_congr (hdir q hq _ hpd) (hpageEntry _ (h.table_inUse hq hpd) _ (ptIndex_lt v))

/-- Whether a page is pinned depends on the directories and on whether a frame is free. -/
theorem State.Pinned.congr (hpin : k.Pinned s v) (hv : v < 2 ^ 32) (hs : k.HasDir s)
    (hpd : (k'.tasks s).pageDirectory = (k.tasks s).pageDirectory)
    (hdir : ∀ q, k.IsDir q → ∀ i, i < 1024 → k'.mem.entry q i = k.mem.entry q i)
    (hfree : k.pmm.free = ∅ → k'.pmm.free = ∅) : k'.Pinned s v := by
  refine hpin.imp (fun hpriv => ?_) hfree
  unfold State.Shares State.table at *
  rw [hpd, hdir _ hs.isDir _ (pdIndex_lt hv), hdir _ k.isDir_kernel _ (pdIndex_lt hv)]
  exact hpriv

theorem Held.take (h : Held I X k₁ fr k) {m : Mem} (hmem : f ∈ k.pmm.free)
    (hfree : p.free = k.pmm.free.erase f) (hm : ∀ b, b / 4096 ≠ f → m b = k.mem b) :
    Held I X k₁ (fr ++ [f * 4096]) { k with toPhys := ⟨m, p⟩ } := by
  obtain ⟨hinv, hext, -, -⟩ := h.inv.takeFrame hmem hfree hm
  have hset : insert (f * 4096) (X ∪ {a | a ∈ fr}) = X ∪ {a | a ∈ fr ++ [f * 4096]} := by
    ext a
    simp [or_comm, or_assoc, or_left_comm]
  have hfresh : ∀ o : Obj, o.Live (X ∪ {a | a ∈ fr}) k → o.addr k ≠ f * 4096 := fun o ho heq =>
    (h.inv.inUse o ho).used (by rw [heq, Nat.mul_div_cancel _ (by decide)]; exact hmem)
  rw [hset] at hinv
  refine ⟨hinv, ?_, fun a ha => ?_, h.ext.trans ?_, h.own⟩
  · refine List.nodup_append.mpr ⟨h.nodup, List.nodup_singleton _, fun a ha b hb => ?_⟩
    rw [List.mem_singleton] at hb
    rw [hb]
    exact hfresh (.ext a) (Or.inr ha)
  · rcases List.mem_append.mp ha with ha | ha
    · exact h.new a ha
    · rw [List.mem_singleton] at ha
      intro hX
      exact hfresh (.ext a) (Or.inl hX) ha
  · exact ⟨hext.num, hext.dir, hext.stack, hext.own, hext.kpde, hext.sub,
      fun a ha => hext.data a (ha.imp_left Or.inl)⟩

theorem Held.map (h : Held I X k₁ fr k) (hs : k.HasDir s) (hva : va < 2 ^ 32)
    (phys : Nat) : Held I X k₁ fr (taskMapUserPage k s phys va 0x07).2 := by
  have hext := h.inv.extends_taskMapUserPage hs hva phys 0x07
  have htasks := (taskMapUserPage_tasks k s phys va 0x07).2
  refine ⟨h.inv.taskMapUserPage hs hva phys 0x07, h.nodup, h.new, h.ext.trans ?_, fun t => ?_⟩
  · exact ⟨hext.num, hext.dir, hext.stack, hext.own, hext.kpde, hext.sub,
      fun a ha => hext.data a (ha.imp_left Or.inl)⟩
  · rw [htasks]
    exact h.own t

/-- One turn of the loop of `load_segment`: the frame is taken, filled and mapped. -/
theorem Placed.place {ps : List Placement} (hp : Placed I file s k₁ ps fr k) (h : Held I X k₁ fr k)
    (hs : k.HasDir s) (hmem : f ∈ k.pmm.free) (hfree : p.free = k.pmm.free.erase f)
    (hpage : ph.PageAt va) :
    Placed I file s k₁ (⟨ph, va, f * 4096⟩ :: ps) (fr ++ [f * 4096])
      (taskMapUserPage { k with toPhys := ⟨loadPage file ph va (f * 4096) k.mem, p⟩ } s
        (f * 4096) va 0x07).2 := by
  obtain ⟨hfp, -, hflt⟩ := h.inv.fresh_page hmem
  have hdiv : f * 4096 / 4096 = f := Nat.mul_div_cancel _ (by decide)
  have hva : va < 2 ^ 32 := Nat.lt_of_le_of_lt (Nat.le_add_right va 4096) hpage.lt
  have hvap : pageOf va = va := pageOf_of_page hpage.page
  have hm : ∀ b, b / 4096 ≠ f → loadPage file ph va (f * 4096) k.mem b = k.mem b := fun b hb =>
    loadPage_out hpage hfp (by rwa [hdiv]) k.mem
  obtain ⟨-, -, hdir, hwalk⟩ := h.inv.takeFrame hmem hfree hm
  have hpin2 : ∀ v, v < 2 ^ 32 → k.Pinned s v →
      State.Pinned { k with toPhys := ⟨loadPage file ph va (f * 4096) k.mem, p⟩ } s v :=
    fun v hv hpin => hpin.congr hv hs rfl hdir fun hempty => by simp [hempty] at hmem
  have hheld := h.take hmem hfree hm
  have hbyte : ∀ i, i < 4096 → ph.InFile file → ph.vaddr + ph.memsz < 2 ^ 32 →
      loadPage file ph va (f * 4096) k.mem (f * 4096 + i) = ph.byteAt file (va + i) :=
    fun i hi hfile hfits => loadPage_byte hpage hfile hfits hi k.mem
  have hcard2 : p.free.card = k.pmm.free.card - 1 := by rw [hfree, Finset.card_erase_of_mem hmem]
  generalize loadPage file ph va (f * 4096) k.mem = m at *
  generalize hk2 : ({ k with toPhys := ⟨m, p⟩ } : State) = k2 at *
  have htasks2 : k2.tasks = k.tasks := by rw [← hk2]
  have hmem2 : k2.mem = m := by rw [← hk2]
  have hpmm2 : k2.pmm = p := by rw [← hk2]
  have hs2 : k2.HasDir s := (State.hasDir_congr (by rw [htasks2])).mpr hs
  have hslot2 := (hheld.inv.slot s hs2).1
  have hwalk2 : ∀ v, v < 2 ^ 32 → Kernel.walk k2.mem (k2.tasks s).pageDirectory v =
      Kernel.walk k.mem (k.tasks s).pageDirectory v := fun v hv => by
    rw [hmem2, htasks2]
    exact hwalk _ v hs.isDir hv
  have hext := hheld.inv.extends_taskMapUserPage hs2 hva (f * 4096) 0x07
  have hdir3 := hext.dir s
  have hmapped := fun v hv => hheld.inv.walk_mapped hslot2 hs2 hflt hva (v := v) hv
  have hkeep := fun v hv => hheld.inv.pinned hslot2 hs2 hflt hva (v := v) hv
  have hlow := fun v => hheld.inv.walk_low hslot2 hs2 hflt hva (v := v) hs2.isDir
  have hpin3 := fun v hv => hheld.inv.pinned_taskMapUserPage hslot2 hs2 hva (f * 4096) 0x07
    (v := v) hv
  have hcard3 := hheld.inv.card_taskMapUserPage hslot2 hs2 hva (f * 4096) 0x07
  generalize (taskMapUserPage k2 s (f * 4096) va 0x07).2 = k3 at *
  rw [pageOf_of_page hfp] at hmapped
  have hnone : ∀ v, va ≠ pageOf v → v / 4096 ≠ va / 4096 := fun v hne heq => by
    unfold pageOf at hne hvap
    rw [heq] at hne
    exact hne hvap.symm
  refine ⟨?_, fun v hv e he => ?_, fun e he hfile hfits i hi => ?_, fun v hv hat hcase => ?_,
    fun v hv hpin => hpin3 v hv (Or.inl (hpin2 v hv (hp.pin v hv hpin))), ?_⟩
  · rw [hp.frames, List.map_cons, List.reverse_cons]
  · rw [placedAt, List.find?_cons] at he
    rw [hdir3]
    by_cases hve : va = pageOf v
    · rw [decide_eq_true hve] at he
      cases he
      have hpv : v / 4096 = va / 4096 := by
        rw [hve]
        unfold pageOf
        omega
      exact ⟨hmapped v hv hpv, hpin3 v hv (Or.inr hpv)⟩
    · rw [decide_eq_false hve] at he
      obtain ⟨hw, hpin⟩ := hp.walk v hv e he
      rw [hkeep v hv (hpin2 v hv hpin) (hnone v hve), hwalk2 v hv]
      exact ⟨hw, hpin3 v hv (Or.inl (hpin2 v hv hpin))⟩
  · have hframe : e.frame ∈ fr ++ [f * 4096] ∧ k2.mem (e.frame + i) =
        e.ph.byteAt file (e.va + i) := by
      rcases List.mem_cons.mp he with rfl | he
      · refine ⟨List.mem_append_right _ (List.mem_singleton.mpr rfl), ?_⟩
        rw [hmem2]
        exact hbyte i hi hfile hfits
      · have hfr : e.frame ∈ fr := by
          rw [hp.frames, List.mem_reverse]
          exact List.mem_map_of_mem he
        refine ⟨List.mem_append_left _ hfr, ?_⟩
        have huse := h.inv.inUse (.ext e.frame) (Or.inr hfr)
        have hpg : e.frame % 4096 = 0 := huse.page
        rw [hmem2, hm _ fun hbf => huse.used (by
          change e.frame / 4096 ∈ _
          rw [show e.frame / 4096 = f by omega]
          exact hmem)]
        exact hp.bytes e he hfile hfits i hi
    have hpg : e.frame % 4096 = 0 := (hheld.inv.inUse (.ext e.frame) (Or.inr hframe.1)).page
    rw [hext.data e.frame (Or.inl (Or.inr hframe.1)) (e.frame + i) (by omega)]
    exact hframe.2
  · rw [placedAt, List.find?_cons] at hat
    have hve : va ≠ pageOf v := fun hve => by
      rw [decide_eq_true hve] at hat
      simp at hat
    rw [decide_eq_false hve] at hat
    rw [hdir3, ← hp.keep v hv hat hcase, ← hwalk2 v hv]
    rcases hcase with hlt | hpin
    · exact hlow v hlt (hnone v hve)
    · exact hkeep v hv (hpin2 v hv (hp.pin v hv hpin)) (hnone v hve)
  · rw [hcard3, hpmm2, hcard2, hp.card, List.length_cons]
    omega

/-! ### The loops -/

/-- A frame that was taken and given back at once. -/
theorem Held.untake (h : Held I X k₁ fr k) (hmem : f ∈ k.pmm.free)
    (hfree : p.free = k.pmm.free.erase f) :
    Held I X k₁ fr { k with pmm := p.freeBlock (f * 4096) } := by
  have hsame : (p.freeBlock (f * 4096)).free = k.pmm.free := by
    rw [Pmm.free_freeBlock (h.inv.fresh_page hmem).2.2, Nat.mul_div_cancel _ (by decide), hfree,
      Finset.insert_erase hmem]
  refine ⟨h.inv.setPmm (by rw [hsame]), h.nodup, h.new, h.ext.trans
    ⟨rfl, fun _ => rfl, fun _ => rfl, fun _ => List.Subset.refl _, fun _ _ => rfl,
      by rw [hsame], fun _ _ _ _ => rfl⟩, h.own⟩

theorem reverse_pages_succ (ph : Phdr) (va n : Nat) :
    ((List.range (n + 1)).map fun j => (ph, va + j * 4096)).reverse =
      ((List.range n).map fun j => (ph, va + 4096 + j * 4096)).reverse ++ [(ph, va)] := by
  have hshift : ∀ j, va + Nat.succ j * 4096 = va + 4096 + j * 4096 := fun j => by
    rw [Nat.succ_mul]
    omega
  rw [List.range_succ_eq_map, List.map_cons, List.reverse_cons, List.map_map, Nat.zero_mul,
    Nat.add_zero]
  congr 2
  exact List.map_congr_left fun j _ => by rw [Function.comp_apply, hshift]

theorem Held.loadPages (file : List Byte) (ph : Phdr) (hs : k₁.HasDir s) :
    ∀ (n va : Nat) {fr : List Nat} {k : State}, Held I X k₁ fr k →
    (∀ j, j < n → ph.PageAt (va + j * 4096)) →
    Held I X k₁ (loadPages file ph s n va fr k).2.1 (Kernel.loadPages file ph s n va fr k).2.2 ∧
      ∀ ps, Placed I file s k₁ ps fr k → (Kernel.loadPages file ph s n va fr k).1 = .ok →
        ∃ qs : List Placement, qs.map (fun e => (e.ph, e.va)) =
            ((List.range n).map fun j => (ph, va + j * 4096)).reverse ∧
          Placed I file s k₁ (qs ++ ps) (Kernel.loadPages file ph s n va fr k).2.1
            (Kernel.loadPages file ph s n va fr k).2.2 := by
  intro n
  induction n with
  | zero => exact fun va fr k h _ => ⟨h, fun ps hp _ => ⟨[], rfl, hp⟩⟩
  | succ n ih =>
    intro va fr k h hpages
    have hpage : ph.PageAt va := by simpa using hpages 0 (Nat.succ_pos n)
    have hva : va < 2 ^ 32 := Nat.lt_of_le_of_lt (Nat.le_add_right va 4096) hpage.lt
    have hs' := (h.ext.hasDir s).mpr hs
    rw [Kernel.loadPages]
    refine k.pmm.allocBlock_cases (fun hfree => ?_) fun f p hnext hmem hfree => ?_ <;> dsimp only
    · rw [if_pos rfl]
      exact ⟨h, fun ps _ hok => by simp at hok⟩
    · obtain ⟨hfp, hne, -⟩ := h.inv.fresh_page hmem
      unfold PMM_BLOCK_SIZE
      rw [if_neg hne]
      split
      · exact ⟨h.untake hmem hfree, fun ps _ hok => by simp at hok⟩
      · have hm : ∀ b, b / 4096 ≠ f → loadPage file ph va (f * 4096) k.mem b = k.mem b :=
          fun b hb => loadPage_out hpage hfp
            (by rwa [Nat.mul_div_cancel _ (by decide)]) k.mem
        have htake := h.take hmem hfree hm
        split
        · exact ⟨htake, fun ps _ hok => by simp at hok⟩
        · obtain ⟨hheld, hplaced⟩ := ih (va + 4096) (htake.map (s := s) hs' hva (f * 4096))
            fun j hj => by
              have := hpages (j + 1) (by omega)
              rwa [show va + (j + 1) * 4096 = va + 4096 + j * 4096 by omega] at this
          refine ⟨hheld, fun ps hp hok => ?_⟩
          obtain ⟨qs, hqs, hp'⟩ := hplaced _ (hp.place h hs' hmem hfree hpage) hok
          refine ⟨qs ++ [⟨ph, va, f * 4096⟩], ?_, by simpa using hp'⟩
          rw [List.map_append, hqs, reverse_pages_succ]
          rfl

/-- The pages of a segment, as `load_segment` computes them. -/
def Phdr.pages (ph : Phdr) : List Nat :=
  if ph.memsz = 0 then []
  else (List.range ((ph.stop - ph.start) / 4096)).map fun j => ph.start + j * 4096

/-- The checks of `load_segment`. -/
structure Phdr.Accepted (ph : Phdr) (file : List Byte) : Prop where
  inFile : ph.InFile file
  range : ph.memsz ≠ 0 → ph.start < ph.stop

theorem Phdr.pageAt (ph : Phdr) {j : Nat} (hj : j < (ph.stop - ph.start) / 4096) :
    ph.PageAt (ph.start + j * 4096) := by
  have hstop : ph.stop ≤ 2 ^ 32 - 4096 := by
    have : wrap (ph.vaddr + ph.memsz + 4095) < 2 ^ 32 := Nat.mod_lt _ (by decide)
    unfold Phdr.stop pageOf
    omega
  have hpage : ph.start % 4096 = 0 := pageOf_page _
  refine ⟨by omega, by omega, ?_⟩
  omega

theorem Held.loadSegment (file : List Byte) (hsize : file.length < 2 ^ 31) (ph : Phdr)
    (hs : k₁.HasDir s) (h : Held I X k₁ fr k) :
    Held I X k₁ (loadSegment file ph s fr k).2.1 (Kernel.loadSegment file ph s fr k).2.2 ∧
      ∀ ps, Placed I file s k₁ ps fr k → (Kernel.loadSegment file ph s fr k).1 = .ok →
        ph.Accepted file ∧ ∃ qs : List Placement,
          qs.map (fun e => (e.ph, e.va)) = (ph.pages.map fun va => (ph, va)).reverse ∧
          Placed I file s k₁ (qs ++ ps) (Kernel.loadSegment file ph s fr k).2.1
            (Kernel.loadSegment file ph s fr k).2.2 := by
  unfold Kernel.loadSegment
  split
  · exact ⟨h, fun ps _ hok => by simp at hok⟩
  · rename_i hle
    split
    · exact ⟨h, fun ps _ hok => by simp at hok⟩
    · rename_i hoff
      split
      · exact ⟨h, fun ps _ hok => by simp at hok⟩
      · rename_i hin
        have hfile : ph.InFile file := ⟨by omega, by omega, hsize⟩
        split
        · rename_i hzero
          exact ⟨h, fun ps hp _ => ⟨⟨hfile, fun hne => absurd hzero hne⟩, [],
            by simp [Phdr.pages, hzero], hp⟩⟩
        · rename_i hzero
          split
          · exact ⟨h, fun ps _ hok => by simp at hok⟩
          · rename_i hrange
            obtain ⟨hheld, hplaced⟩ := h.loadPages file ph hs ((ph.stop - ph.start) / 4096) ph.start
              fun j hj => ph.pageAt hj
            refine ⟨hheld, fun ps hp hok => ⟨⟨hfile, fun _ => by omega⟩, ?_⟩⟩
            obtain ⟨qs, hqs, hp'⟩ := hplaced ps hp hok
            refine ⟨qs, ?_, hp'⟩
            rw [hqs, Phdr.pages, if_neg hzero, List.map_map]
            rfl

/-- The `PT_LOAD` headers among `n` headers from `i` on. -/
def Ehdr.segments (eh : Ehdr) (file : List Byte) : Nat → Nat → List Phdr
  | 0, _ => []
  | n + 1, i =>
    match eh.phdr file i with
    | none => eh.segments file n (i + 1)
    | some ph =>
      if ph.type = PT_LOAD then ph :: eh.segments file n (i + 1)
      else eh.segments file n (i + 1)

/-- The pages of segments in the order in which they are loaded. -/
def loads (phs : List Phdr) : List (Phdr × Nat) :=
  phs.flatMap fun ph => ph.pages.map fun va => (ph, va)

theorem Held.loadHeaders (file : List Byte) (hsize : file.length < 2 ^ 31) (eh : Ehdr)
    (hs : k₁.HasDir s) : ∀ (n i : Nat) {fr : List Nat} {k : State}, Held I X k₁ fr k →
    Held I X k₁ (loadHeaders file eh s n i fr k).2.1 (Kernel.loadHeaders file eh s n i fr k).2.2 ∧
      ∀ ps, Placed I file s k₁ ps fr k → (Kernel.loadHeaders file eh s n i fr k).1 = .ok →
        (∀ ph ∈ eh.segments file n i, ph.Accepted file) ∧ ∃ qs : List Placement,
          qs.map (fun e => (e.ph, e.va)) = (loads (eh.segments file n i)).reverse ∧
          Placed I file s k₁ (qs ++ ps) (Kernel.loadHeaders file eh s n i fr k).2.1
            (Kernel.loadHeaders file eh s n i fr k).2.2 := by
  intro n
  induction n with
  | zero =>
    intro i fr k h
    exact ⟨h, fun ps hp _ => ⟨fun ph hph => by simp [Ehdr.segments] at hph, [], rfl, hp⟩⟩
  | succ n ih =>
    intro i fr k h
    rw [Kernel.loadHeaders, Ehdr.segments]
    cases hph : eh.phdr file i with
    | none => exact ⟨h, fun ps _ hok => by simp at hok⟩
    | some ph =>
      dsimp only
      by_cases hload : ph.type = PT_LOAD
      · obtain ⟨hheld, hplaced⟩ := h.loadSegment file hsize ph hs
        rw [if_neg (fun hne => hne hload), if_pos hload]
        generalize Kernel.loadSegment file ph s fr k = r at hheld hplaced
        obtain ⟨e, fr', k'⟩ := r
        dsimp only at hheld hplaced ⊢
        cases e with
        | ok =>
          obtain ⟨hheld', hplaced'⟩ := ih (i + 1) hheld
          refine ⟨hheld', fun ps hp hok => ?_⟩
          obtain ⟨hacc, qs, hqs, hp'⟩ := hplaced ps hp rfl
          obtain ⟨hacc', qs', hqs', hp''⟩ := hplaced' _ hp' hok
          refine ⟨fun ph' hph' => ?_, qs' ++ qs, ?_, by simpa using hp''⟩
          · rcases List.mem_cons.mp hph' with rfl | hph'
            · exact hacc
            · exact hacc' ph' hph'
          · rw [List.map_append, hqs, hqs', loads, loads, List.flatMap_cons, List.reverse_append]
        | _ => exact ⟨hheld, fun ps _ hok => by simp at hok⟩
      · rw [if_pos hload, if_neg hload]
        exact ih (i + 1) h

end Crusadia.Kernel
