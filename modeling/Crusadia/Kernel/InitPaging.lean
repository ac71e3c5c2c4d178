import Crusadia.Kernel.Creation

/-!
# Crusadia.Kernel.InitPaging

The kernel directory that **`init_paging`** builds.

Every page is mapped to itself, one `map_page` after the other. A table is made when the
first page of its region is mapped, or earlier, by `protect_table_frame`, when a table
lands in a region that has none yet; only then does the directory entry get the user bit.
A region can therefore cost two frames, so 2048 free frames are enough for the whole
directory (`Building.initPaging`).
-/

namespace Crusadia.Kernel

/-- Entry `i` of the kernel directory. -/
abbrev Phys.kpde (s : Phys) (i : Nat) : Nat := s.mem.entry pageDirectory i

/-- The table of region `i`. -/
abbrev Phys.ktab (s : Phys) (i : Nat) : Nat := pageOf (s.kpde i)

/-- The kernel maps the page of `v` to itself. -/
def Phys.Ident (s : Phys) (v : Nat) : Prop := walk s.mem pageDirectory v = some (pageOf v)

theorem Phys.ident_iff {s : Phys} {v : Nat} :
    s.Ident v ↔ present (s.kpde (pdIndex v)) = true ∧
      leaf (s.mem.entry (s.ktab (pdIndex v)) (ptIndex v)) = some (pageOf v) := by
  unfold Phys.Ident walk
  dsimp only
  split
  · rename_i hp
    exact ⟨fun h => ⟨hp, h⟩, fun h => h.2⟩
  · rename_i hp
    exact ⟨fun h => by simp at h, fun h => absurd h.1 hp⟩

/-- A mapping depends on two entries. -/
theorem Phys.Ident.congr {s : Phys} {m : Mem} {p : Pmm} {v : Nat} (hid : s.Ident v)
    (hk : m.entry pageDirectory (pdIndex v) = s.kpde (pdIndex v))
    (ht : m.entry (s.ktab (pdIndex v)) (ptIndex v) =
      s.mem.entry (s.ktab (pdIndex v)) (ptIndex v)) : Phys.Ident ⟨m, p⟩ v :=
  (walk_congr hk ht).trans hid

/-- The frames `init_paging` may take: none of them holds the kernel directory. -/
def Usable (F : Finset Nat) : Prop := ∀ f ∈ F, 256 ≤ f ∧ f < PMM_MAX_BLOCKS

theorem Usable.page {F : Finset Nat} (hF : Usable F) {f : Nat} (hf : f ∈ F) :
    Mem.Page (f * 4096) ∧ f * 4096 ≠ 0 ∧ f * 4096 < 2 ^ 32 ∧ pageDirectory ≠ f * 4096 := by
  obtain ⟨hge, hlt⟩ := hF f hf
  have hmax : PMM_MAX_BLOCKS = 1048576 := rfl
  have hd : pageDirectory = 65536 := rfl
  exact ⟨Nat.mul_mod_left _ _, by omega, by omega, by omega⟩

theorem page_pageDirectory : Mem.Page pageDirectory := rfl

/-- The kernel directory under construction, from the free frames `F`. -/
structure Building (F : Finset Nat) (s : Phys) : Prop where
  /-- the user bit is set only in regions that contain frames of `F` -/
  flags : ∀ i, i < 1024 → present (s.kpde i) = true →
    s.kpde i % 4096 = 3 ∨ s.kpde i % 4096 = 7 ∧ ∃ f ∈ F, pdIndex (f * 4096) = i
  table : ∀ i, i < 1024 → present (s.kpde i) = true →
    ∃ f ∈ F, f ∉ s.pmm.free ∧ s.ktab i = f * 4096
  apart : ∀ i j, i < 1024 → j < 1024 → present (s.kpde i) = true → present (s.kpde j) = true →
    s.ktab i = s.ktab j → i = j
  sub : s.pmm.free ⊆ F

/-- Frame `f` has been taken and is not a table yet. -/
structure Spare (F : Finset Nat) (s : Phys) (f : Nat) : Prop where
  mem : f ∈ F
  taken : f ∉ s.pmm.free
  ne : ∀ i, i < 1024 → present (s.kpde i) = true → s.ktab i ≠ f * 4096

variable {F : Finset Nat} {s : Phys} {f virt flags j c fbAddr : Nat}

/-- A directory entry for a spare frame, read back. -/
theorem Spare.entry_self (hF : Usable F) (hf : Spare F s f) (j : Nat) {fl : Nat} (hfl : fl < 4096) :
    (s.mem.setEntry pageDirectory j (f * 4096 ||| fl)).entry pageDirectory j = f * 4096 ||| fl := by
  obtain ⟨hpage, -, hlt, -⟩ := hF.page hf.mem
  exact Mem.entry_setEntry_same.trans (Nat.mod_eq_of_lt (or_lt hpage hlt hfl))

/-- The directory is as it was. -/
theorem Spare.congr (hf : Spare F s f) {m : Mem}
    (hm : ∀ i, i < 1024 → m.entry pageDirectory i = s.kpde i) : Spare F ⟨m, s.pmm⟩ f := by
  refine ⟨hf.mem, hf.taken, fun i hi hpr => ?_⟩
  unfold Phys.ktab Phys.kpde at *
  rw [hm i hi] at hpr ⊢
  exact hf.ne i hi hpr

namespace Building

/-- A free frame that is taken is spare. -/
theorem spare (h : Building F s) (hf : f ∈ s.pmm.free) {p : Pmm}
    (hp : p.free = s.pmm.free.erase f) :
    Building F ⟨s.mem, p⟩ ∧ Spare F ⟨s.mem, p⟩ f := by
  have hsub : p.free ⊆ s.pmm.free := by
    rw [hp]
    exact Finset.erase_subset _ _
  refine ⟨⟨h.flags, fun i hi hpr => ?_, h.apart, fun x hx => h.sub (hsub hx)⟩, h.sub hf, ?_, ?_⟩
  · obtain ⟨g, hg, hfree, heq⟩ := h.table i hi hpr
    exact ⟨g, hg, fun hx => hfree (hsub hx), heq⟩
  · change f ∉ p.free
    rw [hp]
    exact Finset.notMem_erase _ _
  · intro i hi hpr heq
    obtain ⟨g, -, hfree, heq'⟩ := h.table i hi hpr
    have : f * 4096 = g * 4096 := heq.symm.trans heq'
    obtain rfl : f = g := by omega
    exact hfree hf

/-- Memory with the same directory. -/
theorem congr (h : Building F s) {m : Mem}
    (hm : ∀ i, i < 1024 → m.entry pageDirectory i = s.kpde i) : Building F ⟨m, s.pmm⟩ := by
  refine ⟨fun i hi hpr => ?_, fun i hi hpr => ?_, fun i j hi hj hpi hpj heq => ?_, h.sub⟩
  · rw [Phys.kpde, hm i hi] at hpr ⊢
    exact h.flags i hi hpr
  · rw [Phys.kpde, hm i hi] at hpr
    rw [Phys.ktab, Phys.kpde, hm i hi]
    exact h.table i hi hpr
  · rw [Phys.kpde, hm _ (by assumption)] at hpi hpj
    rw [Phys.ktab, Phys.ktab, Phys.kpde, Phys.kpde, hm i hi, hm j hj] at heq
    exact h.apart i j hi hj hpi hpj heq

section

variable (hF : Usable F) (h : Building F s)
include hF h

/-- A spare frame becomes the table of region `j`. -/
theorem install (hf : Spare F s f) {fl : Nat}
    (hfl : fl = 3 ∨ fl = 7 ∧ ∃ g ∈ F, pdIndex (g * 4096) = j) :
    Building F ⟨s.mem.setEntry pageDirectory j (f * 4096 ||| fl), s.pmm⟩ := by
  have hpage := (hF.page hf.mem).1
  have hfl' : fl < 4096 := by omega
  have hself := hf.entry_self hF j hfl'
  have hother : ∀ i, i ≠ j → (s.mem.setEntry pageDirectory j (f * 4096 ||| fl)).entry
      pageDirectory i = s.kpde i := fun i hi => Mem.entry_setEntry_index hi
  generalize s.mem.setEntry pageDirectory j (f * 4096 ||| fl) = m at hself hother
  refine ⟨fun i hi hpr => ?_, fun i hi hpr => ?_, fun a b ha hb hpa hpb heq => ?_, h.sub⟩
  · unfold Phys.kpde at hpr ⊢
    by_cases hij : i = j
    · rw [hij, hself, or_mod hpage hfl']
      exact hfl
    · rw [hother i hij] at hpr ⊢
      exact h.flags i hi hpr
  · unfold Phys.ktab Phys.kpde at *
    by_cases hij : i = j
    · rw [hij, hself, pageOf_or hpage hfl']
      exact ⟨f, hf.mem, hf.taken, rfl⟩
    · rw [hother i hij] at hpr ⊢
      exact h.table i hi hpr
  · unfold Phys.ktab Phys.kpde at *
    by_cases haj : a = j <;> by_cases hbj : b = j
    · rw [haj, hbj]
    · rw [hother b hbj] at hpb heq
      rw [haj, hself, pageOf_or hpage hfl'] at heq
      exact absurd heq.symm (hf.ne b hb hpb)
    · rw [hother a haj] at hpa heq
      rw [hbj, hself, pageOf_or hpage hfl'] at heq
      exact absurd heq (hf.ne a ha hpa)
    · rw [hother a haj] at hpa heq
      rw [hother b hbj] at hpb heq
      exact h.apart a b ha hb hpa hpb heq

/-- Tables and the directory are different pages. -/
theorem ktab_page {i : Nat} (hi : i < 1024)
    (hpr : present (s.kpde i) = true) : pageDirectory ≠ s.ktab i := by
  obtain ⟨f, hf, -, heq⟩ := h.table i hi hpr
  rw [heq]
  exact (hF.page hf).2.2.2

/-- Clearing a spare frame changes no mapping. -/
theorem clear (hf : Spare F s f) : Building F ⟨s.mem.fill (f * 4096) 4096 0, s.pmm⟩ ∧
      (∀ i, i < 1024 → (s.mem.fill (f * 4096) 4096 0).entry pageDirectory i = s.kpde i) ∧
      ∀ v, v < 2 ^ 32 → s.Ident v → Phys.Ident ⟨s.mem.fill (f * 4096) 4096 0, s.pmm⟩ v := by
  obtain ⟨hpage, -, -, hne⟩ := hF.page hf.mem
  have hk : ∀ i, i < 1024 → (s.mem.fill (f * 4096) 4096 0).entry pageDirectory i = s.kpde i :=
    fun i hi => Mem.entry_fill_page hpage page_pageDirectory hi hne 0
  refine ⟨h.congr hk, hk, fun v hv hid => hid.congr (hk _ (pdIndex_lt hv)) ?_⟩
  exact Mem.entry_fill_page hpage (pageOf_page _) (ptIndex_lt v)
    (hf.ne _ (pdIndex_lt hv) (Phys.ident_iff.mp hid).1) 0

end

/-- The store of a table entry. -/
def setPte (s : Phys) (phys virt flags : Nat) : Phys :=
  { s with mem := s.mem.setEntry (s.ktab (pdIndex virt)) (ptIndex virt) (pageOf phys ||| flags) }

/-- An entry that maps a page to itself leaves every such mapping. -/
theorem pte (hF : Usable F) (h : Building F s) (virt flags : Nat) (hv : virt < 2 ^ 32)
    (hpr : present (s.kpde (pdIndex virt)) = true) (hfl : flags < 4096) :
    Building F (setPte s virt virt flags) ∧
      (∀ i, i < 1024 → (setPte s virt virt flags).kpde i = s.kpde i) ∧
      (∀ v, v < 2 ^ 32 → v / 4096 ≠ virt / 4096 → s.Ident v → (setPte s virt virt flags).Ident v) ∧
      (present flags = true → ∀ v, v < 2 ^ 32 → v / 4096 = virt / 4096 →
        (setPte s virt virt flags).Ident v) := by
  have hpd := pdIndex_lt hv
  have hpt := ptIndex_lt virt
  have htab : Mem.Page (s.ktab (pdIndex virt)) := pageOf_page _
  have hk : ∀ i, i < 1024 → (setPte s virt virt flags).kpde i = s.kpde i := fun i hi =>
    Mem.entry_setEntry_page htab page_pageDirectory hpt hi (h.ktab_page hF hpd hpr)
  have hplt := pageOf_lt hv
  refine ⟨h.congr hk, hk, fun v hv' hpv hid => ?_, fun hfp v hv' hpv => ?_⟩
  · have hpd' := pdIndex_lt hv'
    refine hid.congr (hk _ hpd') ?_
    by_cases htt : s.ktab (pdIndex v) = s.ktab (pdIndex virt)
    · have hpdv := h.apart _ _ hpd' hpd (Phys.ident_iff.mp hid).1 hpr htt
      rw [← hpdv]
      exact Mem.entry_setEntry_index fun hpt' => hpv ((page_eq_iff v virt).mpr ⟨hpdv, hpt'⟩)
    · exact Mem.entry_setEntry_page htab (pageOf_page _) hpt (ptIndex_lt v) htt
  · obtain ⟨hpdv, hptv⟩ := (page_eq_iff v virt).mp hpv
    refine Phys.ident_iff.mpr ⟨by rw [hk _ (pdIndex_lt hv'), hpdv]; exact hpr, ?_⟩
    have hpage : pageOf v = pageOf virt := by
      unfold pageOf
      rw [hpv]
    rw [Phys.ktab, hk _ (pdIndex_lt hv'), hpdv, hptv, hpage]
    refine (congrArg leaf ?_).trans (leaf_or (pageOf_page virt) hfl hfp)
    exact Mem.entry_setEntry_same.trans (Nat.mod_eq_of_lt (or_lt (pageOf_page virt) hplt hfl))

/-- A directory entry for a region leaves the mappings of the others. -/
theorem ident_setEntry (hF : Usable F) (h : Building F s) {w v : Nat} (hj : j < 1024)
    (hv : v < 2 ^ 32) (hne : pdIndex v ≠ j) (hid : s.Ident v) :
    Phys.Ident ⟨s.mem.setEntry pageDirectory j w, s.pmm⟩ v := by
  refine hid.congr (Mem.entry_setEntry_index hne) ?_
  exact Mem.entry_setEntry_page page_pageDirectory (pageOf_page _) hj (ptIndex_lt v)
    (h.ktab_page hF (pdIndex_lt hv) (Phys.ident_iff.mp hid).1).symm

/-- What a step leaves in place: the entries that are present and the pages mapped to
themselves. -/
structure Keeps (s s' : Phys) : Prop where
  entry : ∀ i, i < 1024 → present (s.kpde i) = true → s'.kpde i = s.kpde i
  ident : ∀ v, v < 2 ^ 32 → s.Ident v → s'.Ident v

theorem Keeps.refl (s : Phys) : Keeps s s := ⟨fun _ _ _ => rfl, fun _ _ h => h⟩

theorem Keeps.trans {s' s'' : Phys} (h1 : Keeps s s') (h2 : Keeps s' s'') : Keeps s s'' where
  entry i hi hp := by
    have h := h1.entry i hi hp
    rw [h2.entry i hi (by rw [h]; exact hp), h]
  ident v hv hid := h2.ident v hv (h1.ident v hv hid)

section

variable (hF : Usable F) (h : Building F s)
include hF h

/-- Taking a frame for the table of an absent region and clearing it. -/
theorem newTable (hf : f ∈ s.pmm.free) {p : Pmm} (hp : p.free = s.pmm.free.erase f) :
    Building F ⟨s.mem.fill (f * 4096) 4096 0, p⟩ ∧ Spare F ⟨s.mem.fill (f * 4096) 4096 0, p⟩ f ∧
      (∀ i, i < 1024 → (s.mem.fill (f * 4096) 4096 0).entry pageDirectory i = s.kpde i) ∧
      Keeps s ⟨s.mem.fill (f * 4096) 4096 0, p⟩ := by
  obtain ⟨h1, hspare⟩ := h.spare hf hp
  obtain ⟨h2, hk, hid⟩ := h1.clear hF hspare
  exact ⟨h2, hspare.congr hk, hk, fun i hi _ => hk i hi, hid⟩

/-- The new table is entered for region `j`, which was absent. -/
theorem enter (hf : Spare F s f) (fl : Nat) (hj : j < 1024)
    (hfl : fl = 3 ∨ fl = 7 ∧ ∃ g ∈ F, pdIndex (g * 4096) = j) :
    Building F ⟨s.mem.setEntry pageDirectory j (f * 4096 ||| fl), s.pmm⟩ ∧
      present (Phys.kpde ⟨s.mem.setEntry pageDirectory j (f * 4096 ||| fl), s.pmm⟩ j) = true ∧
      Phys.ktab ⟨s.mem.setEntry pageDirectory j (f * 4096 ||| fl), s.pmm⟩ j = f * 4096 ∧
      ∀ s0, present (s0.kpde j) = false → Keeps s0 s →
        Keeps s0 ⟨s.mem.setEntry pageDirectory j (f * 4096 ||| fl), s.pmm⟩ := by
  have hpage := (hF.page hf.mem).1
  have hfl' : fl < 4096 := by omega
  have hpr : present fl = true := by
    rcases hfl with rfl | ⟨rfl, -⟩ <;> decide
  have hself := hf.entry_self hF j hfl'
  refine ⟨h.install hF hf hfl, ?_, ?_, fun s0 habs hkeep => ⟨fun i hi hp => ?_, fun v hv hid => ?_⟩⟩
  · rw [Phys.kpde, hself, ← hpr]
    exact present_congr ((or_mod hpage hfl').trans (Nat.mod_eq_of_lt hfl').symm)
  · rw [Phys.ktab, Phys.kpde, hself, pageOf_or hpage hfl']
  · have hij : i ≠ j := by
      rintro rfl
      rw [habs] at hp
      simp at hp
    exact (Mem.entry_setEntry_index hij).trans (hkeep.entry i hi hp)
  · refine h.ident_setEntry hF hj hv (fun hvj => ?_) (hkeep.ident v hv hid)
    have hp := (Phys.ident_iff.mp hid).1
    rw [hvj, habs] at hp
    simp at hp

theorem protect (hf : Spare F s f) :
    Building F (protectTableFrame s (f * 4096)) ∧ Spare F (protectTableFrame s (f * 4096)) f ∧
      Keeps s (protectTableFrame s (f * 4096)) := by
  obtain ⟨-, -, hlt, -⟩ := hF.page hf.mem
  have hpd := pdIndex_lt hlt
  -- the store of the entry, once the region has a table
  have hset : ∀ s1 : Phys, Building F s1 → Spare F s1 f → Keeps s s1 →
      present (s1.kpde (pdIndex (f * 4096))) = true →
      Building F (setPte s1 (f * 4096) (f * 4096) 0x03) ∧
        Spare F (setPte s1 (f * 4096) (f * 4096) 0x03) f ∧
        Keeps s (setPte s1 (f * 4096) (f * 4096) 0x03) := by
    intro s1 h1 hf1 hkeep hpr
    obtain ⟨h2, hk, hother, hself⟩ := h1.pte hF (f * 4096) 0x03 hlt hpr (by decide)
    refine ⟨h2, hf1.congr hk, hkeep.trans ⟨fun i hi _ => hk i hi, fun v hv hid => ?_⟩⟩
    by_cases hpv : v / 4096 = f * 4096 / 4096
    · exact hself (by decide) v hv hpv
    · exact hother v hv hpv hid
  rw [protectTableFrame]
  split
  · rename_i hpr
    exact hset s h hf (Keeps.refl s) hpr
  · rename_i habs
    rw [Bool.not_eq_true] at habs
    refine s.pmm.allocBlock_cases (fun hfree => ?_) fun g p hnext hmem hfree => ?_ <;> dsimp only
    · rw [if_pos rfl]
      exact ⟨h, hf, Keeps.refl s⟩
    · obtain ⟨-, hne, -, -⟩ := hF.page (h.sub hmem)
      obtain ⟨h1, hg, hk1, hkeep1⟩ := h.newTable hF hmem hfree
      obtain ⟨h2, hpr, htab, hkeep2⟩ := h1.enter hF hg 0x07 hpd
        (Or.inr ⟨rfl, f, hf.mem, rfl⟩)
      have hfg : f ≠ g := fun heq => hf.taken (heq ▸ hmem)
      have hf2 : Spare F ⟨(s.mem.fill (g * 4096) 4096 0).setEntry pageDirectory
          (pdIndex (f * 4096)) (g * 4096 ||| 0x07), p⟩ f := by
        refine ⟨hf.mem, fun hx => hf.taken ?_, fun i hi hp => ?_⟩
        · change f ∈ p.free at hx
          rw [hfree] at hx
          exact Finset.mem_of_mem_erase hx
        · by_cases hij : i = pdIndex (f * 4096)
          · rw [hij, htab]
            omega
          · have hki : Phys.kpde ⟨(s.mem.fill (g * 4096) 4096 0).setEntry pageDirectory
                (pdIndex (f * 4096)) (g * 4096 ||| 0x07), p⟩ i = s.kpde i :=
              (Mem.entry_setEntry_index hij).trans (hk1 i hi)
            rw [hki] at hp
            rw [Phys.ktab, hki]
            exact hf.ne i hi hp
      have hres := hset _ h2 hf2 (hkeep2 s habs hkeep1) hpr
      rw [if_neg hne]
      exact hres

end

/-- The outcome of mapping the page of `virt` to itself. -/
structure Mapped (F : Finset Nat) (s s' : Phys) (virt flags : Nat) : Prop where
  building : Building F s'
  entry : ∀ i, i < 1024 → present (s.kpde i) = true → s'.kpde i = s.kpde i
  here : present (s'.kpde (pdIndex virt)) = true
  ident : ∀ v, v < 2 ^ 32 → v / 4096 ≠ virt / 4096 → s.Ident v → s'.Ident v
  self : present flags = true → ∀ v, v < 2 ^ 32 → v / 4096 = virt / 4096 → s'.Ident v

theorem mapPage (hF : Usable F) (h : Building F s) (hv : virt < 2 ^ 32)
    (hfl : flags < 4096) (hbits : flags &&& 0x07 ||| 0x01 = 3)
    (hroom : present (s.kpde (pdIndex virt)) = false → s.pmm.free.Nonempty) :
    Mapped F s (mapPage s virt virt flags) virt flags := by
  have hpd := pdIndex_lt hv
  have hset : ∀ s1 : Phys, Building F s1 → Keeps s s1 → present (s1.kpde (pdIndex virt)) = true →
      Mapped F s (setPte s1 virt virt flags) virt flags := by
    intro s1 h1 hkeep hpr
    obtain ⟨h2, hk, hother, hself⟩ := h1.pte hF virt flags hv hpr hfl
    exact ⟨h2, fun i hi hp => (hk i hi).trans (hkeep.entry i hi hp), by rw [hk _ hpd]; exact hpr,
      fun v hv' hpv hid => hother v hv' hpv (hkeep.ident v hv' hid), hself⟩
  rw [Kernel.mapPage, mapPageDir]
  split
  · rename_i hpr
    exact hset s h (Keeps.refl s) hpr
  · rename_i habs
    rw [Bool.not_eq_true] at habs
    refine s.pmm.allocBlock_cases (fun hfree => ?_) fun g p hnext hmem hfree => ?_ <;> dsimp only
    · have hne := hroom habs
      rw [hfree] at hne
      simp at hne
    · obtain ⟨-, hne, -, -⟩ := hF.page (h.sub hmem)
      obtain ⟨h1, hg, -, hkeep1⟩ := h.newTable hF hmem hfree
      obtain ⟨h2, hg2, hkeep2⟩ := h1.protect hF hg
      obtain ⟨h3, hpr, -, hkeep3⟩ := h2.enter hF hg2 0x03 hpd (Or.inl rfl)
      have hres := hset _ h3 (hkeep3 s habs (hkeep1.trans hkeep2)) hpr
      rw [if_neg hne, Nat.or_assoc, hbits]
      exact hres

/-! ### The identity map -/

/-- Regions without a table. -/
def absent (s : Phys) : Finset Nat := (Finset.range 1024).filter fun i => present (s.kpde i) = false

/-- Two frames are left for every region without a table, and `c` more. -/
def Room (c : Nat) (s : Phys) : Prop := 2 * (absent s).card + c ≤ s.pmm.free.card

/-- Where the region has a table, mapping a page takes no frame. -/
theorem mapPage_pmm (hpr : present (s.kpde (pdIndex virt)) = true) (phys flags : Nat) :
    (Kernel.mapPage s phys virt flags).pmm = s.pmm := by
  unfold Kernel.mapPage mapPageDir
  dsimp only
  rw [if_pos hpr]

theorem Mapped.absent_subset {s' : Phys} (h : Mapped F s s' virt flags) :
    absent s' ⊆ (absent s).erase (pdIndex virt) := by
  intro i hi
  unfold absent at hi ⊢
  rw [Finset.mem_filter, Finset.mem_range] at hi
  rw [Finset.mem_erase, Finset.mem_filter, Finset.mem_range]
  refine ⟨?_, hi.1, ?_⟩
  · rintro rfl
    rw [h.here] at hi
    simp at hi
  · by_contra hp
    rw [Bool.not_eq_false] at hp
    rw [h.entry i hi.1 hp, hp] at hi
    simp at hi

/-- Mapping a page leaves enough frames for the regions that still have no table. -/
theorem room_mapPage (hF : Usable F) (h : Building F s) (hroom : Room c s)
    (virt flags : Nat) (hv : virt < 2 ^ 32) (hfl : flags < 4096)
    (hbits : flags &&& 0x07 ||| 0x01 = 3) :
    Mapped F s (Kernel.mapPage s virt virt flags) virt flags ∧
      Room c (Kernel.mapPage s virt virt flags) := by
  have hpd := pdIndex_lt hv
  unfold Room at *
  by_cases habs : present (s.kpde (pdIndex virt)) = false
  · have hin : pdIndex virt ∈ absent s := by
      unfold absent
      rw [Finset.mem_filter, Finset.mem_range]
      exact ⟨hpd, habs⟩
    have hpos : 0 < (absent s).card := Finset.card_pos.mpr ⟨_, hin⟩
    have hm := h.mapPage hF hv hfl hbits fun _ => Finset.card_pos.mp (by omega)
    have hcard := Finset.card_le_card hm.absent_subset
    rw [Finset.card_erase_of_mem hin] at hcard
    have htakes := (Takes.mapPageDir s pageDirectory virt virt flags).card
    change _ ≤ (Kernel.mapPage s virt virt flags).pmm.free.card + 2 at htakes
    exact ⟨hm, by omega⟩
  · rw [Bool.not_eq_false] at habs
    have hm := h.mapPage hF hv hfl hbits fun hc => by
      rw [habs] at hc
      simp at hc
    have hcard := Finset.card_le_card hm.absent_subset
    have herase : ((absent s).erase (pdIndex virt)).card ≤ (absent s).card :=
      Finset.card_le_card (Finset.erase_subset _ _)
    rw [mapPage_pmm habs]
    exact ⟨hm, by omega⟩

/-- After `n` pages: they are mapped to themselves, and their regions have tables. -/
theorem identityLoop (hF : Usable F) (h : Building F s) (hroom : Room c s) (n : Nat)
    (hn : n ≤ 1048576) :
    Building F ((List.range n).foldl (fun s i => Kernel.mapPage s (i * 4096) (i * 4096) 0x03) s) ∧
      Room c ((List.range n).foldl (fun s i => Kernel.mapPage s (i * 4096) (i * 4096) 0x03) s) ∧
      ∀ v, v < n * 4096 →
        Phys.Ident ((List.range n).foldl (fun s i => Kernel.mapPage s (i * 4096) (i * 4096) 0x03) s)
          v := by
  induction n with
  | zero => exact ⟨h, hroom, fun v hv => by omega⟩
  | succ n ih =>
    obtain ⟨h1, hroom1, hid⟩ := ih (by omega)
    rw [List.range_succ, List.foldl_append, List.foldl_cons, List.foldl_nil]
    generalize List.foldl _ s (List.range n) = s1 at h1 hroom1 hid
    obtain ⟨hm, hroom2⟩ := h1.room_mapPage hF hroom1 (n * 4096) 0x03 (by omega) (by decide)
      (by decide)
    refine ⟨hm.building, hroom2, fun v hv => ?_⟩
    have hv' : v < 2 ^ 32 := by omega
    by_cases hpv : v / 4096 = n * 4096 / 4096
    · exact hm.self (by decide) v hv' hpv
    · have hlt : v < n * 4096 := by
        by_contra hge
        rw [Nat.mul_div_cancel n (by decide)] at hpv
        exact hpv (Nat.div_eq_of_lt_le (Nat.le_of_not_lt hge) hv)
      exact hm.ident v hv' hpv (hid v hlt)

end Building

/-! ### The finished directory -/

/-- The kernel directory is complete and maps every page but the first to itself; `c`
frames are still free. -/
structure Built (F : Finset Nat) (c : Nat) (s : Phys) : Prop where
  building : Building F s
  complete : ∀ i, i < 1024 → present (s.kpde i) = true
  ident : ∀ v, v < 2 ^ 32 → 4096 ≤ v → s.Ident v
  room : c ≤ s.pmm.free.card

namespace Built

variable {F : Finset Nat} {c : Nat} {s : Phys}

theorem mapPage (hF : Usable F) (h : Built F c s) (hv : virt < 2 ^ 32)
    (hfl : flags < 4096) (hbits : flags &&& 0x07 ||| 0x01 = 3)
    (hpr : present flags = true ∨ virt < 4096) : Built F c (mapPage s virt virt flags) := by
  have hm := h.building.mapPage hF hv hfl hbits fun hc => by
    rw [h.complete _ (pdIndex_lt hv)] at hc
    simp at hc
  refine ⟨hm.building, fun i hi => ?_, fun v hv' hge => ?_, ?_⟩
  · rw [hm.entry i hi (h.complete i hi)]
    exact h.complete i hi
  · by_cases hpv : v / 4096 = virt / 4096
    · rcases hpr with hpr | hlow
      · exact hm.self hpr v hv' hpv
      · omega
    · exact hm.ident v hv' hpv (h.ident v hv' hge)
  · rw [Building.mapPage_pmm (h.complete _ (pdIndex_lt hv))]
    exact h.room

theorem mapRange (hF : Usable F) (h : Built F c s) (base size : Nat)
    (hfl : flags < 4096) (hbits : flags &&& 0x07 ||| 0x01 = 3) (hpr : present flags = true) :
    Built F c (mapRange s base size flags) := by
  unfold Kernel.mapRange
  generalize List.range ((size + 4095) / 4096) = l
  induction l generalizing s with
  | nil => exact h
  | cons i l ih =>
    exact ih (h.mapPage hF (Nat.mod_lt _ (by decide)) hfl hbits (Or.inl hpr))

/-- Stores that reach neither the directory nor a frame that was free. -/
theorem fill (h : Built F c s) {a n : Nat}
    (hout : ∀ b, a ≤ b → b < a + n → b / 4096 ≠ 16 ∧ b / 4096 ∉ F) (w : Byte) :
    Built F c ⟨s.mem.fill a n w, s.pmm⟩ := by
  have hbyte : ∀ b, b / 4096 = 16 ∨ b / 4096 ∈ F → s.mem.fill a n w b = s.mem b := fun b hb =>
    Mem.store_out (by
      by_contra hc
      obtain ⟨h1, h2⟩ := hout b (by omega) (by omega)
      rcases hb with hb | hb
      · exact h1 hb
      · exact h2 hb)
  have hk : ∀ i, i < 1024 → (s.mem.fill a n w).entry pageDirectory i = s.kpde i := fun i hi =>
    Mem.entry_congr page_pageDirectory hi fun b hb => hbyte b (Or.inl hb)
  refine ⟨h.building.congr hk, fun i hi => by rw [Phys.kpde, hk i hi]; exact h.complete i hi,
    fun v hv hge => ?_, h.room⟩
  have hpd := pdIndex_lt hv
  obtain ⟨f, hf, -, htab⟩ := h.building.table _ hpd (h.complete _ hpd)
  refine (h.ident v hv hge).congr (hk _ hpd) ?_
  refine Mem.entry_congr (pageOf_page _) (ptIndex_lt v) fun b hb => hbyte b (Or.inr ?_)
  have hdiv : s.ktab (pdIndex v) / 4096 = f := by rw [htab, Nat.mul_div_cancel _ (by decide)]
  exact (hb.trans hdiv).symm ▸ hf

theorem pickFbFlags (hF : Usable F) (h : Built F c s) (probe : FbProbe) {fbSize : Nat}
    (hfb : ∀ b, fbAddr ≤ b → b < fbAddr + fbSize → b / 4096 ≠ 16 ∧ b / 4096 ∉ F) :
    Built F c (pickFbFlags probe s fbAddr fbSize).2 ∧
      ((Kernel.pickFbFlags probe s fbAddr fbSize).1 = 0x03 ∨
        (Kernel.pickFbFlags probe s fbAddr fbSize).1 = 0x0B) := by
  have htrial : ∀ n flags, n ≤ fbSize → flags < 4096 → flags &&& 0x07 ||| 0x01 = 3 →
      present flags = true → ∀ (m : Nat) {s : Phys}, Built F c s → Built F c
        ((fun s : Phys => { Kernel.mapRange s fbAddr n flags with
          mem := (Kernel.mapRange s fbAddr n flags).mem.fill fbAddr n 0xAA })^[m] s) := by
    intro n flags hn hfl hbits hpr m
    induction m with
    | zero => exact fun h => h
    | succ m ih =>
      intro s h
      rw [Function.iterate_succ_apply]
      exact ih ((h.mapRange hF fbAddr n hfl hbits hpr).fill
        (fun b h1 h2 => hfb b h1 (by omega)) 0xAA)
  have hsize : (if fbSize < 2 ^ 20 then fbSize else 2 ^ 20) ≤ fbSize := by
    split <;> omega
  unfold Kernel.pickFbFlags
  generalize (if fbSize < 2 ^ 20 then fbSize else 2 ^ 20) = n at hsize
  dsimp only
  split
  · exact ⟨h, Or.inl rfl⟩
  · split
    · exact ⟨h, Or.inl rfl⟩
    · refine ⟨htrial n 0x03 hsize (by decide) (by decide) (by decide) 5
        (htrial n 0x0B hsize (by decide) (by decide) (by decide) 5 h), ?_⟩
      dsimp only
      split
      · exact Or.inr rfl
      · exact Or.inl rfl

end Built

/-- With 2048 free frames, none below 1 MiB, and a frame buffer that overlaps
neither those nor the directory, `init_paging` builds the whole directory. -/
theorem built_initPaging (hF : Usable s.pmm.free)
    (hcard : 2048 + c ≤ s.pmm.free.card)
    (probe : FbProbe) {fbWidth fbHeight fbBpp : Nat}
    (hfb : ∀ b, fbAddr ≤ b → b < fbAddr + wrap (fbWidth * fbHeight * (fbBpp / 8)) →
      b / 4096 ≠ 16 ∧ b / 4096 ∉ s.pmm.free) :
    Built s.pmm.free c (initPaging probe s fbAddr fbWidth fbHeight fbBpp) := by
  have hzero : ∀ i, i < 1024 → Phys.kpde ⟨s.mem.fill pageDirectory 4096 0, s.pmm⟩ i = 0 :=
    fun i hi => Mem.entry_fill_zero hi
  have habs : ∀ i, i < 1024 → present (Phys.kpde ⟨s.mem.fill pageDirectory 4096 0, s.pmm⟩ i) ≠
      true :=
    fun i hi => by
      rw [hzero i hi]
      decide
  have h0 : Building s.pmm.free ⟨s.mem.fill pageDirectory 4096 0, s.pmm⟩ :=
    ⟨fun i hi hp => absurd hp (habs i hi), fun i hi hp => absurd hp (habs i hi),
      fun i _ hi _ hp _ _ => absurd hp (habs i hi), Finset.Subset.refl _⟩
  have hroom : Building.Room c ⟨s.mem.fill pageDirectory 4096 0, s.pmm⟩ := by
    have hle : (Building.absent ⟨s.mem.fill pageDirectory 4096 0, s.pmm⟩).card ≤ 1024 := by
      refine (Finset.card_filter_le _ _).trans ?_
      rw [Finset.card_range]
    unfold Building.Room
    dsimp only
    omega
  obtain ⟨h1, hroom1, hid⟩ := h0.identityLoop hF hroom 1048576 (Nat.le_refl _)
  unfold initPaging
  dsimp only
  generalize List.foldl _ _ (List.range 1048576) = s1 at h1 hroom1 hid
  have hb1 : Built s.pmm.free c s1 := by
    refine ⟨h1, fun i hi => ?_, fun v hv _ => hid v (by omega), ?_⟩
    · have := (Phys.ident_iff.mp (hid (i * 4194304) (by omega))).1
      rwa [pdIndex, Nat.mul_div_cancel _ (by decide)] at this
    · unfold Building.Room at hroom1
      omega
  obtain ⟨hb2, hflags⟩ := hb1.pickFbFlags hF probe hfb
  generalize pickFbFlags probe s1 fbAddr _ = r at hb2 hflags
  obtain ⟨fl, s2⟩ := r
  dsimp only at hb2 hflags ⊢
  have hb3 : Built s.pmm.free c
      (mapRange s2 fbAddr (wrap (fbWidth * fbHeight * (fbBpp / 8))) fl) := by
    rcases hflags with rfl | rfl
    · exact hb2.mapRange hF _ _ (by decide) (by decide) (by decide)
    · exact hb2.mapRange hF _ _ (by decide) (by decide) (by decide)
  exact (hb3.mapPage hF (by decide) (by decide) (by decide) (Or.inr (by decide))).mapPage hF
    (by decide) (by decide) (by decide) (Or.inl (by decide))

end Crusadia.Kernel
