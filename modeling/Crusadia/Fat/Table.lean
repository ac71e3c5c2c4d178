import Crusadia.Fat.Format

/-!
# Crusadia.Fat.Table

**The FAT of a volume with any geometry.** `fatWord f c` is the word that FAT copy `f` stores for
cluster `c`; the driver reads copy 0 and writes all of them. `get32_fatEntrySet` says what
`fat_entry_set` does to any word of any sector, wherever the copies are; the rest of this file reads
it for copies that have their own sectors. Two results use it: what `alloc_cluster` returns for any
hint (`Crusadia.Fat.Alloc`), and that `free_chain` ends whatever the FAT holds.
-/

namespace Crusadia

namespace Fat

/-- The word of entry `c` in FAT copy `f`. -/
def fatWord (s : Fat) (f c : Nat) : Nat :=
  (s.blockRead (s.gFat32.fatBeginLba + f * s.gFat32.fatSizeSectors + c / 128)).get32 (c % 128 * 4)

/-- The entry of cluster `c`, as the first FAT copy has it. -/
def entry (s : Fat) (c : Nat) : Nat := s.fatWord 0 c % 2 ^ 28

/-- A word with a new entry in its low 28 bits. -/
def withEntry (old value : Nat) : Nat := old / 2 ^ 28 * 2 ^ 28 + value % 2 ^ 28

theorem withEntry_withEntry (old value : Nat) :
    withEntry (withEntry old value) value = withEntry old value := by
  simp only [withEntry]
  omega

theorem withEntry_mod (old value : Nat) : withEntry old value % 2 ^ 28 = value % 2 ^ 28 := by
  rw [withEntry, Nat.mul_add_mod_self_right, Nat.mod_mod]

variable {s t : Fat} {c c' f a k v : Nat}

/-! ### Where an entry is -/

theorem fatSector_of_lt (hc : c < 2 ^ 30) :
    s.fatSector f c = s.gFat32.fatBeginLba + f * s.gFat32.fatSizeSectors + c / 128 := by
  rw [fatSector, Nat.mod_eq_of_lt (show c * 4 < 2 ^ 32 by omega)]
  omega

theorem entry_offset (c : Nat) : c * 4 % 512 = c % 128 * 4 := by omega

theorem fatEntryGet_of_lt (hc : c < 2 ^ 30) : s.fatEntryGet c = s.entry c := by
  rw [fatEntryGet, fatSector_of_lt hc, entry_offset, entry, fatWord]

/-- The offset of an entry has 32 bits: entries `2 ^ 30` apart are the same to the driver. -/
theorem fatEntrySet_mod (s : Fat) (c v : Nat) :
    s.fatEntrySet (c % 2 ^ 30) v = s.fatEntrySet c v := by
  have hbyte : c % 2 ^ 30 * 4 % 2 ^ 32 = c * 4 % 2 ^ 32 := by omega
  have hoff : c % 2 ^ 30 * 4 % 512 = c * 4 % 512 := by omega
  have hcopy : fatEntrySetCopy (c % 2 ^ 30) v = fatEntrySetCopy c v := by
    funext t f
    simp only [fatEntrySetCopy, fatSector, hbyte, hoff]
  rw [fatEntrySet, hcopy, fatEntrySet]

theorem fatEntryGet_mod (s : Fat) (c : Nat) : s.fatEntryGet (c % 2 ^ 30) = s.fatEntryGet c := by
  have hbyte : c % 2 ^ 30 * 4 % 2 ^ 32 = c * 4 % 2 ^ 32 := by omega
  have hoff : c % 2 ^ 30 * 4 % 512 = c * 4 % 512 := by omega
  simp only [fatEntryGet, fatSector, hbyte, hoff]

/-! ### What a write of an entry does to a word -/

theorem get32_fatEntrySetCopy (hk : k < 128) :
    ((fatEntrySetCopy c v s f).blockRead a).get32 (k * 4) =
      if k = c % 128 ∧ a % 2 ^ 32 = s.fatSector f c % 2 ^ 32
      then withEntry ((s.blockRead a).get32 (k * 4)) v else (s.blockRead a).get32 (k * 4) := by
  rw [fatEntrySetCopy]
  by_cases ha : a % 2 ^ 32 = s.fatSector f c % 2 ^ 32
  · have hread : ∀ t : Fat, t.blockRead a = t.blockRead (s.fatSector f c) := fun t => by
      rw [blockRead, blockRead, ha]
    rw [hread, blockRead_blockWrite_same, entry_offset, hread]
    by_cases hkc : k = c % 128
    · rw [if_pos ⟨hkc, ha⟩, hkc, Buf.get32_put32_same _ (by omega), withEntry, Nat.mod_eq_of_lt]
      have := Buf.get32_lt (s.blockRead (s.fatSector f c)) (c % 128 * 4)
      omega
    · rw [if_neg fun h => hkc h.1, Buf.get32_put32_out (by omega)]
  · rw [if_neg fun h => ha h.2, blockRead_blockWrite_ne ha]

theorem gFat32_foldl_fatEntrySetCopy (l : List Nat) (s : Fat) :
    (l.foldl (fatEntrySetCopy c v) s).gFat32 = s.gFat32 := by
  induction l generalizing s with
  | nil => rfl
  | cons f l ih => exact ih _

@[simp] theorem gFat32_fatEntrySet (s : Fat) (c v : Nat) : (s.fatEntrySet c v).gFat32 = s.gFat32 :=
  gFat32_foldl_fatEntrySetCopy _ s

/-- `fat_entry_set` puts the entry into every word that a copy has for the cluster, and changes no
other word. Copies that share a sector write the same word twice. -/
theorem get32_fatEntrySet (s : Fat) (c v a : Nat) (hk : k < 128) :
    ((s.fatEntrySet c v).blockRead a).get32 (k * 4) =
      if k = c % 128 ∧ ∃ f, f < s.gFat32.numFats ∧ a % 2 ^ 32 = s.fatSector f c % 2 ^ 32
      then withEntry ((s.blockRead a).get32 (k * 4)) v else (s.blockRead a).get32 (k * 4) := by
  rw [fatEntrySet]
  -- by induction on the number of copies written
  induction s.gFat32.numFats with
  | zero => simp
  | succ n ih =>
    have hsector : ∀ t : Fat, t.gFat32 = s.gFat32 → t.fatSector n c = s.fatSector n c := by
      intro t ht
      rw [fatSector, fatSector, ht]
    rw [List.range_succ, List.foldl_append, List.foldl_cons, List.foldl_nil,
      get32_fatEntrySetCopy hk, ih, hsector _ (gFat32_foldl_fatEntrySetCopy _ s)]
    by_cases hkc : k = c % 128
    · simp only [hkc, true_and, Nat.lt_succ_iff_lt_or_eq, or_and_right, exists_or, exists_eq_left]
      by_cases hn : a % 2 ^ 32 = s.fatSector n c % 2 ^ 32
      · simp only [hn, if_true, or_true]
        split
        · exact withEntry_withEntry _ _
        · rfl
      · simp only [hn, if_false, or_false]
    · simp only [hkc, false_and, if_false]

theorem blockRead_fatEntrySet_of_ne
    (ha : ∀ f, f < s.gFat32.numFats → a % 2 ^ 32 ≠ s.fatSector f c % 2 ^ 32) :
    (s.fatEntrySet c v).blockRead a = s.blockRead a := by
  rw [fatEntrySet]
  generalize s.gFat32.numFats = n at ha
  induction n with
  | zero => rfl
  | succ n ih =>
    have hfs := gFat32_foldl_fatEntrySetCopy (c := c) (v := v) (List.range n) s
    rw [List.range_succ, List.foldl_append, List.foldl_cons, List.foldl_nil, fatEntrySetCopy,
      blockRead_blockWrite_ne, ih fun f hf => ha f (Nat.lt_succ_of_lt hf)]
    rw [fatSector, hfs]
    exact ha n (Nat.lt_succ_self n)

/-! ### Copies with their own sectors -/

theorem add_mod_inj {b i j : Nat} (hi : i < 2 ^ 32) (hj : j < 2 ^ 32)
    (h : (b + i) % 2 ^ 32 = (b + j) % 2 ^ 32) : i = j := by omega

theorem copy_sector_lt {F n : Nat} (hf : f < n) (hk : k < F) : f * F + k < n * F := by
  have hmul : (f + 1) * F ≤ n * F := Nat.mul_le_mul_right F hf
  rw [Nat.succ_mul] at hmul
  omega

theorem copy_sector_inj {f' F k' : Nat} (hk : k < F) (hk' : k' < F)
    (h : f * F + k = f' * F + k') : f = f' ∧ k = k' := by
  have hF : 0 < F := Nat.lt_of_le_of_lt (Nat.zero_le k) hk
  have hdiv := congrArg (· / F) h
  have hmod := congrArg (· % F) h
  simp only [Nat.mul_comm _ F, Nat.mul_add_div hF, Nat.mul_add_mod, Nat.div_eq_of_lt hk,
    Nat.div_eq_of_lt hk', Nat.mod_eq_of_lt hk, Nat.mod_eq_of_lt hk', Nat.add_zero] at hdiv hmod
  exact ⟨hdiv, hmod⟩

/-- Where the copies have their own sectors, `fat_entry_set` changes one entry of each. -/
theorem fatWord_fatEntrySet (hsep : s.gFat32.numFats * s.gFat32.fatSizeSectors ≤ 2 ^ 32)
    (hc : c < 128 * s.gFat32.fatSizeSectors) (h30 : c < 2 ^ 30) (v : Nat)
    (hf : f < s.gFat32.numFats) (hc' : c' < 128 * s.gFat32.fatSizeSectors) :
    (s.fatEntrySet c v).fatWord f c' =
      if c' = c then withEntry (s.fatWord f c') v else s.fatWord f c' := by
  have hk : c / 128 < s.gFat32.fatSizeSectors := by omega
  have hk' : c' / 128 < s.gFat32.fatSizeSectors := by omega
  rw [fatWord, gFat32_fatEntrySet, get32_fatEntrySet _ _ _ _ (Nat.mod_lt _ (by decide)), fatWord]
  refine if_congr ⟨?_, ?_⟩ rfl rfl
  · rintro ⟨hmod, g, hg, heq⟩
    rw [fatSector_of_lt h30, Nat.add_assoc, Nat.add_assoc] at heq
    have hidx := add_mod_inj ((copy_sector_lt hf hk').trans_le hsep)
      ((copy_sector_lt hg hk).trans_le hsep) heq
    obtain ⟨-, hdiv⟩ := copy_sector_inj hk' hk hidx
    omega
  · rintro rfl
    exact ⟨rfl, f, hf, by rw [fatSector_of_lt h30]⟩

/-! ### Freeing a chain -/

/-- The loop of `free_chain` with no bound on its rounds: the clusters it visits and the state it
leaves. -/
inductive FreeRun : Nat → Fat → List Nat → Fat → Prop
  | stop {c : Nat} {s : Fat} : inChain c = false → FreeRun c s [] s
  | step {c : Nat} {s t : Fat} {visited : List Nat} : inChain c = true →
      FreeRun (s.fatEntryGet c) (s.fatEntrySet c 0) visited t → FreeRun c s (c :: visited) t

theorem inChain_lt (h : inChain c = true) : c < fat32ClusterEoc := by
  simp only [inChain, fatIsEoc, Bool.and_eq_true, Bool.not_eq_true', Bool.or_eq_false_iff,
    decide_eq_false_iff_not, Nat.not_le] at h
  exact h.2.1

theorem inChain_zero : inChain 0 = false := by simp [inChain]

/-- The clusters that a chain can visit and whose entries are not free. -/
def notFree (s : Fat) : Finset Nat :=
  (Finset.range fat32ClusterEoc).filter fun c => s.fatEntryGet c ≠ 0

/-- A visit frees its entry; another one it can only free, too. -/
theorem notFree_fatEntrySet (hfats : 0 < s.gFat32.numFats) (hc : c < 2 ^ 30) :
    (s.fatEntrySet c 0).notFree ⊆ s.notFree.erase c := by
  intro x hx
  simp only [notFree, Finset.mem_filter, Finset.mem_range, fat32ClusterEoc,
    Finset.mem_erase] at hx ⊢
  obtain ⟨hlt, hne⟩ := hx
  have h30 : x < 2 ^ 30 := by omega
  rw [fatEntryGet_of_lt h30, entry, fatWord, gFat32_fatEntrySet,
    get32_fatEntrySet _ _ _ _ (Nat.mod_lt _ (by decide))] at hne
  split at hne
  · rw [withEntry_mod] at hne
    exact absurd rfl hne
  · rename_i hother
    refine ⟨?_, hlt, ?_⟩
    · rintro rfl
      exact hother ⟨rfl, 0, hfats, by rw [fatSector_of_lt hc]⟩
    · rw [fatEntryGet_of_lt h30]
      exact hne

/-- The loop ends: every round but the last makes the set of entries that are not free smaller. -/
theorem exists_freeRun (hfats : 0 < s.gFat32.numFats) (c : Nat) :
    ∃ visited t, FreeRun c s visited t ∧ visited.length ≤ s.notFree.card + 1 := by
  induction hn : s.notFree.card using Nat.strong_induction_on generalizing s c with
  | _ n ih =>
    subst hn
    cases hc : inChain c with
    | false => exact ⟨[], s, .stop hc, Nat.zero_le _⟩
    | true =>
      have hlt := inChain_lt hc
      have hstep := notFree_fatEntrySet hfats
        (show c < 2 ^ 30 by rw [fat32ClusterEoc] at hlt; omega)
      by_cases hfree : s.fatEntryGet c = 0
      · -- a free entry is no cluster to go on with
        exact ⟨[c], s.fatEntrySet c 0, .step hc (.stop (hfree ▸ inChain_zero)),
          Nat.le_add_left _ _⟩
      · have hmem : c ∈ s.notFree := Finset.mem_filter.mpr ⟨Finset.mem_range.mpr hlt, hfree⟩
        have hcard := Finset.card_le_card hstep
        rw [Finset.card_erase_of_mem hmem] at hcard
        have hpos := Finset.card_pos.mpr ⟨c, hmem⟩
        have hfats' : 0 < (s.fatEntrySet c 0).gFat32.numFats := by
          rw [gFat32_fatEntrySet]
          exact hfats
        obtain ⟨visited, t, hrun, hlen⟩ := ih _ (by omega) hfats' (s.fatEntryGet c) rfl
        exact ⟨c :: visited, t, .step hc hrun, by rw [List.length_cons]; omega⟩

theorem FreeRun.freeChainLoop {visited : List Nat} (h : FreeRun c s visited t) {rounds : Nat}
    (hrounds : visited.length ≤ rounds) : freeChainLoop rounds c s = t := by
  induction h generalizing rounds with
  | stop hc =>
    cases rounds with
    | zero => rfl
    | succ rounds => rw [Fat.freeChainLoop, hc, if_neg Bool.false_ne_true]
  | step hc _ ih =>
    cases rounds with
    | zero => exact absurd hrounds (Nat.not_succ_le_zero _)
    | succ rounds =>
      rw [Fat.freeChainLoop, hc, if_pos rfl]
      exact ih (Nat.le_of_succ_le_succ hrounds)

theorem FreeRun.fatWord {visited : List Nat} (h : FreeRun c s visited t)
    (hsep : s.gFat32.numFats * s.gFat32.fatSizeSectors ≤ 2 ^ 32)
    (hin : ∀ x ∈ visited, x < 128 * s.gFat32.fatSizeSectors) (hf : f < s.gFat32.numFats)
    (hc' : c' < 128 * s.gFat32.fatSizeSectors) :
    t.fatWord f c' =
      if c' ∈ visited then withEntry (s.fatWord f c') 0 else s.fatWord f c' := by
  induction h with
  | stop _ => rw [if_neg List.not_mem_nil]
  | @step c s t visited hc _ ih =>
    have hlt := inChain_lt hc
    rw [fat32ClusterEoc] at hlt
    have hword := fatWord_fatEntrySet hsep (hin c List.mem_cons_self) (by omega) 0 hf hc'
    rw [ih (by rwa [gFat32_fatEntrySet])
      (by rw [gFat32_fatEntrySet]; exact fun x hx => hin x (List.mem_cons_of_mem _ hx))
      (by rwa [gFat32_fatEntrySet]) (by rwa [gFat32_fatEntrySet]), hword]
    by_cases heq : c' = c
    · simp only [heq, if_true, List.mem_cons_self, withEntry_withEntry, ite_self]
    · simp only [heq, if_false, List.mem_cons, false_or]

theorem FreeRun.visit {l : List Nat} {n : Nat} (h : FreeRun c s l t)
    (hc : inChain c = true) (hn : s.fatEntryGet c = n) :
    ∃ l', l = c :: l' ∧ FreeRun n (s.fatEntrySet c 0) l' t := by
  cases h with
  | stop hstop => cases hc.symm.trans hstop
  | step _ h => exact ⟨_, rfl, hn ▸ h⟩

/-- **Freeing a chain ends**, whatever the FAT holds, and where the copies have their own sectors it
frees the entries that it visits and no other. -/
theorem freeChain_ends (s : Fat) (c : Nat) (hfats : 0 < s.gFat32.numFats) :
    ∃ visited t, FreeRun c s visited t ∧ s.freeChain c = t ∧
      (s.gFat32.dataClusters + 2 ≤ 128 * s.gFat32.fatSizeSectors →
        s.gFat32.numFats * s.gFat32.fatSizeSectors ≤ 2 ^ 32 →
        (∀ x ∈ visited, x < s.gFat32.dataClusters + 2) →
        ∀ f, f < s.gFat32.numFats → ∀ x, x < 128 * s.gFat32.fatSizeSectors →
          t.fatWord f x = if x ∈ visited then withEntry (s.fatWord f x) 0 else s.fatWord f x) := by
  obtain ⟨visited, t, hrun, hlen⟩ := exists_freeRun hfats c
  have hcard := Finset.card_filter_le (Finset.range fat32ClusterEoc) fun c => s.fatEntryGet c ≠ 0
  rw [Finset.card_range] at hcard
  refine ⟨visited, t, hrun, hrun.freeChainLoop ?_, ?_⟩
  · exact hlen.trans (Nat.succ_le_of_lt (Nat.lt_of_le_of_lt hcard (by decide)))
  · intro hentries hsep hvisited f hf x hx
    exact hrun.fatWord hsep (fun y hy => (hvisited y hy).trans_le hentries) hf hx

/-- A FAT sector whose first `m` entries are end marks and whose others are free. -/
def marksUpTo (m : Nat) : Sector := Buf.ofFn fun i => if i < 4 * m then 0xFF else 0

theorem get32_marksUpTo {m : Nat} (hk : k < 128) :
    (marksUpTo m).get32 (k * 4) = if k < m then 0xFFFFFFFF else 0 := by
  simp (disch := omega) only [Buf.get32, marksUpTo, Buf.get_ofFn_lt]
  by_cases hkm : k < m
  · simp (disch := omega) [if_pos, hkm]
  · simp (disch := omega) [if_neg, hkm]

/-- A volume of four clusters, with two copies of a FAT sector. -/
def smallVolume (fat : Sector) (hint : Nat) : Fat where
  disk := ⟨fun a => if a = 32 ∨ a = 33 then fat else Buf.zero, []⟩
  gFat32 := ⟨512, 1, 32, 2, 1, 38, 2, 1, 0, 32, 34, 4, hint, true⟩

/-- Clusters 2 and 3 that point to each other. -/
def twoCycle : Fat := smallVolume ((Buf.zero.put32 8 3).put32 12 2) 2

theorem freeChain_ends_cycle : FreeRun 2 twoCycle [2, 3, 2] (twoCycle.freeChain 2) ∧
    ∀ f, f < 2 → ∀ x, x < 128 → (twoCycle.freeChain 2).fatWord f x =
      if x ∈ [2, 3, 2] then withEntry (twoCycle.fatWord f x) 0 else twoCycle.fatWord f x := by
  obtain ⟨visited, t, hrun, heq, hexact⟩ := freeChain_ends twoCycle 2 (by decide)
  obtain ⟨_, rfl, h3⟩ := hrun.visit (n := 3) (by decide) (by decide +kernel)
  obtain ⟨_, rfl, h2⟩ := h3.visit (n := 2) (by decide) (by decide +kernel)
  obtain ⟨_, rfl, h0⟩ := h2.visit (n := 0) (by decide) (by decide +kernel)
  cases h0 with
  | step h0 => cases h0.symm.trans inChain_zero
  | stop => exact ⟨heq ▸ hrun, heq ▸ hexact (by decide) (by decide) (by decide)⟩

/-- **Every copy of the FAT is an array.** After any sequence of `fat_entry_set`, the entry of a
cluster is the one last written for it, if any, and the four bits above are as before; so copies
that agree go on to agree. -/
theorem fatWord_last_write (s : Fat) (hsep : s.gFat32.numFats * s.gFat32.fatSizeSectors ≤ 2 ^ 32)
    (writes : List (Nat × Nat)) (hin : ∀ w ∈ writes, w.1 < 128 * s.gFat32.fatSizeSectors ∧
      w.1 < 2 ^ 30)
    (hf : f < s.gFat32.numFats) (hc : c < 128 * s.gFat32.fatSizeSectors) :
    (writes.foldl (fun s w => s.fatEntrySet w.1 w.2) s).fatWord f c =
      (writes.reverse.find? (·.1 = c)).elim (s.fatWord f c) fun w =>
        withEntry (s.fatWord f c) w.2 := by
  induction writes generalizing s with
  | nil => rfl
  | cons w writes ih =>
    obtain ⟨hw, h30⟩ := hin w List.mem_cons_self
    rw [List.foldl_cons, ih _ (by simpa using hsep)
      (by simpa using fun a b h => hin (a, b) (List.mem_cons_of_mem _ h)) (by simpa using hf)
      (by simpa using hc), fatWord_fatEntrySet hsep hw h30 _ hf hc, List.reverse_cons,
      List.find?_append]
    cases writes.reverse.find? (·.1 = c) with
    | none => by_cases heq : c = w.1 <;> simp [heq, Ne.symm]
    | some w' =>
      -- the later write covers the first
      have hcover : ∀ old, withEntry (withEntry old w.2) w'.2 = withEntry old w'.2 := fun old => by
        simp only [withEntry]
        omega
      by_cases heq : c = w.1 <;> simp [heq, hcover]

theorem fatWord_last_write_twice :
    ([(2, 3), (2, 5)].foldl (fun s w => s.fatEntrySet w.1 w.2) (smallVolume Buf.zero 2)).fatWord 1
      2 = withEntry ((smallVolume Buf.zero 2).fatWord 1 2) 5 := by
  simpa using fatWord_last_write (smallVolume Buf.zero 2) (by decide) [(2, 3), (2, 5)] (by decide)
    (f := 1) (c := 2) (by decide) (by decide)

/-- Three copies of `2 ^ 31 + 1` sectors each: the third begins two sectors after the first. -/
def wrappedFats : Fat where
  disk := ⟨fun _ => marksUpTo 128, []⟩
  gFat32 := ⟨512, 1, 32, 3, 2 ^ 31 + 1, 2 ^ 31 + 335, 2, 1, 0, 32, 2 ^ 31 + 35, 300, 2, true⟩

theorem fatWord_wrappedFats (f c : Nat) : wrappedFats.fatWord f c = 0xFFFFFFFF := by
  have hk : c % 128 < 128 := Nat.mod_lt _ (by decide)
  exact (get32_marksUpTo hk).trans (if_pos hk)

/-- Freeing the chain of cluster 2 frees cluster 258, too. -/
theorem freeChain_frees_other : 300 + 2 ≤ 128 * wrappedFats.gFat32.fatSizeSectors ∧
    (∀ f x, wrappedFats.fatWord f x = wrappedFats.fatWord 0 x) ∧
    FreeRun 2 wrappedFats [2] (wrappedFats.freeChain 2) ∧
    (wrappedFats.freeChain 2).fatWord 0 258 ≠ wrappedFats.fatWord 0 258 := by
  have hnext : wrappedFats.fatEntryGet 2 = 0x0FFFFFFF := by
    rw [fatEntryGet_of_lt (by decide), entry, fatWord_wrappedFats]
    decide
  have hrun : FreeRun 2 wrappedFats [2] (wrappedFats.fatEntrySet 2 0) :=
    .step (by decide) (.stop (by rw [hnext]; decide))
  have hloop : wrappedFats.freeChain 2 = _ := hrun.freeChainLoop (by decide)
  refine ⟨by decide, fun f x => by rw [fatWord_wrappedFats, fatWord_wrappedFats], ?_, ?_⟩
  · rw [hloop]
    exact hrun
  · rw [hloop, fatWord_wrappedFats, fatWord, gFat32_fatEntrySet,
      get32_fatEntrySet _ _ _ _ (by decide), if_pos ⟨by decide, 2, by decide, by decide⟩]
    have hword := fatWord_wrappedFats 0 258
    rw [fatWord] at hword
    rw [hword]
    decide

end Fat

end Crusadia
