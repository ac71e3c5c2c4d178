import Crusadia.Fat.Model

/-!
# Crusadia.Fat.Format

**The geometry of a new volume.** `fat32_format` gets the size of a FAT copy from one division and
never looks back: the FAT has to have room for the clusters that are left once it has been taken
from the volume. For a volume with as many clusters as FAT32 asks for it does
(`fat32Format_geometry`).

The sum in front of the division has 32 bits. On the largest drives it overflows, the FAT gets no
sector at all, and only the mount at the very end of `fat32_format` notices
(`fat32Format_clean_iff`).
-/

namespace Crusadia

namespace Fat

/-! ### The numbers -/

/-- `sectors_per_cluster`, when 0 has been replaced. -/
def formatSpc (totalSectors sectorsPerCluster : Nat) : Nat :=
  if sectorsPerCluster = 0 then pickSpc totalSectors else sectorsPerCluster

/-- `cluster_begin_rel`. -/
def formatBegin (totalSectors spc : Nat) : Nat := (32 + 2 * formatFatSize totalSectors spc) % 2 ^ 32

/-- `data_clusters`. -/
def formatClusters (totalSectors spc : Nat) : Nat :=
  (totalSectors - formatBegin totalSectors spc) / spc

/-- What `fat32_format` writes before it mounts the volume. -/
def formatted (s : Fat) (partitionLba totalSectors spc : Nat) : Fat :=
  s.writeFormat partitionLba totalSectors spc (formatFatSize totalSectors spc)
    (formatClusters totalSectors spc)

theorem fat32Format_eq (s : Fat) (p total spc : Nat) : s.fat32Format p total spc =
    if total < 66600 then (-1, s) else
    if formatBegin total (formatSpc total spc) ≥ total then (-1, s) else
    if formatClusters total (formatSpc total spc) < 65525 then (-1, s) else
    (s.formatted p total (formatSpc total spc)).fat32Mount p := rfl

/-- The checks that `fat32_format` makes before its first write. -/
def FormatWrites (total spc : Nat) : Prop :=
  66600 ≤ total ∧ formatBegin total (formatSpc total spc) < total ∧
    65525 ≤ formatClusters total (formatSpc total spc)

instance (total spc : Nat) : Decidable (FormatWrites total spc) :=
  inferInstanceAs (Decidable (_ ∧ _))

theorem fat32Format_refused {total spc : Nat} (h : ¬ FormatWrites total spc) (s : Fat) (p : Nat) :
    s.fat32Format p total spc = (-1, s) := by
  rw [FormatWrites] at h
  rw [fat32Format_eq]
  split_ifs <;> first | rfl | omega

theorem formatSpc_bounds (total : Nat) {spc : Nat} (h : spc < 256) :
    0 < formatSpc total spc ∧ formatSpc total spc < 256 := by
  rw [formatSpc, pickSpc]
  split_ifs <;> omega

section

variable {total spc : Nat}

/-- The divisor of `fat32_format`. -/
theorem formatFatSize_eq (ht : 32 ≤ total) :
    formatFatSize total spc = (total + 128 * spc - 32) % 2 ^ 32 / (128 * spc + 1) := by
  have hdiv : (256 * spc + 2) / 2 = 128 * spc + 1 := by omega
  rw [formatFatSize]
  simp only [hdiv]
  rw [show total - 32 + (128 * spc + 1) - 1 = total + 128 * spc - 32 by omega]

section

variable (ht : 66600 ≤ total)
include ht

/-- The FAT gets no sector if the sum overflows, and only then. -/
theorem formatFatSize_eq_zero_iff (h32 : total < 2 ^ 32) (h256 : spc < 256) :
    formatFatSize total spc = 0 ↔ 2 ^ 32 + 32 ≤ total + 128 * spc := by
  rw [formatFatSize_eq (by omega), Nat.div_eq_zero_iff_lt (by omega)]
  omega

/-- The size is the quotient rounded up. -/
theorem formatFatSize_bounds (hsum : total + 128 * spc < 2 ^ 32 + 32) :
    total - 32 ≤ formatFatSize total spc * (128 * spc + 1) ∧
      formatFatSize total spc * (128 * spc + 1) ≤ total - 32 + 128 * spc := by
  rw [formatFatSize_eq (by omega), Nat.mod_eq_of_lt (by omega)]
  have hle := Nat.div_mul_le_self (total + 128 * spc - 32) (128 * spc + 1)
  have hlt := Nat.lt_div_mul_add (a := total + 128 * spc - 32) (show 0 < 128 * spc + 1 by omega)
  omega

theorem formatBegin_eq (h32 : total < 2 ^ 32) (h0 : 0 < spc)
    (hsum : total + 128 * spc < 2 ^ 32 + 32) :
    formatBegin total spc = 32 + 2 * formatFatSize total spc := by
  obtain ⟨-, hle⟩ := formatFatSize_bounds ht hsum
  have hmul : formatFatSize total spc * 129 ≤ formatFatSize total spc * (128 * spc + 1) :=
    Nat.mul_le_mul_left _ (by omega)
  exact Nat.mod_eq_of_lt (by omega)

/-- The FAT has an entry for every cluster and for the two that are not clusters. -/
theorem formatClusters_fit (h32 : total < 2 ^ 32) (h0 : 0 < spc)
    (h256 : spc < 256) (hsum : total + 128 * spc < 2 ^ 32 + 32)
    (hbegin : formatBegin total spc < total) (hmany : 65525 ≤ formatClusters total spc) :
    formatClusters total spc + 2 ≤ 128 * formatFatSize total spc := by
  have heq := formatBegin_eq ht h32 h0 hsum
  obtain ⟨hup, -⟩ := formatFatSize_bounds ht hsum
  set F := formatFatSize total spc
  have hdata : formatClusters total spc * spc ≤ total - (32 + 2 * F) := by
    rw [formatClusters, heq]
    exact Nat.div_mul_le_self _ _
  set C := formatClusters total spc
  -- what the clusters and one FAT copy take is no more than `128 * spc` sectors for each FAT sector
  have hcover : C * spc + F ≤ 128 * F * spc := by
    have hexp : F * (128 * spc + 1) = 128 * F * spc + F := by ring
    omega
  have hlarge : spc < F := by
    have hle : C * spc ≤ 128 * F * spc := by omega
    have := Nat.le_of_mul_le_mul_right hle h0
    omega
  by_contra hgt
  have hmul : 128 * F * spc ≤ (C + 1) * spc := Nat.mul_le_mul_right spc (by omega)
  rw [Nat.add_mul, Nat.one_mul] at hmul
  omega

end

end

/-! ### The sectors -/

section

variable (p total spc fatSize : Nat)

theorem bootSector_words : (bootSector p total spc fatSize).get16 11 = 512 ∧
    (bootSector p total spc fatSize).get16 14 = 32 ∧ (bootSector p total spc fatSize).get16 48 = 1 ∧
    (bootSector p total spc fatSize).get32 32 = total % 2 ^ 32 ∧
    (bootSector p total spc fatSize).get32 36 = fatSize % 2 ^ 32 ∧
    (bootSector p total spc fatSize).get32 44 = 2 := by
  refine ⟨?_, ?_, ?_, ?_, ?_, ?_⟩
  iterate 3
    simp (disch := omega) only [bootSector, putBytes, Buf.put8, Buf.put32, Buf.get16_splice_out,
      Buf.get16_put16_same, Buf.get16_put16_out, List.length_cons, List.length_nil]
    rfl
  iterate 2
    simp (disch := omega) only [bootSector, putBytes, Buf.put8, Buf.put16, Buf.get32_splice_out,
      Buf.get32_put32_same, Buf.get32_put32_out, List.length_cons, List.length_nil]
  simp (disch := omega) only [bootSector, putBytes, Buf.put8, Buf.put16, Buf.get32_splice_out,
    Buf.get32_put32_same, Buf.get32_put32_out, List.length_cons, List.length_nil]
  rfl

theorem bootSector_bytes : (bootSector p total spc fatSize).get 0 = 0xEB ∧
    (bootSector p total spc fatSize).get 13 = BitVec.ofNat 8 spc ∧
    (bootSector p total spc fatSize).get 16 = 2 ∧
    (bootSector p total spc fatSize).get 510 = 0x55 ∧
    (bootSector p total spc fatSize).get 511 = 0xAA := by
  refine ⟨?_, ?_, ?_, ?_, ?_⟩
  · simp (disch := omega) only [bootSector, putBytes, Buf.put16, Buf.put32, Buf.get_splice_out,
      Buf.get_put8_out, List.length_cons, List.length_nil]
    rw [Buf.get_splice_in (by omega) (by omega) (by omega)]
    rfl
  iterate 4
    simp (disch := omega) only [bootSector, putBytes, Buf.put16, Buf.put32, Buf.get_splice_out,
      Buf.get_put8_same, Buf.get_put8_out, List.length_cons, List.length_nil]

end

theorem fsinfoSector_words (clusters : Nat) : (fsinfoSector clusters).get32 0 = 0x41615252 ∧
    (fsinfoSector clusters).get32 492 = 3 := by
  constructor
  · simp (disch := omega) only [fsinfoSector, Buf.put8, Buf.get32_splice_out, Buf.get32_put32_same,
      Buf.get32_put32_out]
    rfl
  · simp (disch := omega) only [fsinfoSector, Buf.put8, Buf.get32_splice_out, Buf.get32_put32_same,
      Buf.get32_put32_out]
    rfl

theorem blockRead_blockWrite_same (s : Fat) (a : Nat) (sec : Sector) :
    (s.blockWrite a sec).blockRead a = sec := if_pos rfl

variable {s : Fat} {sec : Sector}

theorem blockRead_blockWrite_ne {a b : Nat} (h : a % 2 ^ 32 ≠ b % 2 ^ 32) :
    (s.blockWrite b sec).blockRead a = s.blockRead a := if_neg h

theorem fillSectors_succ (s : Fat) (lba count : Nat) (sec : Sector) :
    s.fillSectors lba (count + 1) sec =
      (s.fillSectors lba count sec).blockWrite (lba + count) sec := by
  rw [fillSectors, List.range_succ, List.foldl_append]
  rfl

@[simp] theorem gFat32_fillSectors (s : Fat) (lba count : Nat) (sec : Sector) :
    (s.fillSectors lba count sec).gFat32 = s.gFat32 := by
  induction count with
  | zero => rfl
  | succ count ih => rw [fillSectors_succ, ← ih]; rfl

theorem blockRead_fillSectors {lba count a : Nat}
    (h : ∀ i, i < count → a % 2 ^ 32 ≠ (lba + i) % 2 ^ 32) :
    (s.fillSectors lba count sec).blockRead a = s.blockRead a := by
  induction count with
  | zero => rfl
  | succ count ih =>
    rw [fillSectors_succ, blockRead_blockWrite_ne (h count (by omega))]
    exact ih fun i hi => h i (by omega)

theorem blockRead_fillSectors_mem {lba count i : Nat} (hi : i < count) :
    (s.fillSectors lba count sec).blockRead (lba + i) = sec := by
  induction count with
  | zero => exact absurd hi (Nat.not_lt_zero i)
  | succ count ih =>
    rw [fillSectors_succ]
    by_cases hlast : (lba + i) % 2 ^ 32 = (lba + count) % 2 ^ 32
    · rw [blockRead, hlast]
      exact blockRead_blockWrite_same _ _ _
    · rw [blockRead_blockWrite_ne hlast]
      exact ih (Nat.lt_of_le_of_ne (Nat.le_of_lt_succ hi) fun heq => hlast (by rw [heq]))

/-- The boot sector and the FSInfo sector are not written over. -/
theorem blockRead_writeFormat (s : Fat) (p total spc : Nat) {fatSize : Nat} (clusters : Nat)
    (hroom : 32 + 2 * fatSize + spc ≤ 2 ^ 32) :
    (s.writeFormat p total spc fatSize clusters).blockRead p = bootSector p total spc fatSize ∧
      (s.writeFormat p total spc fatSize clusters).blockRead (p + 1) = fsinfoSector clusters := by
  constructor <;>
    rw [writeFormat, blockRead_fillSectors fun i hi => by omega, blockRead_blockWrite_ne (by omega),
      blockRead_blockWrite_ne (by omega), blockRead_fillSectors fun i hi => by omega,
      blockRead_fillSectors fun i hi => by omega, blockRead_blockWrite_ne (by omega)]
  · rw [blockRead_blockWrite_ne (by omega), blockRead_blockWrite_ne (by omega),
      blockRead_blockWrite_same]
  · rw [blockRead_blockWrite_same]

/-! ### The mount at the end -/

/-- `g_fat32` for the volume that `fat32_format` has laid out. -/
def formatFs (p total spc : Nat) : Fat32Fs where
  bytesPerSector := 512
  sectorsPerCluster := spc
  reservedSectors := 32
  numFats := 2
  fatSizeSectors := formatFatSize total spc
  totalSectors := total
  rootCluster := 2
  fsinfoSector := 1
  partitionLba := p
  fatBeginLba := (p + 32) % 2 ^ 32
  clusterBeginLba := (p + 32 + 2 * formatFatSize total spc) % 2 ^ 32
  dataClusters := formatClusters total spc
  freeClusterHint := 3
  mounted := true

theorem gFat32_setShutdownBit (s : Fat) (clean : Bool) :
    (s.setShutdownBit clean).gFat32 = s.gFat32 := by
  rw [setShutdownBit]
  generalize List.range s.gFat32.numFats = copies
  induction copies generalizing s with
  | nil => rfl
  | cons f copies ih => exact ih (setShutdownCopy clean s f)

/-- The checks of `fat32_mount`. -/
theorem fat32Mount_of_fatSize {p : Nat} (h36 : (s.blockRead p).get32 36 = 0) :
    s.fat32Mount p = (-1, s) := by
  rw [fat32Mount]
  simp only [h36, if_true, ite_self]

theorem fat32Mount_of_boot {p : Nat} (h11 : (s.blockRead p).get16 11 = 512)
    (h36 : (s.blockRead p).get32 36 ≠ 0) (h510 : (s.blockRead p).get 510 = 0x55)
    (h511 : (s.blockRead p).get 511 = 0xAA) :
    s.fat32Mount p = (0, setShutdownBit { s with
      gFat32 := decodeBpb p (s.blockRead p) (s.blockRead (p + (s.blockRead p).get16 48)) }
      false) := by
  rw [fat32Mount]
  simp only [h11, h510, h511, if_neg h36, ne_eq, not_true_eq_false, or_self, if_false]

section

variable {p total spc : Nat}

/-- Without a FAT the mount fails, when everything has been written. -/
theorem fat32Mount_formatted_zero (s : Fat) (hspc : spc < 256)
    (hzero : formatFatSize total spc = 0) :
    (s.formatted p total spc).fat32Mount p = (-1, s.formatted p total spc) := by
  refine fat32Mount_of_fatSize ?_
  rw [formatted, (blockRead_writeFormat s p total _ _ (by omega)).1,
    (bootSector_words ..).2.2.2.2.1, hzero, Nat.zero_mod]

/-- The numbers of `fat32_format` come back from the two sectors. -/
theorem decodeBpb_format (hp : p < 2 ^ 32) (h32 : total < 2 ^ 32) (h0 : 0 < total)
    (h256 : spc < 256) (heq : formatBegin total spc = 32 + 2 * formatFatSize total spc)
    (hbegin : formatBegin total spc < total) :
    decodeBpb p (bootSector p total spc (formatFatSize total spc))
      (fsinfoSector (formatClusters total spc)) = formatFs p total spc := by
  obtain ⟨h11, h14, h48, h32', h36, h44⟩ := bootSector_words p total spc (formatFatSize total spc)
  obtain ⟨-, h13, h16, -, -⟩ := bootSector_bytes p total spc (formatFatSize total spc)
  obtain ⟨hlead, hnext⟩ := fsinfoSector_words (formatClusters total spc)
  rw [Nat.mod_eq_of_lt (by omega)] at h32' h36
  have hspc : (BitVec.ofNat 8 spc).toNat = spc := by
    rw [BitVec.toNat_ofNat, Nat.mod_eq_of_lt h256]
  have hfats : (2 : Byte).toNat = 2 := rfl
  have hclusters : formatClusters total spc =
      (total - (32 + 2 * formatFatSize total spc)) / spc := by rw [formatClusters, heq]
  rw [decodeBpb, formatFs, h11, h13, h14, h16, h32', h36, h44, h48, hlead, hnext, hspc, hfats,
    hclusters]
  have hfat : ((p + 32) % 2 ^ 32 + 2 * formatFatSize total spc) % 2 ^ 32 =
      (p + 32 + 2 * formatFatSize total spc) % 2 ^ 32 := by omega
  have hdata : (total + 2 ^ 32 - ((p + 32 + 2 * formatFatSize total spc) % 2 ^ 32 + 2 ^ 32 - p) %
      2 ^ 32) % 2 ^ 32 = total - (32 + 2 * formatFatSize total spc) := by omega
  simp only [if_pos (show total ≠ 0 by omega), hfat, hdata]
  rfl

/-- The mount finds what `fat32_format` has computed. -/
theorem fat32Mount_formatted (s : Fat) (hp : p < 2 ^ 32) (h32 : total < 2 ^ 32) (h0 : 0 < spc)
    (h256 : spc < 256) (ht : 66600 ≤ total) (hsum : total + 128 * spc < 2 ^ 32 + 32)
    (hbegin : formatBegin total spc < total) :
    (s.formatted p total spc).fat32Mount p = (0, setShutdownBit { s.formatted p total spc with
      gFat32 := formatFs p total spc } false) := by
  have heq := formatBegin_eq ht h32 h0 hsum
  have hF : formatFatSize total spc ≠ 0 := by
    rw [Ne, formatFatSize_eq_zero_iff ht h32 h256]
    omega
  obtain ⟨hboot, hinfo⟩ := blockRead_writeFormat s p total spc (formatClusters total spc)
    (show 32 + 2 * formatFatSize total spc + spc ≤ 2 ^ 32 by omega)
  obtain ⟨h11, -, h48, -, h36, -⟩ := bootSector_words p total spc (formatFatSize total spc)
  obtain ⟨-, -, -, h510, h511⟩ := bootSector_bytes p total spc (formatFatSize total spc)
  rw [Nat.mod_eq_of_lt (by omega)] at h36
  rw [formatted, fat32Mount_of_boot (by rw [hboot, h11]) (by rw [hboot, h36]; exact hF)
    (by rw [hboot, h510]) (by rw [hboot, h511]), hboot, h48, hinfo,
    decodeBpb_format hp h32 (by omega) h256 heq hbegin]

/-- **What `fat32_format` does**, for every size: on overflow it writes and fails, otherwise it
checks the size before the first write. -/
theorem fat32Format_spec (s : Fat) (hp : p < 2 ^ 32) (h32 : total < 2 ^ 32) (h256 : spc < 256)
    {used : Nat} (hused : formatSpc total spc = used) : s.fat32Format p total spc =
      if 2 ^ 32 + 32 ≤ total + 128 * used then (-1, s.formatted p total used)
      else if FormatWrites total spc then
        (0, setShutdownBit { s.formatted p total used with gFat32 := formatFs p total used } false)
      else (-1, s) := by
  obtain ⟨hpos, hlt⟩ := formatSpc_bounds total h256
  rw [hused] at hpos hlt
  by_cases hover : 2 ^ 32 + 32 ≤ total + 128 * used
  · have hzero := (formatFatSize_eq_zero_iff (by omega) h32 hlt).mpr hover
    have hbegin : formatBegin total used = 32 := by
      rw [formatBegin, hzero]
      rfl
    have hmany : 65525 ≤ formatClusters total used := by
      rw [formatClusters, hbegin, Nat.le_div_iff_mul_le hpos]
      have := Nat.mul_le_mul_left 65525 hlt
      omega
    rw [fat32Format_eq, hused, if_neg (by omega), if_neg (by omega), if_neg (by omega),
      if_pos hover, fat32Mount_formatted_zero s hlt hzero]
  · rw [if_neg hover]
    split
    · obtain ⟨ht, hbegin, hmany⟩ := ‹FormatWrites total spc›
      rw [hused] at hbegin hmany
      rw [fat32Format_eq, hused, if_neg (by omega), if_neg (by omega), if_neg (by omega),
        fat32Mount_formatted s hp h32 hpos hlt (by omega) (by omega) (by omega)]
    · exact fat32Format_refused ‹_› s p

end

/-! ### Results -/

/-- The areas of a new volume, counted from its first sector: the reserved sectors, the two FAT
copies and the clusters. -/
def formatAreas (spc fatSize clusters : Nat) : List (Finset Nat) :=
  [Finset.Ico 0 32, Finset.Ico 32 (32 + fatSize),
    Finset.Ico (32 + fatSize) (32 + 2 * fatSize),
    Finset.Ico (32 + 2 * fatSize) (32 + 2 * fatSize + clusters * spc)]

theorem formatAreas_disjoint (spc fatSize clusters : Nat) :
    (formatAreas spc fatSize clusters).Pairwise Disjoint := by
  simp only [formatAreas, List.pairwise_cons, List.mem_cons, List.not_mem_nil, or_false,
    forall_eq_or_imp, forall_eq, Finset.disjoint_left, Finset.mem_Ico]
  refine ⟨⟨?_, ?_, ?_⟩, ⟨?_, ?_⟩, ?_, ?_⟩
  iterate 6
    intro a h1 h2
    omega
  simp

/-- **The geometry of a volume that was formatted.** Every cluster has its FAT entry, the areas are
disjoint and inside the volume, there are as many clusters as FAT32 asks for, and the mount finds
the same numbers in the boot sector. -/
theorem fat32Format_geometry (s : Fat) {p total spc : Nat} (hp : p < 2 ^ 32) (h32 : total < 2 ^ 32)
    (h256 : spc < 256) (hok : (s.fat32Format p total spc).1 = 0) :
    let used := formatSpc total spc
    let fatSize := formatFatSize total used
    let clusters := formatClusters total used
    clusters + 2 ≤ 128 * fatSize ∧ (formatAreas used fatSize clusters).Pairwise Disjoint ∧
      (∀ area ∈ formatAreas used fatSize clusters, area ⊆ Finset.range total) ∧
      65525 ≤ clusters ∧ (s.fat32Format p total spc).2.gFat32 = formatFs p total used := by
  intro used fatSize clusters
  obtain ⟨hpos, hlt⟩ := formatSpc_bounds total h256
  rw [fat32Format_spec s hp h32 h256 rfl] at hok ⊢
  by_cases hover : 2 ^ 32 + 32 ≤ total + 128 * formatSpc total spc
  · rw [if_pos hover] at hok
    cases hok
  · rw [if_neg hover] at hok ⊢
    by_cases hfit : FormatWrites total spc
    · rw [if_pos hfit]
      obtain ⟨ht, hbegin, hmany⟩ := hfit
      refine ⟨formatClusters_fit ht h32 hpos hlt (by omega) hbegin hmany,
        formatAreas_disjoint _ _ _,
        fun area harea => ?_, hmany, gFat32_setShutdownBit _ _⟩
      have heq := formatBegin_eq ht h32 hpos (by omega)
      have hdata : clusters * used ≤ total - (32 + 2 * fatSize) := by
        rw [← heq]
        exact Nat.div_mul_le_self _ _
      have hlt' : 32 + 2 * fatSize < total := lt_of_eq_of_lt heq.symm hbegin
      have hend : 32 + 2 * fatSize + clusters * used ≤ total := by omega
      rw [Finset.range_eq_Ico]
      simp only [formatAreas, List.mem_cons, List.not_mem_nil, or_false] at harea
      rcases harea with rfl | rfl | rfl | rfl
      iterate 4 exact Finset.Ico_subset_Ico (by omega) (by omega)
    · rw [if_neg hfit] at hok
      cases hok

/-- The driver before any mount, on an empty drive. -/
def emptyDrive : Fat where
  disk := ⟨fun _ => Buf.zero, []⟩
  gFat32 := ⟨0, 0, 0, 0, 0, 0, 0, 0, 0, 0, 0, 0, 0, false⟩

/-- The smallest volume, with clusters of one sector. -/
theorem fat32Format_geometry_smallest : (emptyDrive.fat32Format 0 66600 1).1 = 0 ∧
    65534 + 2 ≤ 128 * 517 ∧ (emptyDrive.fat32Format 0 66600 1).2.gFat32.dataClusters = 65534 := by
  have hok : (emptyDrive.fat32Format 0 66600 1).1 = 0 := by
    rw [fat32Format_spec _ (by decide) (by decide) (by decide)
      (show formatSpc 66600 1 = 1 from rfl), if_neg (by decide), if_pos (by decide)]
  obtain ⟨hfit, -, -, -, hfs⟩ :=
    fat32Format_geometry emptyDrive (p := 0) (by decide) (by decide) (by decide) hok
  refine ⟨hok, hfit, ?_⟩
  rw [hfs]
  decide

theorem length_trace_fillSectors (s : Fat) (lba count : Nat) (sec : Sector) :
    s.disk.trace.length ≤ (s.fillSectors lba count sec).disk.trace.length := by
  rw [fillSectors]
  induction List.range count generalizing s with
  | nil => exact Nat.le_refl _
  | cons i rest ih => exact Nat.le_trans (Nat.le_succ _) (ih (s.blockWrite (lba + i) sec))

@[simp] theorem length_trace_blockWrite (s : Fat) (lba : Nat) (sec : Sector) :
    (s.blockWrite lba sec).disk.trace.length = s.disk.trace.length + 1 := rfl

theorem disk_formatted_ne (s : Fat) (p total spc : Nat) :
    (s.formatted p total spc).disk ≠ s.disk := by
  intro heq
  have hlen := congrArg (fun d : Disk => d.trace.length) heq
  have hlt : s.disk.trace.length < (s.formatted p total spc).disk.trace.length := by
    rw [formatted, writeFormat]
    -- every write makes the record of written sectors longer
    refine Nat.lt_of_lt_of_le ?_ (length_trace_fillSectors _ _ _ _)
    simp only [length_trace_blockWrite]
    refine Nat.lt_succ_of_lt (Nat.lt_succ_of_lt ?_)
    refine Nat.lt_of_lt_of_le ?_ (length_trace_fillSectors _ _ _ _)
    refine Nat.lt_of_lt_of_le ?_ (length_trace_fillSectors _ _ _ _)
    simp only [length_trace_blockWrite]
    exact Nat.lt_add_of_pos_right (Nat.succ_pos 3)
  exact absurd hlen.symm (Nat.ne_of_lt hlt)

/-- Where the sum can overflow, `pick_spc` has one answer. -/
theorem formatSpc_overflow (total spc : Nat) : total + 128 * formatSpc total spc < 2 ^ 32 + 32 ↔
    total + 128 * (if spc = 0 then 64 else spc) < 2 ^ 32 + 32 := by
  rw [formatSpc]
  split
  · rw [pickSpc]
    split_ifs <;> omega
  · exact Iff.rfl

/-- **A format that fails.** It has written nothing, unless the sum for the FAT size overflows: then
it has written everything before the mount finds out. -/
theorem fat32Format_clean_iff (s : Fat) {p total spc : Nat} (hp : p < 2 ^ 32) (h32 : total < 2 ^ 32)
    (h256 : spc < 256) :
    ((s.fat32Format p total spc).1 ≠ 0 → (s.fat32Format p total spc).2.disk = s.disk) ↔
      total + 128 * (if spc = 0 then 64 else spc) < 2 ^ 32 + 32 := by
  rw [fat32Format_spec s hp h32 h256 rfl, ← formatSpc_overflow]
  by_cases hover : 2 ^ 32 + 32 ≤ total + 128 * formatSpc total spc
  · rw [if_pos hover]
    exact iff_of_false (fun h => disk_formatted_ne _ _ _ _
      (h (Int.neg_ne_zero.mpr Int.one_ne_zero))) (by omega)
  · rw [if_neg hover]
    refine iff_of_true (fun hne => ?_) (by omega)
    split at hne
    · exact absurd rfl hne
    · rename_i hfit
      rw [if_neg hfit]

/-- One sector too few: refused with the drive as it was. -/
theorem fat32Format_clean_small : (emptyDrive.fat32Format 0 66599 0).1 = -1 ∧
    (emptyDrive.fat32Format 0 66599 0).2.disk = emptyDrive.disk := by
  have hfail : (emptyDrive.fat32Format 0 66599 0).1 = -1 := by
    rw [fat32Format, if_pos (by decide)]
  refine ⟨hfail, (fat32Format_clean_iff emptyDrive (by decide) (by decide) (by decide)).mpr
    (by decide) ?_⟩
  rw [hfail]
  decide

/-- A drive that `drives` counts with 4294967294 sectors: the format fails and sector 0 is lost. -/
theorem fat32Format_overwrites : (emptyDrive.fat32Format 0 0xFFFFFFFE 0).1 = -1 ∧
    (emptyDrive.fat32Format 0 0xFFFFFFFE 0).2.disk.read 0 ≠ emptyDrive.disk.read 0 := by
  rw [fat32Format_spec _ (by decide) (by decide) (by decide)
    (show formatSpc 0xFFFFFFFE 0 = 64 by decide), if_pos (by decide)]
  refine ⟨rfl, fun heq => ?_⟩
  have hboot := (blockRead_writeFormat emptyDrive 0 0xFFFFFFFE 64
    (formatClusters 0xFFFFFFFE 64)
      (show 32 + 2 * formatFatSize 0xFFFFFFFE 64 + 64 ≤ 2 ^ 32 by decide)).1
  have hzero : (bootSector 0 0xFFFFFFFE 64 (formatFatSize 0xFFFFFFFE 64)).get 510 = 0 := by
    rw [← hboot]
    exact (congrArg (Buf.get · 510) heq).trans (Buf.get_zero 510)
  rw [(bootSector_bytes ..).2.2.2.1] at hzero
  cases hzero

end Fat

end Crusadia
