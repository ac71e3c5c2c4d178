import Crusadia.Fat.Table
import Crusadia.Vfs.Model

/-!
# Crusadia.Vfs.Foreign

**Volumes that were formatted elsewhere.** A boot sector that `is_fat32_bpb` accepts gets mounted:
`fat32_mount` makes no further check that it could fail. The geometry is then what the fields say,
in 32-bit arithmetic, and nothing compares them with each other. `Consistent` is what the driver
relies on, and `mount_consistent_iff` gives the checks that are missing.
-/

namespace Crusadia

/-- A mounted volume as the driver takes it for granted: the geometry was computed without a
division by 0 and without an underflow, every cluster has its entry in the first FAT copy and its
sectors in the volume, and the root directory is a cluster. -/
structure Fat.Consistent (s : Fat) : Prop where
  spc : s.gFat32.sectorsPerCluster ≠ 0
  above : s.gFat32.partitionLba ≤ s.gFat32.clusterBeginLba
  within : s.gFat32.clusterBeginLba - s.gFat32.partitionLba ≤ s.gFat32.totalSectors
  entry : ∀ c, 2 ≤ c → c < s.gFat32.dataClusters + 2 → 0 < s.gFat32.numFats ∧
    c / 128 < s.gFat32.fatSizeSectors ∧ s.fatSector 0 c % 2 ^ 32 = s.gFat32.fatBeginLba + c / 128
  sector : ∀ c, 2 ≤ c → c < s.gFat32.dataClusters + 2 → ∀ k, k < s.gFat32.sectorsPerCluster →
    s.gFat32.partitionLba ≤ (s.clusterToLba c + k) % 2 ^ 32 ∧
      (s.clusterToLba c + k) % 2 ^ 32 < s.gFat32.partitionLba + s.gFat32.totalSectors
  root : 2 ≤ s.gFat32.rootCluster ∧ s.gFat32.rootCluster < s.gFat32.dataClusters + 2

namespace Vfs

/-! ### The fields of a boot sector -/

/-- `sectors_per_cluster`. -/
def bpbSpc (sec : Sector) : Nat := (sec.get 13).toNat

/-- `total_sectors_32`, or `total_sectors_16` when that is 0. -/
def bpbTotal (sec : Sector) : Nat := if sec.get32 32 ≠ 0 then sec.get32 32 else sec.get16 19

/-- The first sector after the FAT copies, in 32 bits. -/
def bpbBegin (p : Nat) (sec : Sector) : Nat :=
  (p + sec.get16 14 + (sec.get 16).toNat * sec.get32 36) % 2 ^ 32

/-- The number of clusters, where nothing underflows. -/
def bpbClusters (p : Nat) (sec : Sector) : Nat :=
  (bpbTotal sec - (bpbBegin p sec - p)) / bpbSpc sec

/-- The fields fit together. -/
structure Sane (p : Nat) (sec : Sector) : Prop where
  fats : 0 < (sec.get 16).toNat
  above : p ≤ bpbBegin p sec
  within : bpbBegin p sec ≤ p + bpbTotal sec
  root : sec.get32 44 < bpbClusters p sec + 2
  entries : bpbClusters p sec + 2 ≤ 128 * sec.get32 36
  numbers : bpbClusters p sec + 2 ≤ 2 ^ 30
  data : bpbBegin p sec + bpbClusters p sec * bpbSpc sec ≤ 2 ^ 32
  fat : (p + sec.get16 14) % 2 ^ 32 + (bpbClusters p sec + 1) / 128 < 2 ^ 32

/-- What `is_fat32_bpb` makes sure of. -/
theorem isFat32Bpb_iff (sec : Sector) : isFat32Bpb sec = true ↔
    sec.get 510 = 0x55 ∧ sec.get 511 = 0xAA ∧ (sec.get 0 = 0xEB ∨ sec.get 0 = 0xE9) ∧
      sec.get16 11 = 512 ∧ sec.get 13 ≠ 0 ∧ sec.get32 36 ≠ 0 ∧ 2 ≤ sec.get32 44 := by
  simp only [isFat32Bpb, Bool.and_eq_true, Bool.or_eq_true, beq_iff_eq, bne_iff_ne,
    decide_eq_true_eq, and_assoc, ge_iff_le]

section

variable {p fatSize : Nat} {sec fi : Sector}

theorem bpbTotal_lt (sec : Sector) : bpbTotal sec < 2 ^ 32 := by
  have h32 := sec.get32_lt 32
  have h19 := sec.get16_lt 19
  rw [bpbTotal]
  split <;> omega

theorem clusterBeginLba_decodeBpb : (Fat.decodeBpb p sec fi).clusterBeginLba = bpbBegin p sec := by
  simp only [Fat.decodeBpb, bpbBegin, Nat.mod_add_mod]

/-- Where nothing underflows, the 32-bit differences are the differences. -/
theorem dataClusters_decodeBpb (habove : p ≤ bpbBegin p sec)
    (hwithin : bpbBegin p sec ≤ p + bpbTotal sec) :
    (Fat.decodeBpb p sec fi).dataClusters = bpbClusters p sec := by
  have hbegin : bpbBegin p sec < 2 ^ 32 := Nat.mod_lt _ (by decide)
  have htotal := bpbTotal_lt sec
  have hsub : (bpbTotal sec + 2 ^ 32 - (bpbBegin p sec + 2 ^ 32 - p) % 2 ^ 32) % 2 ^ 32 =
      bpbTotal sec - (bpbBegin p sec - p) := by omega
  have heq : (Fat.decodeBpb p sec fi).dataClusters =
      (bpbTotal sec + 2 ^ 32 - ((Fat.decodeBpb p sec fi).clusterBeginLba + 2 ^ 32 - p) % 2 ^ 32) %
        2 ^ 32 / bpbSpc sec := rfl
  rw [heq, clusterBeginLba_decodeBpb, hsub, bpbClusters]

/-! ### The checks that are missing -/

variable {t : Fat}

theorem sane_of_consistent (ht : t.gFat32 = Fat.decodeBpb p sec fi) (h : t.Consistent) :
    Sane p sec := by
  obtain ⟨hspc, habove, hwithin, hentry, hsector, hroot, hroot'⟩ := h
  rw [ht, clusterBeginLba_decodeBpb] at habove hwithin
  replace habove : p ≤ bpbBegin p sec := habove
  replace hwithin : bpbBegin p sec - p ≤ bpbTotal sec := hwithin
  have hclusters : t.gFat32.dataClusters = bpbClusters p sec := by
    rw [ht, dataClusters_decodeBpb habove (by omega)]
  have hspc' : t.gFat32.sectorsPerCluster = bpbSpc sec := by rw [ht]; rfl
  have hbegin : t.gFat32.clusterBeginLba = bpbBegin p sec := by rw [ht, clusterBeginLba_decodeBpb]
  rw [hclusters] at hentry hsector hroot'
  rw [hspc'] at hsector hspc
  have hlt : bpbBegin p sec < 2 ^ 32 := Nat.mod_lt _ (by decide)
  have hle : bpbClusters p sec * bpbSpc sec ≤ bpbTotal sec - (bpbBegin p sec - p) :=
    Nat.div_mul_le_self _ _
  have htotal := bpbTotal_lt sec
  -- the last cluster has the last entry
  obtain ⟨hfats, hentries, hfat⟩ := hentry (bpbClusters p sec + 1) (by omega) (by omega)
  rw [Fat.fatSector, Nat.zero_mul, Nat.add_zero] at hfat
  have hfatBegin : t.gFat32.fatBeginLba = (p + sec.get16 14) % 2 ^ 32 := by rw [ht]; rfl
  rw [hfatBegin] at hfat
  have hfatSize : t.gFat32.fatSizeSectors = sec.get32 36 := by rw [ht]; rfl
  rw [hfatSize] at hentries
  refine ⟨?_, habove, by omega, ?_, by omega, by omega, ?_, by omega⟩
  · rw [ht] at hfats
    exact hfats
  · rw [ht] at hroot'
    exact hroot'
  · -- a sector past the 32-bit range is sector 0, and a volume that reaches so far does not begin
    -- there
    by_contra hover
    have hidx : (2 ^ 32 - bpbBegin p sec) / bpbSpc sec < bpbClusters p sec :=
      (Nat.div_lt_iff_lt_mul (Nat.pos_of_ne_zero hspc)).mpr (by omega)
    have hmod := Nat.mod_lt (2 ^ 32 - bpbBegin p sec) (Nat.pos_of_ne_zero hspc)
    have hpart : t.gFat32.partitionLba = p := by rw [ht]; rfl
    obtain ⟨hlow, -⟩ := hsector (2 + (2 ^ 32 - bpbBegin p sec) / bpbSpc sec)
      (Nat.le_add_right 2 _) (by omega) _ hmod
    rw [hpart, Fat.clusterToLba, hbegin, hspc', Nat.add_sub_cancel_left, Nat.add_assoc,
      Nat.div_add_mod'] at hlow
    omega

theorem consistent_of_sane (ht : t.gFat32 = Fat.decodeBpb p sec fi) (hspc : sec.get 13 ≠ 0)
    (hroot : 2 ≤ sec.get32 44) (h : Sane p sec) : t.Consistent := by
  have hclusters : t.gFat32.dataClusters = bpbClusters p sec := by
    rw [ht, dataClusters_decodeBpb h.above h.within]
  have hbegin : t.gFat32.clusterBeginLba = bpbBegin p sec := by rw [ht, clusterBeginLba_decodeBpb]
  have hspc' : t.gFat32.sectorsPerCluster = bpbSpc sec := by rw [ht]; rfl
  have hpart : t.gFat32.partitionLba = p := by rw [ht]; rfl
  have htotal : t.gFat32.totalSectors = bpbTotal sec := by rw [ht]; rfl
  have hfatBegin : t.gFat32.fatBeginLba = (p + sec.get16 14) % 2 ^ 32 := by rw [ht]; rfl
  have hfatSize : t.gFat32.fatSizeSectors = sec.get32 36 := by rw [ht]; rfl
  have hle : bpbClusters p sec * bpbSpc sec ≤ bpbTotal sec - (bpbBegin p sec - p) :=
    Nat.div_mul_le_self _ _
  obtain ⟨hfats, habove, hwithin, hroot', hentries, hnumbers, hdata, hfat⟩ := h
  refine ⟨?_, by rwa [hpart, hbegin], by rw [hpart, hbegin, htotal]; omega, ?_, ?_, ?_, ?_⟩
  · rw [hspc', bpbSpc]
    exact fun h0 => hspc (BitVec.eq_of_toNat_eq h0)
  · intro c hc hlt
    rw [hclusters] at hlt
    refine ⟨by rw [ht]; exact hfats, by omega, ?_⟩
    rw [Fat.fatSector_of_lt (by omega), Nat.zero_mul, Nat.add_zero, hfatBegin,
      Nat.mod_eq_of_lt (by omega)]
  · intro c hc hlt k hk
    rw [hclusters] at hlt
    rw [hspc'] at hk
    have hmul : (c - 2 + 1) * bpbSpc sec ≤ bpbClusters p sec * bpbSpc sec :=
      Nat.mul_le_mul_right _ (by omega)
    rw [Nat.succ_mul] at hmul
    rw [Fat.clusterToLba, hbegin, hspc', hpart, htotal, Nat.mod_eq_of_lt (by omega)]
    exact ⟨by omega, by omega⟩
  · rw [ht]
    exact hroot
  · rw [hclusters, ht]
    exact hroot'

/-- `fat32_mount` makes no check that `is_fat32_bpb` has not made. -/
theorem fat32Mount_of_bpb (s : Fat) (p : Nat) (hbpb : isFat32Bpb (s.blockRead p) = true) :
    (s.fat32Mount p).1 = 0 ∧
      ∃ fi, (s.fat32Mount p).2.gFat32 = Fat.decodeBpb p (s.blockRead p) fi := by
  obtain ⟨h510, h511, -, h11, -, h36, -⟩ := (isFat32Bpb_iff _).mp hbpb
  rw [Fat.fat32Mount_of_boot h11 h36 h510 h511]
  exact ⟨rfl, _, Fat.gFat32_setShutdownBit _ false⟩

/-- **Mounting a foreign volume.** What `is_fat32_bpb` accepts is mounted, and the volume is what
the driver takes it for exactly when the fields of its boot sector fit together. -/
theorem mount_consistent_iff (s : Fat) (p : Nat) (hbpb : isFat32Bpb (s.blockRead p) = true) :
    (s.fat32Mount p).1 = 0 ∧ ((s.fat32Mount p).2.Consistent ↔ Sane p (s.blockRead p)) := by
  obtain ⟨-, -, -, -, h13, -, h44⟩ := (isFat32Bpb_iff _).mp hbpb
  obtain ⟨hok, fi, hfs⟩ := fat32Mount_of_bpb s p hbpb
  exact ⟨hok, sane_of_consistent hfs, consistent_of_sane hfs h13 h44⟩

/-- A drive with a boot sector and nothing else. -/
def withBoot (sec : Sector) : Fat where
  disk := ⟨fun a => if a = 0 then sec else Buf.zero, []⟩
  gFat32 := Fat.emptyDrive.gFat32

theorem isFat32Bpb_bootSector (p total : Nat) {spc : Nat} (hspc : 0 < spc) (h256 : spc < 256)
    (hfat : 0 < fatSize) (h32 : fatSize < 2 ^ 32) :
    isFat32Bpb (Fat.bootSector p total spc fatSize) = true := by
  obtain ⟨h11, -, -, -, h36, h44⟩ := Fat.bootSector_words p total spc fatSize
  obtain ⟨h0, h13, -, h510, h511⟩ := Fat.bootSector_bytes p total spc fatSize
  rw [isFat32Bpb_iff]
  refine ⟨h510, h511, .inl h0, h11, ?_, by rw [h36, Nat.mod_eq_of_lt h32]; omega, by rw [h44]⟩
  rw [h13]
  intro hzero
  have hnat := congrArg BitVec.toNat hzero
  rw [BitVec.toNat_ofNat, Nat.mod_eq_of_lt h256] at hnat
  exact absurd hnat (Nat.ne_of_gt hspc)

theorem bpb_bootSector {total : Nat} (h0 : 0 < total) (htotal : total < 2 ^ 32)
    (h32 : 32 + 2 * fatSize < 2 ^ 32) :
    bpbTotal (Fat.bootSector 0 total 1 fatSize) = total ∧
      bpbBegin 0 (Fat.bootSector 0 total 1 fatSize) = 32 + 2 * fatSize ∧
      bpbClusters 0 (Fat.bootSector 0 total 1 fatSize) = total - (32 + 2 * fatSize) := by
  obtain ⟨-, h14, -, h32', h36, -⟩ := Fat.bootSector_words 0 total 1 fatSize
  obtain ⟨-, h13, h16, -, -⟩ := Fat.bootSector_bytes 0 total 1 fatSize
  rw [Nat.mod_eq_of_lt htotal] at h32'
  rw [Nat.mod_eq_of_lt (by omega)] at h36
  have htot : bpbTotal (Fat.bootSector 0 total 1 fatSize) = total := by
    rw [bpbTotal, h32', if_pos (Nat.ne_of_gt h0)]
  have hbegin : bpbBegin 0 (Fat.bootSector 0 total 1 fatSize) = 32 + 2 * fatSize := by
    rw [bpbBegin, h14, h16, h36, Nat.zero_add]
    exact Nat.mod_eq_of_lt h32
  refine ⟨htot, hbegin, ?_⟩
  rw [bpbClusters, htot, hbegin, bpbSpc, h13]
  exact Nat.div_one _

/-- The smallest volume of `fat32_format`. -/
theorem mount_consistent_formatted : isFat32Bpb (Fat.bootSector 0 66600 1 517) = true ∧
    ((withBoot (Fat.bootSector 0 66600 1 517)).fat32Mount 0).2.Consistent := by
  have hbpb := isFat32Bpb_bootSector 0 66600 Nat.one_pos (by decide) (show 0 < 517 by decide)
    (by decide)
  obtain ⟨htotal, hbegin, hclusters⟩ :=
    bpb_bootSector (show 0 < 66600 by decide) (by decide) (show 32 + 2 * 517 < 2 ^ 32 by decide)
  obtain ⟨-, h14, -, -, h36, h44⟩ := Fat.bootSector_words 0 66600 1 517
  obtain ⟨-, h13, h16, -, -⟩ := Fat.bootSector_bytes 0 66600 1 517
  refine ⟨hbpb, (mount_consistent_iff (withBoot _) 0 hbpb).2.mpr ?_⟩
  change Sane 0 (Fat.bootSector 0 66600 1 517)
  refine ⟨?_, ?_, ?_, ?_, ?_, ?_, ?_, ?_⟩
  · rw [h16]
    decide
  · exact Nat.zero_le _
  · rw [hbegin, htotal]
    decide
  · rw [h44, hclusters]
    decide
  · rw [h36, hclusters]
    decide
  · rw [hclusters]
    decide
  · rw [hbegin, hclusters, bpbSpc, h13]
    decide
  · rw [h14, hclusters]
    decide

/-- A volume of 32 sectors with 32 reserved ones and two FATs: it has `2 ^ 32 - 2` clusters. -/
theorem mount_underflow : isFat32Bpb (Fat.bootSector 0 32 1 1) = true ∧
    ((withBoot (Fat.bootSector 0 32 1 1)).fat32Mount 0).1 = 0 ∧
    ¬ ((withBoot (Fat.bootSector 0 32 1 1)).fat32Mount 0).2.Consistent := by
  have hbpb := isFat32Bpb_bootSector 0 32 Nat.one_pos (by decide) Nat.one_pos (by decide)
  obtain ⟨htotal, hbegin, -⟩ :=
    bpb_bootSector (show 0 < 32 by decide) (by decide) (show 32 + 2 * 1 < 2 ^ 32 by decide)
  obtain ⟨hok, fi, hfs⟩ := fat32Mount_of_bpb (withBoot (Fat.bootSector 0 32 1 1)) 0 hbpb
  refine ⟨hbpb, hok, fun hcons => ?_⟩
  have hsane : Sane 0 (Fat.bootSector 0 32 1 1) := sane_of_consistent hfs hcons
  have hwithin := hsane.within
  rw [hbegin, htotal] at hwithin
  exact absurd hwithin (by decide)

end

end Vfs

end Crusadia
