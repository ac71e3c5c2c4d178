import Mathlib.Data.BitVec

/-!
# Crusadia.Drivers.Ahci

The command of `ahci_read_sectors` and `ahci_write_sectors` (`ahci.c`). The byte count of its PRDT
entry has 22 bits, and more sectors are accepted than it can hold (`sectors_describes_iff`).
-/

namespace Crusadia.Drivers

/-- `present`: `ahci_lookup` finds it; `sata`: its type is `AHCI_DEV_SATA`. -/
structure Device where
  present : Bool
  sata : Bool
  sectorCount : BitVec 64

/-- What a command tells the device of its transfer: the bytes `lba0` to `lba5`, `countl` and
`counth` of the FIS, and the last word of the only PRDT entry. -/
structure Command where
  ataCmd : BitVec 8
  lba : List (BitVec 8)
  count : List (BitVec 8)
  dbcFlags : BitVec 32

/-- The command that `ahci_run_command` builds. -/
def command (ataCmd : BitVec 8) (lba : BitVec 64) (sectorCount : BitVec 32) : Command where
  ataCmd
  lba := [0, 8, 16, 24, 32, 40].map fun i => ((lba >>> i) &&& 0xFF#64).setWidth 8
  count := [0, 8].map fun i => ((sectorCount >>> i) &&& 0xFF#32).setWidth 8
  dbcFlags := (sectorCount * 512#32 - 1#32) ||| 1#32 <<< 31

/-- The checks of `ahci_read_sectors` and `ahci_write_sectors`, then the command they build. -/
def sectors (ataCmd : BitVec 8) (dev : Device) (lba : BitVec 64) (count : BitVec 32) :
    Option Command :=
  if ¬ dev.present ∨ ¬ dev.sata then none
  else if count = 0 ∨ count > 65535 then none
  else if lba + count.setWidth 64 > dev.sectorCount ∧ dev.sectorCount ≠ 0 then none
  else some (command ataCmd lba count)

/-- `ahci_read_sectors`. -/
def ahciReadSectors : Device → BitVec 64 → BitVec 32 → Option Command := sectors 0x25

/-- `ahci_write_sectors`. -/
def ahciWriteSectors : Device → BitVec 64 → BitVec 32 → Option Command := sectors 0x35

/-- A number of the FIS, low byte first. -/
def decode (bytes : List (BitVec 8)) : Nat := bytes.foldr (fun b n => b.toNat + 256 * n) 0

/-- The device reads `lba` and `count` from the FIS, and the PRDT entry is for that many bytes:
22 bits hold the byte count less one, the nine above them are reserved. -/
def Command.Describes (cmd : Command) (lba : BitVec 64) (count : BitVec 32) : Prop :=
  decode cmd.lba = lba.toNat ∧ decode cmd.count = count.toNat ∧
    cmd.dbcFlags.toNat % 2 ^ 22 + 1 = 512 * count.toNat ∧ cmd.dbcFlags.toNat / 2 ^ 22 % 2 ^ 9 = 0

theorem sectors_some {ataCmd : BitVec 8} {dev : Device} {lba : BitVec 64} {count : BitVec 32}
    {cmd : Command} (h : sectors ataCmd dev lba count = some cmd) :
    0 < count.toNat ∧ count.toNat ≤ 65535 ∧ cmd = command ataCmd lba count := by
  unfold sectors at h
  split at h
  · cases h
  · split at h
    · cases h
    · rename_i hcount
      split at h <;> cases h
      exact ⟨by bv_omega, by bv_omega, rfl⟩

theorem toNat_byte {w : Nat} (v : BitVec w) (i : Nat) (hw : 8 ≤ w) :
    (((v >>> i) &&& 0xFF#w).setWidth 8).toNat = v.toNat / 2 ^ i % 2 ^ 8 := by
  have hmask : (0xFF#w).toNat = 2 ^ 8 - 1 := by
    have hle : 2 ^ 8 ≤ 2 ^ w := Nat.pow_le_pow_right (by decide) hw
    exact BitVec.toNat_ofNat 0xFF w ▸ Nat.mod_eq_of_lt (by omega)
  rw [BitVec.toNat_setWidth, BitVec.toNat_and, BitVec.toNat_ushiftRight,
    Nat.shiftRight_eq_div_pow, hmask, Nat.and_two_pow_sub_one_eq_mod, Nat.mod_mod]

theorem decode_lba (ataCmd : BitVec 8) {lba : BitVec 64} (count : BitVec 32)
    (hlba : lba.toNat < 2 ^ 48) : decode (command ataCmd lba count).lba = lba.toNat := by
  simp only [decode, command, List.map, List.foldr, toNat_byte lba _ (by decide : 8 ≤ 64)]
  omega

theorem decode_count (ataCmd : BitVec 8) (lba : BitVec 64) {count : BitVec 32}
    (hcount : count.toNat ≤ 65535) : decode (command ataCmd lba count).count = count.toNat := by
  simp only [decode, command, List.map, List.foldr, toNat_byte count _ (by decide : 8 ≤ 32)]
  omega

theorem toNat_dbcFlags (ataCmd : BitVec 8) (lba : BitVec 64) {count : BitVec 32}
    (hpos : 0 < count.toNat) (hcount : count.toNat ≤ 65535) :
    (command ataCmd lba count).dbcFlags.toNat = 2 ^ 31 + (512 * count.toNat - 1) := by
  have hbytes : (count * 512#32 - 1#32).toNat = 512 * count.toNat - 1 := by bv_omega
  rw [command, BitVec.toNat_or, hbytes, Nat.or_comm]
  exact (Nat.two_pow_add_eq_or_of_lt (i := 31) (by omega) 1).symm

/-- A command for up to 8192 sectors describes its transfer; for more of them the byte count runs
into the reserved bits. -/
theorem sectors_describes_iff (dev : Device) (lba : BitVec 64) (count : BitVec 32) (cmd : Command)
    (hlba : lba.toNat < 2 ^ 48)
    (hcmd : ahciReadSectors dev lba count = some cmd ∨ ahciWriteSectors dev lba count = some cmd) :
    cmd.Describes lba count ↔ count.toNat ≤ 8192 := by
  obtain ⟨ataCmd, hsome⟩ : ∃ ataCmd, sectors ataCmd dev lba count = some cmd :=
    hcmd.elim (fun h => ⟨_, h⟩) fun h => ⟨_, h⟩
  obtain ⟨hpos, hcount, rfl⟩ := sectors_some hsome
  rw [Command.Describes, decode_lba ataCmd count hlba, decode_count ataCmd lba hcount,
    toNat_dbcFlags ataCmd lba hpos hcount]
  omega

theorem sectors_describes_iff_eight :
    (command 0x25 2048 8).Describes 2048 8 ↔ (8#32).toNat ≤ 8192 :=
  sectors_describes_iff ⟨true, true, 0⟩ 2048 8 _ (by decide) (.inl rfl)

/-- 8193 sectors of a disk of 2^20 are accepted, and the entry is for 512 bytes. -/
theorem sectors_not_describes :
    let cmd := command 0x25 0 8193
    ahciReadSectors ⟨true, true, 0x100000⟩ 0 8193 = some cmd ∧ cmd.dbcFlags = 0x804001FF ∧
      ¬ cmd.Describes 0 8193 :=
  ⟨rfl, by decide, fun h => absurd h.2.2.1 (by decide)⟩

end Crusadia.Drivers
