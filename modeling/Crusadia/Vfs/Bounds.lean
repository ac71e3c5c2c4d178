import Crusadia.Cos.Read
import Crusadia.Vfs.Append
import Crusadia.Vfs.Descriptor
import Crusadia.Vfs.Single

/-!
# Crusadia.Vfs.Bounds

**Positions and lengths at the end of the 32-bit range.** Offsets, counts and sizes are any values
of 32 bits, and both `fs_read` and `fat32_read` compare `offset + size` with the size of the file
after the sum has wrapped. `reads_bounded_iff` says for which of them a read is bounded by the
file; `rewrite_fits_iff` does the same for the buffer in which `fat_write_at` rewrites a file.
-/

namespace Crusadia

/-! ### Lengths of what the drivers read -/

namespace Cos

theorem length_fsReadLoop (s : Cos) (i : Nat) (node : Inode) (off size done : Nat) :
    (s.fsReadLoop i node off size done).length = size - done := by
  fun_induction fsReadLoop s i node off size done with
  | case1 done hlt cur offsetInBlock phys sec chunk ih =>
    rw [List.length_append, List.length_map, List.length_range, ih]
    omega
  | case2 done hge =>
    rw [List.length_nil]
    omega

theorem length_fsRead (s : Cos) (i : Nat) (node : Inode) (off n : Nat) :
    (s.fsRead i node off n).length = readLength node.size off n := by
  unfold fsRead readLength
  split
  · rfl
  · exact length_fsReadLoop s i node off _ 0

end Cos

namespace Fat

variable (s : Fat)

theorem length_clusterBytes (c : Nat) : (s.clusterData c).length = s.clusterBytes := by
  simp [clusterData, clusterBytes, List.length_flatMap]

/-- The chain from `first` has a cluster for each of the first `m` bytes. -/
def Covers (first m : Nat) : Prop :=
  m = 0 ∨ inChain (s.skipClusters ((m - 1) / s.clusterBytes) first) = true

variable {s}

theorem inChain_skipClusters_succ (n c : Nat) :
    inChain (s.skipClusters (n + 1) c) = true ↔
      inChain c = true ∧ inChain (s.skipClusters n (s.fatEntryGet c)) = true := by
  rw [skipClusters]
  split
  · next h => exact (and_iff_right h).symm
  · next h => exact ⟨fun h' => absurd h' h, fun h' => absurd h'.1 h⟩

theorem inChain_skipClusters_add (n k c : Nat) :
    inChain (s.skipClusters k (s.skipClusters n c)) = true ↔
      inChain (s.skipClusters (n + k) c) = true := by
  induction n generalizing c with
  | zero => rw [skipClusters, Nat.zero_add]
  | succ n ih =>
    rw [Nat.add_right_comm, inChain_skipClusters_succ, skipClusters]
    split
    · next h =>
      rw [ih]
      exact (and_iff_right h).symm
    · next h =>
      -- the walk stops at `c`
      refine ⟨fun h' => absurd ?_ h, fun h' => absurd h'.1 h⟩
      cases k with
      | zero => exact h'
      | succ k => exact ((inChain_skipClusters_succ k c).mp h').1

/-- The loop of `fat32_read` gets as far as the chain does. -/
theorem le_length_readLoop_iff (rounds : Nat) : ∀ {size c off m : Nat}, size < rounds →
    off < s.clusterBytes → m ≤ size → 0 < m →
    (m ≤ (s.readLoop rounds size c off).length ↔
      inChain (s.skipClusters ((off + m - 1) / s.clusterBytes) c) = true) := by
  induction rounds with
  | zero => intro size c off m h; omega
  | succ rounds ih =>
    intro size c off m hr hoff hm h0
    rw [readLoop]
    by_cases hc : inChain c = true
    · rw [if_pos ⟨by omega, hc⟩]
      simp only
      rw [List.length_append]
      have hlen : (((s.clusterData c).drop off).take size).length =
          min size (s.clusterBytes - off) := by
        rw [List.length_take, List.length_drop, length_clusterBytes]
      rw [hlen]
      by_cases hin : m ≤ s.clusterBytes - off
      · -- the `m` bytes are in this cluster
        rw [Nat.div_eq_of_lt (by omega), skipClusters]
        exact ⟨fun _ => hc, fun _ => by omega⟩
      · have hdiv : (off + m - 1) / s.clusterBytes =
            (0 + (m - (s.clusterBytes - off)) - 1) / s.clusterBytes + 1 := by
          rw [← Nat.add_div_right _ (by omega : 0 < s.clusterBytes)]
          congr 1
          omega
        rw [hdiv, inChain_skipClusters_succ, and_iff_right hc,
          ← @ih (size - min size (s.clusterBytes - off)) (s.fatEntryGet c) 0
            (m - (s.clusterBytes - off)) (by omega) (by omega) (by omega) (by omega)]
        omega
    · rw [if_neg (fun h => hc h.2), List.length_nil]
      refine ⟨fun h => by omega, fun h => absurd ?_ hc⟩
      cases hk : (off + m - 1) / s.clusterBytes with
      | zero => simpa only [hk, skipClusters] using h
      | succ k =>
        rw [hk] at h
        exact ((inChain_skipClusters_succ k c).mp h).1

theorem length_readLoop_le (rounds : Nat) : ∀ {size c off : Nat},
    (s.readLoop rounds size c off).length ≤ size := by
  induction rounds with
  | zero => intro size c off; exact Nat.zero_le _
  | succ rounds ih =>
    intro size c off
    rw [readLoop]
    split
    · simp only [List.length_append]
      have hchunk := List.length_take_le size ((s.clusterData c).drop off)
      have hrest := @ih (size - (((s.clusterData c).drop off).take size).length)
        (s.fatEntryGet c) 0
      omega
    · exact Nat.zero_le _

theorem length_fat32Read_le (first size off n : Nat) :
    (s.fat32Read first size off n).length ≤ Cos.readLength size off n := by
  unfold fat32Read Cos.readLength
  split
  · exact Nat.zero_le _
  split
  · exact Nat.zero_le _
  · exact length_readLoop_le _

/-- `fat32_read` gets as far as the chain does. -/
theorem le_length_fat32Read_iff {first size off n m : Nat} (hmnt : s.gFat32.mounted = true)
    (hbytes : s.clusterBytes ≠ 0) (hoff : off < size) (h0 : 0 < m)
    (hm : m ≤ Cos.readLength size off n) :
    m ≤ (s.fat32Read first size off n).length ↔ s.Covers first (off + m) := by
  have hpos : 0 < s.clusterBytes := by omega
  rw [Cos.readLength, if_neg (by omega)] at hm
  rw [fat32Read, hmnt, if_neg (by decide), if_neg (by omega)]
  simp only
  rw [le_length_readLoop_iff _ (Nat.lt_succ_self _) (Nat.mod_lt _ hpos) hm h0,
    inChain_skipClusters_add, Covers, or_iff_right (by omega)]
  have hdiv : off / s.clusterBytes + (off % s.clusterBytes + m - 1) / s.clusterBytes =
      (off + m - 1) / s.clusterBytes := by
    have hsplit := Nat.div_add_mod off s.clusterBytes
    rw [show off + m - 1 = off % s.clusterBytes + m - 1 + s.clusterBytes * (off / s.clusterBytes) by
      omega, Nat.add_mul_div_left _ _ hpos, Nat.add_comm]
  rw [hdiv]

end Fat

/-- The bytes of a file of `size` bytes from `off` on, up to `n` of them. -/
def wanted (size off n : Nat) : Nat := if size ≤ off then 0 else min n (size - off)

variable {size off n fd : Nat}

/-- The clamp is right as long as the sum does not wrap. -/
theorem readLength_eq_wanted (h : off + n < 2 ^ 32) :
    Cos.readLength size off n = wanted size off n := by
  unfold Cos.readLength wanted
  rw [Nat.mod_eq_of_lt h]
  split
  · rfl
  · split <;> omega

/-- A sum that wraps is smaller than the offset, and the clamp is not made. -/
theorem readLength_of_wraps (hoff : off < size) (hn : n < 2 ^ 32) (hsize : size < 2 ^ 32)
    (h : 2 ^ 32 ≤ off + n) :
    Cos.readLength size off n = n ∧ size - off < n ∧ wanted size off n = size - off := by
  unfold Cos.readLength wanted
  rw [if_neg (by omega), if_neg (by omega), if_neg (by omega)]
  omega

theorem Cos.length_fsRead_eq_wanted_iff (s : Cos) (i : Nat) {node : Inode}
    (hsize : node.size < 2 ^ 32) (hn : n < 2 ^ 32) :
    (s.fsRead i node off n).length = wanted node.size off n ↔
      node.size ≤ off ∨ off + n < 2 ^ 32 := by
  rw [length_fsRead]
  by_cases hoff : node.size ≤ off
  · refine iff_of_true ?_ (.inl hoff)
    rw [readLength, if_pos hoff, wanted, if_pos hoff]
  · by_cases hsum : off + n < 2 ^ 32
    · exact iff_of_true (readLength_eq_wanted hsum) (.inr hsum)
    · obtain ⟨hlen, hlt, hwant⟩ := readLength_of_wraps (Nat.lt_of_not_le hoff) hn hsize
        (Nat.le_of_not_lt hsum)
      exact iff_of_false (by omega) (by omega)

namespace Fat

/-- What `fat32_read` needs of the volume, for an offset inside the file: a mounted volume, and a
chain as long as what is wanted. If the sum wraps then nothing is clamped, and the chain has to end
where the file does. -/
def ReadFits (s : Fat) (first size off n : Nat) : Prop :=
  if s.gFat32.mounted = true then
    s.clusterBytes ≠ 0 ∧
      if off + n < 2 ^ 32 then n = 0 ∨ s.Covers first (off + min n (size - off))
      else s.Covers first size ∧ ¬ s.Covers first (size + 1)
  else n = 0

theorem length_fat32Read_eq_wanted_iff {s : Fat} {first : Nat} (hsize : size < 2 ^ 32)
    (hn : n < 2 ^ 32) (hoff : off < size) :
    ¬ (s.gFat32.mounted = true ∧ s.clusterBytes = 0) ∧
        (s.fat32Read first size off n).length = wanted size off n ↔
      s.ReadFits first size off n := by
  have hwant : wanted size off n = min n (size - off) := if_neg (by omega)
  have hle := length_fat32Read_le (s := s) first size off n
  unfold ReadFits
  by_cases hmnt : s.gFat32.mounted = true
  · rw [if_pos hmnt, not_and, imp_iff_right hmnt]
    refine and_congr_right fun hbytes => ?_
    have hiff : ∀ m, 0 < m → m ≤ Cos.readLength size off n →
        (m ≤ (s.fat32Read first size off n).length ↔ s.Covers first (off + m)) :=
      fun m h0 hm => le_length_fat32Read_iff hmnt hbytes hoff h0 hm
    by_cases hsum : off + n < 2 ^ 32
    · rw [if_pos hsum]
      rw [readLength_eq_wanted hsum] at hle hiff
      by_cases h0 : n = 0
      · exact iff_of_true (by omega) (.inl h0)
      · rw [or_iff_right h0, ← hwant, ← hiff _ (by omega) le_rfl]
        omega
    · rw [if_neg hsum]
      obtain ⟨hlen, hlt, hwant⟩ := readLength_of_wraps hoff hn hsize (by omega)
      rw [hlen] at hle hiff
      -- the read ends with the chain: it is long enough, and not a byte longer
      have hlong := hiff (size - off) (by omega) (by omega)
      have hend := hiff (size - off + 1) (by omega) (by omega)
      rw [show off + (size - off) = size by omega] at hlong
      rw [show off + (size - off + 1) = size + 1 by omega] at hend
      rw [hwant, ← hlong, ← hend]
      omega
  · rw [if_neg hmnt, fat32Read, hwant]
    simp [hmnt]
    omega

end Fat

/-! ### Reads through a descriptor -/

namespace Vfs

variable {v v' : Vfs} {f : VfsFile}

/-- The volume of a FAT mount, with `g_fat32` as `ctx_enter` makes it. -/
def enteredFat (v : Vfs) (i : Nat) : Fat := (v.ctxEnter i).fatOn (v.mounts i).drive

/-- The size of the open file `f`: `fs_read` goes by the inode, and `fat32_read` by the size that
the descriptor has. -/
def fileSize (v : Vfs) (f : VfsFile) : Nat :=
  match (v.mounts f.mount).fs with
  | .cosfs => ((v.enteredCos f.mount).readInode f.id).size
  | .fat32 => f.size

/-- `fat32_read` divides by `cluster_bytes`, and this is 0. -/
def ReadTraps (v : Vfs) (f : VfsFile) (off : Nat) : Prop :=
  (v.mounts f.mount).fs = .fat32 ∧ off < f.size ∧
    (v.enteredFat f.mount).gFat32.mounted = true ∧ (v.enteredFat f.mount).clusterBytes = 0

/-- The result of a read of `n` bytes at `off` is bounded by the file: what is wanted is the number
of bytes that it stores, and the `long` that it returns. -/
def ReadBounded (v : Vfs) (f : VfsFile) (off n : Nat) (r : Option (List Byte)) : Prop :=
  ¬ v.ReadTraps f off ∧ ∃ bytes, r = some bytes ∧
    bytes.length = wanted (v.fileSize f) off n ∧
    toLong bytes.length = wanted (v.fileSize f) off n

/-- The reads that are bounded by the file. -/
def ReadFits (v : Vfs) (f : VfsFile) (off n : Nat) : Prop :=
  wanted (v.fileSize f) off n < 2 ^ 31 ∧ (v.fileSize f ≤ off ∨
    match (v.mounts f.mount).fs with
    | .cosfs => off + n < 2 ^ 32
    | .fat32 => (v.enteredFat f.mount).ReadFits f.id f.size off n)

theorem toLong_eq_iff (h : n < 2 ^ 32) : toLong n = n ↔ n < 2 ^ 31 := by
  unfold toLong
  rw [Int.bmod_def]
  split <;> omega

theorem wanted_lt (h : n < 2 ^ 32) : wanted size off n < 2 ^ 32 := by
  unfold wanted
  split <;> omega

theorem mounts_ctxEnter (v : Vfs) (i : Nat) : (v.ctxEnter i).mounts = v.mounts := by
  unfold ctxEnter
  dsimp only
  split
  · split <;> rfl
  · rfl

/-- `read_at`, once the context of the mount is entered. -/
theorem readAt_bytes (v : Vfs) (f : VfsFile) (off n : Nat) :
    ((v.ctxEnter f.mount).readAt ((v.ctxEnter f.mount).mounts f.mount) f off n).2 =
      match (v.mounts f.mount).fs with
      | .cosfs => (v.enteredCos f.mount).fsRead f.id ((v.enteredCos f.mount).readInode f.id) off n
      | .fat32 => (v.enteredFat f.mount).fat32Read f.id f.size off n := by
  rw [mounts_ctxEnter, readAt, enteredCos, enteredFat]
  generalize v.ctxEnter f.mount = w
  cases (v.mounts f.mount).fs <;> simp only

theorem readAt_bounded_iff (hsize : f.size < 2 ^ 32) (hn : n < 2 ^ 32) :
    v.ReadBounded f off n
        (some ((v.ctxEnter f.mount).readAt ((v.ctxEnter f.mount).mounts f.mount) f off n).2) ↔
      v.ReadFits f off n := by
  rw [readAt_bytes]
  unfold ReadBounded ReadFits ReadTraps fileSize
  simp only [Option.some.injEq, exists_eq_left']
  have hlong : ∀ (bytes : List Byte) (size : Nat), (bytes.length = wanted size off n ∧
      toLong bytes.length = wanted size off n ↔
        wanted size off n < 2 ^ 31 ∧ bytes.length = wanted size off n) := by
    intro bytes size
    rw [and_comm]
    refine and_congr_left fun h => ?_
    rw [h, toLong_eq_iff (wanted_lt hn)]
  cases hfs : (v.mounts f.mount).fs with
  | cosfs =>
    simp only [hlong, reduceCtorEq, false_and, not_false_eq_true, true_and]
    exact and_congr_right fun _ =>
      Cos.length_fsRead_eq_wanted_iff _ _ (Buf.get32_lt _ _) hn
  | fat32 =>
    simp only [hlong, true_and]
    rw [← and_assoc, and_comm (a := ¬ _), and_assoc]
    refine and_congr_right fun _ => ?_
    by_cases hoff : f.size ≤ off
    · refine iff_of_true ⟨fun h => by omega, ?_⟩ (.inl hoff)
      have := Fat.length_fat32Read_le (s := v.enteredFat f.mount) f.id f.size off n
      rw [Cos.readLength, if_pos hoff] at this
      rw [wanted, if_pos hoff]
      omega
    · have hlt : off < f.size := by omega
      rw [or_iff_right hoff, and_iff_right hlt]
      exact Fat.length_fat32Read_eq_wanted_iff hsize hn hlt

/-- For which offsets and counts a read is bounded by the file, on both file systems. -/
theorem reads_bounded_iff (hwords : Words v) (hf : v.fget fd = some f)
    (off : Nat) (hn : n < 2 ^ 32) :
    (v.ReadBounded f off n (v.vfsPread fd off n).1 ↔ v.ReadFits f off n) ∧
      (v.ReadBounded f f.pos n (v.vfsRead fd n).1 ↔ v.ReadFits f f.pos n) := by
  obtain ⟨-, -, rfl⟩ := fget_eq_some hf
  rw [vfsPread, vfsRead, hf]
  exact ⟨readAt_bounded_iff (hwords fd).2 hn, readAt_bounded_iff (hwords fd).2 hn⟩

/-- A descriptor for reading `/f`, a file of 1024 bytes. -/
def fReader : VfsFile := ⟨true, 0, false, false, 0, 1024, 6, Cos.fPath⟩

/-- The file of `Cos.staleFile`, opened. -/
def readerOn : Vfs := single Cos.staleFile (Function.update (fun _ => zeroFile) 0 fReader) 1

theorem words_readerOn : Words readerOn := by
  intro fd
  by_cases h : fd = 0
  · subst h
    exact ⟨by decide, by decide⟩
  · have hfile : readerOn.files fd = zeroFile := by
      simp only [readerOn, single, Function.update_of_ne h]
    rw [hfile]
    exact ⟨by decide, by decide⟩

theorem fileSize_single (s : Cos) (files : Nat → VfsFile) (n : Int) (hf : f.mount = 0) :
    (single s files n).fileSize f = (s.readInode f.id).size := by
  have hfs : ((single s files n).mounts f.mount).fs = .cosfs := by rw [hf]; rfl
  rw [fileSize, hfs, hf]
  rfl

theorem fileSize_readerOn : readerOn.fileSize fReader = 1024 := by
  obtain ⟨-, v, hrep, hv⟩ := Cos.staleFile_spec
  rw [readerOn, fileSize_single _ _ _ rfl, hrep.ino fReader.id (by decide)]
  exact hv.size

/-- The first 16 bytes of the file. -/
theorem reads_bounded_iff_sixteen :
    readerOn.ReadBounded fReader 0 16 (readerOn.vfsPread 0 0 16).1 := by
  refine (reads_bounded_iff words_readerOn (f := fReader) rfl 0 (by decide)).1.mpr ⟨?_, ?_⟩
  · rw [fileSize_readerOn]
    decide
  · exact .inr (by decide : 0 + 16 < 2 ^ 32)

/-- From byte 1 of a file of 1024 bytes, `vfs_pread` stores all of the 2³² - 1 bytes asked for. -/
theorem pread_past_end : readerOn.fget 0 = some fReader ∧ readerOn.fileSize fReader = 1024 ∧
    ¬ readerOn.ReadBounded fReader 1 (2 ^ 32 - 1) (readerOn.vfsPread 0 1 (2 ^ 32 - 1)).1 := by
  refine ⟨rfl, fileSize_readerOn, fun h => ?_⟩
  have hget : readerOn.fget 0 = some fReader := rfl
  rw [vfsPread, hget] at h
  rcases ((readAt_bounded_iff (by decide) (by decide)).mp h).2 with hsize | hsum
  · rw [fileSize_readerOn] at hsize
    omega
  · exact absurd hsum (by decide : ¬ 1 + (2 ^ 32 - 1) < 2 ^ 32)

/-! ### The buffer for a file that is rewritten -/

/-- The calls that change a descriptor. -/
inductive FileCall where
  | open (path : CStr) (fl : OpenFlags)
  | close (fd : Int)
  | read (fd : Int) (count : Nat)
  | write (fd : Int) (data : List Byte)
  | lseek (fd : Int) (offset whence : Int)

/-- The state that a call leaves behind. -/
def FileCall.run (v : Vfs) : FileCall → Option Vfs
  | .open path fl => (v.vfsOpen path fl).map (·.2)
  | .close fd => some (v.vfsClose (fdIndex fd)).2
  | .read fd count => some (v.vfsRead (fdIndex fd) count).2
  | .write fd data => (v.vfsWrite (fdIndex fd) data).map (·.2)
  | .lseek fd offset whence => some (v.vfsLseek (fdIndex fd) offset whence).2

/-- The states reached by calls on descriptors from one in which none was opened yet. -/
inductive FileRun : Vfs → Prop where
  | start {v : Vfs} (h : v.files = fun _ => zeroFile) : FileRun v
  | call {v v' : Vfs} (h : FileRun v) (c : FileCall) (hc : c.run v = some v') : FileRun v'

theorem Words.fileCall {c : FileCall} (h : Words v) (hc : c.run v = some v') : Words v' := by
  cases c with
  | «open» path fl =>
    obtain ⟨r, hr, rfl⟩ := Option.map_eq_some_iff.mp hc
    exact h.openLocked hr
  | close fd =>
    cases hc
    exact h.vfsClose _
  | read fd count =>
    cases hc
    exact (onFile_vfsRead h _ _).2
  | write fd data =>
    obtain ⟨r, hr, rfl⟩ := Option.map_eq_some_iff.mp hc
    exact (onFile_vfsWrite h hr).2
  | lseek fd offset whence =>
    cases hc
    exact (onFile_vfsLseek h _ _ _).2

theorem FileRun.words (h : FileRun v) : Words v := by
  induction h with
  | start h =>
    intro fd
    rw [h]
    exact ⟨Nat.two_pow_pos 32, Nat.two_pow_pos 32⟩
  | call _ c hc ih => exact ih.fileCall hc

/-- `vfs_write` of `data` comes to `fat_write_at`, which rewrites the file; `f` is the descriptor
that it is given. -/
structure Rewrites (v : Vfs) (fd : Nat) (data : List Byte) (f : VfsFile) : Prop where
  file : ∃ g, v.fget fd = some g ∧ g.writable = true ∧
    f = if g.append then { g with pos := g.size } else g
  fat : (v.mounts f.mount).fs = .fat32
  data : data ≠ []
  parent : ∃ parent leaf dc, splitRel f.rel = some (parent, leaf) ∧
    (v.enteredFat f.mount).fatParentCluster parent = some (.ok dc)
  apart : f.pos ≠ f.size

theorem Rewrites.words {data : List Byte} (h : v.Rewrites fd data f) (hwords : Words v) :
    f.pos < 2 ^ 32 ∧ f.size < 2 ^ 32 := by
  obtain ⟨g, hg, -, hf⟩ := h.file
  obtain ⟨-, -, rfl⟩ := fget_eq_some hg
  rw [hf]
  split
  · exact ⟨(hwords fd).2, (hwords fd).2⟩
  · exact hwords fd

theorem le_rewriteTotal_iff {pos len : Nat} (hsize : size < 2 ^ 32) :
    pos + len ≤ rewriteTotal size pos len ∧ size ≤ rewriteTotal size pos len ↔
      pos + len < 2 ^ 32 := by
  have hmod := Nat.mod_lt (pos + len) (Nat.two_pow_pos 32)
  unfold rewriteTotal
  constructor
  · rintro ⟨h, -⟩
    dsimp only at h
    split at h <;> omega
  · intro h
    rw [Nat.mod_eq_of_lt h]
    dsimp only
    split <;> omega

/-- When the old contents and the new data both have room in the buffer. -/
theorem rewrite_fits_iff (hrun : FileRun v) {data : List Byte}
    (h : v.Rewrites fd data f) :
    f.pos + data.length ≤ rewriteTotal f.size f.pos data.length ∧
        f.size ≤ rewriteTotal f.size f.pos data.length ↔
      f.pos + data.length < 2 ^ 32 :=
  le_rewriteTotal_iff (h.words hrun.words).2

/-- The directory sector with one record, the empty file `F`. -/
def fDirSector : Sector :=
  putDirent Buf.zero 0
    (Dirent.setFields (Buf.ofFn fun i => if i = 0 then 0x46 else 0x20) 0x20 0 0)

/-- The first sector of the FAT; the root directory has one cluster. -/
def fFatSector : Sector :=
  ((Buf.zero.put32 0 0x0FFFFFF8).put32 4 0x0FFFFFFF).put32 8 0x0FFFFFFF

/-- A FAT drive of 600000 sectors, mounted at `/`. -/
def fatMounted : Vfs where
  activeDrives := 1
  drives := fun _ => ⟨0x1F0, 0, 600000, ⟨fun lba => if lba = 32 then fFatSector else
    if lba = 618 then fFatSector else if lba = 1204 then fDirSector else Buf.zero, []⟩⟩
  cos := ⟨Buf.zero, Superblock.decode Buf.zero, 0, 0, 0⟩
  gFat32 := zeroFat32
  mounts := fun i => if i = 0 then
    ⟨true, 0, .fat32, true, 0, 0, 0, rootPath,
      ⟨512, 8, 32, 2, 586, 600000, 2, 1, 0, 32, 1204, 74849, 3, true⟩⟩
    else zeroMount
  root := some 0
  files := fun _ => zeroFile
  cwd := rootPath
  cosLoaded := none
  seq := 0

/-- `O_WRONLY`. -/
def wronly : OpenFlags := ⟨true, false, false, false, false⟩

/-- The descriptor of the file `F`, at position 5. -/
def fWriter : VfsFile := ⟨true, 0, true, false, 5, 0, 0, Cos.fPath⟩

deriving instance DecidableEq for VfsFile

/-- The file is opened and the position moved to 5. -/
theorem exists_fileRun_rewrites : ∃ v, FileRun v ∧
    ∀ data, data ≠ [] → v.Rewrites 0 data fWriter := by
  have hopen : (fatMounted.vfsOpen Cos.fPath wronly).map (fun r =>
      (r.2.files 0, decide ((r.2.mounts 0).fs = .fat32))) =
      some ({ fWriter with pos := 0 }, true) := by decide +kernel
  obtain ⟨r, hr, hfile⟩ := Option.map_eq_some_iff.mp hopen
  obtain ⟨hfile, hfs⟩ := Prod.mk.inj hfile
  have hget : r.2.fget 0 = some { fWriter with pos := 0 } := by
    rw [fget, hfile]
    exact if_pos ⟨by decide, rfl⟩
  have hseek : (r.2.vfsLseek 0 5 0).2 = r.2.setFile 0 fWriter := by
    rw [vfsLseek, hget]
    rfl
  refine ⟨r.2.setFile 0 fWriter, ((FileRun.start rfl).call (.open Cos.fPath wronly)
    (Option.map_eq_some_iff.mpr ⟨r, hr, rfl⟩)).call (.lseek 0 5 0) (congrArg some hseek),
    fun data hdata => ?_⟩
  exact
    { file := ⟨fWriter, by rw [fget, files_setFile, if_pos rfl]; exact if_pos ⟨by decide, rfl⟩,
        rfl, rfl⟩
      fat := of_decide_eq_true hfs
      data := hdata
      parent := ⟨rootPath, Cos.fName, _, by decide, if_pos rfl⟩
      apart := by decide }

/-- A write of one byte behind the end of the file. -/
theorem rewrite_fits_iff_one : ∃ v, FileRun v ∧ v.Rewrites 0 [1] fWriter ∧
    5 + 1 ≤ rewriteTotal 0 5 1 ∧ 0 ≤ rewriteTotal 0 5 1 := by
  obtain ⟨v, hrun, h⟩ := exists_fileRun_rewrites
  exact ⟨v, hrun, h [1] (by decide), (rewrite_fits_iff hrun (h [1] (by decide))).mpr (by decide)⟩

/-- A write of 2³² - 1 bytes at position 5 has a buffer of 4 bytes. -/
theorem rewrite_overruns : ∃ v data, FileRun v ∧ v.Rewrites 0 data fWriter ∧
    data.length = 2 ^ 32 - 1 ∧ rewriteTotal fWriter.size fWriter.pos data.length = 4 ∧
    ¬ fWriter.pos + data.length ≤ rewriteTotal fWriter.size fWriter.pos data.length := by
  obtain ⟨v, hrun, h⟩ := exists_fileRun_rewrites
  have hlen : (List.replicate (2 ^ 32 - 1) (0 : Byte)).length = 2 ^ 32 - 1 := List.length_replicate
  refine ⟨v, List.replicate (2 ^ 32 - 1) 0, hrun, h _ fun hnil => ?_, hlen, ?_, ?_⟩
  · rw [hnil] at hlen
    exact absurd hlen (by decide)
  · rw [hlen]
    decide
  · rw [hlen]
    decide

end Vfs

end Crusadia
