import Crusadia.Cos.Write

/-!
# Crusadia.Cos.Read

`fs_read` in **closed form**: the bytes it stores are the `fileByte`s of its range, cut at
the file's size (`Rep.fsRead_eq`). The 32-bit position wraps in the source and here;
inside a file it never does.
-/

namespace Crusadia

namespace Cos

/-- The number of bytes `fs_read` returns for a request of `n` bytes at `off` from a file
of `size` bytes. -/
def readLength (size off n : Nat) : Nat :=
  if off ≥ size then 0 else if (off + n) % 2 ^ 32 > size then size - off else n

end Cos

namespace Rep

variable {L : Layout} {s : Cos} {v : Img} {i : Nat}

section

variable (h : Rep L s v) (hb : Img.Blocks L v) (hi : i < L.sb.inodeCount) (hu : v.used i = true)
include h hb hi hu

/-- The loop of `fs_read` from any of its rounds. -/
theorem fsReadLoop_eq (off size n : Nat) : ∀ done, size - done = n →
    s.fsReadLoop i (v.ino i) off size done =
      (List.range' done (size - done)).map fun k => v.fileByte L i ((off + k) % 2 ^ 32) := by
  induction n using Nat.strongRecOn with
  | _ n ih =>
  intro done hn
  rw [Cos.fsReadLoop]
  split
  · rename_i hlt
    set cur := (off + done) % 2 ^ 32
    set c := min (512 - cur % 512) (size - done) with hc
    have hsec : ∀ j, j < c →
        (if v.dataBlock L i (cur / 512) = 0 then (Buf.zero : Sector)
          else s.blockRead (v.dataBlock L i (cur / 512))).get (cur % 512 + j) =
            v.fileByte L i ((off + (done + j)) % 2 ^ 32) := by
      intro j hj
      -- A chunk stays in its sector, and 512 divides 2 ^ 32.
      have hpos : (off + (done + j)) % 2 ^ 32 = cur + j := by omega
      have hdiv : (cur + j) / 512 = cur / 512 := by omega
      have hmod : (cur + j) % 512 = cur % 512 + j := by omega
      rw [hpos, Img.fileByte, hdiv, hmod]
      split
      · exact Buf.get_zero _
      · rename_i h0
        obtain ⟨r, p, -, hx, -, hd⟩ := Img.exists_path h0
        rw [hd] at h0 ⊢
        rw [h.blockRead_ptr hb hx h0]
    have hrest := ih (size - (done + c)) (by omega) (done + c) rfl
    simp only [sectorSize, h.getPhysicalBlock_read hb hi hu, ← hc, hrest]
    rw [show size - done = c + (size - (done + c)) by omega, ← List.range'_append_1,
      List.map_append]
    congr 1
    rw [List.range'_eq_map_range, List.map_map]
    refine List.map_congr_left fun j hj => ?_
    exact hsec j (List.mem_range.mp hj)
  · rename_i hge
    rw [show size - done = 0 by omega]
    rfl

/-- `fs_read` on a used inode. -/
theorem fsRead_eq (off n : Nat) :
    s.fsRead i (v.ino i) off n =
      (List.range (Cos.readLength (v.ino i).size off n)).map fun k =>
        v.fileByte L i ((off + k) % 2 ^ 32) := by
  rw [Cos.fsRead, Cos.readLength]
  split
  · rfl
  · rw [h.fsReadLoop_eq hb hi hu off _ _ 0 rfl, Nat.sub_zero, List.range_eq_range']

end

end Rep

namespace Img

variable {L : Layout} {v v' : Img} {i j : Nat}

/-- Another inode's data. -/
theorem Frame.fileByte (h : Frame L i v v') (hj : j ≠ i) (pos : Nat) :
    v'.fileByte L j pos = v.fileByte L j pos := by
  have hd : v'.dataBlock L j (pos / 512) = v.dataBlock L j (pos / 512) :=
    dataBlock_congr (fun r p hp => h.ptr (j, r) p hp hj) _
  rw [Img.fileByte, Img.fileByte, hd]
  split
  · rfl
  · rename_i h0
    obtain ⟨r, p, -, hx, -, heq⟩ := exists_path h0
    rw [heq] at h0 ⊢
    rw [h.blk (j, r) p hx hj h0]

end Img

end Crusadia
