import HgXv6.Base
import HgXv6.Lib.Outcome
import HgXv6.Lib.Overlay

set_option relaxedAutoImplicit false
set_option autoImplicit false

/-!
# Files

The contents of regular files as the kernel reads and writes them (`fs.c`, `file.c`): block by
block through `bmap`, and for a long write in several transactions. Nothing is ever truncated: a
write replaces bytes and extends the file.

An inode is a table of blocks, of which some may not be allocated. The disk is taken to have free
blocks; if it has none, `balloc` panics.

## Main definitions

* `HgXv6.Inode`, `HgXv6.Inode.content` — a file, and its bytes.
* `HgXv6.bmap`, `HgXv6.readi`, `HgXv6.writei`, `HgXv6.filewrite` — the source functions.

## Main results

* `HgXv6.readi_ok` — a read returns the bytes there are.
* `HgXv6.writei_ok` — a write that fits lays its bytes over the contents.
* `HgXv6.filewrite_ok` — so does a long one that returns its length.
-/

namespace HgXv6

open Prog

/-! ## The functions -/

/-- `#define BSIZE 512` -/
abbrev BSIZE : ℕ := 512

/-- `#define NDIRECT 12` -/
abbrev NDIRECT : ℕ := 12

/-- `#define NINDIRECT (BSIZE / sizeof(uint))` -/
abbrev NINDIRECT : ℕ := BSIZE / 4

/-- `#define MAXFILE (NDIRECT + NINDIRECT)` -/
abbrev MAXFILE : ℕ := NDIRECT + NINDIRECT

/-- `#define LOGSIZE (MAXOPBLOCKS*3)` -/
abbrev LOGSIZE : ℕ := 10 * 3

/-- The inode of a regular file: the data of its blocks, by their index in the file, and its
size. -/
structure Inode where
  /-- `none` for a block that is not allocated -/
  block : ℕ → Option (ℕ → UInt8)
  size : ℕ

/-- Replace the data of a block. -/
def Inode.store (bn : ℕ) (b : ℕ → UInt8) (ip : Inode) : Inode :=
  { ip with block := Function.update ip.block bn (some b) }

/-- `bread(ip->dev, bmap(ip, bn))`: the data of a block, which is allocated, and zeroed, if it
was not. -/
def bmap (bn : ℕ) (ip : Inode) : Except Stop ((ℕ → UInt8) × Inode) :=
  if bn < MAXFILE then
    match ip.block bn with
    | some b => .ok (b, ip)
    | none => .ok (fun _ => 0, ip.store bn fun _ => 0)
  else .error (.panic "bmap: out of range")

/-- The loop of `readi`, with `n` bytes to go, in at most `k` passes. -/
def readLoop : ℕ → ℕ → ℕ → Inode → Except Stop (List UInt8 × Inode)
  | 0, _, _, ip => .ok ([], ip)
  | k + 1, n, off, ip =>
    if n = 0 then .ok ([], ip)
    else bmap (off / BSIZE) ip >>= fun (b, ip) =>
      let m := min n (BSIZE - off % BSIZE)
      readLoop k (n - m) (off + m) ip >>= fun (rest, ip) =>
        .ok (firstOf (fun i => b (off % BSIZE + i)) m ++ rest, ip)

/-- `readi`: the bytes read, or `none` for `-1`. -/
def readi (off n : ℕ) (ip : Inode) : Except Stop (Option (List UInt8) × Inode) :=
  if off > ip.size ∨ (off + n) % 2 ^ 32 < off then .ok (none, ip)
  else
    let n := if off + n > ip.size then ip.size - off else n
    readLoop n n off ip >>= fun (bs, ip) => .ok (some bs, ip)

/-- The loop of `writei`, with the bytes `src` to go, in at most `k` passes: the offset it
reaches. -/
def writeLoop : ℕ → List UInt8 → ℕ → Inode → Except Stop (ℕ × Inode)
  | 0, _, off, ip => .ok (off, ip)
  | k + 1, src, off, ip =>
    if src = [] then .ok (off, ip)
    else bmap (off / BSIZE) ip >>= fun (b, ip) =>
      let m := min src.length (BSIZE - off % BSIZE)
      writeLoop k (src.drop m) (off + m)
        (ip.store (off / BSIZE) (overlay b (off % BSIZE) (src.take m)))

/-- `writei` -/
def writei (src : List UInt8) (off : ℕ) (ip : Inode) : Except Stop (ℤ × Inode) :=
  if off > ip.size ∨ (off + src.length) % 2 ^ 32 < off then .ok (-1, ip)
  else if off + src.length > MAXFILE * BSIZE then .ok (-1, ip)
  else writeLoop src.length src off ip >>= fun (off, ip) =>
    let ip := if src.length > 0 ∧ off > ip.size then { ip with size := off } else ip
    .ok (src.length, ip)

/-- `int max = ((LOGSIZE-1-1-2) / 2) * 512` -/
def maxWrite : ℕ := (LOGSIZE - 1 - 1 - 2) / 2 * 512

/-- The loop of `filewrite`, with `i` bytes written and the bytes `src` to go, in at most `k`
passes: the number of bytes written, and the offset of the open file. -/
def filewriteLoop : ℕ → List UInt8 → ℕ → ℕ → Inode → Except Stop (ℕ × ℕ × Inode)
  | 0, _, i, off, ip => .ok (i, off, ip)
  | k + 1, src, i, off, ip =>
    if src = [] then .ok (i, off, ip)
    else
      let chunk := src.take maxWrite
      writei chunk off ip >>= fun (r, ip) =>
      let off := if r > 0 then off + r.toNat else off
      if r < 0 then .ok (i, off, ip)
      else if r ≠ chunk.length then .error (.panic "short filewrite")
      else filewriteLoop k (src.drop maxWrite) (i + r.toNat) off ip

/-- `filewrite` of a writable file at `off`: its result and the offset after it. -/
def filewrite (src : List UInt8) (off : ℕ) (ip : Inode) : Except Stop (ℤ × ℕ × Inode) :=
  filewriteLoop src.length src 0 off ip >>= fun (i, off, ip) =>
    .ok (if i = src.length then (src.length : ℤ) else -1, off, ip)

/-! ## Contents -/

namespace Inode

/-- The byte at an offset; zero in a block that is not allocated. -/
def byte (ip : Inode) (i : ℕ) : UInt8 := ((ip.block (i / BSIZE)).getD fun _ => 0) (i % BSIZE)

/-- The contents of the file. -/
def content (ip : Inode) : List UInt8 := firstOf ip.byte ip.size

@[simp] theorem length_content (ip : Inode) : ip.content.length = ip.size := length_firstOf _ _

end Inode

/-- A block of the file is found, allocated or not, with the bytes of the file. -/
theorem bmap_ok (bn : ℕ) (ip : Inode) (h : bn < MAXFILE) : ∃ b ip', bmap bn ip = .ok (b, ip') ∧
    ip'.byte = ip.byte ∧ ip'.size = ip.size ∧ ∀ i < BSIZE, b i = ip.byte (bn * BSIZE + i) := by
  have hdiv : ∀ i < BSIZE, (bn * BSIZE + i) / BSIZE = bn ∧ (bn * BSIZE + i) % BSIZE = i := by
    intro i hi
    unfold BSIZE at hi ⊢
    omega
  rcases hb : ip.block bn with _ | b
  · refine ⟨fun _ => 0, ip.store bn fun _ => 0, ?_, ?_, rfl, fun i hi => ?_⟩
    · simp only [bmap, if_pos h, hb]
    · funext i
      simp only [Inode.byte, Inode.store]
      by_cases hi : i / BSIZE = bn
      · rw [hi, Function.update_self, hb, Option.getD_some, Option.getD_none]
      · rw [Function.update_of_ne hi]
    · rw [Inode.byte, (hdiv i hi).1, hb, Option.getD_none]
  · refine ⟨b, ip, by simp only [bmap, if_pos h, hb], rfl, rfl, fun i hi => ?_⟩
    rw [Inode.byte, (hdiv i hi).1, (hdiv i hi).2, hb, Option.getD_some]

/-- The loop of `readi` returns the bytes, and the file keeps them. -/
theorem readLoop_ok (k n off : ℕ) (ip : Inode) (hk : n ≤ k) (hmax : off + n ≤ MAXFILE * BSIZE) :
    ∃ ip', readLoop k n off ip = .ok (firstOf (fun i => ip.byte (off + i)) n, ip') ∧
      ip'.byte = ip.byte ∧ ip'.size = ip.size := by
  induction k generalizing n off ip with
  | zero =>
    obtain rfl : n = 0 := by omega
    exact ⟨ip, rfl, rfl, rfl⟩
  | succ k ih =>
    by_cases hn : n = 0
    · subst hn
      exact ⟨ip, if_pos rfl, rfl, rfl⟩
    obtain ⟨b, ip₁, hmap, hbyte, hsize, hb⟩ := bmap_ok (off / BSIZE) ip (by
      unfold MAXFILE NDIRECT NINDIRECT BSIZE at *
      omega)
    set m := min n (BSIZE - off % BSIZE) with hm
    have hmod : off % BSIZE < BSIZE := Nat.mod_lt off (by decide)
    obtain ⟨ip₂, hrest, hbyte', hsize'⟩ := ih (n - m) (off + m) ip₁ (by omega) (by omega)
    refine ⟨ip₂, ?_, hbyte'.trans hbyte, hsize'.trans hsize⟩
    have hchunk : firstOf (fun i => b (off % BSIZE + i)) m =
        firstOf (fun i => ip.byte (off + i)) m := by
      refine firstOf_congr fun i hi => ?_
      have hdiv : off / BSIZE * BSIZE + off % BSIZE = off := Nat.div_add_mod' off BSIZE
      rw [hb _ (by omega), ← Nat.add_assoc, hdiv]
    simp only [readLoop, if_neg hn, hmap, ok_bind, ← hm, hrest, hchunk, hbyte]
    rw [show n = m + (n - m) by omega, firstOf_add, Nat.add_sub_cancel_left]
    simp only [Nat.add_assoc]

/-- A read within a file returns the bytes there are, and the file keeps them.

**Proof sketch.** The offset is within the file and the sum does not wrap, so that the first test
passes; the second cuts the length off at the end of the file. The loop returns the bytes from the
offset on (`readLoop_ok`), and these are the piece of the contents. -/
theorem readi_ok {off n : ℕ} {ip : Inode} (hoff : off ≤ ip.size)
    (hsize : ip.size ≤ MAXFILE * BSIZE) (h32 : off + n < 2 ^ 32) :
    ∃ ip', readi off n ip = .ok (some ((ip.content.drop off).take n), ip') ∧
      ip'.byte = ip.byte ∧ ip'.size = ip.size := by
  have hnowrap : ¬(off > ip.size ∨ (off + n) % 2 ^ 32 < off) := by
    rw [Nat.mod_eq_of_lt h32]
    omega
  set m := if off + n > ip.size then ip.size - off else n with hm
  have hm' : m = min n (ip.size - off) := by
    rw [hm]
    split_ifs
    · omega
    · omega
  obtain ⟨ip', hloop, hip'⟩ := readLoop_ok m m off ip le_rfl (by omega)
  refine ⟨ip', ?_, hip'⟩
  rw [readi, if_neg hnowrap]
  simp only [← hm, hloop, ok_bind]
  rw [Inode.content, drop_firstOf, take_firstOf, hm']

/-- Storing a block changes the bytes of that block. -/
theorem byte_store {ip : Inode} {b : ℕ → UInt8} {off : ℕ} (src : List UInt8)
    (hb : ∀ i < BSIZE, b i = ip.byte (off / BSIZE * BSIZE + i))
    (hfit : off % BSIZE + src.length ≤ BSIZE) :
    (ip.store (off / BSIZE) (overlay b (off % BSIZE) src)).byte = overlay ip.byte off src := by
  have hmod : off / BSIZE * BSIZE + off % BSIZE = off := Nat.div_add_mod' off BSIZE
  funext i
  simp only [Inode.byte, Inode.store]
  by_cases hi : i / BSIZE = off / BSIZE
  · have hmodi : off / BSIZE * BSIZE + i % BSIZE = i := hi ▸ Nat.div_add_mod' i BSIZE
    rw [hi, Function.update_self, Option.getD_some]
    -- within the block, the offset in the block and in the file differ by the block's start
    unfold overlay
    rw [hb _ (Nat.mod_lt i (by decide)), hmodi,
      show i % BSIZE - off % BSIZE = i - off by omega]
    simp only [show off % BSIZE ≤ i % BSIZE ↔ off ≤ i by omega]
  · rw [Function.update_of_ne hi]
    rcases Nat.lt_or_ge i off with hlt | hge
    · rw [overlay_of_lt hlt]
      rfl
    · rw [overlay_of_le]
      · rfl
      · by_contra hlt
        refine hi ?_
        unfold BSIZE at *
        omega

/-- The loop of `writei` lays the bytes over the contents, block by block. -/
theorem writeLoop_ok (k : ℕ) (src : List UInt8) (off : ℕ) (ip : Inode) (hk : src.length ≤ k)
    (hmax : off + src.length ≤ MAXFILE * BSIZE) : ∃ ip',
      writeLoop k src off ip = .ok (off + src.length, ip') ∧
      ip'.byte = overlay ip.byte off src ∧ ip'.size = ip.size := by
  induction k generalizing src off ip with
  | zero =>
    obtain rfl : src = [] := List.length_eq_zero_iff.mp (by omega)
    exact ⟨ip, rfl, by simp, rfl⟩
  | succ k ih =>
    by_cases hsrc : src = []
    · subst hsrc
      exact ⟨ip, if_pos rfl, by simp, rfl⟩
    have hlen := List.length_pos_of_ne_nil hsrc
    obtain ⟨b, ip₁, hmap, hbyte, hsize, hb⟩ := bmap_ok (off / BSIZE) ip (by
      unfold MAXFILE NDIRECT NINDIRECT BSIZE at *
      omega)
    simp only [writeLoop, if_neg hsrc, hmap, ok_bind]
    set m := min src.length (BSIZE - off % BSIZE) with hm
    have hmod : off % BSIZE < BSIZE := Nat.mod_lt off (by decide)
    have hm0 : 0 < m := by omega
    have htake : (src.take m).length = m := by simp [hm]
    have hdrop : (src.drop m).length = src.length - m := by simp
    rw [← hbyte] at hb
    have hstore := byte_store (src.take m) hb (by omega)
    obtain ⟨ip', hloop, hbyte', hsize'⟩ := ih (src.drop m) (off + m)
      (ip₁.store (off / BSIZE) (overlay b (off % BSIZE) (src.take m))) (by omega) (by omega)
    refine ⟨ip', ?_, ?_, hsize'.trans hsize⟩
    · rw [hloop, hdrop]
      congr 2
      omega
    · rw [hbyte', hstore, hbyte]
      conv_lhs => rw [show off + m = off + (src.take m).length by rw [htake]]
      rw [overlay_append, List.take_append_drop]

/-- A write that fits in a file returns its length and lays its bytes over the contents; one that
does not returns -1 and changes nothing.

**Proof sketch.** The first test passes as in `readi_ok`, and the second refuses exactly what is too
long. The loop lays the bytes over the contents (`writeLoop_ok`) and ends behind them, and the size
is the larger of the two. -/
theorem writei_ok (src : List UInt8) {off : ℕ} {ip : Inode} (hoff : off ≤ ip.size)
    (h32 : off + src.length < 2 ^ 32) :
    if MAXFILE * BSIZE < off + src.length then writei src off ip = .ok (-1, ip)
    else ∃ ip', writei src off ip = .ok (src.length, ip') ∧
      ip'.byte = overlay ip.byte off src ∧ ip'.size = max ip.size (off + src.length) := by
  have hnowrap : ¬(off > ip.size ∨ (off + src.length) % 2 ^ 32 < off) := by
    rw [Nat.mod_eq_of_lt h32]
    omega
  split_ifs with hmax
  · rw [writei, if_neg hnowrap, if_pos hmax]
  · obtain ⟨ip', hloop, hbyte, hsize⟩ := writeLoop_ok src.length src off ip le_rfl (not_lt.mp hmax)
    rw [writei, if_neg hnowrap, if_neg hmax, hloop]
    simp only [ok_bind]
    refine ⟨_, rfl, ?_, ?_⟩
    · split_ifs
      · exact hbyte
      · exact hbyte
    · split_ifs with hgrow
      · dsimp only
        omega
      · omega

/-- The loop of `filewrite`: all bytes are written if they fit, and if all have been written they
are laid over the contents.

**Proof sketch.** Induction on the number of passes. A pass writes a chunk by `writei_ok`; if it
does not fit the loop ends there, with fewer bytes written than there are, and if it does then the
next chunk begins where it ends, within the file. Two overlays one behind the other are the overlay
with both chunks. -/
theorem filewriteLoop_ok (k : ℕ) (src : List UInt8) (i off : ℕ) (ip : Inode)
    (hk : src.length ≤ k) (hoff : off ≤ ip.size) (hmax : off ≤ MAXFILE * BSIZE) :
    ∃ r, filewriteLoop k src i off ip = .ok r ∧
      (off + src.length ≤ MAXFILE * BSIZE → r.1 = i + src.length) ∧
      (r.1 = i + src.length → r.2.1 = off + src.length ∧
        r.2.2.byte = overlay ip.byte off src ∧
        r.2.2.size = max ip.size (off + src.length)) := by
  induction k generalizing src i off ip with
  | zero =>
    obtain rfl : src = [] := List.length_eq_zero_iff.mp (by omega)
    exact ⟨_, rfl, fun _ => rfl, fun _ => ⟨rfl, by simp, by simp [hoff]⟩⟩
  | succ k ih =>
    by_cases hsrc : src = []
    · subst hsrc
      exact ⟨_, if_pos rfl, fun _ => rfl, fun _ => ⟨rfl, by simp, by simp [hoff]⟩⟩
    have hlen := List.length_pos_of_ne_nil hsrc
    simp only [filewriteLoop, if_neg hsrc]
    set chunk := src.take maxWrite with hchunk
    have hclen : chunk.length = min maxWrite src.length := by simp [hchunk]
    have hmw : maxWrite = 6656 := rfl
    have hdrop : (src.drop maxWrite).length = src.length - maxWrite := by simp
    have hw := writei_ok chunk hoff (by
      unfold MAXFILE NDIRECT NINDIRECT BSIZE at hmax
      omega)
    split_ifs at hw with hbig
    · -- the chunk does not fit: the loop is left before the end
      refine ⟨(i, off, ip), ?_, fun hfit => by omega, fun hend => ?_⟩
      · simp only [hw, ok_bind]
        rfl
      · dsimp only at hend
        omega
    · obtain ⟨ip₁, hwritei, hbyte, hsize⟩ := hw
      have hclen0 : 0 < chunk.length := by omega
      simp only [hwritei, ok_bind]
      rw [if_pos (show (chunk.length : ℤ) > 0 by omega),
        if_neg (show ¬(chunk.length : ℤ) < 0 by omega), if_neg (not_not.mpr rfl),
        Int.toNat_natCast]
      obtain ⟨r, hr, hfits, hpost⟩ := ih (src.drop maxWrite) (i + chunk.length)
        (off + chunk.length) ip₁ (by omega) (by omega) (by omega)
      refine ⟨r, hr, fun hfit => ?_, fun hend => ?_⟩
      · have hall := hfits (by omega)
        omega
      obtain ⟨h1, h2, h3⟩ := hpost (by omega)
      refine ⟨by omega, ?_, by omega⟩
      rw [h2, hbyte, overlay_append, hchunk, List.take_append_drop]

/-- A long write returns its length if the bytes fit, and if it does it has laid them over the
contents and moved the offset behind them.

**Proof sketch.** `filewriteLoop_ok` from the first byte on. The call returns the length exactly if
all bytes have been written, and then the contents are the overlay, cut into what is before, the
bytes, and what is behind. -/
theorem filewrite_ok (src : List UInt8) (off : ℕ) (ip : Inode) (hoff : off ≤ ip.size)
    (hmax : off ≤ MAXFILE * BSIZE) : ∃ r, filewrite src off ip = .ok r ∧
      (off + src.length ≤ MAXFILE * BSIZE → r.1 = src.length) ∧
      (r.1 = src.length → r.2.1 = off + src.length ∧ r.2.2.content =
        ip.content.take off ++ src ++ ip.content.drop (off + src.length)) := by
  obtain ⟨⟨i, off', ip'⟩, hloop, hfits, hpost⟩ :=
    filewriteLoop_ok src.length src 0 off ip le_rfl hoff hmax
  dsimp only at hfits hpost
  rw [Nat.zero_add] at hfits hpost
  refine ⟨_, by rw [filewrite, hloop]; rfl, fun hfit => if_pos (hfits hfit), fun hend => ?_⟩
  dsimp only at hend ⊢
  have hi : i = src.length := by
    by_contra hne
    rw [if_neg hne] at hend
    omega
  obtain ⟨hoff', hbyte, hsize⟩ := hpost hi
  refine ⟨hoff', ?_⟩
  rw [Inode.content, hbyte, hsize, firstOf_overlay _ _ hoff]
  rfl

end HgXv6
