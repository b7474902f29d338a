import HgXv6.Kernel.Inodes

set_option relaxedAutoImplicit false
set_option autoImplicit false

/-!
# Building a file system image

The program that writes the initial file system (`mkfs.c`): a root directory, and in it the files
that it is given. Blocks are allocated one behind the other, as far as the files need them; the
size of the root directory is rounded up at the end.

A failed assertion is `none`. The byte order of the image is that of the machine, so `xint` and
`xshort` do nothing.

## Main definitions

* `HgXv6.Mkfs.Image` — the image, and the two counters of the program.
* `HgXv6.Mkfs.ialloc`, `HgXv6.Mkfs.iappend`, `HgXv6.Mkfs.balloc`, `HgXv6.Mkfs.main` — the source
  functions.
* `HgXv6.Mkfs.boot` — the kernel on an image.

## Main results

* `HgXv6.Mkfs.Built` — what holds of the image after each step: blocks are there exactly up to the
  end of each file.
* `HgXv6.Mkfs.consistent_boot` — the kernel starts in a consistent state, unless the root
  directory has a hole.
* `HgXv6.Mkfs.main_dense_iff` — which images have no holes.
-/

namespace HgXv6.Mkfs

open Prog Disk

/-! ## The program -/

/-- `#define FSSIZE 1000` -/
abbrev FSSIZE : ℕ := 1000

/-- `#define NINODES 200` -/
abbrev NINODES : ℕ := 200

def nbitmap : ℕ := FSSIZE / (BSIZE * 8) + 1

def ninodeblocks : ℕ := NINODES / IPB + 1

def nlog : ℕ := LOGSIZE

/-- The number of meta blocks: boot block, super block, log, inodes, free map. -/
def nmeta : ℕ := 2 + nlog + ninodeblocks + nbitmap

def nblocks : ℕ := FSSIZE - nmeta

def sb : Superblock where
  size := FSSIZE
  nblocks := nblocks
  ninodes := NINODES
  nlog := nlog
  logstart := 2
  inodestart := 2 + nlog
  bmapstart := 2 + nlog + ninodeblocks

/-- The image, and the counters `freeinode` and `freeblock`. -/
structure Image where
  dinode : ℕ → Dinode
  used : ℕ → Bool
  data : ℕ → Data
  freeinode : ℕ
  freeblock : ℕ

/-- The image with all blocks zeroed. -/
def blank : Image where
  dinode _ := Dinode.zero
  used _ := false
  data _ _ := 0
  freeinode := 1
  freeblock := nmeta

/-- `winode` -/
def winode (inum : ℕ) (din : Dinode) (img : Image) : Image :=
  { img with dinode := Function.update img.dinode inum din }

/-- `ialloc` -/
def ialloc (type : Int16) (img : Image) : ℕ × Image :=
  (img.freeinode, winode img.freeinode { Dinode.zero with type := type, nlink := 1 }
    { img with freeinode := img.freeinode + 1 })

/-- The part of `iappend` that finds the block of index `fbn`, with the inode `din`. -/
def appendBlock (fbn : ℕ) (din : Dinode) (img : Image) : ℕ × Dinode × Image :=
  if fbn < NDIRECT then
    if din.addrs fbn = 0 then
      (img.freeblock, { din with addrs := Function.update din.addrs fbn img.freeblock },
        { img with freeblock := img.freeblock + 1 })
    else (din.addrs fbn, din, img)
  else if din.addrs NDIRECT = 0 then
    entry (fbn - NDIRECT) { din with addrs := Function.update din.addrs NDIRECT img.freeblock }
      { img with freeblock := img.freeblock + 1 }
  else entry (fbn - NDIRECT) din img
where
  /-- The block of an entry of the indirect block. -/
  entry (j : ℕ) (din : Dinode) (img : Image) : ℕ × Dinode × Image :=
    let a := din.addrs NDIRECT
    if getUint (img.data a) j = 0 then
      (img.freeblock, din, { img with
        data := Function.update img.data a (putUint j img.freeblock (img.data a))
        freeblock := img.freeblock + 1 })
    else (getUint (img.data a) j, din, img)

/-- The loop of `iappend`, with the bytes `bs` to go, in at most `k` passes. -/
def iappendLoop : ℕ → List UInt8 → ℕ → Dinode → Image → Option (ℕ × Dinode × Image)
  | 0, _, off, din, img => some (off, din, img)
  | k + 1, bs, off, din, img =>
    if bs = [] then some (off, din, img)
    else
      let fbn := off / BSIZE
      if fbn < MAXFILE then
        let (x, din, img) := appendBlock fbn din img
        let n1 := min bs.length ((fbn + 1) * BSIZE - off)
        iappendLoop k (bs.drop n1) (off + n1) din { img with
          data := Function.update img.data x
            (overlay (img.data x) (off - fbn * BSIZE) (bs.take n1)) }
      else none

/-- `iappend` -/
def iappend (inum : ℕ) (bs : List UInt8) (img : Image) : Option Image :=
  match iappendLoop bs.length bs (img.dinode inum).size (img.dinode inum) img with
  | none => none
  | some (off, din, img) => some (winode inum { din with size := off } img)

/-- The loop that copies a file of which `content` is left, block by block, in at most `k`
passes. -/
def copyFile (inum : ℕ) : ℕ → List UInt8 → Image → Option Image
  | 0, _, img => some img
  | k + 1, content, img =>
    if content = [] then some img
    else
      match iappend inum (content.take BSIZE) img with
      | none => none
      | some img => copyFile inum k (content.drop BSIZE) img

/-- The name of a file in the image: a leading `_` is skipped. -/
def imageName (arg : List UInt8) : List UInt8 :=
  if arg.head? = some (chr '_') then arg.tail else arg

/-- A pass of `main` over the files: an argument and the contents of the file it names. -/
def addFile (img : Image) (file : List UInt8 × List UInt8) : Option Image :=
  if chr '/' ∈ file.1 then none
  else
    let (inum, img) := ialloc T_FILE img
    match iappend ROOTINO (Dirent.bytes ⟨inum, imageName file.1⟩) img with
    | none => none
    | some img => copyFile inum file.2.length file.2 img

/-- Round the size of the root directory up. -/
def fixRoot (img : Image) : Image :=
  let din := img.dinode ROOTINO
  winode ROOTINO { din with size := (din.size / BSIZE + 1) * BSIZE } img

/-- `balloc` -/
def balloc (img : Image) : Option Image :=
  if img.freeblock < BSIZE * 8 then some { img with used := fun b => b < img.freeblock } else none

/-- The root directory, with its first two entries. -/
def makeRoot : Option Image :=
  match iappend ROOTINO (Dirent.bytes ⟨ROOTINO, [chr '.']⟩) (ialloc T_DIR blank).2 with
  | none => none
  | some img => iappend ROOTINO (Dirent.bytes ⟨ROOTINO, [chr '.', chr '.']⟩) img

/-- `main` -/
def main (files : List (List UInt8 × List UInt8)) : Option Image :=
  match makeRoot with
  | none => none
  | some img =>
    match files.foldlM addFile img with
    | none => none
    | some img => balloc (fixRoot img)

/-- The i-numbers and blocks that the files need are there. -/
def Fits (files : List (List UInt8 × List UInt8)) (img : Image) : Prop :=
  files.length + 1 < NINODES ∧ img.freeblock ≤ FSSIZE

/-- The kernel, booted on an image: nothing is in the inode cache. -/
def boot (img : Image) : Fs where
  sb := sb
  dinode := img.dinode
  used := img.used
  data := img.data
  icache _ := ⟨0, false, Dinode.zero⟩
  ftable _ := ⟨0, false, false, none, 0⟩
  cwd _ := ROOTINO
  ofile _ _ := none
  logged := []

/-! ## Blocks are numbered upwards -/

/-- The references of an image in progress own the blocks up to `fb`, and the blocks from there on
are zeroed. -/
structure Core (dinode : ℕ → Dinode) (data : ℕ → Data) (fb : ℕ) : Prop where
  owns : Owns (refs dinode data) 0 {b | nmeta ≤ b ∧ b < fb}
  le : nmeta ≤ fb
  zero : ∀ b, fb ≤ b → data b = fun _ => 0

section Core

variable {dinode : ℕ → Dinode} {data : ℕ → Data} {fb : ℕ}

theorem nmeta_pos : 0 < nmeta := by decide

/-- The next block is referenced nowhere. -/
theorem Core.fresh (h : Core dinode data fb) :
    fb ≠ 0 ∧ fb ∉ {b | nmeta ≤ b ∧ b < fb} ∧ ∀ p, refs dinode data p ≠ fb := by
  have hpos : fb ≠ 0 := by
    have := nmeta_pos
    have := h.le
    omega
  have hnot : fb ∉ {b | nmeta ≤ b ∧ b < fb} := fun hmem => lt_irrefl fb hmem.2
  exact ⟨hpos, hnot, h.owns.ne hpos hnot⟩

theorem insert_next (h : nmeta ≤ fb) :
    Insert.insert fb {b | nmeta ≤ b ∧ b < fb} = {b | nmeta ≤ b ∧ b < fb + 1} := by
  ext b
  simp only [Set.mem_insert_iff, Set.mem_ofPred_eq]
  omega

/-- The next block is stored in an empty slot. -/
theorem Core.slot (h : Core dinode data fb) {i k : ℕ} (hk : k ≤ NDIRECT)
    (hnull : (dinode i).addrs k = 0) :
    let dinode' := Function.update dinode i
      { dinode i with addrs := Function.update (dinode i).addrs k fb }
    Core dinode' data (fb + 1) ∧
      refs dinode' data = Function.update (refs dinode data) (.slot i k) fb := by
  intro dinode'
  obtain ⟨hpos, hnot, hfresh⟩ := h.fresh
  have hrefs : refs dinode' data = Function.update (refs dinode data) (.slot i k) fb := by
    rw [← refs_update_slot hk hnull hfresh, ← h.zero fb le_rfl, Function.update_eq_self]
  have hplace : refs dinode data (.slot i k) = 0 := by simp [refs, hnull]
  refine ⟨⟨?_, by have := h.le; omega, fun b hb => h.zero b (by omega)⟩, hrefs⟩
  rw [hrefs, ← insert_next h.le]
  exact h.owns.alloc hplace hpos hnot

/-- The next block is stored in an empty entry of an indirect block. -/
theorem Core.entry (h : Core dinode data fb) {i j : ℕ} (hj : j < NINDIRECT) (hfb : fb < 2 ^ 32)
    (hind : (dinode i).addrs NDIRECT ≠ 0)
    (hnull : getUint (data ((dinode i).addrs NDIRECT)) j = 0) :
    let data' := Function.update data ((dinode i).addrs NDIRECT)
      (putUint j fb (data ((dinode i).addrs NDIRECT)))
    Core dinode data' (fb + 1) ∧
      refs dinode data' = Function.update (refs dinode data) (.entry i j) fb := by
  intro data'
  obtain ⟨hpos, hnot, hfresh⟩ := h.fresh
  have hrefs : refs dinode data' = Function.update (refs dinode data) (.entry i j) fb := by
    rw [← refs_update_entry hj hfb hind (fun i' => Owns.indirect_unique h.owns hind) hfresh,
      ← h.zero fb le_rfl, Function.update_eq_self]
  have hplace : refs dinode data (.entry i j) = 0 := by simp [refs, hnull]
  have hmem := h.owns.mem (p := .slot i NDIRECT) (by simpa [refs] using hind)
  have hlt : (dinode i).addrs NDIRECT < fb := by simpa [refs] using hmem.2
  refine ⟨⟨?_, by have := h.le; omega, fun b hb => ?_⟩, hrefs⟩
  · rw [hrefs, ← insert_next h.le]
    exact h.owns.alloc hplace hpos hnot
  · rw [show data' b = data b from Function.update_of_ne (by omega) ..]
    exact h.zero b (by omega)

/-- Data is stored in a block of a file. -/
theorem Core.write (h : Core dinode data fb) {i bn : ℕ}
    (hb : refs dinode data (blockPlace i bn) ≠ 0) (f : Data) :
    let data' := Function.update data (refs dinode data (blockPlace i bn)) f
    Core dinode data' fb ∧ refs dinode data' = refs dinode data := by
  intro data'
  have hrefs : refs dinode data' = refs dinode data := by
    refine refs_update_data f fun i' heq => ?_
    refine blockPlace_ne_indirect i bn i' (h.owns.inj _ _ ?_ hb)
    rw [← heq]
    rfl
  have hlt := (h.owns.mem hb).2
  refine ⟨⟨hrefs ▸ h.owns, h.le, fun b hge => ?_⟩, hrefs⟩
  rw [show data' b = data b from Function.update_of_ne (by omega) ..]
  exact h.zero b hge

end Core

/-! ## `iappend` -/

/-- The state with the inode `inum` as the loop of `iappend` has it. -/
def Image.Sound (inum : ℕ) (din : Dinode) (img : Image) : Prop :=
  Core (Function.update img.dinode inum din) img.data img.freeblock

/-- The block at an index of a file. -/
def Image.blockAt (inum : ℕ) (din : Dinode) (img : Image) (i bn : ℕ) : ℕ :=
  refs (Function.update img.dinode inum din) img.data (blockPlace i bn)

/-- `din'` and `img'` come from `din` and `img` by allocating blocks to the inode. -/
structure Grows (din : Dinode) (img : Image) (din' : Dinode) (img' : Image) : Prop where
  dinode : img'.dinode = img.dinode
  freeinode : img'.freeinode = img.freeinode
  freeblock : img.freeblock ≤ img'.freeblock
  din : ∃ addrs, din' = { din with addrs := addrs }

theorem Grows.refl (din : Dinode) (img : Image) : Grows din img din img :=
  ⟨rfl, rfl, le_rfl, din.addrs, rfl⟩

theorem Grows.trans {din din' din'' : Dinode} {img img' img'' : Image}
    (h : Grows din img din' img') (h' : Grows din' img' din'' img'') :
    Grows din img din'' img'' := by
  obtain ⟨a, ha⟩ := h.din
  obtain ⟨a', ha'⟩ := h'.din
  exact ⟨h'.dinode.trans h.dinode, h'.freeinode.trans h.freeinode,
    h.freeblock.trans h'.freeblock, a', by rw [ha', ha]⟩

variable {inum : ℕ} {din : Dinode} {img : Image}

theorem appendBlock_entry_grows (j : ℕ) (din : Dinode) (img : Image) :
    Grows din img (appendBlock.entry j din img).2.1 (appendBlock.entry j din img).2.2 := by
  unfold appendBlock.entry
  dsimp only
  split_ifs
  · exact ⟨rfl, rfl, Nat.le_succ _, din.addrs, rfl⟩
  · exact Grows.refl din img

theorem appendBlock_grows (fbn : ℕ) (din : Dinode) (img : Image) :
    Grows din img (appendBlock fbn din img).2.1 (appendBlock fbn din img).2.2 := by
  unfold appendBlock
  split_ifs
  · exact ⟨rfl, rfl, Nat.le_succ _, _, rfl⟩
  · exact Grows.refl din img
  · have hnext : Grows din img
        { din with addrs := Function.update din.addrs NDIRECT img.freeblock }
        { img with freeblock := img.freeblock + 1 } := ⟨rfl, rfl, Nat.le_succ _, _, rfl⟩
    exact hnext.trans (appendBlock_entry_grows _ _ _)
  · exact appendBlock_entry_grows _ _ _

/-- What `appendBlock` leaves: the block of the index, and the other blocks as they were. -/
structure BlockPost (inum fbn : ℕ) (din : Dinode) (img : Image)
    (r : ℕ × Dinode × Image) : Prop where
  sound : r.2.2.Sound inum r.2.1
  block : r.2.2.blockAt inum r.2.1 inum fbn = r.1
  ne_zero : r.1 ≠ 0
  other : ∀ i bn, blockPlace i bn ≠ blockPlace inum fbn →
    r.2.2.blockAt inum r.2.1 i bn = img.blockAt inum din i bn

/-- The block of an entry of an indirect block that is there. -/
theorem appendBlock_entry {j : ℕ} (hj : j < NINDIRECT) (h : img.Sound inum din)
    (hind : din.addrs NDIRECT ≠ 0) (hfb : (appendBlock.entry j din img).2.2.freeblock ≤ 2 ^ 32) :
    BlockPost inum (NDIRECT + j) din img (appendBlock.entry j din img) := by
  have hplace := blockPlace_indirect inum j
  have hself : (Function.update img.dinode inum din) inum = din := Function.update_self ..
  unfold appendBlock.entry at hfb ⊢
  dsimp only at hfb ⊢
  split_ifs at hfb ⊢ with hnull
  · obtain ⟨hcore, hrefs⟩ := Core.entry h (i := inum) hj (Nat.lt_of_succ_le hfb)
      (by rw [hself]; exact hind) (by rw [hself]; exact hnull)
    simp only [hself] at hcore hrefs
    refine ⟨hcore, ?_, h.fresh.1, fun i bn hne => ?_⟩
    · rw [Image.blockAt, hplace]
      dsimp only
      rw [hrefs, Function.update_self]
    · rw [hplace] at hne
      rw [Image.blockAt]
      dsimp only
      rw [hrefs, Function.update_of_ne hne]
      rfl
  · refine ⟨h, ?_, hnull, fun _ _ _ => rfl⟩
    rw [Image.blockAt, hplace, refs, hself, if_pos ⟨hind, hj⟩]

/-- `appendBlock` within the largest size of a file. -/
theorem appendBlock_post {fbn : ℕ} (hfbn : fbn < MAXFILE) (h : img.Sound inum din)
    (hfb : (appendBlock fbn din img).2.2.freeblock ≤ 2 ^ 32) :
    BlockPost inum fbn din img (appendBlock fbn din img) := by
  have hself : (Function.update img.dinode inum din) inum = din := Function.update_self ..
  have hslot {k : ℕ} (hk : k ≤ NDIRECT) (hnull : din.addrs k = 0) :=
    Core.slot h (i := inum) hk (by rw [hself]; exact hnull)
  simp only [hself, Function.update_idem] at hslot
  unfold appendBlock at hfb ⊢
  by_cases hdirect : fbn < NDIRECT
  · have hplace := @blockPlace_direct inum fbn hdirect
    rw [if_pos hdirect]
    split_ifs with hnull
    · obtain ⟨hcore, hrefs⟩ := hslot hdirect.le hnull
      refine ⟨hcore, ?_, h.fresh.1, fun i bn hne => ?_⟩
      · rw [Image.blockAt, hplace]
        dsimp only
        rw [hrefs, Function.update_self]
      · rw [hplace] at hne
        rw [Image.blockAt]
        dsimp only
        rw [hrefs, Function.update_of_ne hne]
        rfl
    · refine ⟨h, ?_, hnull, fun _ _ _ => rfl⟩
      rw [Image.blockAt, hplace, refs, hself, if_pos hdirect.le]
  · obtain ⟨j, rfl⟩ : ∃ j, fbn = NDIRECT + j := ⟨fbn - NDIRECT, by omega⟩
    have hj : j < NINDIRECT := by
      unfold MAXFILE at hfbn
      omega
    rw [if_neg hdirect, Nat.add_sub_cancel_left] at hfb ⊢
    split_ifs at hfb ⊢ with hnull
    · obtain ⟨hcore, hrefs⟩ := hslot le_rfl hnull
      have hpost := @appendBlock_entry inum _ { img with freeblock := img.freeblock + 1 } j hj
        hcore (by simpa using h.fresh.1) hfb
      refine ⟨hpost.sound, hpost.block, hpost.ne_zero, fun i bn hne => ?_⟩
      rw [hpost.other i bn hne, Image.blockAt]
      dsimp only
      rw [hrefs, Function.update_of_ne (blockPlace_ne_indirect i bn inum)]
      rfl
    · exact appendBlock_entry hj h hnull hfb

theorem iappendLoop_grows (k : ℕ) (bs : List UInt8) (off : ℕ) (din : Dinode) (img : Image)
    {off' : ℕ} {din' : Dinode} {img' : Image}
    (hloop : iappendLoop k bs off din img = some (off', din', img')) :
    Grows din img din' img' := by
  induction k generalizing bs off din img with
  | zero =>
    obtain ⟨-, rfl, rfl⟩ : off = off' ∧ din = din' ∧ img = img' := by
      simpa [iappendLoop] using hloop
    exact Grows.refl din img
  | succ k ih =>
    unfold iappendLoop at hloop
    dsimp only at hloop
    split_ifs at hloop
    · obtain ⟨-, rfl, rfl⟩ : off = off' ∧ din = din' ∧ img = img' := by simpa using hloop
      exact Grows.refl din img
    · have hrest := ih _ _ _ _ hloop
      exact (appendBlock_grows _ _ _).trans
        ⟨hrest.dinode, hrest.freeinode, hrest.freeblock, hrest.din⟩

/-- What the loop of `iappend` leaves: the file has blocks exactly up to the offset reached, and the
blocks of the other files are as they were.

**Proof sketch.** Induction on the number of passes. A pass takes a new block for the index if the
file has none there, which is exactly if the offset is at the start of a block, and writes up to its
end; the new block is the first that no one has, so that the blocks of the other files are as they
were. -/
theorem iappendLoop_post (k : ℕ) (bs : List UInt8) (off : ℕ) (din : Dinode) (img : Image)
    {off' : ℕ} {din' : Dinode} {img' : Image}
    (hloop : iappendLoop k bs off din img = some (off', din', img'))
    (hk : bs.length ≤ k) (h : img.Sound inum din) (hfb : img'.freeblock ≤ 2 ^ 32)
    (hexact : ∀ bn < MAXFILE, img.blockAt inum din inum bn ≠ 0 ↔ bn * BSIZE < off)
    (hmax : off ≤ MAXFILE * BSIZE) :
    off' = off + bs.length ∧ off' ≤ MAXFILE * BSIZE ∧ img'.Sound inum din' ∧
      (∀ bn < MAXFILE, img'.blockAt inum din' inum bn ≠ 0 ↔ bn * BSIZE < off') ∧
      ∀ i bn, i ≠ inum → img'.blockAt inum din' i bn = img.blockAt inum din i bn := by
  induction k generalizing bs off din img with
  | zero =>
    obtain ⟨rfl, rfl, rfl⟩ : off = off' ∧ din = din' ∧ img = img' := by
      simpa [iappendLoop] using hloop
    exact ⟨by omega, hmax, h, hexact, fun _ _ _ => rfl⟩
  | succ k ih =>
    unfold iappendLoop at hloop
    dsimp only at hloop
    split_ifs at hloop with hnil hfbn
    · obtain ⟨rfl, rfl, rfl⟩ : off = off' ∧ din = din' ∧ img = img' := by simpa using hloop
      exact ⟨by simp [hnil], hmax, h, hexact, fun _ _ _ => rfl⟩
    have hpos : 0 < bs.length := List.length_pos_of_ne_nil hnil
    set fbn := off / BSIZE with hfbn'
    set r := appendBlock fbn din img with hr
    set n1 := min bs.length ((fbn + 1) * BSIZE - off) with hn1
    have hdiv := Nat.div_add_mod off BSIZE
    have hmod := Nat.mod_lt off (show 0 < BSIZE by decide)
    have hn1pos : 0 < n1 ∧ off + n1 ≤ (fbn + 1) * BSIZE := by
      unfold BSIZE at *
      omega
    have hgrows := iappendLoop_grows k _ _ _ _ hloop
    have hpost := appendBlock_post hfbn h (hgrows.freeblock.trans hfb)
    rw [← hr] at hpost
    have hne : r.2.2.blockAt inum r.2.1 inum fbn ≠ 0 := by
      rw [hpost.block]
      exact hpost.ne_zero
    obtain ⟨hcore, hrefs⟩ := Core.write hpost.sound hne
      (overlay (r.2.2.data r.1) (off - fbn * BSIZE) (bs.take n1))
    change Core _ (Function.update r.2.2.data (r.2.2.blockAt inum r.2.1 inum fbn) _) _ at hcore
    change refs _ (Function.update r.2.2.data (r.2.2.blockAt inum r.2.1 inum fbn) _) = _ at hrefs
    rw [hpost.block] at hcore hrefs
    have hblocks (i bn : ℕ) : Image.blockAt inum r.2.1 { r.2.2 with
        data := Function.update r.2.2.data r.1
          (overlay (r.2.2.data r.1) (off - fbn * BSIZE) (bs.take n1)) } i bn =
        r.2.2.blockAt inum r.2.1 i bn := congrFun hrefs (blockPlace i bn)
    have hdrop : off + n1 + (bs.drop n1).length = off + bs.length := by
      rw [List.length_drop]
      omega
    have hexact₁ : ∀ bn < MAXFILE, Image.blockAt inum r.2.1 { r.2.2 with
        data := Function.update r.2.2.data r.1
          (overlay (r.2.2.data r.1) (off - fbn * BSIZE) (bs.take n1)) } inum bn ≠ 0 ↔
        bn * BSIZE < off + n1 := by
      intro bn hbn
      rw [hblocks]
      by_cases hlast : bn = fbn
      · subst hlast
        refine ⟨fun _ => ?_, fun _ => hne⟩
        unfold BSIZE at *
        omega
      · rw [hpost.other inum bn fun heq => hlast (blockPlace_inj heq).2, hexact bn hbn]
        unfold BSIZE at *
        omega
    have hmax₁ : off + n1 ≤ MAXFILE * BSIZE := by
      unfold BSIZE at *
      omega
    obtain ⟨hoff', hmax', hsound', hexact', hother'⟩ := ih _ _ _ _ hloop
      (by rw [List.length_drop]; omega) hcore hexact₁ hmax₁
    refine ⟨hoff'.trans hdrop, hmax', hsound', hexact', fun i bn hi => ?_⟩
    rw [hother' i bn hi, hblocks]
    exact hpost.other i bn fun heq => hi (blockPlace_inj heq).1

/-! ## Images in progress -/

/-- What holds of the image after each step of `main`: the file of each inode has blocks exactly
up to its end, and an inode that is not allocated is cleared. -/
structure Built (img : Image) : Prop where
  core : Core img.dinode img.data img.freeblock
  exact : ∀ i, ∀ bn < MAXFILE,
    refs img.dinode img.data (blockPlace i bn) ≠ 0 ↔ bn * BSIZE < (img.dinode i).size
  size_le : ∀ i, (img.dinode i).size ≤ MAXFILE * BSIZE
  fresh : ∀ i, img.freeinode ≤ i → img.dinode i = Dinode.zero
  kind : ∀ i, img.dinode i = Dinode.zero ∨ (img.dinode i).type = T_DIR ∨
    (img.dinode i).type = T_FILE

theorem built_blank : Built blank where
  core := by
    refine ⟨⟨fun p q _ hp => ?_, fun b hb => ?_⟩, le_rfl, fun _ _ => rfl⟩
    · exact absurd (by cases p <;> simp [refs, blank, Dinode.zero]) hp
    · constructor
      · intro hmem
        exact absurd (lt_of_le_of_lt hmem.1 hmem.2) (lt_irrefl _)
      · rintro ⟨p, rfl⟩
        exact absurd (by cases p <;> simp [refs, blank, Dinode.zero]) hb
  exact i bn _ := by
    refine ⟨fun hne => absurd ?_ hne, fun hlt => absurd hlt (Nat.not_lt_zero _)⟩
    unfold blockPlace
    split_ifs <;> simp [refs, blank, Dinode.zero]
  size_le _ := Nat.zero_le _
  fresh _ _ := rfl
  kind _ := .inl rfl

/-- A new inode. -/
theorem Built.ialloc (h : Built img) {type : Int16} (htype : type = T_DIR ∨ type = T_FILE) :
    Built (ialloc type img).2 := by
  have hzero := h.fresh img.freeinode le_rfl
  have haddrs (i k : ℕ) : ((Mkfs.ialloc type img).2.dinode i).addrs k =
      (img.dinode i).addrs k := by
    by_cases hi : i = img.freeinode
    · rw [hi, hzero]
      simp [Mkfs.ialloc, winode, Dinode.zero]
    · simp [Mkfs.ialloc, winode, hi]
  have hsize (i : ℕ) : ((Mkfs.ialloc type img).2.dinode i).size = (img.dinode i).size := by
    by_cases hi : i = img.freeinode
    · rw [hi, hzero]
      simp [Mkfs.ialloc, winode, Dinode.zero]
    · simp [Mkfs.ialloc, winode, hi]
  have hrefs : refs (Mkfs.ialloc type img).2.dinode (Mkfs.ialloc type img).2.data =
      refs img.dinode img.data := refs_congr haddrs
  refine ⟨⟨hrefs ▸ h.core.owns, h.core.le, h.core.zero⟩, fun i bn hbn => ?_, fun i => ?_,
    fun i hi => ?_, fun i => ?_⟩
  · rw [hrefs, hsize]
    exact h.exact i bn hbn
  · rw [hsize]
    exact h.size_le i
  · have hi' : img.freeinode + 1 ≤ i := hi
    rw [← h.fresh i (by omega)]
    exact Function.update_of_ne (by omega) ..
  · by_cases hi : i = img.freeinode
    · subst hi
      simpa [Mkfs.ialloc, winode] using Or.inr htype
    · simpa [Mkfs.ialloc, winode, hi] using h.kind i

/-- What a step of `main` leaves of the inodes: all but one are as they were. -/
structure Appended (inum : ℕ) (img img' : Image) : Prop where
  dinode : ∀ i ≠ inum, img'.dinode i = img.dinode i
  type : (img'.dinode inum).type = (img.dinode inum).type
  freeinode : img'.freeinode = img.freeinode
  freeblock : img.freeblock ≤ img'.freeblock

theorem Appended.refl (inum : ℕ) (img : Image) : Appended inum img img :=
  ⟨fun _ _ => rfl, rfl, rfl, le_rfl⟩

theorem Appended.trans {img img' img'' : Image} (h : Appended inum img img')
    (h' : Appended inum img' img'') : Appended inum img img'' :=
  ⟨fun i hi => (h'.dinode i hi).trans (h.dinode i hi), h'.type.trans h.type,
    h'.freeinode.trans h.freeinode, h.freeblock.trans h'.freeblock⟩

theorem iappend_appended {bs : List UInt8} {img' : Image} (h : iappend inum bs img = some img') :
    Appended inum img img' := by
  unfold iappend at h
  split at h
  · cases h
  · next off din img₁ hloop =>
    have hgrows := iappendLoop_grows _ _ _ _ _ hloop
    obtain ⟨addrs, hdin⟩ := hgrows.din
    obtain rfl := Option.some.inj h
    refine ⟨fun i hi => ?_, ?_, hgrows.freeinode, hgrows.freeblock⟩
    · simp [winode, hi, hgrows.dinode]
    · simp [winode, hdin]

/-- Bytes are appended to the file of an allocated inode.

**Proof sketch.** The loop leaves the file with blocks exactly up to its new end
(`iappendLoop_post`), and only the slots and the size of its inode have changed. So references are
still injective and below `freeblock`, and every file has exactly the blocks that its size asks for.
-/
theorem Built.iappend (h : Built img) {bs : List UInt8} {img' : Image}
    (happ : iappend inum bs img = some img') (htype : (img.dinode inum).type ≠ 0)
    (hfb : img'.freeblock ≤ 2 ^ 32) :
    Built img' ∧ (img'.dinode inum).size = (img.dinode inum).size + bs.length := by
  have hkeep := iappend_appended happ
  unfold Mkfs.iappend at happ
  split at happ
  · cases happ
  next off din img₁ hloop =>
  have hgrows := iappendLoop_grows _ _ _ _ _ hloop
  obtain ⟨addrs, hdin⟩ := hgrows.din
  obtain rfl := Option.some.inj happ
  have hput : Function.update img.dinode inum (img.dinode inum) = img.dinode :=
    Function.update_eq_self ..
  obtain ⟨hoff, hmax, hsound, hexact, hother⟩ := iappendLoop_post _ _ _ _ _ hloop le_rfl
    (by rw [Image.Sound, hput]; exact h.core) hfb
    (fun bn hbn => by rw [Image.blockAt, hput]; exact h.exact inum bn hbn) (h.size_le inum)
  have hrefs : refs (winode inum { din with size := off } img₁).dinode img₁.data =
      refs (Function.update img₁.dinode inum din) img₁.data := by
    refine refs_congr fun i k => ?_
    by_cases hi : i = inum
    · simp [winode, hi]
    · simp [winode, hi]
  have hsize : ((winode inum { din with size := off } img₁).dinode inum).size = off := by
    simp [winode]
  refine ⟨⟨⟨?_, hsound.le, hsound.zero⟩, fun i bn hbn => ?_, fun i => ?_, fun i hi => ?_,
    fun i => ?_⟩, hsize.trans hoff⟩
  · change Owns (refs (winode inum { din with size := off } img₁).dinode img₁.data) 0 _
    rw [hrefs]
    exact hsound.owns
  · change refs (winode inum { din with size := off } img₁).dinode img₁.data _ ≠ 0 ↔ _
    rw [hrefs]
    by_cases hi : i = inum
    · subst hi
      rw [hsize]
      exact hexact bn hbn
    · rw [hkeep.dinode i hi, ← h.exact i bn hbn]
      have heq := hother i bn hi
      rw [Image.blockAt, Image.blockAt, hput] at heq
      rw [heq]
  · by_cases hi : i = inum
    · rw [hi, hsize]
      exact hmax
    · rw [hkeep.dinode i hi]
      exact h.size_le i
  · have hi' : i ≠ inum := by
      rintro rfl
      rw [h.fresh i (by rwa [hkeep.freeinode] at hi)] at htype
      exact htype rfl
    rw [hkeep.dinode i hi']
    exact h.fresh i (by rwa [hkeep.freeinode] at hi)
  · by_cases hi : i = inum
    · subst hi
      right
      rw [hkeep.type]
      exact (h.kind i).resolve_left fun hz => htype (by rw [hz]; rfl)
    · rw [hkeep.dinode i hi]
      exact h.kind i

theorem copyFile_appended (k : ℕ) (content : List UInt8) (img : Image) {img' : Image}
    (h : copyFile inum k content img = some img') : Appended inum img img' := by
  induction k generalizing content img with
  | zero =>
    obtain rfl : img = img' := by simpa [copyFile] using h
    exact Appended.refl inum img
  | succ k ih =>
    unfold copyFile at h
    split_ifs at h
    · obtain rfl := Option.some.inj h
      exact Appended.refl inum img
    · split at h
      · cases h
      · next img₁ happ => exact (iappend_appended happ).trans (ih _ _ h)

/-- A file is copied into its inode. -/
theorem Built.copyFile (k : ℕ) (content : List UInt8) {img img' : Image} (h : Built img)
    (hcopy : copyFile inum k content img = some img') (htype : (img.dinode inum).type ≠ 0)
    (hfb : img'.freeblock ≤ 2 ^ 32) : Built img' := by
  induction k generalizing content img with
  | zero =>
    obtain rfl : img = img' := by simpa [Mkfs.copyFile] using hcopy
    exact h
  | succ k ih =>
    unfold Mkfs.copyFile at hcopy
    split_ifs at hcopy
    · obtain rfl := Option.some.inj hcopy
      exact h
    · split at hcopy
      · cases hcopy
      · next img₁ happ =>
        have hle := (copyFile_appended _ _ _ hcopy).freeblock
        refine ih _ (h.iappend happ htype (hle.trans hfb)).1 hcopy ?_
        rw [(iappend_appended happ).type]
        exact htype

/-! ## The root directory -/

theorem length_bytes (de : Dirent) : de.bytes.length = 16 := by
  simp only [Dirent.bytes, List.length_append, List.length_cons, List.length_nil,
    List.length_take, List.length_replicate]
  unfold DIRSIZ
  omega

/-- An image whose root directory has `n` entries. -/
structure HasRoot (n : ℕ) (img : Image) : Prop extends Built img where
  size : (img.dinode ROOTINO).size = 16 * n
  type : (img.dinode ROOTINO).type = T_DIR
  freeinode : ROOTINO < img.freeinode

/-- An entry is appended to the root directory. -/
theorem HasRoot.iappend {n : ℕ} {img img' : Image} (h : HasRoot n img) {de : Dirent}
    (happ : iappend ROOTINO de.bytes img = some img') (hfb : img'.freeblock ≤ 2 ^ 32) :
    HasRoot (n + 1) img' := by
  have hkeep := iappend_appended happ
  have htype : (img.dinode ROOTINO).type ≠ 0 := by
    rw [h.type]
    decide
  obtain ⟨hbuilt, hsize⟩ := h.toBuilt.iappend happ htype hfb
  refine ⟨hbuilt, ?_, hkeep.type.trans h.type, hkeep.freeinode ▸ h.freeinode⟩
  rw [hsize, h.size, length_bytes]
  omega

theorem makeRoot_hasRoot {img : Image} (h : makeRoot = some img) (hfb : img.freeblock ≤ 2 ^ 32) :
    HasRoot 2 img := by
  unfold makeRoot at h
  split at h
  · cases h
  next img₁ happ =>
  have hroot : HasRoot 0 (ialloc T_DIR blank).2 :=
    ⟨built_blank.ialloc (.inl rfl), rfl, rfl, by decide⟩
  have hle := (iappend_appended h).freeblock
  exact (hroot.iappend happ (hle.trans hfb)).iappend h hfb

theorem addFile_freeblock {file : List UInt8 × List UInt8} {img img' : Image}
    (h : addFile img file = some img') : img.freeblock ≤ img'.freeblock := by
  unfold addFile at h
  split_ifs at h
  dsimp only at h
  split at h
  · cases h
  next img₁ happ =>
  exact (iappend_appended happ).freeblock.trans (copyFile_appended _ _ _ h).freeblock

/-- A pass over the files adds one entry. -/
theorem HasRoot.addFile {n : ℕ} {file : List UInt8 × List UInt8} {img img' : Image}
    (h : HasRoot n img) (hadd : addFile img file = some img') (hfb : img'.freeblock ≤ 2 ^ 32) :
    HasRoot (n + 1) img' := by
  unfold Mkfs.addFile at hadd
  split_ifs at hadd
  dsimp only at hadd
  split at hadd
  · cases hadd
  next img₂ happ =>
  have hne : ROOTINO ≠ img.freeinode := h.freeinode.ne
  have hold : (ialloc T_FILE img).2.dinode ROOTINO = img.dinode ROOTINO :=
    Function.update_of_ne hne ..
  have hroot : HasRoot n (ialloc T_FILE img).2 :=
    ⟨h.toBuilt.ialloc (.inr rfl), hold ▸ h.size, hold ▸ h.type, Nat.lt_succ_of_lt h.freeinode⟩
  have hkeep := iappend_appended happ
  have hcopy := copyFile_appended _ _ _ hadd
  have hroot₂ := hroot.iappend happ (hcopy.freeblock.trans hfb)
  have htype : (img₂.dinode img.freeinode).type ≠ 0 := by
    rw [hkeep.dinode _ hne.symm]
    simp only [ialloc, winode, Function.update_self]
    decide
  change copyFile img.freeinode _ _ img₂ = some img' at hadd
  refine ⟨hroot₂.toBuilt.copyFile _ _ hadd htype hfb, ?_, ?_, ?_⟩
  · rw [hcopy.dinode _ hne]
    exact hroot₂.size
  · rw [hcopy.dinode _ hne]
    exact hroot₂.type
  · rw [hcopy.freeinode]
    exact hroot₂.freeinode

theorem addFiles_freeblock {files : List (List UInt8 × List UInt8)} {img img' : Image}
    (h : files.foldlM addFile img = some img') : img.freeblock ≤ img'.freeblock := by
  induction files generalizing img with
  | nil =>
    obtain rfl : img = img' := by simpa using h
    exact le_rfl
  | cons file files ih =>
    rw [List.foldlM_cons, Option.bind_eq_bind, Option.bind_eq_some_iff] at h
    obtain ⟨img₁, hadd, hrest⟩ := h
    exact (addFile_freeblock hadd).trans (ih hrest)

/-- The loop over the files adds an entry for each. -/
theorem HasRoot.addFiles {n : ℕ} {files : List (List UInt8 × List UInt8)} {img img' : Image}
    (h : HasRoot n img) (hadd : files.foldlM Mkfs.addFile img = some img')
    (hfb : img'.freeblock ≤ 2 ^ 32) : HasRoot (n + files.length) img' := by
  induction files generalizing n img with
  | nil =>
    obtain rfl : img = img' := by simpa using hadd
    exact h
  | cons file files ih =>
    rw [List.foldlM_cons, Option.bind_eq_bind, Option.bind_eq_some_iff] at hadd
    obtain ⟨img₁, hfile, hrest⟩ := hadd
    have hle := addFiles_freeblock hrest
    rw [List.length_cons, Nat.add_comm files.length, ← Nat.add_assoc]
    exact ih (h.addFile hfile (hle.trans hfb)) hrest

/-- The image before the size of the root directory is rounded up. -/
theorem main_eq {files : List (List UInt8 × List UInt8)} {img : Image}
    (h : main files = some img) (hfits : Fits files img) :
    ∃ img₀, HasRoot (files.length + 2) img₀ ∧ img₀.freeblock ≤ FSSIZE ∧
      img = { fixRoot img₀ with used := fun b => b < img₀.freeblock } := by
  unfold main at h
  split at h
  · cases h
  next img₁ hroot =>
  split at h
  · cases h
  next img₂ hfiles =>
  unfold balloc at h
  split_ifs at h
  obtain rfl := Option.some.inj h
  have hle : img₂.freeblock ≤ FSSIZE := hfits.2
  have hfb : img₂.freeblock ≤ 2 ^ 32 := hle.trans (by decide)
  have hdir := makeRoot_hasRoot hroot ((addFiles_freeblock hfiles).trans hfb)
  refine ⟨img₂, ?_, hle, rfl⟩
  rw [Nat.add_comm]
  exact hdir.addFiles hfiles hfb

/-! ## Holes -/

/-- Rounding the size of the root directory up does not change the blocks. -/
theorem refs_fixRoot (img : Image) :
    refs (fixRoot img).dinode img.data = refs img.dinode img.data := by
  refine refs_congr fun i k => ?_
  by_cases hi : i = ROOTINO
  · simp [fixRoot, winode, hi]
  · simp [fixRoot, winode, hi]

theorem size_fixRoot (img : Image) (i : ℕ) : ((fixRoot img).dinode i).size =
    if i = ROOTINO then ((img.dinode ROOTINO).size / BSIZE + 1) * BSIZE
    else (img.dinode i).size := by
  by_cases hi : i = ROOTINO
  · simp [fixRoot, winode, hi]
  · simp [fixRoot, winode, hi]

/-- The root directory has a hole at its end exactly if its entries fill its blocks. -/
theorem holeFree_fixRoot_iff {img : Image} (h : Built img) :
    HoleFree (fixRoot img).dinode img.data ROOTINO ↔
      (img.dinode ROOTINO).size % BSIZE ≠ 0 := by
  unfold HoleFree
  rw [refs_fixRoot]
  simp only [size_fixRoot, if_true]
  have hdiv := Nat.div_add_mod (img.dinode ROOTINO).size BSIZE
  have hmax := h.size_le ROOTINO
  constructor
  · intro hdense hmod
    obtain ⟨hbn, hne⟩ := hdense ((img.dinode ROOTINO).size / BSIZE) (by unfold BSIZE; omega)
    have hlt := (h.exact ROOTINO _ hbn).mp hne
    unfold BSIZE at *
    omega
  · intro hmod bn hlt
    have hsize : bn * BSIZE < (img.dinode ROOTINO).size := by
      unfold BSIZE at *
      omega
    have hbn : bn < MAXFILE := by
      unfold BSIZE at *
      omega
    exact ⟨hbn, (h.exact ROOTINO bn hbn).mpr hsize⟩

/-- The other files have no holes. -/
theorem holeFree_fixRoot_of_ne {img : Image} (h : Built img) {i : ℕ} (hi : i ≠ ROOTINO) :
    HoleFree (fixRoot img).dinode img.data i := by
  intro bn hlt
  rw [size_fixRoot, if_neg hi] at hlt
  have hmax := h.size_le i
  have hbn : bn < MAXFILE := by
    unfold BSIZE at *
    omega
  rw [refs_fixRoot]
  exact ⟨hbn, (h.exact i bn hbn).mpr hlt⟩

/-- The files of an image have no holes exactly if the entries of the root directory do not fill
its blocks. -/
theorem main_holeFree_iff {files : List (List UInt8 × List UInt8)} {img : Image}
    (h : main files = some img) (hfits : Fits files img) :
    (∀ i, HoleFree img.dinode img.data i) ↔ (files.length + 2) % 32 ≠ 0 := by
  obtain ⟨img₀, hroot, -, rfl⟩ := main_eq h hfits
  have hmod : (img₀.dinode ROOTINO).size % BSIZE ≠ 0 ↔ (files.length + 2) % 32 ≠ 0 := by
    rw [hroot.size]
    unfold BSIZE
    omega
  rw [← hmod, ← holeFree_fixRoot_iff hroot.toBuilt]
  refine ⟨fun hdense => hdense ROOTINO, fun hdense i => ?_⟩
  by_cases hi : i = ROOTINO
  · rw [hi]
    exact hdense
  · exact holeFree_fixRoot_of_ne hroot.toBuilt hi

/-! ## The booted system -/

/-- The kernel starts in a consistent state on an image without holes.

**Proof sketch.** In an image that `mkfs` has built the blocks from `nmeta` to `freeblock` are named
once each, and marked in the free map. Rounding up the size of the root at the end changes no slot;
what it changes is the number of blocks that the root ought to have, and by assumption there are no
holes. -/
theorem consistent_boot {files : List (List UInt8 × List UInt8)} {img : Image}
    (h : main files = some img) (hfits : Fits files img)
    (hdense : ∀ i, HoleFree img.dinode img.data i) : Consistent (boot img) := by
  obtain ⟨img₀, hroot, hle, rfl⟩ := main_eq h hfits
  have hstart : sb.datastart = nmeta := by decide
  have hcore := hroot.core
  have hsize : sb.size ≤ 2 ^ 32 := by decide
  refine ⟨⟨?_, fun b hb => ?_, lt_of_lt_of_eq nmeta_pos hstart.symm, hsize⟩,
    fun i k htype _ => ?_, fun i _ => hdense i, fun i hi => by simp [boot] at hi⟩
  · change Owns (refs (fixRoot img₀).dinode img₀.data) 0 _
    have hset : (boot { fixRoot img₀ with used := fun b => b < img₀.freeblock }).allocated =
        {b | nmeta ≤ b ∧ b < img₀.freeblock} := by
      ext b
      simp only [Fs.allocated, boot, hstart, Set.mem_ofPred_eq, decide_eq_true_eq]
      have hsize : sb.size = FSSIZE := rfl
      omega
    rw [hset, refs_fixRoot]
    exact hcore.owns
  · have hlt : b < nmeta := hstart ▸ hb
    have hnext := hcore.le
    simp only [boot, decide_eq_true_eq]
    omega
  · change ((fixRoot img₀).dinode i).addrs k = 0
    change ((fixRoot img₀).dinode i).type = 0 at htype
    by_cases hi : i = ROOTINO
    · subst hi
      have hdir : ((fixRoot img₀).dinode ROOTINO).type = T_DIR := by
        rw [← hroot.type]
        simp [fixRoot, winode]
      rw [hdir] at htype
      exact absurd htype (by decide)
    · have hsame : (fixRoot img₀).dinode i = img₀.dinode i := Function.update_of_ne hi ..
      rw [hsame] at htype ⊢
      rcases hroot.kind i with hz | hdir | hfile
      · rw [hz]
        rfl
      · rw [hdir] at htype
        exact absurd htype (by decide)
      · rw [hfile] at htype
        exact absurd htype (by decide)

/-- On the booted system the read of `n` bytes at `off` ends, and nothing is allocated: the free
map is as it was, and `log_write` is not called. -/
def Quiet (img : Image) (i off n : ℕ) : Prop :=
  Wp (fun _ => False) (do iget i; ilock i; Disk.readi i off n)
    (fun _ s' => s'.used = img.used ∧ s'.logged = []) (boot img)

/-- Reads within a file that has no holes are quiet. -/
theorem quiet_of_holeFree {img : Image} {i off n : ℕ} (hdense : HoleFree img.dinode img.data i)
    (htype : (img.dinode i).type = T_DIR ∨ (img.dinode i).type = T_FILE)
    (hoff : off + n ≤ (img.dinode i).size) (hmax : (img.dinode i).size < 2 ^ 32) :
    Quiet img i off n := by
  set s₁ := ((boot img).setInode i ⟨1, false, Dinode.zero⟩).setInode i ⟨1, true, img.dinode i⟩
    with hs₁
  have hcache : s₁.icache i = ⟨1, true, img.dinode i⟩ := by simp [hs₁]
  have hzero : (img.dinode i).type ≠ 0 := by
    rcases htype with h | h
    all_goals
      rw [h]
      decide
  have hdev : (img.dinode i).type ≠ T_DEV := by
    rcases htype with h | h
    all_goals
      rw [h]
      decide
  have hinode : s₁.inode = img.dinode := by
    funext j
    by_cases hj : j = i
    · simp [hs₁, Fs.inode, hj]
    · simp [hs₁, Fs.inode, Fs.setInode, boot, hj]
  have hread : Wp (fun _ => False) (Disk.readi i off n)
      (fun _ s' => s'.used = img.used ∧ s'.logged = []) s₁ := by
    unfold Disk.readi
    rw [wp_bind, wp_get, hcache]
    dsimp only
    rw [if_neg hdev, if_neg (by omega)]
    refine Wp.bind (wp_readLoop (by rw [hcache]) (fun bn hbn => ?_) _ _ _ le_rfl ?_) ?_
    · rw [hcache] at hbn
      rw [Fs.blockAt, hinode]
      exact hdense bn hbn
    · rw [hcache]
      split_ifs
      · omega
      · exact hoff
    · rintro bs s' ⟨-, rfl⟩
      exact ⟨rfl, rfl⟩
  unfold Quiet
  rw [wp_bind, wp_iget_of_ref (show ((boot img).icache i).ref = 0 from rfl), wp_bind,
    wp_ilock_of_valid (by simp) (by simp) hzero, setInode_icache, Function.update_self]
  exact hread

/-- **Holes in images.** In an image that `mkfs` writes every inode has a block for each index below
its end, and reads on the booted system allocate nothing, exactly if the entries of the root
directory, one for each file and two more, do not fill its last block.

**Proof sketch.** `main_holeFree_iff` is the half about the blocks: only the root can have a hole,
and it has one exactly if its entries fill its last block, since its size is then rounded up to a
block that was never appended. Without holes the booted system is consistent (`consistent_boot`),
and a read within a file of a consistent system finds every block there and allocates nothing. -/
theorem main_dense_iff {files : List (List UInt8 × List UInt8)} {img : Image}
    (h : main files = some img) (hfits : Fits files img) :
    ((∀ i, HoleFree img.dinode img.data i) ∧
      ∀ i off n, (img.dinode i).type ≠ 0 → off + n ≤ (img.dinode i).size → Quiet img i off n) ↔
      (files.length + 2) % 32 ≠ 0 := by
  rw [← main_holeFree_iff h hfits]
  refine ⟨And.left, fun hdense => ⟨hdense, fun i off n htype hoff => ?_⟩⟩
  obtain ⟨img₀, hroot, -, rfl⟩ := main_eq h hfits
  have hmax : ((fixRoot img₀).dinode i).size < 2 ^ 32 := by
    have hsize := hroot.size_le i
    have hsize' := hroot.size_le ROOTINO
    have hround := Nat.div_mul_le_self (img₀.dinode ROOTINO).size BSIZE
    rw [size_fixRoot, Nat.add_mul]
    unfold MAXFILE NINDIRECT NDIRECT BSIZE at *
    split_ifs
    · omega
    · omega
  refine quiet_of_holeFree (hdense i) ?_ hoff hmax
  by_cases hi : i = ROOTINO
  · left
    rw [hi, ← hroot.type]
    simp [fixRoot, winode]
  · have hsame : (fixRoot img₀).dinode i = img₀.dinode i := Function.update_of_ne hi ..
    change ((fixRoot img₀).dinode i).type ≠ 0 at htype
    change ((fixRoot img₀).dinode i).type = T_DIR ∨ ((fixRoot img₀).dinode i).type = T_FILE
    rw [hsame] at htype ⊢
    exact (hroot.kind i).resolve_left fun hz => htype (by rw [hz]; rfl)

/-- An image that fits, if the program ends with one. -/
theorem exists_image {files : List (List UInt8 × List UInt8)} {c : Image → Bool}
    (h : (main files).any c = true) : ∃ img, main files = some img ∧ c img = true := by
  cases himg : main files with
  | none => simp [himg] at h
  | some img => exact ⟨img, rfl, by simpa [himg] using h⟩

/-- The image of two files. -/
theorem main_dense_iff_two : ∃ img,
    main [(str "_cat", List.replicate 600 1), (str "README", str "xv6")] = some img ∧
    ((∀ i, HoleFree img.dinode img.data i) ∧
      ∀ i off n, (img.dinode i).type ≠ 0 → off + n ≤ (img.dinode i).size → Quiet img i off n) := by
  obtain ⟨img, himg, hle⟩ := exists_image (c := fun img => img.freeblock ≤ FSSIZE)
    (show (main [(str "_cat", List.replicate 600 1), (str "README", str "xv6")]).any _ = true by
      decide +kernel)
  exact ⟨img, himg, (main_dense_iff himg ⟨by decide, by simpa using hle⟩).mpr (by decide)⟩

/-- With 30 files the root directory has 32 entries, which fill its block, and a second block that
is not allocated. -/
theorem not_forall_holeFree : ¬∀ files img, main files = some img → Fits files img →
    ∀ i, HoleFree img.dinode img.data i := by
  intro h
  obtain ⟨img, himg, hroot⟩ := exists_image (c := fun img => img.freeblock ≤ FSSIZE ∧
      (img.dinode ROOTINO).size = 1024 ∧ (img.dinode ROOTINO).addrs 1 = 0)
    (show (main (List.replicate 30 (str "f", []))).any _ = true by decide +kernel)
  simp only [decide_eq_true_eq] at hroot
  obtain ⟨hle, hsize, haddr⟩ := hroot
  have hhole := h _ img himg ⟨by decide, hle⟩ ROOTINO 1 (by rw [hsize]; decide)
  exact hhole.2 (by simpa [blockPlace, refs] using haddr)

end HgXv6.Mkfs
