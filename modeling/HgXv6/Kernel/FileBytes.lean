import HgXv6.Kernel.BlockOwnership
import HgXv6.Kernel.LogSpace
import HgXv6.Kernel.Room

set_option relaxedAutoImplicit false
set_option autoImplicit false

/-!
# A file is an array of bytes

`writei` and `readi` on a regular file without holes (`fs.c`), within a transaction. If there are
enough free blocks, a write lays its bytes over those of the file, or it is refused since the file
would be too long, or the log has no room for the blocks it changes, and `log_write` panics. A read
returns what is in the array.

## Main definitions

* `HgXv6.Disk.RegularFile` — a regular file without holes.
* `HgXv6.Disk.writeiIn` — `writei` within a transaction.
* `HgXv6.Disk.logNeed` — how many blocks a write changes at most.

## Main results

* `HgXv6.Log.logWrites_room` — calls of `log_write` on a number of blocks for which there is room.
* `HgXv6.Disk.wp_writei_regular` — a write, with the blocks it changes.
* `HgXv6.Disk.file_bytes` — what a write and a read do.
-/

namespace HgXv6

open Prog

/-! ## The log -/

namespace Log

variable {log : Log} {ws : List ℕ}

/-- A number of calls of `log_write`. -/
def logWrites (ws : List ℕ) (log : Log) : Except Stop Log :=
  ws.foldlM (fun log b => log.logWrite b) log

/-- There is room in the log for `n` more blocks. -/
def HasRoom (log : Log) (n : ℕ) : Prop :=
  log.lh.length + n < LOGSIZE ∧ log.lh.length + n + 1 < log.size

instance (log : Log) (n : ℕ) : Decidable (log.HasRoom n) := inferInstanceAs (Decidable (_ ∧ _))

theorem HasRoom.mono {m n : ℕ} (h : log.HasRoom n) (hmn : m ≤ n) : log.HasRoom m :=
  ⟨by have := h.1; omega, by have := h.2; omega⟩

/-- Within a transaction `log_write` panics for one reason. -/
theorem logWrites_cases (hout : 0 < log.outstanding) :
    (∃ log', logWrites ws log = .ok log') ∨
      logWrites ws log = .error (.panic "too big a transaction") := by
  induction ws generalizing log with
  | nil => exact .inl ⟨log, rfl⟩
  | cons b ws ih =>
    rw [logWrites, List.foldlM_cons, logWrite]
    split_ifs with hbig hnone
    · exact .inr rfl
    · omega
    · have hout' : 0 < ({ log with lh := absorb b log.lh } : Log).outstanding := hout
      exact ih hout'

/-- If all blocks are in a set, then those of the set that are not in the log need room.

**Proof sketch.** By induction on the calls. A block that is new in the log is one less that may
come. -/
theorem logWrites_room {blocks : Finset ℕ} (hout : 0 < log.outstanding)
    (hws : ∀ b ∈ ws, b ∈ blocks) (hroom : log.HasRoom (blocks \ log.lh.toFinset).card) :
    ∃ log', logWrites ws log = .ok log' := by
  induction ws generalizing log with
  | nil => exact ⟨log, rfl⟩
  | cons b ws ih =>
    obtain ⟨hlogsize, hsize⟩ := id hroom
    rw [logWrites, List.foldlM_cons, logWrite, if_neg (by omega), if_neg (by omega)]
    have hout' : 0 < ({ log with lh := absorb b log.lh } : Log).outstanding := hout
    refine ih hout' (fun c hc => hws c (List.mem_cons_of_mem b hc)) ?_
    unfold absorb
    split_ifs with hb
    · exact hroom
    · have hmem : b ∈ blocks \ log.lh.toFinset :=
        Finset.mem_sdiff.mpr ⟨hws b List.mem_cons_self, by simpa using hb⟩
      have hset : blocks \ (log.lh ++ [b]).toFinset = (blocks \ log.lh.toFinset).erase b := by
        ext c
        simp only [Finset.mem_sdiff, Finset.mem_erase, List.mem_toFinset, List.mem_append,
          List.mem_singleton]
        tauto
      have hcard := Finset.card_erase_add_one hmem
      rw [← hset] at hcard
      change (log.lh ++ [b]).length + (blocks \ (log.lh ++ [b]).toFinset).card < LOGSIZE ∧
        (log.lh ++ [b]).length + (blocks \ (log.lh ++ [b]).toFinset).card + 1 < log.size
      rw [List.length_append, List.length_singleton]
      omega

end Log

namespace Disk

variable {E : Stop → Prop} {s s' : Fs} {i off : ℕ} {src : List UInt8}

/-! ## The blocks of a write -/

/-- The blocks that a write may change: the free map, the blocks that hold the bytes, the indirect
block, and the block of the inode. -/
def writeBlocks (s : Fs) (i off len : ℕ) : Finset ℕ :=
  (Finset.range ((s.sb.size + BPB - 1) / BPB)).image (fun k => k + s.sb.bmapstart) ∪
    (Finset.Ico (off / BSIZE) (blocksEnd off len)).image (s.blockAt i) ∪
    {refs s.inode s.data (.slot i NDIRECT), IBLOCK i s.sb}

/-- How many blocks these are at most. -/
def logNeed (sb : Superblock) (off len : ℕ) : ℕ :=
  (sb.size + BPB - 1) / BPB + (blocksEnd off len - off / BSIZE) + 2

theorem card_writeBlocks_le (s : Fs) (i off len : ℕ) :
    (writeBlocks s i off len).card ≤ logNeed s.sb off len := by
  have hmap := Finset.card_image_le (s := Finset.range ((s.sb.size + BPB - 1) / BPB))
    (f := fun k => k + s.sb.bmapstart)
  have hdata := Finset.card_image_le (s := Finset.Ico (off / BSIZE) (blocksEnd off len))
    (f := s.blockAt i)
  rw [Finset.card_range] at hmap
  rw [Nat.card_Ico] at hdata
  refine (Finset.card_union_le _ _).trans ?_
  refine Nat.add_le_add ((Finset.card_union_le _ _).trans (Nat.add_le_add hmap hdata)) ?_
  exact Finset.card_le_two

/-- These blocks depend on the references alone. -/
theorem writeBlocks_congr (hsb : s'.sb = s.sb)
    (hrefs : refs s'.inode s'.data = refs s.inode s.data) (i off len : ℕ) :
    writeBlocks s' i off len = writeBlocks s i off len := by
  have hblocks : s'.blockAt i = s.blockAt i := by
    funext bn
    rw [Fs.blockAt, Fs.blockAt, hrefs]
  rw [writeBlocks, writeBlocks, hsb, hrefs, hblocks]

/-- What the loop has logged is among these blocks. -/
theorem Logged.mem_writeBlocks {len : ℕ} (h : Logged i (off / BSIZE) (blocksEnd off len) s s')
    (hsb : s'.sb = s.sb) :
    ∃ ws, s'.logged = s.logged ++ ws ∧ ∀ b ∈ ws, b ∈ writeBlocks s' i off len := by
  obtain ⟨ws, hws, hblocks⟩ := h
  refine ⟨ws, hws, fun b hb => ?_⟩
  simp only [writeBlocks, Finset.mem_union, Finset.mem_image, Finset.mem_range, Finset.mem_Ico,
    Finset.mem_insert, Finset.mem_singleton]
  rcases hblocks b hb with ⟨x, hx, rfl⟩ | ⟨-, hind | ⟨bn, h1, h2, hbn⟩⟩
  · refine .inl (.inl ⟨x / BPB, ?_, by rw [BBLOCK, hsb]⟩)
    rw [hsb]
    unfold BPB BSIZE
    omega
  · exact .inr (.inl hind)
  · exact .inl (.inr ⟨bn, ⟨h1, h2⟩, hbn.symm⟩)

/-! ## Regular files -/

/-- A regular file without holes, whose inode is locked. -/
structure RegularFile (i : ℕ) (s : Fs) : Prop where
  sound : Sound s
  valid : (s.icache i).valid = true
  type : (s.icache i).copy.type = T_FILE
  dense : HoleFree s.inode s.data i

/-- Between two operations every file that is locked is of this kind. -/
theorem Consistent.regularFile (h : Consistent s) (hv : (s.icache i).valid = true)
    (htype : (s.dinode i).type = T_FILE) : RegularFile i s where
  sound := h.toSound
  valid := hv
  type := by rw [(h.cached i hv).1, htype]
  dense := by
    rw [h.inode_eq]
    exact h.dense i (h.cached i hv).2

theorem RegularFile.inode (h : RegularFile i s) : s.inode i = (s.icache i).copy :=
  inode_of_valid h.valid

/-- A file has a block at every index below its end. -/
theorem RegularFile.blockAt_ne_zero (h : RegularFile i s) {bn : ℕ}
    (hbn : bn * BSIZE < (s.icache i).copy.size) : bn < MAXFILE ∧ s.blockAt i bn ≠ 0 :=
  h.dense bn (by rwa [h.inode])

theorem RegularFile.not_dev (h : RegularFile i s) : (s.icache i).copy.type ≠ T_DEV := by
  rw [h.type]
  decide

/-- What a write that is not refused leaves. -/
structure WriteDone (i off : ℕ) (src : List UInt8) (s s' : Fs) : Prop where
  regular : RegularFile i s'
  size : (s'.icache i).copy.size = max (s.icache i).copy.size (off + src.length)
  bytes : contents s'.inode s'.data i = (contents s.inode s.data i).take off ++ src ++
    (contents s.inode s.data i).drop (off + src.length)
  logged : ∃ ws, s'.logged = s.logged ++ ws ∧
    ∀ b ∈ ws, b ∈ writeBlocks s' i off src.length
  sb : s'.sb = s.sb

/-- The contents after the loop, if the size in memory is that of the file in the end. -/
theorem Written.contents_eq (hw : Written i off src s s') (hv : (s.icache i).valid = true)
    (hoff : off ≤ (s.icache i).copy.size) {inode : ℕ → Dinode}
    (hrefs : refs inode s'.data = refs s'.inode s'.data)
    (hsize : (inode i).size = max (s.icache i).copy.size (off + src.length)) :
    contents inode s'.data i = (contents s.inode s.data i).take off ++ src ++
      (contents s.inode s.data i).drop (off + src.length) := by
  rw [contents, contents, hsize, inode_of_valid hv, ← firstOf_overlay _ _ hoff,
    byteAt_congr hrefs rfl]
  exact firstOf_congr hw.bytes

/-- After the loop the file has a block at every index below its new end. -/
theorem Written.blocks (hw : Written i off src s s') (h : RegularFile i s)
    (hmax : off + src.length ≤ MAXFILE * BSIZE) {bn : ℕ}
    (hbn : bn * BSIZE < max (s.icache i).copy.size (off + src.length)) :
    bn < MAXFILE ∧ s'.blockAt i bn ≠ 0 := by
  refine ⟨?_, hw.dense bn hbn⟩
  rcases Nat.lt_or_ge (bn * BSIZE) (s.icache i).copy.size with hlt | hge
  · exact (h.blockAt_ne_zero hlt).1
  · refine Nat.lt_of_mul_lt_mul_right (a := BSIZE) ?_
    omega

/-- The inode in memory is still valid and of its type after the loop. -/
theorem Written.inode (hw : Written i off src s s') (h : RegularFile i s) :
    (s'.icache i).valid = true ∧ (s'.icache i).copy.type = T_FILE := by
  obtain ⟨addrs, hcopy⟩ := hw.grows.copy
  exact ⟨(hw.grows.valid i).2.trans h.valid, by rw [hcopy, ← h.type]⟩

/-- The end of a write that does not make the file longer. -/
theorem Written.kept (hw : Written i off src s s') (h : RegularFile i s)
    (hoff : off ≤ (s.icache i).copy.size) (hmax : off + src.length ≤ MAXFILE * BSIZE)
    (hsize : max (s.icache i).copy.size (off + src.length) = (s.icache i).copy.size)
    (hlogged : Logged i (off / BSIZE) (blocksEnd off src.length) s s') :
    WriteDone i off src s s' := by
  obtain ⟨hv, htype⟩ := hw.inode h
  have hsb : s'.sb = s.sb := hw.grows.tables.sb
  have hinode : s'.inode i = (s'.icache i).copy := inode_of_valid hv
  refine ⟨⟨hw.sound, hv, htype, fun bn hbn => ?_⟩, ?_, ?_, hlogged.mem_writeBlocks hsb, hsb⟩
  · rw [hinode, hw.size, ← hsize] at hbn
    exact hw.blocks h hmax hbn
  · rw [hw.size, hsize]
  · exact hw.contents_eq h.valid hoff rfl (by rw [hinode, hw.size, hsize])

/-- The end of a write that makes the file longer: the inode is written too. -/
theorem Written.grown (hw : Written i off src s s') (h : RegularFile i s)
    (hoff : off ≤ (s.icache i).copy.size) (hmax : off + src.length ≤ MAXFILE * BSIZE)
    (hsize : max (s.icache i).copy.size (off + src.length) = off + src.length)
    (hlogged : Logged i (off / BSIZE) (blocksEnd off src.length) s s') :
    WriteDone i off src s
      (s'.putInode i { (s'.icache i).copy with size := off + src.length }) := by
  obtain ⟨hv, htype⟩ := hw.inode h
  have hsb : s'.sb = s.sb := hw.grows.tables.sb
  have hslots : { (s'.icache i).copy with size := off + src.length }.addrs =
    (s'.icache i).copy.addrs := rfl
  set t := s'.putInode i { (s'.icache i).copy with size := off + src.length } with ht
  have hrefs : refs t.inode t.data = refs s'.inode s'.data := refs_putInode hv hslots
  have hinode : t.inode i = { (s'.icache i).copy with size := off + src.length } := by
    rw [ht, inode_putInode hv, Function.update_self]
  have hti : (t.icache i).valid = true ∧ (t.icache i).copy = t.inode i := by
    rw [hinode, ht]
    simp [Fs.putInode, hv]
  refine ⟨⟨hw.sound.putInode hv hslots (hw.sound.typed i hv), hti.1, ?_, fun bn hbn => ?_⟩, ?_, ?_,
    ?_, hsb⟩
  · rw [hti.2, hinode]
    exact htype
  · rw [hinode] at hbn
    rw [hrefs]
    exact hw.blocks h hmax (by rw [hsize]; exact hbn)
  · rw [hti.2, hinode, hsize]
  · exact hw.contents_eq h.valid hoff hrefs (by rw [hinode, hsize])
  · obtain ⟨ws, hws, hblocks⟩ := hlogged.mem_writeBlocks hsb
    refine ⟨ws ++ [IBLOCK i s'.sb], ?_, fun b hb => ?_⟩
    · rw [← List.append_assoc, ← hws]
      rfl
    · have hsame : writeBlocks t i off src.length = writeBlocks s' i off src.length :=
        writeBlocks_congr (show t.sb = s'.sb from rfl) hrefs i off src.length
      rw [hsame]
      rcases List.mem_append.mp hb with hb | hb
      · exact hblocks b hb
      · rw [List.mem_singleton.mp hb, writeBlocks]
        simp

/-- With enough free blocks `writei` ends on a regular file.

**Proof sketch.** The tests at the start of `writei` refuse a write that would be too long, and no
other here. The loop is followed twice: for what it writes (`wp_writeLoop`) and for the blocks it
takes and logs (`wp_writeLoop_room`), of which there are enough. If the file has grown, its inode is
written at the end, and if it has not, its inode is as before. -/
theorem wp_writei_regular (h : RegularFile i s) (hoff : off ≤ (s.icache i).copy.size)
    (hroom : off + src.length ≤ MAXFILE * BSIZE →
      blocksFor (max (s.icache i).copy.size (off + src.length)) ≤
        s.freeBlocks + blocksFor (s.icache i).copy.size) :
    Wp E (writei i src off) (fun r s' =>
      MAXFILE * BSIZE < off + src.length ∧ r = -1 ∧ s' = s ∨
        off + src.length ≤ MAXFILE * BSIZE ∧ r = src.length ∧ WriteDone i off src s s') s := by
  refine wp_writei_of (fun hdev => absurd hdev h.not_dev)
    (fun hbad => .inl ⟨by omega, rfl, rfl⟩) fun _ hmax => ?_
  have hdense : ∀ bn, bn * BSIZE < max (s.icache i).copy.size off → s.blockAt i bn ≠ 0 :=
    fun bn hbn => (h.blockAt_ne_zero (by omega)).2
  have hloop := (wp_writeLoop (E := fun _ => True) trivial _ src off s h.sound h.valid le_rfl hmax
    hdense).and (wp_writeLoop_room (E := E) _ src off s h.sound h.valid le_rfl hmax hdense
      (by rw [Nat.max_eq_left hoff]; exact hroom hmax))
  refine hloop.mono ?_
  rintro off' s' ⟨⟨rfl, hw⟩, hlogged⟩
  refine ⟨fun hgrown => .inr ⟨hmax, rfl, hw.grown h hoff hmax (by omega) hlogged⟩,
    fun hgrown => .inr ⟨hmax, rfl, hw.kept h hoff hmax ?_ hlogged⟩⟩
  rcases Nat.eq_zero_or_pos src.length with hnil | hpos
  · omega
  · have hle : ¬off + src.length > (s.icache i).copy.size := fun hgt => hgrown ⟨hpos, hgt⟩
    omega

/-- `readi` on a regular file returns a part of its contents, and changes nothing. -/
theorem wp_readi_regular (h : RegularFile i s) (hoff : off ≤ (s.icache i).copy.size) {n : ℕ}
    (hwrap : off + n < 2 ^ 32) :
    Wp E (readi i off n) (fun r s' =>
      r = some (((contents s.inode s.data i).drop off).take n) ∧ s' = s) s := by
  refine (wp_readi_of_holeFree h.valid h.not_dev h.dense off n).mono ?_
  rintro r s' ⟨rfl, hnone, hsome⟩
  cases r with
  | none => exact absurd (hnone rfl) (by omega)
  | some bs => exact ⟨congrArg some (hsome bs rfl), rfl⟩

/-! ## Writes within a transaction -/

/-- `writei` within a transaction: the blocks on which it calls `log_write` go to the log. -/
def writeiIn (i : ℕ) (src : List UInt8) (off : ℕ) (log : Log) (s : Fs) :
    Except Stop (ℤ × Fs × Log) := do
  let (r, s') ← (writei i src off).run s
  let log' ← log.logWrites (s'.logged.drop s.logged.length)
  pure (r, s', log')

/-- **A file is an array of bytes.** On a regular file without holes, with enough free blocks, a
write at an offset that is not behind the end of the file returns `-1` and changes nothing if the
file would be too long; otherwise it lays its bytes over those of the file and returns their
number, unless the log has no room for the blocks that it may change: then `log_write` panics. A
read returns the bytes that the file has there.

**Proof sketch.** The loops go from block to block; `bmap` takes a block where the file ends, so
that the file stays without holes, and the blocks of a file are different from those of all
others. The log takes all blocks that the write changes, once each. -/
theorem file_bytes (h : RegularFile i s) (hoff : off ≤ (s.icache i).copy.size) (src : List UInt8)
    (hroom : off + src.length ≤ MAXFILE * BSIZE →
      blocksFor (max (s.icache i).copy.size (off + src.length)) ≤
        s.freeBlocks + blocksFor (s.icache i).copy.size)
    {log : Log} (hout : 0 < log.outstanding) :
    (MAXFILE * BSIZE < off + src.length ∧ writeiIn i src off log s = .ok (-1, s, log) ∨
      off + src.length ≤ MAXFILE * BSIZE ∧
        ((∃ s' log', writeiIn i src off log s = .ok (src.length, s', log') ∧ RegularFile i s' ∧
          (s'.icache i).copy.size = max (s.icache i).copy.size (off + src.length) ∧
          contents s'.inode s'.data i = (contents s.inode s.data i).take off ++ src ++
            (contents s.inode s.data i).drop (off + src.length)) ∨
        ¬log.HasRoom (logNeed s.sb off src.length) ∧
          writeiIn i src off log s = .error (.panic "too big a transaction"))) ∧
    ∀ n, off + n < 2 ^ 32 → (readi i off n).run s =
      .ok (some (((contents s.inode s.data i).drop off).take n), s) := by
  refine ⟨?_, fun n hwrap => ?_⟩
  · obtain ⟨r, s', hrun, hpost⟩ := (wp_writei_regular h hoff hroom).total
    unfold writeiIn
    rw [hrun, ok_bind]
    dsimp only
    rcases hpost with ⟨hbig, rfl, rfl⟩ | ⟨hmax, rfl, hdone⟩
    · refine .inl ⟨hbig, ?_⟩
      rw [List.drop_length]
      rfl
    · obtain ⟨ws, hws, hblocks⟩ := hdone.logged
      refine .inr ⟨hmax, ?_⟩
      rw [hws, List.drop_left]
      rcases Log.logWrites_cases hout with ⟨log', hlog'⟩ | hpanic
      · refine .inl ⟨s', log', ?_, hdone.regular, hdone.size, hdone.bytes⟩
        rw [hlog']
        rfl
      · refine .inr ⟨fun hfits => ?_, by rw [hpanic]; rfl⟩
        have hcard : (writeBlocks s' i off src.length \ log.lh.toFinset).card ≤
            logNeed s.sb off src.length := by
          refine (Finset.card_le_card Finset.sdiff_subset).trans ?_
          rw [← hdone.sb]
          exact card_writeBlocks_le s' i off src.length
        obtain ⟨log', hlog'⟩ := Log.logWrites_room hout hblocks (hfits.mono hcard)
        rw [hlog'] at hpanic
        cases hpanic
  · obtain ⟨r, s', hrun, rfl, rfl⟩ := (wp_readi_regular h hoff hwrap).total
    exact hrun

/-! ## An empty file -/

/-- An empty file system after `ialloc` and `ilock` of a file. -/
def emptyFile : Fs :=
  ((emptyFs.setDinode 2 { Dinode.zero with type := T_FILE }).get 2).lock 2

theorem regularFile_emptyFile : RegularFile 2 emptyFile :=
  Consistent.regularFile (((consistent_emptyFs.alloc rfl T_FILE).get 2).lock (by decide)) rfl rfl

/-- The log in a transaction of one call that has changed nothing yet. -/
def newTransaction : Log := ⟨LOGSIZE, 1, false, []⟩

/-- A text is written to an empty file. -/
theorem file_bytes_emptyFile :
    ∃ s' log', writeiIn 2 (str "text") 0 newTransaction emptyFile =
        .ok (((str "text").length : ℕ), s', log') ∧
      contents s'.inode s'.data 2 = str "text" := by
  rcases (file_bytes regularFile_emptyFile (show 0 ≤ _ from Nat.zero_le _) (str "text")
    (fun _ => by decide +kernel) (show 0 < newTransaction.outstanding by decide)).1 with
    ⟨hbig, -⟩ | ⟨-, ⟨s', log', hrun, -, -, hbytes⟩ | ⟨hroom, -⟩⟩
  · exact absurd hbig (by decide)
  · exact ⟨s', log', hrun, hbytes⟩
  · exact absurd (by decide) hroom

/-- If 28 blocks of the empty file are written at once, then the log has no room for them and the
indirect block: enough free blocks do not make every write end. -/
theorem not_forall_writeiIn :
    ¬∀ (i : ℕ) (s : Fs) (off : ℕ) (src : List UInt8) (log : Log), RegularFile i s →
      off ≤ (s.icache i).copy.size →
      (off + src.length ≤ MAXFILE * BSIZE →
        blocksFor (max (s.icache i).copy.size (off + src.length)) ≤
          s.freeBlocks + blocksFor (s.icache i).copy.size) →
      0 < log.outstanding →
      MAXFILE * BSIZE < off + src.length ∧ writeiIn i src off log s = .ok (-1, s, log) ∨
        off + src.length ≤ MAXFILE * BSIZE ∧ ∃ s' log',
          writeiIn i src off log s = .ok (src.length, s', log') ∧
          contents s'.inode s'.data i = (contents s.inode s.data i).take off ++ src ++
            (contents s.inode s.data i).drop (off + src.length) := by
  intro hall
  have hpanics : (writeiIn 2 (List.replicate (28 * BSIZE) 0) 0 newTransaction emptyFile).toBool =
    false := by decide +kernel
  rcases hall 2 emptyFile 0 (List.replicate (28 * BSIZE) 0) newTransaction regularFile_emptyFile
    (by decide) (fun _ => by rw [List.length_replicate]; decide +kernel) (by decide) with
    ⟨-, hrun⟩ | ⟨-, s', log', hrun, -⟩
  · rw [hrun] at hpanics
    cases hpanics
  · rw [hrun] at hpanics
    cases hpanics

end Disk

end HgXv6
