import HgXv6.Kernel.Contents
import Mathlib.Data.Finset.Card
import Mathlib.Order.Interval.Finset.Nat

set_option relaxedAutoImplicit false
set_option autoImplicit false

/-!
# The blocks a write takes

How many free blocks `writei` takes, and which blocks it calls `log_write` on (`fs.c`). A file needs
a block for every 512 bytes, and one more when it has an indirect block. What is changed are the
blocks that hold the bytes, the indirect block, and blocks of the free map.

## Main definitions

* `HgXv6.Disk.Fs.freeBlocks` — the number of free blocks.
* `HgXv6.Disk.blocksFor` — how many blocks a file of a size needs.
* `HgXv6.Disk.Logged` — the blocks that `log_write` has been called on in between.

## Main results

* `HgXv6.Disk.wp_bmap_room` — the blocks that `bmap` takes.
* `HgXv6.Disk.wp_writeLoop_room` — the loop of `writei` ends if there are enough free blocks.
-/

namespace HgXv6.Disk

open Prog

variable {E : Stop → Prop} {s s' : Fs} {i bn b lo hi off : ℕ}

/-! ## Free blocks -/

/-- The blocks whose bit in the free map is clear. -/
def Fs.freeSet (s : Fs) : Finset ℕ := (Finset.range s.sb.size).filter fun b => s.used b = false

/-- The number of free blocks. -/
def Fs.freeBlocks (s : Fs) : ℕ := s.freeSet.card

theorem mem_freeSet : b ∈ s.freeSet ↔ b < s.sb.size ∧ s.used b = false := by
  rw [Fs.freeSet, Finset.mem_filter, Finset.mem_range]

/-- Taking a block leaves one less. -/
theorem freeBlocks_take (hb : b ∈ s.freeSet) : (s.take b).freeBlocks + 1 = s.freeBlocks := by
  have herase : (s.take b).freeSet = s.freeSet.erase b := by
    ext c
    rw [Finset.mem_erase, mem_freeSet, mem_freeSet]
    change c < s.sb.size ∧ Function.update s.used b true c = false ↔ _
    by_cases hc : c = b
    · simp [hc]
    · simp [hc]
  rw [Fs.freeBlocks, herase]
  exact Finset.card_erase_add_one hb

/-- The other parts of the state do not matter. -/
theorem freeBlocks_congr (hsb : s'.sb = s.sb) (hused : s'.used = s.used) :
    s'.freeBlocks = s.freeBlocks := by
  rw [Fs.freeBlocks, Fs.freeBlocks, Fs.freeSet, Fs.freeSet, hsb, hused]

/-- With a free block `balloc` does not panic. -/
theorem wp_balloc_room (hroom : 0 < s.freeBlocks) :
    Wp E balloc (fun b s' => s' = s.take b ∧ b ∈ s.freeSet) s := by
  unfold balloc
  rw [wp_bind, wp_get]
  split
  · next hnone =>
    obtain ⟨b, hb⟩ := Finset.card_pos.mp hroom
    obtain ⟨hlt, hfree⟩ := mem_freeSet.mp hb
    have hused := List.find?_eq_none.mp hnone b (List.mem_range.mpr hlt)
    simp [hfree] at hused
  · next b hb =>
    have hfree : s.used b = false := by simpa using List.find?_some hb
    refine ⟨?_, mem_freeSet.mpr ⟨List.mem_range.mp (List.mem_of_find?_eq_some hb), hfree⟩⟩
    have htake : s.take b = { s.take b with logged := (s.logged ++ [BBLOCK b s.sb]) ++ [b] } := by
      simp [Fs.take]
    exact htake.symm

/-! ## Calls of `log_write` -/

/-- The blocks that `log_write` has been called on between two states: blocks of the free map, the
indirect block of the file, and its blocks from the index `lo` up to `hi`. -/
def Logged (i lo hi : ℕ) (s s' : Fs) : Prop :=
  ∃ ws, s'.logged = s.logged ++ ws ∧ ∀ b ∈ ws, (∃ x < s.sb.size, b = BBLOCK x s.sb) ∨
    b ≠ 0 ∧ (b = refs s'.inode s'.data (.slot i NDIRECT) ∨
      ∃ bn, lo ≤ bn ∧ bn < hi ∧ b = s'.blockAt i bn)

theorem Logged.refl (i lo hi : ℕ) (s : Fs) : Logged i lo hi s s :=
  ⟨[], (List.append_nil _).symm, by simp⟩

theorem Logged.mono {lo' hi' : ℕ} (h : Logged i lo hi s s') (hlo : lo' ≤ lo) (hhi : hi ≤ hi') :
    Logged i lo' hi' s s' := by
  obtain ⟨ws, hws, hblocks⟩ := h
  refine ⟨ws, hws, fun b hb => ?_⟩
  rcases hblocks b hb with hmap | ⟨hne, hind | ⟨bn, h1, h2, hbn⟩⟩
  · exact .inl hmap
  · exact .inr ⟨hne, .inl hind⟩
  · exact .inr ⟨hne, .inr ⟨bn, by omega, by omega, hbn⟩⟩

/-- What has been logged stays one of these blocks when the file grows on. -/
theorem Logged.trans {s₁ s₂ : Fs} (h : Logged i lo hi s s₁) (hgrows : Grows i s s₁)
    (hgrows' : Grows i s₁ s₂) (h' : Logged i lo hi s₁ s₂) : Logged i lo hi s s₂ := by
  obtain ⟨ws, hws, hblocks⟩ := h
  obtain ⟨ws', hws', hblocks'⟩ := h'
  refine ⟨ws ++ ws', by rw [hws', hws, List.append_assoc], fun b hb => ?_⟩
  rcases List.mem_append.mp hb with hb | hb
  · rcases hblocks b hb with hmap | ⟨hne, rfl | ⟨bn, h1, h2, rfl⟩⟩
    · exact .inl hmap
    · exact .inr ⟨hne, .inl (hgrows'.refs_eq _ hne).symm⟩
    · exact .inr ⟨hne, .inr ⟨bn, h1, h2, (hgrows'.refs_eq _ hne).symm⟩⟩
  · rcases hblocks' b hb with hmap | hfile
    · rw [hgrows.tables.sb] at hmap
      exact .inl hmap
    · exact .inr hfile

/-! ## `bmap` -/

/-- The number of blocks that `bmap` takes. -/
def bmapTakes (s : Fs) (i bn : ℕ) : ℕ :=
  if s.blockAt i bn ≠ 0 then 0
  else if NDIRECT ≤ bn ∧ (s.icache i).copy.addrs NDIRECT = 0 then 2
  else 1

/-- The entry of an indirect block that is there: if it is empty, one block is taken. -/
theorem wp_entry_room (h : Sound s) {j : ℕ} (hv : (s.icache i).valid = true) (hj : j < NINDIRECT)
    (hind : (s.icache i).copy.addrs NDIRECT ≠ 0)
    (hroom : bmapTakes s i (NDIRECT + j) ≤ s.freeBlocks) :
    Wp E (bmap.entry ((s.icache i).copy.addrs NDIRECT) j) (fun _ s' =>
      s.freeBlocks ≤ s'.freeBlocks + bmapTakes s i (NDIRECT + j) ∧
        Logged i (NDIRECT + j) (NDIRECT + j + 1) s s') s := by
  have hblock := blockAt_indirect hv hj hind
  unfold bmap.entry
  rw [wp_bind, wp_get, wp_ite]
  refine ⟨fun hnull => ?_, fun hsome => ?_⟩
  · have htakes : bmapTakes s i (NDIRECT + j) = 1 := by
      rw [bmapTakes, hblock, if_neg (by simp [hnull]), if_neg (by simp [hind])]
    rw [htakes] at hroom ⊢
    refine Wp.bind (wp_balloc_room hroom) ?_
    rintro b s₁ ⟨rfl, hb⟩
    obtain ⟨hlt, hfree⟩ := mem_freeSet.mp hb
    obtain ⟨-, -, -, hrefs⟩ := h.take_entry hv hj hind hnull hlt hfree
    rw [wp_bind, wp_store, wp_pure]
    refine ⟨?_, [BBLOCK b s.sb, b, (s.icache i).copy.addrs NDIRECT], ?_, ?_⟩
    · exact (freeBlocks_take hb).symm.le
    · simp [Fs.setData, Fs.take]
    · intro c hc
      simp only [List.mem_cons, List.not_mem_nil, or_false] at hc
      rcases hc with rfl | rfl | rfl
      · exact .inl ⟨b, hlt, rfl⟩
      · refine .inr ⟨(h.owned.fresh hfree).1, .inr ⟨NDIRECT + j, le_rfl, Nat.lt_succ_self _, ?_⟩⟩
        rw [Fs.blockAt, blockPlace_indirect]
        exact hrefs.symm
      · refine .inr ⟨hind, .inl ?_⟩
        rw [refs, if_pos le_rfl]
        exact (congrArg (fun d : Dinode => d.addrs NDIRECT) (inode_of_valid hv)).symm
  · rw [wp_pure]
    exact ⟨Nat.le_add_right _ _, Logged.refl _ _ _ _⟩

/-- With enough free blocks `bmap` does not panic.

**Proof sketch.** By the cases of `bmap`. `bmapTakes` counts the blocks that are missing: the block
itself, and the block of addresses if that is missing too. As long as as many blocks are free,
`balloc` finds one (`wp_balloc_room`), takes one from the number of free blocks, and the second call
finds one again. -/
theorem wp_bmap_room (h : Sound s) (hv : (s.icache i).valid = true) (hbn : bn < MAXFILE)
    (hroom : bmapTakes s i bn ≤ s.freeBlocks) :
    Wp E (bmap i bn) (fun _ s' => s.freeBlocks ≤ s'.freeBlocks + bmapTakes s i bn ∧
      Logged i bn (bn + 1) s s') s := by
  unfold bmap
  by_cases hdirect : bn < NDIRECT
  · have hblock := blockAt_direct hv hdirect
    rw [if_pos hdirect, wp_bind, wp_get, wp_ite]
    refine ⟨fun hnull => ?_, fun hsome => ?_⟩
    · have htakes : bmapTakes s i bn = 1 := by
        rw [bmapTakes, hblock, if_neg (by simp [hnull]), if_neg (by omega)]
      rw [htakes] at hroom ⊢
      refine Wp.bind (wp_balloc_room hroom) ?_
      rintro b s₁ ⟨rfl, hb⟩
      obtain ⟨hlt, hfree⟩ := mem_freeSet.mp hb
      rw [wp_bind, wp_modifyCopy, wp_pure, take_icache]
      obtain ⟨-, -, -, hrefs, -⟩ := h.take_slot hv hdirect.le hnull hlt hfree
      refine ⟨(freeBlocks_take hb).symm.le, [BBLOCK b s.sb, b], rfl, fun c hc => ?_⟩
      simp only [List.mem_cons, List.not_mem_nil, or_false] at hc
      rcases hc with rfl | rfl
      · exact .inl ⟨b, hlt, rfl⟩
      · refine .inr ⟨(h.owned.fresh hfree).1, .inr ⟨bn, le_rfl, Nat.lt_succ_self _, ?_⟩⟩
        rw [Fs.blockAt, blockPlace_direct hdirect]
        exact hrefs.symm
    · rw [wp_pure]
      exact ⟨Nat.le_add_right _ _, Logged.refl _ _ _ _⟩
  · obtain ⟨j, rfl⟩ : ∃ j, bn = NDIRECT + j := ⟨bn - NDIRECT, by omega⟩
    have hj : j < NINDIRECT := by
      unfold MAXFILE at hbn
      omega
    rw [if_neg hdirect, Nat.add_sub_cancel_left, if_pos hj, wp_bind, wp_get, wp_ite]
    refine ⟨fun hnull => ?_, fun hsome => wp_entry_room h hv hj hsome hroom⟩
    have hnone := blockAt_of_null hv hnull j
    have htakes : bmapTakes s i (NDIRECT + j) = 2 := by
      rw [bmapTakes, if_neg (by simp [hnone]), if_pos ⟨Nat.le_add_right _ _, hnull⟩]
    rw [htakes] at hroom ⊢
    refine Wp.bind (wp_balloc_room (by omega)) ?_
    rintro b s₁ ⟨rfl, hb⟩
    obtain ⟨hlt, hfree⟩ := mem_freeSet.mp hb
    have hfreeBlocks := freeBlocks_take hb
    rw [wp_bind, wp_modifyCopy, take_icache]
    obtain ⟨hsound, hgrows, -, hslot, hentries⟩ := h.take_slot hv le_rfl hnull hlt hfree
    have hpos := (h.owned.fresh hfree).1
    set s₂ := (s.take b).setInode i { s.icache i with
      copy := { (s.icache i).copy with
        addrs := Function.update (s.icache i).copy.addrs NDIRECT b } } with hs₂
    have hvalid : (s₂.icache i).valid = true := (hgrows.valid i).2.trans hv
    have hb' : (s₂.icache i).copy.addrs NDIRECT = b := by simp [hs₂]
    have hsame : s₂.freeBlocks = (s.take b).freeBlocks := freeBlocks_congr rfl rfl
    -- the entry of the new indirect block is empty
    have htakes₂ : bmapTakes s₂ i (NDIRECT + j) = 1 := by
      have hnone₂ : s₂.blockAt i (NDIRECT + j) = 0 := by
        rw [Fs.blockAt, blockPlace_indirect]
        exact hentries rfl j
      rw [bmapTakes, if_neg (by simp [hnone₂]), if_neg (by simp [hb', hpos])]
    have hlogged : Logged i (NDIRECT + j) (NDIRECT + j + 1) s s₂ := by
      refine ⟨[BBLOCK b s.sb, b], rfl, fun c hc => ?_⟩
      simp only [List.mem_cons, List.not_mem_nil, or_false] at hc
      rcases hc with rfl | rfl
      · exact .inl ⟨b, hlt, rfl⟩
      · exact .inr ⟨hpos, .inl hslot.symm⟩
    have hroom₂ := wp_entry_room (E := E) hsound hvalid hj (by rw [hb']; exact hpos)
      (by rw [htakes₂]; omega)
    have hpost := wp_bmap_entry (E := fun _ => True) trivial hsound hvalid hj
      (by rw [hb']; exact hpos)
    rw [hb'] at hroom₂ hpost
    refine (hpost.and hroom₂).mono ?_
    rintro c s' ⟨⟨-, hgrows', -⟩, hfree', hlogged'⟩
    rw [htakes₂] at hfree'
    exact ⟨by omega, hlogged.trans hgrows hgrows' hlogged'⟩

/-! ## The size of a file in blocks -/

/-- How many blocks a file of a size has, with the indirect block. -/
def blocksFor (size : ℕ) : ℕ :=
  (size + BSIZE - 1) / BSIZE + if NDIRECT * BSIZE < size then 1 else 0

theorem blocksFor_mono {m n : ℕ} (h : m ≤ n) : blocksFor m ≤ blocksFor n := by
  unfold blocksFor BSIZE
  split_ifs
  · omega
  · omega
  · omega
  · omega

/-- One pass of the loop takes no more blocks than the file grows by. -/
theorem bmapTakes_le (hv : (s.icache i).valid = true) {size m : ℕ} (hm : 0 < m)
    (hdense : ∀ bn, bn * BSIZE < max size off → s.blockAt i bn ≠ 0) :
    blocksFor (max size off) + bmapTakes s i (off / BSIZE) ≤ blocksFor (max size (off + m)) := by
  by_cases hblock : s.blockAt i (off / BSIZE) = 0
  · -- the file ends here, at the end of a block
    have hend : ¬off / BSIZE * BSIZE < max size off := fun hlt => hdense _ hlt hblock
    have hle := Nat.div_mul_le_self off BSIZE
    rw [Nat.max_eq_right (show size ≤ off by omega),
      Nat.max_eq_right (show size ≤ off + m by omega)]
    by_cases hind : NDIRECT ≤ off / BSIZE ∧ (s.icache i).copy.addrs NDIRECT = 0
    · -- there is no block in the indirect range yet
      have hfirst : off / BSIZE = NDIRECT := by
        by_contra hne
        refine hdense NDIRECT ?_ (blockAt_of_null hv hind.2 0)
        unfold BSIZE at *
        omega
      have hoff : off = NDIRECT * BSIZE := by
        rw [hfirst] at hle hend
        omega
      rw [bmapTakes, if_neg (by simp [hblock]), if_pos hind, hoff, blocksFor, blocksFor,
        if_neg (lt_irrefl _), if_pos (Nat.lt_add_of_pos_right hm)]
      unfold BSIZE
      omega
    · rw [bmapTakes, if_neg (by simp [hblock]), if_neg hind]
      have hflag : (if NDIRECT * BSIZE < off then 1 else 0) ≤
          if NDIRECT * BSIZE < off + m then 1 else 0 := by
        split_ifs
        · omega
        · omega
        · omega
        · omega
      unfold blocksFor
      unfold BSIZE at *
      omega
  · rw [bmapTakes, if_pos hblock, Nat.add_zero]
    exact blocksFor_mono (by omega)

/-! ## The loop -/

/-- The index behind the last block of some bytes. -/
def blocksEnd (off len : ℕ) : ℕ := (off + len + BSIZE - 1) / BSIZE

/-- With enough free blocks the loop of `writei` ends.

**Proof sketch.** By induction on the passes. The free blocks and those of the file so far are
enough for the file in the end: a pass that takes a block makes the file longer by it. -/
theorem wp_writeLoop_room (k : ℕ) (src : List UInt8) (off : ℕ) (s : Fs) (h : Sound s)
    (hv : (s.icache i).valid = true) (hk : src.length ≤ k)
    (hmax : off + src.length ≤ MAXFILE * BSIZE)
    (hdense : ∀ bn, bn * BSIZE < max (s.icache i).copy.size off → s.blockAt i bn ≠ 0)
    (hroom : blocksFor (max (s.icache i).copy.size (off + src.length)) ≤
      s.freeBlocks + blocksFor (max (s.icache i).copy.size off)) :
    Wp E (writeLoop i k src off) (fun _ s' =>
      Logged i (off / BSIZE) (blocksEnd off src.length) s s') s := by
  induction k generalizing src off s with
  | zero => exact Logged.refl _ _ _ _
  | succ k ih =>
    unfold writeLoop
    rw [wp_ite]
    refine ⟨fun _ => Logged.refl _ _ _ _, fun hne => ?_⟩
    have hpos : 0 < src.length := List.length_pos_of_ne_nil hne
    set m := min src.length (BSIZE - off % BSIZE) with hm
    have hmod := Nat.mod_lt off (show 0 < BSIZE by decide)
    have hdiv := Nat.div_add_mod off BSIZE
    have hmpos : 0 < m := by omega
    have hlen : (src.take m).length = m := by
      rw [List.length_take]
      omega
    have hbn : off / BSIZE < MAXFILE := by
      refine Nat.div_lt_of_lt_mul ?_
      rw [Nat.mul_comm]
      omega
    have htakes := bmapTakes_le hv hmpos hdense
    have hmono : blocksFor (max (s.icache i).copy.size (off + m)) ≤
        blocksFor (max (s.icache i).copy.size (off + src.length)) := blocksFor_mono (by omega)
    have hbmap := (wp_bmap (E := fun _ => True) trivial h hv hbn).and
      (wp_bmap_room (E := E) h hv hbn (by omega))
    refine Wp.bind hbmap ?_
    rintro b s₁ ⟨hpost, hfree, hlogged⟩
    rw [wp_bind, wp_store]
    have hpass := Written.pass hm hpos hdense hpost
    obtain ⟨hsound₁, hgrows₁, -, rfl, hb, -⟩ := hpost
    set s₂ := s₁.setData (s₁.blockAt i (off / BSIZE))
      (overlay (s₁.data (s₁.blockAt i (off / BSIZE))) (off % BSIZE) (src.take m)) with hs₂
    obtain ⟨-, hgrows₂, hblocks₂⟩ := hsound₁.setData hb
      (overlay (s₁.data (s₁.blockAt i (off / BSIZE))) (off % BSIZE) (src.take m))
    have hfree₂ : s₂.freeBlocks = s₁.freeBlocks := freeBlocks_congr rfl rfl
    have hstore : Logged i (off / BSIZE) (off / BSIZE + 1) s₁ s₂ := by
      refine ⟨[s₁.blockAt i (off / BSIZE)], rfl, fun c hc => ?_⟩
      rw [List.mem_singleton.mp hc]
      exact .inr ⟨hb, .inr ⟨off / BSIZE, le_rfl, Nat.lt_succ_self _, (hblocks₂ i _).symm⟩⟩
    have hdrop : (src.drop m).length = src.length - m := List.length_drop
    have hend : off + m + (src.length - m) = off + src.length := by omega
    have hdense₂ := hpass.dense
    rw [hlen, ← hpass.size] at hdense₂
    have hrest := ih (src.drop m) (off + m) s₂ hpass.sound ((hpass.grows.valid i).2.trans hv)
      (by omega) (by omega) hdense₂ (by rw [hdrop, hend, hpass.size]; omega)
    have hrest' := wp_writeLoop (E := fun _ => True) trivial k (src.drop m) (off + m) s₂
      hpass.sound ((hpass.grows.valid i).2.trans hv) (by omega) (by omega) hdense₂
    refine (hrest'.and hrest).mono ?_
    rintro off' s' ⟨⟨-, hwritten⟩, hlogged'⟩
    refine ((hlogged.trans hgrows₁ hgrows₂ hstore).mono le_rfl ?_).trans hpass.grows
      hwritten.grows (hlogged'.mono ?_ ?_)
    · unfold blocksEnd
      unfold BSIZE at *
      omega
    · exact Nat.div_le_div_right (Nat.le_add_right off m)
    · rw [hdrop, blocksEnd, blocksEnd, hend]

end HgXv6.Disk
