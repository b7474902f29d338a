import HgXv6.Kernel.Disk
import HgXv6.Lib.Ownership
import Mathlib.Data.List.Range
import Mathlib.Tactic.Linarith

set_option relaxedAutoImplicit false
set_option autoImplicit false

/-!
# Who owns a block

The places that name blocks are the slots of the inodes and the entries of their indirect blocks.
Every block of the data region is named from at most one place, and its bit in the free map is set
exactly if it is named.

## Main definitions

* `HgXv6.Disk.Place`, `HgXv6.Disk.refs` — the places, and the blocks they name.
* `HgXv6.Disk.OwnedBy` — ownership is exact, and the free map covers the other regions.

## Main results

* `HgXv6.Disk.OwnedBy.take` — a block that `balloc` finds is stored in an empty place.
* `HgXv6.Disk.OwnedBy.release` — a block is taken out of its place and freed.
-/

namespace HgXv6.Disk

open Prog

/-! ## Places -/

/-- The inode as the kernel sees it: the copy in memory if it is valid. -/
def Fs.inode (s : Fs) (i : ℕ) : Dinode :=
  if (s.icache i).valid then (s.icache i).copy else s.dinode i

/-- What names blocks: the slots of an inode, and the entries of its indirect block. -/
inductive Place
  | slot (i k : ℕ)
  | entry (i j : ℕ)
deriving DecidableEq

/-- The block that a place names, or 0. -/
def refs (inode : ℕ → Dinode) (data : ℕ → Data) : Place → ℕ
  | .slot i k => if k ≤ NDIRECT then (inode i).addrs k else 0
  | .entry i j =>
    if (inode i).addrs NDIRECT ≠ 0 ∧ j < NINDIRECT then
      getUint (data ((inode i).addrs NDIRECT)) j
    else 0

/-- The first block of the data region. -/
def Superblock.datastart (sb : Superblock) : ℕ := sb.size - sb.nblocks

/-- The blocks of the data region that the free map has as in use. -/
def Fs.allocated (s : Fs) : Set ℕ :=
  {b | s.sb.datastart ≤ b ∧ b < s.sb.size ∧ s.used b = true}

/-- The places that `ref` describes own the data region, and the rest of the disk is in use. -/
structure OwnedBy (ref : Place → ℕ) (s : Fs) : Prop where
  owns : Owns ref 0 s.allocated
  used_of_lt : ∀ b < s.sb.datastart, s.used b = true
  pos : 0 < s.sb.datastart
  /-- a block number is a word -/
  size_le : s.sb.size ≤ 2 ^ 32

/-- Only the free map matters, and the places. -/
theorem OwnedBy.congr {ref ref' : Place → ℕ} {s s' : Fs} (h : OwnedBy ref s) (href : ref' = ref)
    (hsb : s'.sb = s.sb) (hused : s'.used = s.used) : OwnedBy ref' s' where
  owns := by
    rw [href, Fs.allocated, hsb, hused]
    exact h.owns
  used_of_lt := by
    rw [hsb, hused]
    exact h.used_of_lt
  pos := hsb ▸ h.pos
  size_le := hsb ▸ h.size_le

/-! ## Words in a block -/

theorem getUint_zero (j : ℕ) : getUint (fun _ => 0) j = 0 := rfl

/-- The word that was stored, and the others. -/
theorem getUint_putUint {v : ℕ} (hv : v < 2 ^ 32) (b : Data) (j j' : ℕ) :
    getUint (putUint j v b) j' = if j' = j then v else getUint b j' := by
  split_ifs with hj
  · subst hj
    have hbyte (k : ℕ) (hk : k < 4) :
        putUint j' v b (4 * j' + k) = (uintBytes v).getD k 0 := by
      have hlen : k < (uintBytes v).length := hk
      rw [putUint, overlay_of_mem (by omega) (by omega)]
      simp [List.getD_eq_getElem?_getD, List.getElem?_eq_getElem hlen]
    have h0 := hbyte 0 (by omega)
    rw [Nat.add_zero] at h0
    simp only [getUint, h0, hbyte 1 (by omega), hbyte 2 (by omega), hbyte 3 (by omega), uintBytes,
      List.getD_cons_zero, List.getD_cons_succ, UInt8.toNat_ofNat']
    omega
  · have hbyte (k : ℕ) (hk : k < 4) : putUint j v b (4 * j' + k) = b (4 * j' + k) := by
      rcases Nat.lt_or_gt_of_ne hj with h | h
      · exact overlay_of_lt (by omega)
      · exact overlay_of_le (by simp only [uintBytes, List.length_cons, List.length_nil]; omega)
    have h0 := hbyte 0 (by omega)
    rw [Nat.add_zero] at h0
    simp only [getUint, h0, hbyte 1 (by omega), hbyte 2 (by omega), hbyte 3 (by omega)]

/-! ## The free map -/

/-- A block is marked as in use and zeroed. -/
def Fs.take (b : ℕ) (s : Fs) : Fs :=
  { s with
    used := Function.update s.used b true
    data := Function.update s.data b fun _ => 0
    logged := s.logged ++ [BBLOCK b s.sb, b] }

/-- A block is marked as free. -/
def Fs.release (b : ℕ) (s : Fs) : Fs :=
  { s with
    used := Function.update s.used b false
    logged := s.logged ++ [BBLOCK b s.sb] }

variable {E : Stop → Prop} {s : Fs} {ref : Place → ℕ}

/-- `balloc` takes a block whose bit is clear. -/
theorem wp_balloc {Q : ℕ → Fs → Prop} (hE : E (.panic "balloc: out of blocks"))
    (h : ∀ b, b < s.sb.size → s.used b = false → Q b (s.take b)) : Wp E balloc Q s := by
  unfold balloc
  rw [wp_bind, wp_get]
  split
  · exact hE
  · next b hb =>
    have hfree : s.used b = false := by simpa using List.find?_some hb
    have hlt : b < s.sb.size := List.mem_range.mp (List.mem_of_find?_eq_some hb)
    have htake := h b hlt hfree
    rw [Fs.take, ← List.singleton_append, ← List.append_assoc] at htake
    exact htake

/-- `bfree` of a block whose bit is set. -/
theorem wp_bfree {Q : Unit → Fs → Prop} {b : ℕ} (hb : s.used b = true)
    (h : Q ⟨⟩ (s.release b)) : Wp E (bfree b) Q s := by
  unfold bfree
  simpa [hb, logWrite, Fs.release] using h

/-- A block whose bit is clear is in the data region, and nothing names it. -/
theorem OwnedBy.fresh (h : OwnedBy ref s) {b : ℕ} (hb : s.used b = false) :
    b ≠ 0 ∧ b ∉ s.allocated ∧ ∀ p, ref p ≠ b := by
  have hnot : b ∉ s.allocated := by
    intro hmem
    rw [hmem.2.2] at hb
    cases hb
  have hpos : b ≠ 0 := by
    rintro rfl
    rw [h.used_of_lt 0 h.pos] at hb
    cases hb
  exact ⟨hpos, hnot, h.owns.ne hpos hnot⟩

/-- A named block is in the data region and in use. -/
theorem OwnedBy.used (h : OwnedBy ref s) {p : Place} (hp : ref p ≠ 0) :
    s.used (ref p) = true := (h.owns.mem hp).2.2

/-- A block that a place takes.

**Proof sketch.** A block that is free in the map is in the data region, since the blocks below are
marked, and nobody names it. With it the blocks marked are one more, and so are those that are named
(`Owns.take`). -/
theorem OwnedBy.take (h : OwnedBy ref s) {p : Place} {b : ℕ} (hlt : b < s.sb.size)
    (hb : s.used b = false) (hp : ref p = 0) :
    OwnedBy (Function.update ref p b) (s.take b) where
  owns := by
    obtain ⟨hpos, hnot, -⟩ := h.fresh hb
    have hregion : s.sb.datastart ≤ b := by
      by_contra hlt'
      rw [h.used_of_lt b (by omega)] at hb
      cases hb
    have hset : (s.take b).allocated = Insert.insert b s.allocated := by
      ext c
      simp only [Fs.allocated, Fs.take, Set.mem_ofPred_eq, Set.mem_insert_iff,
        Function.update_apply]
      by_cases hc : c = b
      · simp [hc, hlt, hregion]
      · simp [hc]
    rw [hset]
    exact h.owns.alloc hp hpos hnot
  used_of_lt := by
    intro c hc
    by_cases hcb : c = b
    · rw [hcb]
      exact Function.update_self ..
    · exact (Function.update_of_ne hcb ..).trans (h.used_of_lt c hc)
  pos := h.pos
  size_le := h.size_le

/-- A block that is taken out of its place and freed.

**Proof sketch.** The block was named from this place alone, so that after the place is cleared it
is named from nowhere, and it is the one that is not marked any more (`Owns.free`). -/
theorem OwnedBy.release (h : OwnedBy ref s) {p : Place} (hp : ref p ≠ 0) :
    OwnedBy (Function.update ref p 0) (s.release (ref p)) where
  owns := by
    have hset : (s.release (ref p)).allocated = s.allocated \ {ref p} := by
      ext c
      simp only [Fs.allocated, Fs.release, Set.mem_ofPred_eq, Set.mem_sdiff,
        Set.mem_singleton_iff, Function.update_apply]
      by_cases hc : c = ref p
      · simp [hc]
      · simp [hc]
    rw [hset]
    exact h.owns.free hp
  used_of_lt := by
    intro c hc
    have hne : c ≠ ref p := by
      rintro rfl
      exact absurd (h.owns.mem hp).1 (Nat.not_le.mpr hc)
    exact (Function.update_of_ne hne ..).trans (h.used_of_lt c hc)
  pos := h.pos
  size_le := h.size_le

/-! ## What a store in a place does to the references -/

variable {inode : ℕ → Dinode} {data : ℕ → Data}

/-- Fields other than the slots do not matter. -/
theorem refs_congr {inode' : ℕ → Dinode} (h : ∀ i k, (inode' i).addrs k = (inode i).addrs k) :
    refs inode' data = refs inode data := by
  funext p
  cases p with
  | slot i k => simp only [refs, h]
  | entry i j => simp only [refs, h]

/-- A block that is no indirect block may change. -/
theorem refs_update_data {b : ℕ} (f : Data) (h : ∀ i, (inode i).addrs NDIRECT ≠ b) :
    refs inode (Function.update data b f) = refs inode data := by
  funext p
  cases p with
  | slot i k => rfl
  | entry i j => simp only [refs, Function.update_of_ne (h i)]

/-- A new, zeroed block is stored in a slot that is empty. -/
theorem refs_update_slot {i k b : ℕ} (hk : k ≤ NDIRECT) (hnull : (inode i).addrs k = 0)
    (hfresh : ∀ p, refs inode data p ≠ b) :
    refs (Function.update inode i
        { inode i with addrs := Function.update (inode i).addrs k b })
      (Function.update data b fun _ => 0) =
      Function.update (refs inode data) (.slot i k) b := by
  have hind (i' : ℕ) : (inode i').addrs NDIRECT ≠ b := by
    simpa [refs] using hfresh (.slot i' NDIRECT)
  funext p
  cases p with
  | slot i' k' =>
    by_cases hi : i' = i
    · subst hi
      by_cases hk' : k' = k
      · subst hk'
        simp [refs, hk]
      · simp [refs, hk']
    · simp [refs, hi]
  | entry i' j =>
    rw [Function.update_of_ne (by simp)]
    by_cases hi : i' = i
    · subst hi
      by_cases hk' : k = NDIRECT
      · subst hk'
        simp [refs, hnull, getUint_zero]
      · simp [refs, Ne.symm hk', hind i']
    · simp [refs, hi, hind i']

/-- A new block is stored in an entry that is empty. -/
theorem refs_update_entry {i j b : ℕ} (hj : j < NINDIRECT) (hb : b < 2 ^ 32)
    (hind : (inode i).addrs NDIRECT ≠ 0)
    (huniq : ∀ i', (inode i').addrs NDIRECT = (inode i).addrs NDIRECT → i' = i)
    (hfresh : ∀ p, refs inode data p ≠ b) :
    refs inode (Function.update (Function.update data b fun _ => 0) ((inode i).addrs NDIRECT)
        (putUint j b (data ((inode i).addrs NDIRECT)))) =
      Function.update (refs inode data) (.entry i j) b := by
  have hne (i' : ℕ) : (inode i').addrs NDIRECT ≠ b := by
    simpa [refs] using hfresh (.slot i' NDIRECT)
  funext p
  cases p with
  | slot i' k => rw [Function.update_of_ne (by simp)]; rfl
  | entry i' j' =>
    by_cases hi : i' = i
    · subst hi
      by_cases hj' : j' = j
      · subst hj'
        simp [refs, hind, hj, getUint_putUint hb]
      · simp [refs, hind, hj', getUint_putUint hb]
    · have hother : (inode i').addrs NDIRECT ≠ (inode i).addrs NDIRECT :=
        fun h => hi (huniq i' h)
      simp [refs, hi, hother, hne i']

/-- An indirect block has one owner. -/
theorem Owns.indirect_unique {used : Set ℕ} (h : Owns (refs inode data) 0 used) {i i' : ℕ}
    (hi : (inode i).addrs NDIRECT ≠ 0)
    (heq : (inode i').addrs NDIRECT = (inode i).addrs NDIRECT) : i' = i := by
  have hp := h.inj (.slot i' NDIRECT) (.slot i NDIRECT) (by simpa [refs] using heq)
    (by simpa [refs, heq] using hi)
  simpa using hp

/-! ## What clearing a place does to the references -/

/-- A direct slot is cleared. -/
theorem refs_clear_slot {i k : ℕ} (hk : k < NDIRECT) :
    refs (Function.update inode i
        { inode i with addrs := Function.update (inode i).addrs k 0 }) data =
      Function.update (refs inode data) (.slot i k) 0 := by
  funext p
  cases p with
  | slot i' k' =>
    by_cases hi : i' = i
    · subst hi
      by_cases hk' : k' = k
      · subst hk'
        simp [refs]
      · simp [refs, hk']
    · simp [refs, hi]
  | entry i' j =>
    rw [Function.update_of_ne (by simp)]
    by_cases hi : i' = i
    · subst hi
      simp [refs, Function.update_of_ne (show NDIRECT ≠ k by omega)]
    · simp [refs, hi]

/-- The references without those from the first `j` entries of the indirect block of an inode. -/
def dropped (ref : Place → ℕ) (i j : ℕ) : Place → ℕ
  | .slot i' k => ref (.slot i' k)
  | .entry i' j' => if i' = i ∧ j' < j then 0 else ref (.entry i' j')

theorem dropped_zero (ref : Place → ℕ) (i : ℕ) : dropped ref i 0 = ref := by
  funext p
  cases p with
  | slot i' k => rfl
  | entry i' j => simp [dropped]

/-- One more entry. -/
theorem dropped_succ (ref : Place → ℕ) (i j : ℕ) :
    dropped ref i (j + 1) = Function.update (dropped ref i j) (.entry i j) 0 := by
  funext p
  cases p with
  | slot i' k => rw [Function.update_of_ne (by simp)]; rfl
  | entry i' j' =>
    by_cases hp : i' = i ∧ j' = j
    · obtain ⟨rfl, rfl⟩ := hp
      simp [dropped]
    · rw [Function.update_of_ne (by simpa using hp)]
      simp only [dropped]
      have hiff : i' = i ∧ j' < j + 1 ↔ i' = i ∧ j' < j := by omega
      simp only [hiff]

/-- The slot of the indirect block is cleared, when its entries are dropped already. -/
theorem refs_clear_indirect (i : ℕ) :
    refs (Function.update inode i
        { inode i with addrs := Function.update (inode i).addrs NDIRECT 0 }) data =
      Function.update (dropped (refs inode data) i NINDIRECT) (.slot i NDIRECT) 0 := by
  funext p
  cases p with
  | slot i' k' =>
    by_cases hi : i' = i
    · subst hi
      by_cases hk' : k' = NDIRECT
      · subst hk'
        simp [refs]
      · simp [refs, dropped, hk']
    · simp [refs, dropped, hi]
  | entry i' j =>
    rw [Function.update_of_ne (by simp)]
    by_cases hi : i' = i
    · subst hi
      by_cases hj : j < NINDIRECT
      · simp [refs, dropped, hj]
      · simp [refs, dropped, hj]
    · simp [refs, dropped, hi]

end HgXv6.Disk
