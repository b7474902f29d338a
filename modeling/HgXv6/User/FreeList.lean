import HgXv6.Lib.Segment
import HgXv6.User.Umalloc
import Mathlib.Tactic.SplitIfs

set_option relaxedAutoImplicit false
set_option autoImplicit false

/-!
# Free lists

A free list in terms of blocks of memory: the blocks lie one above the other, with a gap between
any two. A block that is given back is merged with the blocks that it touches. The memory
represents such a list if its headers are linked in this order and hold the sizes.

## Main definitions

* `HgXv6.Umalloc.Block` — a header with the memory behind it.
* `HgXv6.Umalloc.Gapped`, `HgXv6.Umalloc.Apart`, `HgXv6.Umalloc.Within` — how blocks lie.
* `HgXv6.Umalloc.Block.coalesce` — a block put in front of a list of blocks.
* `HgXv6.Umalloc.Represents` — the headers of a list of blocks.

## Main results

* `HgXv6.Umalloc.gapped_coalesce`, `HgXv6.Umalloc.gapped_release` — merging keeps the gaps.
* `HgXv6.Umalloc.Represents.join` — what `join` does to the headers.
-/

namespace HgXv6.Umalloc

open Prog

/-! ## Blocks -/

/-- A header with the memory behind it, in units of eight bytes. -/
structure Block where
  addr : ℕ
  size : ℕ
deriving DecidableEq

/-- The first address behind a block. -/
def Block.stop (b : Block) : ℕ := b.addr + b.size * 8

/-- The blocks lie one above the other, and no two touch. -/
def Gapped (bs : List Block) : Prop := bs.Pairwise fun b c => b.stop < c.addr

/-- Two blocks share no memory. -/
def Apart (b c : Block) : Prop := b.stop ≤ c.addr ∨ c.stop ≤ b.addr

/-- A block of at least a header, at a multiple of eight, between `lo` and `hi`. -/
structure Within (lo hi : ℕ) (b : Block) : Prop where
  le_addr : lo ≤ b.addr
  stop_le : b.stop ≤ hi
  dvd : 8 ∣ b.addr
  pos : 0 < b.size

variable {b c d : Block} {bs cs : List Block} {lo hi : ℕ}

theorem Apart.symm (h : Apart b c) : Apart c b := Or.symm h

/-- Two blocks of some size that share no memory start at different addresses. -/
theorem Apart.addr_ne (h : Apart b c) (hb : b.addr < b.stop) (hc : c.addr < c.stop) :
    b.addr ≠ c.addr := by
  unfold Apart at h
  omega

/-- A part of a block shares no more memory than the block. -/
theorem Apart.part (h : Apart b c) (haddr : c.addr ≤ d.addr) (hstop : d.stop ≤ c.stop) :
    Apart b d := by
  unfold Apart at *
  omega

/-- A block of some size starts before it ends. -/
theorem Within.lt_stop (h : Within lo hi b) : b.addr < b.stop := by
  have := h.pos
  unfold Block.stop
  omega

/-- A block does not end before it starts. -/
theorem Block.addr_le_stop (b : Block) : b.addr ≤ b.stop := by
  unfold Block.stop
  omega

/-! ## Merging -/

/-- The block `b` put in front of the blocks `cs`: merged with the first one if it touches it. -/
def Block.coalesce (b : Block) : List Block → List Block
  | [] => [b]
  | c :: cs => if b.stop = c.addr then ⟨b.addr, b.size + c.size⟩ :: cs else b :: c :: cs

/-- The end of two blocks that touch. -/
theorem stop_merge (h : b.stop = c.addr) : Block.stop ⟨b.addr, b.size + c.size⟩ = c.stop := by
  unfold Block.stop at h ⊢
  dsimp only
  omega

@[simp] theorem coalesce_nil (b : Block) : b.coalesce [] = [b] := rfl

theorem coalesce_cons (b c : Block) (cs : List Block) :
    b.coalesce (c :: cs) =
      if b.stop = c.addr then ⟨b.addr, b.size + c.size⟩ :: cs else b :: c :: cs := rfl

/-- The blocks of the result are the new one, the new one merged with the one that it touches, and
the old ones. -/
theorem forall_mem_coalesce {P : Block → Prop} (hnew : P b)
    (hmerge : ∀ c ∈ cs, b.stop = c.addr → P ⟨b.addr, b.size + c.size⟩) (hold : ∀ c ∈ cs, P c) :
    ∀ d ∈ b.coalesce cs, P d := by
  cases cs with
  | nil => simpa using hnew
  | cons c cs =>
    obtain ⟨hc, hcs⟩ := List.forall_mem_cons.mp hold
    rw [coalesce_cons]
    split_ifs with htouch
    · exact List.forall_mem_cons.mpr ⟨hmerge c List.mem_cons_self htouch, hcs⟩
    · exact List.forall_mem_cons.mpr ⟨hnew, hold⟩

/-- A block of the result starts where the new one does, or is one of the old ones. -/
theorem addr_of_mem_coalesce (h : d ∈ b.coalesce cs) : d.addr = b.addr ∨ d ∈ cs := by
  have hall : ∀ d ∈ b.coalesce cs, d.addr = b.addr ∨ d ∈ cs :=
    forall_mem_coalesce (.inl rfl) (fun _ _ _ => .inl rfl) fun c hc => .inr hc
  exact hall d h

/-- Merging keeps the gaps. -/
theorem gapped_coalesce (hcs : Gapped cs) (hb : ∀ c ∈ cs, b.stop ≤ c.addr) :
    Gapped (b.coalesce cs) := by
  cases cs with
  | nil => exact List.pairwise_singleton _ _
  | cons c cs =>
    have hcons := List.pairwise_cons.mp hcs
    rw [coalesce_cons]
    split_ifs with htouch
    · refine List.pairwise_cons.mpr ⟨fun d hd => ?_, hcons.2⟩
      rw [stop_merge htouch]
      exact hcons.1 d hd
    · have hlt : b.stop < c.addr := lt_of_le_of_ne (hb c List.mem_cons_self) htouch
      refine List.pairwise_cons.mpr ⟨fun d hd => ?_, hcs⟩
      rcases List.mem_cons.mp hd with rfl | hd
      · exact hlt
      · exact (hlt.trans_le c.addr_le_stop).trans (hcons.1 d hd)

/-- A block of the result starts where the new one does. -/
theorem exists_addr_coalesce (b : Block) (cs : List Block) :
    ∃ d ∈ b.coalesce cs, d.addr = b.addr := by
  cases cs with
  | nil => exact ⟨b, List.mem_singleton_self b, rfl⟩
  | cons c cs =>
    rw [coalesce_cons]
    split_ifs
    · exact ⟨_, List.mem_cons_self, rfl⟩
    · exact ⟨b, List.mem_cons_self, rfl⟩

/-- A block of the result is at least as large as the new one. -/
theorem exists_size_le_coalesce (b : Block) (cs : List Block) :
    ∃ d ∈ b.coalesce cs, b.size ≤ d.size := by
  cases cs with
  | nil => exact ⟨b, List.mem_singleton_self b, le_rfl⟩
  | cons c cs =>
    rw [coalesce_cons]
    split_ifs
    · exact ⟨_, List.mem_cons_self, Nat.le_add_right _ _⟩
    · exact ⟨b, List.mem_cons_self, le_rfl⟩

/-- Nor does an old block become smaller. -/
theorem exists_size_le_of_mem (hd : d ∈ cs) : ∃ e ∈ b.coalesce cs, d.size ≤ e.size := by
  cases cs with
  | nil => exact absurd hd List.not_mem_nil
  | cons c cs =>
    rw [coalesce_cons]
    split_ifs
    · rcases List.mem_cons.mp hd with rfl | hd
      · exact ⟨_, List.mem_cons_self, Nat.le_add_left _ _⟩
      · exact ⟨d, List.mem_cons_of_mem _ hd, le_rfl⟩
    · exact ⟨d, List.mem_cons_of_mem _ hd, le_rfl⟩

/-- The list after `b` has been given back between `p` and `cs`. -/
def release (b p : Block) (cs : List Block) : List Block := p.coalesce (b.coalesce cs)

/-- Giving back keeps the gaps.

**Proof sketch.** `b` merges with what is above it and keeps the gaps (`gapped_coalesce`). The
outcome is above `p`, so `p` can merge with it in turn, and the blocks before `p` stay below both.
-/
theorem gapped_release {p : Block} (hgap : Gapped (bs ++ p :: cs)) (hp : p.stop ≤ b.addr)
    (hb : ∀ c ∈ cs, b.stop ≤ c.addr) : Gapped (bs ++ release b p cs) := by
  obtain ⟨hbs, hpcs, hcross⟩ := List.pairwise_append.mp hgap
  obtain ⟨hpc, hcs⟩ := List.pairwise_cons.mp hpcs
  have hfirst := gapped_coalesce hcs hb
  have hbelow : ∀ d ∈ b.coalesce cs, p.stop ≤ d.addr := by
    intro d hd
    rcases addr_of_mem_coalesce hd with haddr | hd
    · rwa [haddr]
    · exact (hpc d hd).le
  refine List.pairwise_append.mpr ⟨hbs, gapped_coalesce hfirst hbelow, fun i hi d hd => ?_⟩
  have hip := hcross i hi p List.mem_cons_self
  rcases addr_of_mem_coalesce hd with haddr | hd
  · rwa [haddr]
  · exact (hip.trans_le p.addr_le_stop).trans_le (hbelow d hd)

/-- What every block of the list has, and the new block, and what merging keeps: after the block
has been given back, every block has it. -/
theorem forall_mem_release {p : Block} {Q : Block → Prop} (hQ : ∀ c ∈ bs ++ p :: cs, Q c)
    (hb : Q b) (hmerge : ∀ c d, Q c → Q d → c.stop = d.addr → Q ⟨c.addr, c.size + d.size⟩) :
    ∀ d ∈ bs ++ release b p cs, Q d := by
  have hfirst : ∀ d ∈ b.coalesce cs, Q d :=
    forall_mem_coalesce hb (fun c hc => hmerge b c hb (hQ c (by simp [hc])))
      fun c hc => hQ c (by simp [hc])
  have hp : Q p := hQ p (by simp)
  intro d hd
  rcases List.mem_append.mp hd with hd | hd
  · exact hQ d (by simp [hd])
  · exact forall_mem_coalesce hp (fun c hc => hmerge p c hp (hfirst c hc)) hfirst d hd

/-! ## Headers -/

/-- From `a` on the headers are those of the blocks `bs`, and the last one leads to `z`. -/
structure Represents (h : Heap) (a : ℕ) (bs : List Block) (z : ℕ) : Prop where
  seg : Seg h.ptr a (bs.map Block.addr) z
  size : ∀ b ∈ bs, h.size b.addr = b.size

namespace Represents

variable {h h' : Heap} {a r z : ℕ}

/-- Only the headers of the blocks matter. -/
theorem congr (hrep : Represents h a bs z) (hmem : ∀ b ∈ bs, h'.mem b.addr = h.mem b.addr) :
    Represents h' a bs z := by
  refine ⟨hrep.seg.congr fun x hx => ?_, fun b hb => ?_⟩
  · obtain ⟨b, hb, rfl⟩ := List.mem_map.mp hx
    exact congrArg Header.ptr (hmem b hb)
  · rw [← hrep.size b hb]
    exact congrArg Header.size (hmem b hb)

/-- Two lists, one behind the other. -/
theorem append_iff : Represents h a (bs ++ cs) z ↔
    ∃ m, Represents h a bs m ∧ Represents h m cs z := by
  constructor
  · rintro ⟨hseg, hsize⟩
    rw [List.map_append, seg_append] at hseg
    obtain ⟨m, hbs, hcs⟩ := hseg
    exact ⟨m, ⟨hbs, fun b hb => hsize b (List.mem_append_left cs hb)⟩,
      ⟨hcs, fun c hc => hsize c (List.mem_append_right bs hc)⟩⟩
  · rintro ⟨m, hbs, hcs⟩
    refine ⟨?_, fun b hb => ?_⟩
    · rw [List.map_append, seg_append]
      exact ⟨m, hbs.seg, hcs.seg⟩
    · rcases List.mem_append.mp hb with hb | hb
      · exact hbs.size b hb
      · exact hcs.size b hb

/-- A block in front. -/
theorem cons_iff : Represents h a (b :: bs) z ↔
    a = b.addr ∧ h.size b.addr = b.size ∧ Represents h (h.ptr b.addr) bs z := by
  constructor
  · rintro ⟨hseg, hsize⟩
    rw [List.map_cons, seg_cons] at hseg
    exact ⟨hseg.1, hsize b List.mem_cons_self, hseg.2,
      fun c hc => hsize c (List.mem_cons_of_mem b hc)⟩
  · rintro ⟨ha, hb, hseg, hsize⟩
    exact ⟨⟨ha, hseg⟩, List.forall_mem_cons.mpr ⟨hb, hsize⟩⟩

/-- A header that is set elsewhere does not matter. -/
theorem setHeader_of_ne {p n : ℕ} (hrep : Represents h a bs z) (hne : ∀ b ∈ bs, b.addr ≠ p) :
    Represents (h.setHeader p r n) a bs z :=
  hrep.congr fun b hb => Function.update_of_ne (hne b hb) _ _

/-- A header that is set between two lists links them. -/
theorem setHeader (hbs : Represents h a bs b.addr) (hcs : Represents h r cs z)
    (hbefore : ∀ d ∈ bs, d.addr ≠ b.addr) (hbehind : ∀ d ∈ cs, d.addr ≠ b.addr) :
    Represents (h.setHeader b.addr r b.size) a (bs ++ b :: cs) z := by
  refine append_iff.mpr ⟨b.addr, hbs.setHeader_of_ne hbefore,
    cons_iff.mpr ⟨rfl, Heap.setHeader_size _ _ _ _, ?_⟩⟩
  rw [Heap.setHeader_ptr]
  exact hcs.setHeader_of_ne hbehind

/-- What `join` does: the block at `b` is put in front of the list that starts at `r`.

**Proof sketch.** The code compares the end of `b` with `r`. If they are equal, `r` is the first
block of the list, which touches `b`, and `b` gets its size and its link; since `b` does not touch
the end `z`, there is such a block. Otherwise `b` is linked to the list as it is. The header of `b`
is no header of the list, so the list is still there. -/
theorem join (hrep : Represents h r cs z) (hb : h.size b.addr = b.size)
    (hfresh : ∀ c ∈ cs, c.addr ≠ b.addr) (hlast : cs = [] → b.stop ≠ z)
    (hstop : b.stop < 2 ^ 32) (hcs : ∀ c ∈ cs, c.stop < 2 ^ 32) :
    Represents (Umalloc.join b.addr r h) b.addr (b.coalesce cs) z := by
  have hadvance : advance b.addr (h.size b.addr) = b.stop := by
    rw [hb]
    exact Nat.mod_eq_of_lt hstop
  unfold Umalloc.join
  rw [hadvance]
  cases cs with
  | nil =>
    have hr : r = z := hrep.seg
    rw [if_neg (by rw [hr]; exact hlast rfl)]
    exact cons_iff.mpr ⟨rfl, by simp [hb], by simpa using hrep.setHeader_of_ne hfresh⟩
  | cons c cs =>
    obtain ⟨rfl, hsize, htail⟩ := cons_iff.mp hrep
    rw [coalesce_cons]
    split_ifs with htouch
    · refine cons_iff.mpr ⟨rfl, ?_, ?_⟩
      · have hc := hcs c List.mem_cons_self
        unfold Block.stop at htouch hc
        simp only [Heap.setHeader_size, hb, hsize]
        exact Nat.mod_eq_of_lt (by omega)
      · simp only [Heap.setHeader_ptr]
        exact htail.setHeader_of_ne fun d hd => hfresh d (List.mem_cons_of_mem c hd)
    · refine cons_iff.mpr ⟨rfl, by simp [hb], ?_⟩
      simp only [Heap.setHeader_ptr]
      exact hrep.setHeader_of_ne hfresh

end Represents

end HgXv6.Umalloc
