import HgXv6.User.FreeList

set_option relaxedAutoImplicit false
set_option autoImplicit false

/-!
# The allocator keeps its free list

Around the static header `base`, of size zero, the free list is circular: its blocks lie in the
heap, one above the other and no two touching, and the last one leads back to `base`. The live
blocks lie between them. `free` finds the place of its block from wherever `freep` points to,
`malloc` takes a block or its tail, and `morecore` frees a block of new memory at the end of the
heap.

## Main definitions

* `HgXv6.Umalloc.FreeList` — the free list.
* `HgXv6.Umalloc.Valid` — the free list and the live blocks in the heap.

## Main results

* `HgXv6.Umalloc.Valid.returns_free`, `HgXv6.Umalloc.Valid.returns_morecore`,
  `HgXv6.Umalloc.Valid.returns_malloc` — the routines return and keep the invariant.
-/

namespace HgXv6.Umalloc

open Prog

/-- The static header `base`, as a block. -/
abbrev root (base : ℕ) : Block := ⟨base, 0⟩

/-- The free list: circular, in the order of addresses, and no two blocks touch. -/
structure FreeList (base : ℕ) (h : Heap) (free : List Block) : Prop where
  circle : Represents h base (root base :: free) base
  gapped : Gapped (root base :: free)
  freep : ∃ b ∈ root base :: free, h.freep = b.addr

/-- The free list and the live blocks lie in the heap, which starts at `start`, and share no
memory. -/
structure Valid (base start : ℕ) (h : Heap) (free live : List Block) : Prop
    extends FreeList base h free where
  base_pos : 0 < base
  base_le : base + 8 ≤ start
  start_le : start ≤ h.brk
  brk_dvd : 8 ∣ h.brk
  brk_lt : h.brk < KERNBASE
  within : ∀ b ∈ free, Within start h.brk b
  liveWithin : ∀ b ∈ live, Within start h.brk b
  liveSize : ∀ b ∈ live, h.size b.addr = b.size
  liveApart : live.Pairwise Apart
  liveFree : ∀ b ∈ live, ∀ c ∈ free, Apart b c

variable {base start n : ℕ} {h : Heap} {free live : List Block} {b p : Block}

namespace Valid

/-- A node of the list is the static header, or a block of the heap. -/
theorem node (hv : Valid base start h free live) (hb : b ∈ root base :: free) :
    b = root base ∨ Within start h.brk b :=
  (List.mem_cons.mp hb).imp_right (hv.within b)

/-- No node is below the static header. -/
theorem base_le_addr (hv : Valid base start h free live) (hb : b ∈ root base :: free) :
    base ≤ b.addr := by
  have hbase := hv.base_le
  rcases hv.node hb with rfl | hwithin
  · exact le_rfl
  · have := hwithin.le_addr
    omega

/-- No live block starts at a node. -/
theorem addr_ne_node (hv : Valid base start h free live) (hp : p ∈ root base :: free)
    (hb : b ∈ live) : b.addr ≠ p.addr := by
  have hwithin := hv.liveWithin b hb
  rcases List.mem_cons.mp hp with rfl | hp
  · have hbase := hv.base_le
    have hstart := hwithin.le_addr
    dsimp only
    omega
  · exact (hv.liveFree b hb p hp).addr_ne hwithin.lt_stop (hv.within p hp).lt_stop

/-- Pointer arithmetic on nodes does not wrap. -/
theorem stop_lt (hv : Valid base start h free live) (hb : b ∈ root base :: free) :
    b.stop < 2 ^ 32 := by
  have hbase := hv.base_le
  have hstart := hv.start_le
  have hbrk := hv.brk_lt
  unfold KERNBASE at hbrk
  rcases hv.node hb with rfl | hwithin
  · unfold Block.stop
    dsimp only
    omega
  · have := hwithin.stop_le
    omega

end Valid

/-! ## Giving back -/

/-- Between the blocks of a list with gaps there is one place for a block that shares no memory
with them. -/
theorem exists_place (hp : p.stop ≤ b.addr) (hgap : Gapped free)
    (hapart : ∀ c ∈ free, Apart b c) :
    ∃ I q R, p :: free = I ++ q :: R ∧ q.stop ≤ b.addr ∧ ∀ c ∈ R, b.stop ≤ c.addr := by
  induction free generalizing p with
  | nil => exact ⟨[], p, [], rfl, hp, fun c hc => absurd hc List.not_mem_nil⟩
  | cons c cs ih =>
    obtain ⟨hc, hcs⟩ := List.pairwise_cons.mp hgap
    rcases hapart c List.mem_cons_self with hbelow | habove
    · refine ⟨[], p, c :: cs, rfl, hp, List.forall_mem_cons.mpr ⟨hbelow, fun d hd => ?_⟩⟩
      exact (hbelow.trans c.addr_le_stop).trans (hc d hd).le
    · obtain ⟨I, q, R, hsplit, hq, hR⟩ := ih habove hcs fun d hd =>
        hapart d (List.mem_cons_of_mem c hd)
      exact ⟨p :: I, q, R, by rw [hsplit, List.cons_append], hq, hR⟩

/-- The nodes of a list with gaps are in the order of their addresses. -/
theorem sorted_of_gapped (hgap : Gapped free) : (free.map Block.addr).Pairwise (· < ·) :=
  List.pairwise_map.mpr (hgap.imp fun {b} {_} hlt => b.addr_le_stop.trans_lt hlt)

/-- The loop of `free` finds the place of a block from every node.

**Proof sketch.** The walk goes up through the nodes below `b` until it comes to `p`, the last of
them, behind which the next node is above `b` or is the root again; there the loop ends. A walk that
starts above `b` goes up to the last node, where the order wraps, and continues at the root: the
exit for the wrap is taken only where `b` is above all nodes, and then the last node is `p` itself.
-/
theorem Valid.place (hv : Valid base start h free live) {I R : List Block}
    (hsplit : root base :: free = I ++ p :: R) (hplt : p.addr < b.addr)
    (hR : ∀ c ∈ R, b.addr < c.addr) :
    ∀ c ∈ root base :: free, Returns (fun fuel => loopFuel .loops (freeBody h b.addr) fuel c.addr)
      p.addr := by
  obtain ⟨m, hI, hpR⟩ := Represents.append_iff.mp (hsplit ▸ hv.circle)
  obtain ⟨rfl, -, hrest⟩ := Represents.cons_iff.mp hpR
  have hmem : ∀ {c}, c ∈ I ++ p :: R → base ≤ c.addr := fun hc => hv.base_le_addr (hsplit ▸ hc)
  have hsorted := sorted_of_gapped hv.gapped
  rw [hsplit, List.map_append, List.map_cons, List.pairwise_append, List.pairwise_cons] at hsorted
  obtain ⟨hsortI, ⟨-, hsortR⟩, hcross⟩ := hsorted
  have hIp : ∀ x ∈ I.map Block.addr, x < p.addr := fun x hx => hcross x hx _ List.mem_cons_self
  have hbase := hmem (c := p) (by simp)
  -- at its place the loop stops, wherever the link leads
  let P : ℕ → Prop := fun x =>
    Returns (fun fuel => loopFuel .loops (freeBody h b.addr) fuel x) p.addr
  have hstop : P p.addr := by
    refine loopFuel_returns_of_stop ?_
    unfold freeBody
    rcases R with _ | ⟨c, R⟩
    · have hback : h.ptr p.addr = base := hrest.seg
      split_ifs with h1 h2
      · rfl
      · rfl
      · exact absurd ⟨hback.trans_le hbase, .inl hplt⟩ h2
    · have hlink : h.ptr p.addr = c.addr := hrest.seg.1
      rw [if_pos ⟨hplt, by rw [hlink]; exact hR c List.mem_cons_self⟩]
  -- before it, it goes up
  have hbelow := hI.seg.backward (P := P)
    (fun x hx hnext => loopFuel_returns_of_step ?_ hnext) hstop
  · -- behind it, it goes up to the end and on to the static header
    have habove := hrest.seg.backward (P := P)
      (fun x hx hnext => loopFuel_returns_of_step ?_ hnext) hbelow.1
    · intro c hc
      rw [hsplit] at hc
      rcases List.mem_append.mp hc with hc | hc
      · exact hbelow.2 _ (List.mem_map_of_mem hc)
      · rcases List.mem_cons.mp hc with rfl | hc
        · exact hstop
        · exact habove.2 _ (List.mem_map_of_mem hc)
    · obtain ⟨c, hc, rfl⟩ := List.mem_map.mp hx
      have hbc := hR c hc
      unfold freeBody
      rw [if_neg (by omega), if_neg ?_]
      rcases hrest.seg.lt_next hsortR hx with hup | hback
      · omega
      · omega
  · have hxp := hIp x hx
    have hup : x < h.ptr x ∧ h.ptr x ≤ p.addr := by
      rcases hI.seg.next_mem hx with hnext | hnext
      · have hlt := hIp _ (List.mem_of_mem_tail hnext)
        rcases hI.seg.lt_next hsortI hx with hup | hend <;> omega
      · omega
    unfold freeBody
    rw [if_neg (by omega), if_neg (by omega)]

/-- `join` changes the header of its block only. -/
theorem join_mem_of_ne {a r x : ℕ} (hne : x ≠ a) : (join a r h).mem x = h.mem x := by
  unfold join Heap.setHeader
  split_ifs <;> exact Function.update_of_ne hne _ _

theorem join_brk (a r : ℕ) : (join a r h).brk = h.brk := by
  unfold join
  split_ifs <;> rfl

/-- The headers after a block has been given back at its place.

**Proof sketch.** The nodes below `p` keep their links. `release` says what becomes of `p`, `b` and
the block behind them: `b` is joined to the block above it if it touches it, and `p` to the outcome
if that touches `p`. In each of the four cases the two updates of the code link these blocks as
`release` lists them. -/
theorem Valid.represents_release (hv : Valid base start h free live) {I R : List Block}
    (hsplit : root base :: free = I ++ p :: R) (hplt : p.addr < b.addr)
    (hR : ∀ c ∈ R, b.stop ≤ c.addr) (hb : Within start h.brk b) (hsize : h.size b.addr = b.size) :
    Represents (join p.addr b.addr (join b.addr (h.ptr p.addr) h)) base (I ++ release b p R)
      base := by
  obtain ⟨m, hI, hpR⟩ := Represents.append_iff.mp (hsplit ▸ hv.circle)
  obtain ⟨rfl, hpsize, hrest⟩ := Represents.cons_iff.mp hpR
  have hmem : ∀ c ∈ I ++ p :: R, c.stop < 2 ^ 32 := fun c hc => hv.stop_lt (hsplit ▸ hc)
  have hsorted := sorted_of_gapped hv.gapped
  rw [hsplit, List.map_append, List.map_cons, List.pairwise_append] at hsorted
  have hIp : ∀ c ∈ I, c.addr < p.addr := fun c hc =>
    hsorted.2.2 _ (List.mem_map_of_mem hc) _ List.mem_cons_self
  have hbstop := hb.lt_stop
  have hbase := hv.base_le
  have hbrk := hv.brk_lt
  have hble := hb.stop_le
  unfold KERNBASE at hbrk
  have hfirst : Represents (join b.addr (h.ptr p.addr) h) b.addr (b.coalesce R) base := by
    refine hrest.join hsize (fun c hc => ?_) (fun _ => ?_) (by omega)
      fun c hc => hmem c (by simp [hc])
    · have := hR c hc
      omega
    · have := hb.le_addr
      omega
  have hsecond : Represents (join p.addr b.addr (join b.addr (h.ptr p.addr) h)) p.addr
      (release b p R) base := by
    refine hfirst.join ?_ (fun d hd => ?_) (fun hnil => ?_) (hmem p (by simp)) fun d hd => ?_
    · unfold Heap.size
      rw [join_mem_of_ne hplt.ne]
      exact hpsize
    · rcases addr_of_mem_coalesce hd with haddr | hd
      · omega
      · have := hR d hd
        omega
    · obtain ⟨d, hd, -⟩ := exists_size_le_coalesce b R
      rw [hnil] at hd
      exact absurd hd List.not_mem_nil
    · refine forall_mem_coalesce (P := fun d => d.stop < 2 ^ 32) (by omega)
        (fun c hc htouch => ?_) (fun c hc => hmem c (by simp [hc])) d hd
      rw [stop_merge htouch]
      exact hmem c (by simp [hc])
  refine Represents.append_iff.mpr ⟨p.addr, hI.congr fun c hc => ?_, hsecond⟩
  have hcp := hIp c hc
  rw [join_mem_of_ne hcp.ne, join_mem_of_ne (hcp.trans hplt).ne]

/-- Merging with the static header does nothing, since it touches no block. -/
theorem coalesce_root {cs : List Block} (h : ∀ c ∈ cs, base < c.addr) :
    (root base).coalesce cs = root base :: cs := by
  cases cs with
  | nil => rfl
  | cons c cs =>
    have hc := h c List.mem_cons_self
    rw [coalesce_cons, if_neg]
    unfold Block.stop
    dsimp only
    omega

/-- After a block has been given back, every node is the static header, or lies in the heap apart
from the live blocks. -/
theorem Valid.nodes_release (hv : Valid base start h free (b :: live)) {I R : List Block}
    (hsplit : root base :: free = I ++ p :: R) :
    ∀ d ∈ I ++ release b p R,
      d.addr = base ∨ Within start h.brk d ∧ ∀ e ∈ live, Apart e d := by
  have hb := hv.liveWithin b List.mem_cons_self
  have hbase := hv.base_le
  obtain ⟨hbe, -⟩ := List.pairwise_cons.mp hv.liveApart
  obtain ⟨-, hlive⟩ := List.forall_mem_cons.mp hv.liveWithin
  obtain ⟨-, hfree⟩ := List.forall_mem_cons.mp hv.liveFree
  refine forall_mem_release ?_ (.inr ⟨hb, fun e he => (hbe e he).symm⟩) fun c d hc hd htouch => ?_
  · rw [← hsplit]
    exact List.forall_mem_cons.mpr
      ⟨.inl rfl, fun c hc => .inr ⟨hv.within c hc, fun e he => hfree e he c hc⟩⟩
  · rcases hc with hc | ⟨hc, hce⟩
    · exact .inl hc
    · have hcstop := hc.lt_stop
      have hcstart := hc.le_addr
      rcases hd with hd | ⟨hd, hde⟩
      · omega
      · refine .inr ⟨⟨hcstart, (stop_merge htouch).trans_le hd.stop_le, hc.dvd,
          Nat.add_pos_left hc.pos _⟩, fun e he => ?_⟩
        have hestop := (hlive e he).lt_stop
        have h1 := hce e he
        have h2 := hde e he
        unfold Apart at *
        rw [stop_merge htouch]
        dsimp only
        omega

/-- After a block has been given back, the list still starts with the static header. -/
theorem Valid.exists_release (hv : Valid base start h free (b :: live)) {I R : List Block}
    (hsplit : root base :: free = I ++ p :: R) (hR : ∀ c ∈ R, b.stop ≤ c.addr) :
    ∃ free', I ++ release b p R = root base :: free' := by
  rcases I with _ | ⟨i, I⟩
  · obtain ⟨rfl, -⟩ := List.cons.inj hsplit
    refine ⟨b.coalesce R, coalesce_root fun c hc => ?_⟩
    have hbase := hv.base_le
    have hb := hv.liveWithin b List.mem_cons_self
    have hbstart := hb.le_addr
    have hbstop := hb.lt_stop
    rcases addr_of_mem_coalesce hc with haddr | hc
    · omega
    · have := hR c hc
      omega
  · obtain ⟨rfl, -⟩ := List.cons.inj hsplit
    exact ⟨I ++ release b p R, rfl⟩

/-- What `free` has done once it has found the place of its block.

**Proof sketch.** The circle is the one of `represents_release`, in order and with gaps by
`gapped_release`. A block of the new list consists of `b` or of blocks that were free, and so lies
in the heap and apart from the blocks that are still held, whose headers have not been touched. -/
theorem Valid.released (hv : Valid base start h free (b :: live)) {I R free' : List Block}
    (hsplit : root base :: free = I ++ p :: R) (hp : p.stop ≤ b.addr) (hplt : p.addr < b.addr)
    (hR : ∀ c ∈ R, b.stop ≤ c.addr) (hfree' : I ++ release b p R = root base :: free') :
    Valid base start
      { join p.addr b.addr (join b.addr (h.ptr p.addr) h) with freep := p.addr } free' live := by
  have hb := hv.liveWithin b List.mem_cons_self
  have hrep := hv.represents_release hsplit hplt hR hb (hv.liveSize b List.mem_cons_self)
  have hgap := gapped_release (hsplit ▸ hv.gapped) hp hR
  have hnodes := hv.nodes_release hsplit
  rw [hfree'] at hrep hgap hnodes
  have hinside : ∀ d ∈ free', Within start h.brk d ∧ ∀ e ∈ live, Apart e d := by
    intro d hd
    have hlt : base < d.addr := by
      have := (List.pairwise_cons.mp hgap).1 d hd
      unfold Block.stop at this
      dsimp only at this
      omega
    exact (hnodes d (List.mem_cons_of_mem _ hd)).resolve_left hlt.ne'
  obtain ⟨hbe, hapart⟩ := List.pairwise_cons.mp hv.liveApart
  obtain ⟨-, hlive⟩ := List.forall_mem_cons.mp hv.liveWithin
  refine
    { circle := hrep.congr fun _ _ => rfl
      gapped := hgap
      freep := ?_
      base_pos := hv.base_pos
      base_le := hv.base_le
      start_le := by simpa only [join_brk] using hv.start_le
      brk_dvd := by simpa only [join_brk] using hv.brk_dvd
      brk_lt := by simpa only [join_brk] using hv.brk_lt
      within := by simpa only [join_brk] using fun d hd => (hinside d hd).1
      liveWithin := by simpa only [join_brk] using hlive
      liveSize := fun e he => ?_
      liveApart := hapart
      liveFree := fun e he d hd => (hinside d hd).2 e he }
  · obtain ⟨d, hd, haddr⟩ := exists_addr_coalesce p (b.coalesce R)
    refine ⟨d, ?_, haddr.symm⟩
    rw [← hfree']
    exact List.mem_append_right I hd
  · have hestop := (hlive e he).lt_stop
    have heb : e.addr ≠ b.addr := (hbe e he).symm.addr_ne hestop hb.lt_stop
    have hep : e.addr ≠ p.addr :=
      hv.addr_ne_node (by rw [hsplit]; simp) (List.mem_cons_of_mem b he)
    have hmem : (join p.addr b.addr (join b.addr (h.ptr p.addr) h)).mem e.addr =
        h.mem e.addr := by
      rw [join_mem_of_ne hep, join_mem_of_ne heb]
    exact (congrArg Header.size hmem).trans (hv.liveSize e (List.mem_cons_of_mem b he))

/-- `free` gives its block back.

**Proof sketch.** The block `b` has its place in the order of the free blocks (`exists_place`), from
which `p` and `R` are obtained. The loop of `free` finds `p` (`Valid.place`), and what follows the
loop puts `b` behind it (`Valid.released`). -/
theorem Valid.returns_free (hv : Valid base start h free (b :: live)) :
    ∃ h' free', Returns (fun fuel => Umalloc.free fuel (b.addr + 8) h) h' ∧
      Valid base start h' free' live ∧ ∃ d ∈ free', b.size ≤ d.size := by
  have hb := hv.liveWithin b List.mem_cons_self
  have hbase := hv.base_le
  have hbstart := hb.le_addr
  have hbstop := hb.lt_stop
  have hbpos := hb.pos
  obtain ⟨I, p, R, hsplit, hp, hR⟩ := exists_place (p := root base) (b := b)
    (by unfold Block.stop; dsimp only; omega) (List.pairwise_cons.mp hv.gapped).2
    (hv.liveFree b List.mem_cons_self)
  have hplt : p.addr < b.addr := by
    rcases hv.node (b := p) (by rw [hsplit]; simp) with rfl | hwithin
    · dsimp only
      omega
    · exact hwithin.lt_stop.trans_le hp
  obtain ⟨free', hfree'⟩ := hv.exists_release hsplit hR
  refine ⟨_, free', ?_, hv.released hsplit hp hplt hR hfree', ?_⟩
  · unfold Umalloc.free
    obtain ⟨q, hq, hfreep⟩ := hv.freep
    have hplace := hv.place hsplit hplt (fun c hc => hbstop.trans_le (hR c hc)) q hq
    rw [← hfreep] at hplace
    exact hplace.bind (Returns.of_eq rfl)
  · obtain ⟨d, hd, hbd⟩ := exists_size_le_coalesce b R
    obtain ⟨e, he, hde⟩ := exists_size_le_of_mem (b := p) hd
    have he' : e ∈ root base :: free' := by
      rw [← hfree']
      exact List.mem_append_right I he
    refine ⟨e, (List.mem_cons.mp he').resolve_left fun heq => ?_, hbd.trans hde⟩
    rw [heq] at hde
    dsimp only at hde
    omega

/-! ## Allocating -/

/-- The block `b` at the end of the free block `c` is taken, and `rest` stands for what is left of
`c` and the blocks behind it.

**Proof sketch.** `b` ends where `c` ended and starts at or above it, and what is left of `c` ends
where `b` begins. So `b` is apart from the free blocks that remain, and it is apart from the blocks
held as `c` was. The order and the gaps are those of a list in which one block has become smaller,
or is gone. -/
theorem Valid.of_taken {c : Block} {h' : Heap} {K R rest : List Block}
    (hv : Valid base start h (K ++ c :: R) live) (haddr : c.addr ≤ b.addr)
    (hstop : b.stop = c.stop) (hdvd : 8 ∣ b.addr) (hpos : 0 < b.size) (hgap : Gapped rest)
    (hrest : ∀ d ∈ rest, d ∈ R ∨ d.addr = c.addr ∧ d.stop ≤ b.addr ∧ 0 < d.size)
    (hcircle : Represents h' base (root base :: (K ++ rest)) base)
    (hfreep : ∃ d ∈ root base :: (K ++ rest), h'.freep = d.addr) (hbrk : h'.brk = h.brk)
    (hsize : h'.size b.addr = b.size) (hlive : ∀ e ∈ live, h'.size e.addr = h.size e.addr) :
    Valid base start h' (K ++ rest) (b :: live) := by
  have hc := hv.within c (by simp)
  obtain ⟨hroot, hKcR⟩ := List.pairwise_cons.mp hv.gapped
  obtain ⟨hK, hcR, hcross⟩ := List.pairwise_append.mp hKcR
  obtain ⟨hRc, -⟩ := List.pairwise_cons.mp hcR
  have hle : ∀ d ∈ rest, c.addr ≤ d.addr := by
    intro d hd
    rcases hrest d hd with hd | ⟨hd, -⟩
    · exact c.addr_le_stop.trans (hRc d hd).le
    · exact hd.ge
  have hbe : ∀ e ∈ live, Apart e b := fun e he =>
    (hv.liveFree e he c (by simp)).part haddr hstop.le
  have hbstop := hc.stop_le
  have hbaddr := b.addr_le_stop
  have hwithin : ∀ d ∈ rest, Within start h.brk d := by
    intro d hd
    rcases hrest d hd with hd | ⟨hdaddr, hdstop, hdpos⟩
    · exact hv.within d (by simp [hd])
    · exact ⟨hc.le_addr.trans hdaddr.ge, by omega, hdaddr ▸ hc.dvd, hdpos⟩
  refine
    { circle := hcircle
      gapped := ?_
      freep := hfreep
      base_pos := hv.base_pos
      base_le := hv.base_le
      start_le := hbrk ▸ hv.start_le
      brk_dvd := hbrk ▸ hv.brk_dvd
      brk_lt := hbrk ▸ hv.brk_lt
      within := ?_
      liveWithin := ?_
      liveSize := ?_
      liveApart := List.pairwise_cons.mpr ⟨fun e he => (hbe e he).symm, hv.liveApart⟩
      liveFree := ?_ }
  · refine List.pairwise_cons.mpr ⟨fun d hd => ?_, List.pairwise_append.mpr
      ⟨hK, hgap, fun k hk d hd => (hcross k hk c List.mem_cons_self).trans_le (hle d hd)⟩⟩
    rcases List.mem_append.mp hd with hd | hd
    · exact hroot d (by simp [hd])
    · exact (hroot c (by simp)).trans_le (hle d hd)
  · rw [hbrk]
    intro d hd
    rcases List.mem_append.mp hd with hd | hd
    · exact hv.within d (by simp [hd])
    · exact hwithin d hd
  · rw [hbrk]
    exact List.forall_mem_cons.mpr
      ⟨⟨hc.le_addr.trans haddr, hstop.trans_le hc.stop_le, hdvd, hpos⟩, hv.liveWithin⟩
  · exact List.forall_mem_cons.mpr ⟨hsize, fun e he => (hlive e he).trans (hv.liveSize e he)⟩
  · refine List.forall_mem_cons.mpr ⟨fun d hd => ?_, fun e he d hd => ?_⟩
    · rcases List.mem_append.mp hd with hd | hd
      · exact .inr ((hcross d hd c List.mem_cons_self).le.trans haddr)
      · rcases hrest d hd with hd | ⟨-, hd, -⟩
        · exact .inl (hstop.trans_le (hRc d hd).le)
        · exact .inr hd
    · rcases List.mem_append.mp hd with hd | hd
      · exact hv.liveFree e he d (by simp [hd])
      · rcases hrest d hd with hd | ⟨hdaddr, hdstop, -⟩
        · exact hv.liveFree e he d (by simp [hd])
        · exact (hv.liveFree e he c (by simp)).part hdaddr.ge (by omega)

/-- In the list the block `c` follows the node `x`. The nodes before `x` are `I`, and the blocks
before and behind `c` are `K` and `R`. -/
structure Follows (base : ℕ) (h : Heap) (free : List Block) (x c : Block) (I K R : List Block) :
    Prop where
  nodes : root base :: K = I ++ [x]
  split : free = K ++ c :: R
  link : h.ptr x.addr = c.addr
  size : h.size c.addr = c.size
  nodeSize : h.size x.addr = x.size
  before : Represents h base I x.addr
  behind : Represents h (h.ptr c.addr) R base

/-- A node that leads to a large enough block: the block follows it. -/
theorem Valid.exists_follows (hv : Valid base start h free live) {x : Block}
    (hx : x ∈ root base :: free) (hn : 0 < n) (hsize : n ≤ h.size (h.ptr x.addr)) :
    ∃ c I K R, Follows base h free x c I K R := by
  obtain ⟨I, R, hsplit⟩ := List.append_of_mem hx
  obtain ⟨m, hI, hxR⟩ := Represents.append_iff.mp (hsplit ▸ hv.circle)
  obtain ⟨rfl, hxsize, hR⟩ := Represents.cons_iff.mp hxR
  rcases R with _ | ⟨c, R⟩
  · -- the last node leads to the static header, which is too small
    have hback : h.ptr x.addr = base := hR.seg
    have hroot : h.size base = 0 := hv.circle.size (root base) List.mem_cons_self
    rw [hback, hroot] at hsize
    omega
  · obtain ⟨hlink, hcsize, hrest⟩ := Represents.cons_iff.mp hR
    obtain ⟨K, hK⟩ : ∃ K, root base :: K = I ++ [x] := by
      rcases I with _ | ⟨i, I⟩
      · exact ⟨[], by rw [(List.cons.inj hsplit).1]; rfl⟩
      · exact ⟨I ++ [x], by rw [(List.cons.inj hsplit).1]; rfl⟩
    refine ⟨c, I, K, R, hK, ?_, hlink, hcsize, hxsize, hI, hrest⟩
    have heq : root base :: free = root base :: K ++ c :: R := by
      rw [hsplit, hK]
      simp
    exact (List.cons.inj heq).2

section Take

variable {x c : Block} {I K R : List Block}

/-- The nodes of the list that another block, or none, follows. -/
theorem Follows.nodes_append (hf : Follows base h free x c I K R) (rest : List Block) :
    root base :: (K ++ rest) = I ++ x :: rest := by
  rw [← List.cons_append, hf.nodes, List.append_assoc, List.singleton_append]

/-- The nodes before `x` are below it, and it is below `c`. -/
theorem Follows.below (hf : Follows base h free x c I K R) (hgap : Gapped (root base :: free)) :
    (∀ i ∈ I, i.addr < x.addr) ∧ x.addr < c.addr := by
  rw [hf.split, hf.nodes_append, Gapped, List.pairwise_append] at hgap
  obtain ⟨-, hxcR, hIx⟩ := hgap
  have hxc := (List.pairwise_cons.mp hxcR).1 c List.mem_cons_self
  exact ⟨fun i hi => i.addr_le_stop.trans_lt (hIx i hi x List.mem_cons_self),
    x.addr_le_stop.trans_lt hxc⟩

/-- The blocks behind `c` lie above it, with gaps. -/
theorem Follows.above (hf : Follows base h free x c I K R) (hgap : Gapped (root base :: free)) :
    (∀ d ∈ R, c.stop < d.addr) ∧ Gapped R := by
  rw [hf.split, hf.nodes_append, Gapped, List.pairwise_append] at hgap
  obtain ⟨-, hxcR, -⟩ := hgap
  exact List.pairwise_cons.mp (List.pairwise_cons.mp hxcR).2

/-- `malloc` takes a block of the size it needs. -/
theorem Valid.takeBlock_whole (hv : Valid base start h free live)
    (hx : x ∈ root base :: free) (hf : Follows base h free x c I K R) :
    (takeBlock c.size ⟨x.addr, h.ptr x.addr, h⟩).p = c.addr + 8 ∧
      Valid base start (takeBlock c.size ⟨x.addr, h.ptr x.addr, h⟩).heap (K ++ R)
        (c :: live) := by
  obtain ⟨hI, hxc⟩ := hf.below hv.gapped
  obtain ⟨hR, hgap⟩ := hf.above hv.gapped
  have hmem : c ∈ free := by rw [hf.split]; simp
  have hc := hv.within c hmem
  have hcstop := hv.stop_lt (List.mem_cons_of_mem _ hmem)
  have hRx : ∀ d ∈ R, d.addr ≠ x.addr := fun d hd =>
    (hxc.trans_le (c.addr_le_stop.trans (hR d hd).le)).ne'
  have htake : Umalloc.takeBlock c.size ⟨x.addr, h.ptr x.addr, h⟩ = ⟨x.addr, c.addr + 8,
      { h.setHeader x.addr (h.ptr c.addr) x.size with freep := x.addr }⟩ := by
    have hadvance : advance c.addr 1 = c.addr + 8 := by
      have hlt := hc.pos
      unfold Block.stop at hcstop
      exact Nat.mod_eq_of_lt (by omega)
    unfold Umalloc.takeBlock
    dsimp only
    rw [hf.link, if_pos hf.size, hadvance, hf.nodeSize]
  rw [htake]
  have hrep := hf.before.setHeader hf.behind (fun i hi => (hI i hi).ne) hRx
  refine ⟨rfl, (hf.split ▸ hv).of_taken le_rfl rfl hc.dvd hc.pos hgap (fun d hd => .inl hd) ?_
    ⟨x, by rw [hf.nodes_append]; simp, rfl⟩ rfl ?_ fun e he => ?_⟩
  · rw [hf.nodes_append]
    exact hrep.congr fun _ _ => rfl
  · exact (Heap.setHeader_size_of_ne h _ _ hxc.ne').trans hf.size
  · exact Heap.setHeader_size_of_ne h _ _ (hv.addr_ne_node hx he)

/-- The headers when `c` keeps its first `k` units, and the header of its tail is set. -/
theorem Follows.represents_tail (hf : Follows base h free x c I K R)
    (hgap : Gapped (root base :: free)) {k : ℕ} (hk : c.size = k + n) (hkpos : 0 < k)
    (hn : 0 < n) (r : ℕ) :
    Represents ((h.setHeader c.addr (h.ptr c.addr) k).setHeader (c.addr + k * 8) r n) base
      (I ++ x :: ⟨c.addr, k⟩ :: R) base := by
  obtain ⟨hI, hxc⟩ := hf.below hgap
  -- the nodes before `c`, up to `x`, lead to it
  have hbefore : Represents h base (I ++ [x]) c.addr :=
    Represents.append_iff.mpr ⟨x.addr, hf.before,
      Represents.cons_iff.mpr ⟨rfl, hf.nodeSize, hf.link, by simp⟩⟩
  have hlow : ∀ d ∈ I ++ [x], d.addr < c.addr := fun d hd => by
    rcases List.mem_append.mp hd with hd | hd
    · exact (hI d hd).trans hxc
    · rwa [List.mem_singleton.mp hd]
  have hhigh : ∀ d ∈ R, c.addr + k * 8 < d.addr := fun d hd => by
    have := (hf.above hgap).1 d hd
    unfold Block.stop at this
    omega
  have hrep : Represents (h.setHeader c.addr (h.ptr c.addr) k) base
      (I ++ [x] ++ ⟨c.addr, k⟩ :: R) base :=
    Represents.setHeader (b := ⟨c.addr, k⟩) hbefore hf.behind (fun d hd => (hlow d hd).ne)
      fun d hd => ((Nat.le_add_right _ _).trans_lt (hhigh d hd)).ne'
  rw [List.append_cons]
  refine hrep.setHeader_of_ne fun d hd => ?_
  rcases List.mem_append.mp hd with hd | hd
  · have := hlow d hd
    omega
  · rcases List.mem_cons.mp hd with rfl | hd
    · dsimp only
      omega
    · exact (hhigh d hd).ne'

/-- `malloc` takes the tail of a larger block.

**Proof sketch.** The size of `c` becomes `k`, and the header of the block taken is written `k`
units above `c`, inside of what was `c` and so outside of every other block. The links do not
change; that the outcome is valid is `Valid.of_taken`. -/
theorem Valid.takeBlock_tail (hv : Valid base start h free live)
    (hf : Follows base h free x c I K R) {k : ℕ} (hk : c.size = k + n) (hkpos : 0 < k)
    (hn : 0 < n) :
    (takeBlock n ⟨x.addr, h.ptr x.addr, h⟩).p = c.addr + k * 8 + 8 ∧
      Valid base start (takeBlock n ⟨x.addr, h.ptr x.addr, h⟩).heap (K ++ ⟨c.addr, k⟩ :: R)
        (⟨c.addr + k * 8, n⟩ :: live) := by
  obtain ⟨hR, hgap⟩ := hf.above hv.gapped
  have hmem : c ∈ free := by rw [hf.split]; simp
  have hc := hv.within c hmem
  have hcdvd := hc.dvd
  have hcstop := hv.stop_lt (List.mem_cons_of_mem _ hmem)
  have hstop : c.stop = c.addr + k * 8 + n * 8 := by
    unfold Block.stop
    omega
  have htake : Umalloc.takeBlock n ⟨x.addr, h.ptr x.addr, h⟩ = ⟨x.addr, c.addr + k * 8 + 8,
      { (h.setHeader c.addr (h.ptr c.addr) k).setHeader (c.addr + k * 8)
          (h.ptr (c.addr + k * 8)) n with freep := x.addr }⟩ := by
    have hbelow : advance c.addr k = c.addr + k * 8 := Nat.mod_eq_of_lt (by omega)
    have hfirst : advance (c.addr + k * 8) 1 = c.addr + k * 8 + 8 :=
      Nat.mod_eq_of_lt (by omega)
    have hsize := hf.size
    unfold Umalloc.takeBlock
    dsimp only
    rw [hf.link, if_neg (by omega), hf.size, hk, Nat.add_sub_cancel, Heap.setHeader_size, hbelow,
      hfirst, Heap.setHeader_ptr_of_ne _ _ _ (by omega)]
  rw [htake]
  have hrep := hf.represents_tail hv.gapped hk hkpos hn (h.ptr (c.addr + k * 8))
  refine ⟨rfl, (hf.split ▸ hv).of_taken (by dsimp only; omega) hstop.symm (by dsimp only; omega) hn
    ?_ ?_ ?_ ⟨x, by rw [hf.nodes_append]; simp, rfl⟩ rfl (Heap.setHeader_size _ _ _ _)
    fun e he => ?_⟩
  · refine List.pairwise_cons.mpr ⟨fun d hd => ?_, hgap⟩
    have := hR d hd
    unfold Block.stop
    dsimp only
    omega
  · exact List.forall_mem_cons.mpr ⟨.inr ⟨rfl, le_rfl, hkpos⟩, fun d hd => .inl hd⟩
  · rw [hf.nodes_append]
    exact hrep.congr fun _ _ => rfl
  · have hestop := (hv.liveWithin e he).lt_stop
    have heapart := hv.liveFree e he c hmem
    have hec := heapart.addr_ne hestop hc.lt_stop
    have heb : e.addr ≠ c.addr + k * 8 := by
      unfold Apart at heapart
      omega
    exact (Heap.setHeader_size_of_ne _ _ _ heb).trans (Heap.setHeader_size_of_ne _ _ _ hec)

/-- `malloc` takes the block it has found. -/
theorem Valid.takeBlock (hv : Valid base start h free live) (hx : x ∈ root base :: free)
    (hn : 0 < n) (hsize : n ≤ h.size (h.ptr x.addr)) :
    ∃ b free', b.size = n ∧ (takeBlock n ⟨x.addr, h.ptr x.addr, h⟩).p = b.addr + 8 ∧
      Valid base start (takeBlock n ⟨x.addr, h.ptr x.addr, h⟩).heap free' (b :: live) := by
  obtain ⟨c, I, K, R, hf⟩ := hv.exists_follows hx hn hsize
  rw [hf.link, hf.size] at hsize
  rcases hsize.eq_or_lt with rfl | hlt
  · exact ⟨c, _, rfl, hv.takeBlock_whole hx hf⟩
  · obtain ⟨k, hk⟩ : ∃ k, c.size = k + n := ⟨c.size - n, by omega⟩
    exact ⟨⟨c.addr + k * 8, n⟩, _, rfl, hv.takeBlock_tail hf hk (by omega) hn⟩

end Take

/-! ## The loop of `malloc` -/

/-- The loop at the node `x`, about to look at the next one. -/
def scanAt (h : Heap) (x : ℕ) : Scan := ⟨x, h.ptr x, h⟩

/-- The loop passes the nodes before a block that is too small, as long as it is not back where it
started. -/
theorem scan_step {as : List ℕ} {x : ℕ} {t : Scan} (hseg : Seg h.ptr h.freep as x)
    (hnodup : (as ++ [x]).Nodup) (hsmall : ∀ y ∈ as, h.size (h.ptr y) < n)
    (ht : LoopReturns .loops (mallocBody n) (scanAt h x) t) :
    LoopReturns .loops (mallocBody n) (scanAt h h.freep) t := by
  refine (hseg.backward (P := fun y => LoopReturns Stop.loops (mallocBody n) (scanAt h y) t)
    (fun y hy hnext => LoopReturns.of_step (Returns.of_le 0 fun fuel _ => ?_) hnext) ht).1
  have hback : h.ptr y ≠ h.freep := by
    rcases as with _ | ⟨a, as⟩
    · exact absurd hy List.not_mem_nil
    · rw [List.cons_append, List.nodup_cons] at hnodup
      intro heq
      apply hnodup.1
      rw [← hseg.1, ← heq, List.mem_append, List.mem_singleton]
      exact hseg.next_mem hy
  unfold mallocBody scanAt
  dsimp only
  rw [if_neg (hsmall y hy).not_ge, if_neg hback]

/-- The nodes of the circle, from `freep` on. -/
theorem Valid.exists_circle (hv : Valid base start h free live) :
    ∃ zs, Seg h.ptr h.freep zs h.freep ∧ zs.Nodup ∧
      ∀ x, x ∈ zs ↔ x ∈ (root base :: free).map Block.addr := by
  obtain ⟨b, hb, hfreep⟩ := hv.freep
  obtain ⟨I, R, hsplit⟩ := List.append_of_mem hb
  have hseg := hv.circle.seg
  have hnodup := (sorted_of_gapped hv.gapped).imp fun {_ _} hlt => Nat.ne_of_lt hlt
  rw [hsplit, List.map_append] at hseg hnodup
  obtain ⟨m, hrot⟩ := hseg.rotate
  obtain rfl : m = b.addr := hrot.1
  refine ⟨_, hfreep ▸ hrot, ?_, fun x => ?_⟩
  · exact List.nodup_append_comm.mp hnodup
  · rw [hsplit, List.map_append, List.mem_append, List.mem_append, or_comm]

/-- With a large enough block in the list, the loop finds one. -/
theorem Valid.scan_found (hv : Valid base start h free live) (hn : 0 < n)
    (hex : ∃ c ∈ free, n ≤ c.size) :
    ∃ b h' free' prevp, b.size = n ∧
      LoopReturns .loops (mallocBody n) (scanAt h h.freep) ⟨prevp, b.addr + 8, h'⟩ ∧
      Valid base start h' free' (b :: live) := by
  obtain ⟨zs, hcircle, hnodup, hmem⟩ := hv.exists_circle
  obtain ⟨c, hc, hcn⟩ := hex
  have hpred : ∃ y ∈ zs, n ≤ h.size (h.ptr y) := by
    have hcz : c.addr ∈ (root base :: free).map Block.addr :=
      List.mem_map_of_mem (List.mem_cons_of_mem _ hc)
    have hcsize := hv.circle.size c (List.mem_cons_of_mem _ hc)
    rcases hv.circle.seg.exists_next hcz with hbase | ⟨y, hy, hnext⟩
    · have hlt := (List.pairwise_cons.mp (sorted_of_gapped hv.gapped)).1 c.addr
        (List.mem_map_of_mem hc)
      exact absurd hbase hlt.ne'
    · exact ⟨y, (hmem y).mpr hy, by rw [hnext, hcsize]; exact hcn⟩
  have hsome : (zs.find? fun y => decide (n ≤ h.size (h.ptr y))).isSome := by
    rw [List.find?_isSome]
    simpa using hpred
  obtain ⟨x, hfind⟩ := Option.isSome_iff_exists.mp hsome
  obtain ⟨hx, as, bs, rfl, has⟩ := List.find?_eq_some_iff_append.mp hfind
  rw [decide_eq_true_eq] at hx
  obtain ⟨m, hseg, hrest⟩ := seg_append.mp hcircle
  obtain rfl : m = x := hrest.1
  obtain ⟨xb, hxb, hxaddr⟩ := List.mem_map.mp ((hmem m).mp (by simp))
  rw [← hxaddr] at hx
  obtain ⟨b, free', hbn, hp, hvalid⟩ := hv.takeBlock hxb hn hx
  refine ⟨b, _, free', (Umalloc.takeBlock n ⟨xb.addr, h.ptr xb.addr, h⟩).prevp, hbn, ?_, hvalid⟩
  refine scan_step hseg ?_ (fun y hy => ?_) (LoopReturns.of_stop (Returns.of_le 0 fun fuel _ => ?_))
  · have hsub : (as ++ [m]).Sublist (as ++ m :: bs) :=
      (List.Sublist.refl as).append (by simp)
    exact hnodup.sublist hsub
  · simpa using has y hy
  · unfold mallocBody scanAt
    dsimp only
    rw [← hxaddr, if_pos hx, ← hp]

/-- Without one, the loop comes back to where it started. -/
theorem Valid.scan_none (hv : Valid base start h free live) (hn : 0 < n)
    (hsmall : ∀ c ∈ free, c.size < n) :
    ∃ y, ∀ t, LoopReturns .loops (mallocBody n) ⟨y, h.freep, h⟩ t →
      LoopReturns .loops (mallocBody n) (scanAt h h.freep) t := by
  obtain ⟨zs, hcircle, hnodup, hmem⟩ := hv.exists_circle
  have hne : zs ≠ [] := by
    rintro rfl
    exact absurd ((hmem base).mpr (by simp)) List.not_mem_nil
  have hsize : ∀ y ∈ zs, h.size y < n := by
    intro y hy
    obtain ⟨b, hb, rfl⟩ := List.mem_map.mp ((hmem y).mp hy)
    rw [hv.circle.size b hb]
    rcases List.mem_cons.mp hb with rfl | hb
    · exact hn
    · exact hsmall b hb
  obtain ⟨as, y, rfl⟩ : ∃ as y, zs = as ++ [y] := ⟨_, _, (List.dropLast_append_getLast hne).symm⟩
  obtain ⟨m, hseg, hy, hback⟩ := seg_append.mp hcircle
  obtain rfl : m = y := hy
  have hscan : scanAt h m = ⟨m, h.freep, h⟩ := by
    unfold scanAt
    rw [show h.ptr m = h.freep from hback]
  refine ⟨m, fun t ht => scan_step hseg hnodup (fun x hx => hsize _ ?_) (hscan ▸ ht)⟩
  rcases hseg.next_mem hx with hnext | hnext
  · exact List.mem_append_left _ (List.mem_of_mem_tail hnext)
  · rw [hnext]
    simp

/-! ## More memory -/

/-- A process grows by as much as it asks for, or not at all. -/
theorem growproc_cases (room : Bool) {sz : ℕ} (hsz : sz < KERNBASE) (hn : 0 < n)
    (hlt : n < 2 ^ 31) :
    growproc room n sz = 0 ∨ growproc room n sz = sz + n ∧ sz + n < KERNBASE := by
  have hsum : (((sz : ℤ) + n) % 2 ^ 32).toNat = sz + n := by
    unfold KERNBASE at hsz
    omega
  unfold growproc allocuvm
  rw [if_pos (by omega), hsum]
  split_ifs with htop hwrap
  · exact .inl rfl
  · omega
  · exact .inr ⟨rfl, by omega⟩
  · exact .inl rfl

/-- `sbrk` gives the memory behind the end of the heap, or none. -/
theorem sbrk_cases (hbrk : h.brk < KERNBASE) (hn : 0 < n) (hlt : n < 2 ^ 31) :
    sbrk (toInt n) h = (none, { h with sbrks := h.sbrks + 1 }) ∨
      sbrk (toInt n) h = (some h.brk, { h with brk := h.brk + n, sbrks := h.sbrks + 1 }) ∧
        h.brk + n < KERNBASE := by
  have hint : toInt n = n := by
    unfold toInt
    rw [if_pos (by omega)]
    omega
  unfold sbrk
  rw [hint]
  rcases growproc_cases (h.kernel h.sbrks) hbrk hn hlt with hzero | ⟨hgrown, htop⟩
  · left
    dsimp only
    rw [if_pos ⟨by omega, hzero⟩]
  · right
    dsimp only
    rw [hgrown, if_neg (by omega)]
    exact ⟨rfl, htop⟩

/-- A block of new memory at the end of the heap. -/
theorem Valid.grow (hv : Valid base start h free live) (hn : 0 < n)
    (hlt : h.brk + n * 8 < KERNBASE) (sbrks : ℕ) :
    Valid base start
      (({ h with brk := h.brk + n * 8, sbrks := sbrks } : Heap).setHeader h.brk (h.ptr h.brk) n)
      free (⟨h.brk, n⟩ :: live) := by
  have hwithin : ∀ {d}, Within start h.brk d → Within start (h.brk + n * 8) d := fun hd =>
    ⟨hd.le_addr, by have := hd.stop_le; omega, hd.dvd, hd.pos⟩
  have hne : ∀ {d}, Within start h.brk d → d.addr ≠ h.brk := fun hd => by
    have h1 := hd.stop_le
    have h2 := hd.lt_stop
    omega
  have hbase := hv.base_le
  have hstart := hv.start_le
  refine
    { circle := hv.circle.congr fun d hd => Function.update_of_ne ?_ _ _
      gapped := hv.gapped
      freep := hv.freep
      base_pos := hv.base_pos
      base_le := hv.base_le
      start_le := by dsimp only [Heap.setHeader_brk]; omega
      brk_dvd := by
        have := hv.brk_dvd
        dsimp only [Heap.setHeader_brk]
        omega
      brk_lt := hlt
      within := fun d hd => hwithin (hv.within d hd)
      liveWithin := List.forall_mem_cons.mpr
        ⟨⟨hstart, le_rfl, hv.brk_dvd, hn⟩, fun e he => hwithin (hv.liveWithin e he)⟩
      liveSize := List.forall_mem_cons.mpr ⟨Heap.setHeader_size _ _ _ _, fun e he => ?_⟩
      liveApart := List.pairwise_cons.mpr
        ⟨fun e he => .inr (hv.liveWithin e he).stop_le, hv.liveApart⟩
      liveFree := List.forall_mem_cons.mpr
        ⟨fun d hd => .inr (hv.within d hd).stop_le, hv.liveFree⟩ }
  · rcases hv.node hd with rfl | hd
    · dsimp only
      omega
    · exact hne hd
  · exact (Heap.setHeader_size_of_ne _ _ _ (hne (hv.liveWithin e he))).trans (hv.liveSize e he)

/-- Only the count of the calls of `sbrk` has changed. -/
theorem Valid.sbrks (hv : Valid base start h free live) (k : ℕ) :
    Valid base start { h with sbrks := k } free live :=
  { circle := hv.circle.congr fun _ _ => rfl
    gapped := hv.gapped
    freep := hv.freep
    base_pos := hv.base_pos
    base_le := hv.base_le
    start_le := hv.start_le
    brk_dvd := hv.brk_dvd
    brk_lt := hv.brk_lt
    within := hv.within
    liveWithin := hv.liveWithin
    liveSize := hv.liveSize
    liveApart := hv.liveApart
    liveFree := hv.liveFree }

/-- `morecore` gets no memory, or puts a block that is large enough into the free list.

**Proof sketch.** By what `sbrk` does (`sbrk_cases`). If it has no memory the heap is as before.
Otherwise the new memory starts at the old end of the heap, so it is a block apart from all others,
and `free` puts it into the list (`returns_free`), joined or not, as a block of at least its size.
-/
theorem Valid.returns_morecore (hv : Valid base start h free live) (hn : 0 < n)
    (hlt : n * 8 < 2 ^ 31) :
    ∃ h' free', Valid base start h' free' live ∧
      (Returns (fun fuel => morecore fuel n h) (0, h') ∨
        Returns (fun fuel => morecore fuel n h) (h'.freep, h') ∧ ∃ d ∈ free', n ≤ d.size) := by
  obtain ⟨nu, hnu⟩ : ∃ nu, nu = if n < 4096 then 4096 else n := ⟨_, rfl⟩
  have hle : n ≤ nu ∧ nu * 8 < 2 ^ 31 := by
    rw [hnu]
    split_ifs <;> omega
  rcases sbrk_cases hv.brk_lt (n := nu * 8) (by omega) hle.2 with hnone | ⟨hsome, htop⟩
  · refine ⟨_, free, hv.sbrks (h.sbrks + 1), .inl (Returns.of_le 0 fun fuel _ => ?_)⟩
    unfold morecore
    simp only [← hnu, hnone]
  · have hgrow := hv.grow (n := nu) (by omega) htop (h.sbrks + 1)
    obtain ⟨h', free', hret, hvalid, d, hd, hsize⟩ := hgrow.returns_free
    refine ⟨h', free', hvalid, .inr ⟨?_, d, hd, hle.1.trans hsize⟩⟩
    have hadvance : advance h.brk 1 = h.brk + 8 := by
      unfold KERNBASE at htop
      exact Nat.mod_eq_of_lt (by omega)
    unfold morecore
    simp only [← hnu, hsome, hadvance]
    exact hret.bind (Returns.of_eq rfl)

/-! ## `malloc` -/

/-- A request whose size, rounded up and with its header, is a positive `int`. -/
def Small (nbytes : ℕ) : Prop := ((nbytes + 7) / 8 + 1) * 8 < 2 ^ 31

/-- The units of a small request. -/
theorem nunits_eq {nbytes : ℕ} (h : Small nbytes) : nunits nbytes = (nbytes + 7) / 8 + 1 := by
  unfold Small at h
  unfold nunits
  omega

/-- `malloc` returns a null pointer, or takes a block of the requested size.

**Proof sketch.** The loop walks around the circle from `freep`. If a block on the way is large
enough it is taken, whole or from its end. If the walk comes back to `freep`, `morecore` either
gives up, and `malloc` returns 0, or puts a large enough block into the list; the walk then starts
again, and meets that block before it comes round, so that the loop ends. -/
theorem Valid.returns_malloc (hv : Valid base start h free live) {nbytes : ℕ}
    (hsmall : Small nbytes) :
    ∃ p h' free', Returns (fun fuel => Umalloc.malloc base fuel nbytes h) (p, h') ∧
      (p = 0 ∧ Valid base start h' free' live ∨
        ∃ b, b.size = nunits nbytes ∧ p = b.addr + 8 ∧ Valid base start h' free' (b :: live)) := by
  have hn : 0 < nunits nbytes := Nat.succ_pos _
  have hlt : nunits nbytes * 8 < 2 ^ 31 := by
    rw [nunits_eq hsmall]
    exact hsmall
  obtain ⟨f, hf, hfreep⟩ := hv.freep
  have hinit : initFreep base h = h := by
    have := hv.base_le_addr hf
    have := hv.base_pos
    exact if_neg (by omega)
  have hmalloc : ∀ {t}, LoopReturns .loops (mallocBody (nunits nbytes)) (scanAt h h.freep) t →
      Returns (fun fuel => Umalloc.malloc base fuel nbytes h) (t.p, t.heap) := by
    intro t ht
    unfold Umalloc.malloc
    rw [hinit]
    exact ht.returns.bind (Returns.of_eq rfl)
  by_cases hex : ∃ c ∈ free, nunits nbytes ≤ c.size
  · obtain ⟨b, h', free', prevp, hb, hloop, hvalid⟩ := hv.scan_found hn hex
    exact ⟨_, h', free', hmalloc hloop, .inr ⟨b, hb, rfl, hvalid⟩⟩
  have hnone : ∀ c ∈ free, c.size < nunits nbytes := by
    intro c hc
    by_contra hle
    exact hex ⟨c, hc, not_lt.mp hle⟩
  have hsize : ¬nunits nbytes ≤ h.size h.freep := by
    rw [hfreep, hv.circle.size f hf, not_le]
    rcases List.mem_cons.mp hf with rfl | hf
    · exact hn
    · exact hnone f hf
  obtain ⟨y, hscan⟩ := hv.scan_none hn hnone
  obtain ⟨h', free', hvalid, hfail | ⟨hmore, hex'⟩⟩ := hv.returns_morecore hn hlt
  · refine ⟨0, h', free', hmalloc (hscan ⟨y, 0, h'⟩ (LoopReturns.of_stop ?_)), .inl ⟨rfl, hvalid⟩⟩
    unfold mallocBody
    dsimp only
    simp only [if_neg hsize, if_true]
    exact hfail.bind (Returns.of_eq rfl)
  · obtain ⟨b, h'', free'', prevp, hb, hloop, hvalid'⟩ := hvalid.scan_found hn hex'
    refine ⟨_, h'', free'', hmalloc (hscan ⟨prevp, b.addr + 8, h''⟩
      (LoopReturns.of_step ?_ hloop)), .inr ⟨b, hb, rfl, hvalid'⟩⟩
    obtain ⟨f', hf', hfreep'⟩ := hvalid.freep
    have hne : h'.freep ≠ 0 := by
      have := hvalid.base_le_addr hf'
      have := hvalid.base_pos
      omega
    unfold mallocBody
    dsimp only
    simp only [if_neg hsize, if_true]
    exact hmore.bind (Returns.of_eq (if_neg hne))

/-! ## Other changes -/

/-- The order in which the live blocks are listed does not matter. -/
theorem Valid.perm {live' : List Block} (hv : Valid base start h free live)
    (hperm : live.Perm live') : Valid base start h free live' :=
  { hv with
    liveWithin := fun b hb => hv.liveWithin b (hperm.mem_iff.mpr hb)
    liveSize := fun b hb => hv.liveSize b (hperm.mem_iff.mpr hb)
    liveApart := (hperm.pairwise_iff fun {_ _} => Apart.symm).mp hv.liveApart
    liveFree := fun b hb => hv.liveFree b (hperm.mem_iff.mpr hb) }

/-- Storing behind the header of a live block. -/
theorem Valid.store (hv : Valid base start h free (b :: live)) {x : ℕ} (v : Header)
    (hlt : b.addr < x) (hx : x < b.stop) :
    Valid base start { h with mem := Function.update h.mem x v } free (b :: live) := by
  have hbase := hv.base_le
  have hb := hv.liveWithin b List.mem_cons_self
  have hbaddr := hb.le_addr
  have hne : ∀ {c}, Apart b c → c.addr < c.stop → c.addr ≠ x := fun hapart hc => by
    unfold Apart at hapart
    omega
  refine
    { hv with
      circle := hv.circle.congr fun c hc => Function.update_of_ne ?_ _ _
      liveSize := fun e he => ?_ }
  · rcases List.mem_cons.mp hc with rfl | hc
    · dsimp only
      omega
    · exact hne (hv.liveFree b List.mem_cons_self c hc) (hv.within c hc).lt_stop
  · have hex : e.addr ≠ x := by
      rcases List.mem_cons.mp he with rfl | hlive
      · exact hlt.ne
      · exact hne ((List.pairwise_cons.mp hv.liveApart).1 e hlive) (hv.liveWithin e he).lt_stop
    exact (congrArg Header.size (Function.update_of_ne hex v h.mem)).trans (hv.liveSize e he)

end HgXv6.Umalloc
