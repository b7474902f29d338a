import HgXv6.Kernel.GrowProc
import HgXv6.Kernel.MemoryOwners
import HgXv6.User.Umalloc

set_option relaxedAutoImplicit false
set_option autoImplicit false

/-!
# The allocator's kernel

The allocator sees of a process no more than its size, and of the kernel whether it has memory left
at each call of `sbrk`. The kernel maps and unmaps pages, and may run out of them in the middle of a
call. On every process with the pages of its size the two agree, and so does the kernel that pages
for all processes from one list of frames.

## Main results

* `HgXv6.Vm.wp_growproc_size` — the sizes that `growproc` computes.
* `HgXv6.Umalloc.wp_sbrk_eq` — the allocator's `sbrk` is the kernel's.
* `HgXv6.Umalloc.wp_growproc_eq` — it is that of the kernel with all its processes, too.
-/

namespace HgXv6

open Prog

namespace Vm

variable {E : Stop → Prop} {s : Space}

/-- The result of `growproc` and the size that it leaves, from the new size that the allocator
computes. -/
def SizeAfter (n : ℤ) (sz : ℕ) (s : Space) (r : ℤ) (s' : Space) : Prop :=
  if n ≠ 0 ∧ sz = 0 then r = -1 ∧ s'.sz = s.sz else r = 0 ∧ s'.sz = sz

/-- The end of `growproc`: a size of zero is a failure. -/
theorem wp_setSize {sz : ℕ} {n : ℤ} {t : Space} (hn : n ≠ 0) (ht : t.sz = s.sz) :
    Wp E (if sz = 0 then pure (-1) else setSize sz) (SizeAfter n sz s) t := by
  rw [wp_ite]
  refine ⟨fun h0 => ?_, fun h0 => ?_⟩
  · change SizeAfter n sz s (-1) t
    rw [SizeAfter, if_pos ⟨hn, h0⟩]
    exact ⟨rfl, ht⟩
  · change SizeAfter n sz s 0 { t with sz := sz }
    rw [SizeAfter, if_neg fun h => h0 h.2]
    exact ⟨rfl, rfl⟩

/-- The sizes that `growproc` computes are those that the allocator takes it to compute, with memory
left or without.

**Proof sketch.** By the sign of `n`. Shrinking needs no memory, so any answer will do as to whether
there is any. For growing, whether the pages can be had is the answer that the allocator asks for:
`allocuvm` either has all of them or returns 0. -/
theorem wp_growproc_size (h : s.Valid) (n : Int32) : Wp E (growproc n) (fun r s' =>
    ∃ room, SizeAfter n.toInt (Umalloc.growproc room n.toInt s.sz) s r s') s := by
  have hsz := h.sz_lt
  unfold growproc
  rw [wp_bind, wp_get]
  rcases lt_trichotomy n.toInt 0 with hneg | hzero | hpos
  · rw [if_neg (by omega), if_pos hneg]
    refine Wp.bind (wp_deallocuvm_of_valid h _) ?_
    rintro r s' ⟨rfl, hframed, -⟩
    have hsize (room : Bool) : Umalloc.growproc room n.toInt s.sz =
        min s.sz ((s.sz + n.toInt) % 2 ^ 32).toNat := by
      rw [Umalloc.growproc, if_neg (by omega), if_pos hneg, Umalloc.deallocuvm, Nat.min_def]
    refine (wp_setSize hneg.ne hframed.sz).mono fun r s' hpost => ⟨true, ?_⟩
    rw [hsize]
    exact hpost
  · rw [if_neg (by omega), if_neg (by omega)]
    refine ⟨true, ?_⟩
    rw [SizeAfter, if_neg fun h => h.1 hzero, Umalloc.growproc, if_neg (by omega),
      if_neg (by omega)]
    exact ⟨rfl, rfl⟩
  · rw [if_pos hpos]
    have hlt := n.toInt_lt
    obtain ⟨newsz, hnew⟩ : ∃ newsz, newsz = ((s.sz + n.toInt) % 2 ^ 32).toNat := ⟨_, rfl⟩
    have hle : s.sz ≤ newsz := by
      unfold KERNBASE at hsz
      omega
    have hsize (room : Bool) : Umalloc.growproc room n.toInt s.sz =
        Umalloc.allocuvm room s.sz newsz := by
      rw [Umalloc.growproc, if_pos hpos, hnew]
    rw [← hnew]
    simp only [hsize, Umalloc.allocuvm]
    rcases le_or_gt KERNBASE newsz with htop | htop
    · refine Wp.bind (wp_allocuvm_top htop) ?_
      rintro r s' ⟨rfl, rfl⟩
      refine (wp_setSize hpos.ne' rfl).mono fun r s' hpost => ⟨true, ?_⟩
      rw [if_pos htop]
      exact hpost
    · refine Wp.bind (wp_allocuvm_of_valid h hle htop) ?_
      rintro r s' ⟨hframed, -, hr⟩
      refine (wp_setSize hpos.ne' hframed.sz).mono fun r' s'' hpost => ?_
      rcases hr with ⟨rfl, -⟩ | ⟨rfl, -⟩
      · refine ⟨true, ?_⟩
        rw [if_neg (by omega), if_neg (by omega), if_pos rfl]
        exact hpost
      · refine ⟨false, ?_⟩
        rw [if_neg (by omega), if_neg (by omega), if_neg (by decide)]
        exact hpost

end Vm

namespace Umalloc

/-- **The allocator's `sbrk`.** On a process with the pages of its size the kernel's `sbrk` ends,
and what it returns and the size it leaves are those of the allocator's.

**Proof sketch.** `sbrk` returns the old size or -1, according to what `growproc` returns, and the
sizes of the two are the same (`wp_growproc_size`). -/
theorem wp_sbrk_eq {E : Stop → Prop} {s : Vm.Space} (h : s.Valid) (n : Int32) :
    Wp E (Vm.sbrk n) (fun r s' => ∃ room, ∀ heap : Heap, heap.brk = s.sz →
      heap.kernel heap.sbrks = room →
        sbrk n.toInt heap = (if r = -1 then none else some r.toNat,
          { heap with brk := s'.sz, sbrks := heap.sbrks + 1 })) s := by
  unfold Vm.sbrk
  rw [wp_bind, wp_get]
  refine Wp.bind (Vm.wp_growproc_size h n) ?_
  rintro r s' ⟨room, hsize⟩
  unfold Vm.SizeAfter at hsize
  split_ifs at hsize with hfails
  · obtain ⟨rfl, hsz⟩ := hsize
    rw [if_pos (by decide), wp_pure]
    refine ⟨room, fun heap hbrk hroom => ?_⟩
    unfold sbrk
    dsimp only
    rw [hroom, hbrk, if_pos hfails, if_pos rfl, hsz]
  · obtain ⟨rfl, hsz⟩ := hsize
    rw [if_neg (by decide), wp_pure]
    refine ⟨room, fun heap hbrk hroom => ?_⟩
    unfold sbrk
    dsimp only
    rw [hroom, hbrk, if_neg hfails, if_neg (by omega), hsz, Int.toNat_natCast]

/-! ## The kernel with all its processes -/

/-- What a process is to see of `sbrk` is what the allocator sees of it.

**Proof sketch.** By the result. If it is -1 the memory was to be made larger and the kernel has no
frames, or it was to be made empty; in both cases `growproc` computes 0. Otherwise the size that
`growproc` computes is the new one, or the old one where the sum wraps around. -/
theorem sbrk_of_image {I J : Phys.Image} {n : Int32} {r : Option ℕ} (hpos : 0 < I.sz)
    (hsz : I.sz < KERNBASE) (h : I.sbrk n r = some J) :
    ∃ room, ∀ heap : Heap, heap.brk = I.sz → heap.kernel heap.sbrks = room →
      sbrk n.toInt heap = (r, { heap with brk := J.sz, sbrks := heap.sbrks + 1 }) := by
  have hlo : -2 ^ 31 ≤ n.toInt := n.le_toInt
  have hhi : n.toInt < 2 ^ 31 := n.toInt_lt
  have hkern : KERNBASE = 2 ^ 31 := rfl
  cases r with
  | none =>
    refine ⟨false, fun heap hbrk hroom => ?_⟩
    have hfails : n.toInt ≠ 0 ∧ growproc false n.toInt I.sz = 0 ∧ J.sz = I.sz := by
      unfold Phys.Image.sbrk at h
      dsimp only at h
      split_ifs at h with hgrow hnothing
      · obtain rfl := Option.some.inj h
        exact ⟨hgrow.ne', by simp [growproc, allocuvm, hgrow]; omega, rfl⟩
      · obtain rfl := Option.some.inj h
        refine ⟨by omega, ?_, rfl⟩
        rw [growproc, if_neg hgrow, if_pos (by omega), hnothing]
        simp [deallocuvm]
    unfold sbrk
    dsimp only
    rw [hroom, hbrk, if_pos ⟨hfails.1, hfails.2.1⟩, hfails.2.2, ← hbrk]
  | some addr =>
    refine ⟨true, fun heap hbrk hroom => ?_⟩
    have hgoes : addr = I.sz ∧ growproc true n.toInt I.sz = J.sz ∧ ¬(n.toInt ≠ 0 ∧ J.sz = 0) := by
      unfold Phys.Image.sbrk at h
      dsimp only at h
      split_ifs at h with hrefused hwrap
      · obtain rfl := Option.some.inj h
        refine ⟨by omega, ?_, by omega⟩
        rw [growproc, if_neg (by omega), if_pos (by omega), deallocuvm, if_pos (by omega)]
      · obtain rfl := Option.some.inj h
        refine ⟨by omega, ?_, ?_⟩
        · change _ = (I.sz + n.toInt).toNat
          have hmod : (I.sz + n.toInt) % 2 ^ 32 = I.sz + n.toInt :=
            Int.emod_eq_of_lt (by omega) (by omega)
          unfold growproc allocuvm deallocuvm
          rw [hmod]
          simp only [↓reduceIte]
          split_ifs <;> omega
        · change ¬(n.toInt ≠ 0 ∧ (I.sz + n.toInt).toNat = 0)
          omega
    unfold sbrk
    dsimp only
    rw [hroom, hbrk, hgoes.2.1, if_neg hgoes.2.2, hgoes.1]

/-- **`sbrk` with paging.** On a process of the whole system too the size that `growproc` leaves,
and whether it fails, are those of the allocator's `sbrk`. -/
theorem wp_growproc_eq {E : Stop → Prop} {L : Option Sched.Slot → Phys.Layout} {fl : List ℕ}
    {σ : Phys.Users} {s : Phys.Sys} {i : Sched.Slot} {p : Phys.Proc} (h : Phys.Inv L fl σ s)
    (hp : s.proc i = some p) (n : Int32) :
    Wp E (Phys.growproc p n) (fun r _ => ∃ room, ∀ heap : Heap, heap.brk = p.sz →
      heap.kernel heap.sbrks = room → sbrk n.toInt heap = (r.map fun _ => p.sz,
        { heap with brk := r.getD p.sz, sbrks := heap.sbrks + 1 })) s.mem := by
  obtain ⟨I, hI, hshown⟩ := h.shown hp
  refine (h.growproc hp hI n).mono ?_
  rintro r mem' ⟨-, J, M, fl', hsbrk, hinv, -⟩
  obtain ⟨J', hJ', hshown'⟩ := hinv.shown (Function.update_self ..)
  have hJ : some J = some J' := by rw [← hJ', Function.update_self]
  have hsz : r.getD p.sz = J.sz := Option.some.inj hJ ▸ hshown'.sz
  rw [hshown.sz] at hsz ⊢
  rw [hsz]
  exact sbrk_of_image hshown.pos hshown.has.sz_lt hsbrk

end Umalloc

end HgXv6
