import HgXv6.User.Allocator
import Mathlib.Data.List.Perm.Basic
import Mathlib.Logic.Relation

set_option relaxedAutoImplicit false
set_option autoImplicit false

/-!
# Programs that allocate

A program calls `malloc` with requests of any size that `sbrk` can be asked for, gives back blocks
that it holds, and stores whatever it likes into them. Its heap starts where `exec` ends the
memory of the process.

## Main definitions

* `HgXv6.Umalloc.Program`, `HgXv6.Umalloc.Step` — the heap with the blocks the program holds.
* `HgXv6.Umalloc.heapStart`, `HgXv6.Umalloc.start` — the process after `exec`.
* `HgXv6.Umalloc.Grants` — what a block that `malloc` returns has to be.

## Main results

* `HgXv6.Umalloc.Sound.step`, `HgXv6.Umalloc.sound_run` — the free list, along every run.
* `HgXv6.Umalloc.malloc_free_safe` — `malloc` and `free` in every state that can be reached.
-/

namespace HgXv6.Umalloc

open Prog

/-! ## Runs -/

/-- A block that a program holds: the pointer it was given and the size it asked for. -/
structure Allocation where
  ptr : ℕ
  nbytes : ℕ
deriving DecidableEq

/-- The block with its header. -/
def Allocation.block (a : Allocation) : Block := ⟨a.ptr - 8, nunits a.nbytes⟩

/-- A program: its heap and the blocks it holds. -/
structure Program where
  heap : Heap
  live : List Allocation

/-- One step of a program: a call of `malloc` or `free`, or a store of a byte of a block, which
changes the cell that the byte is in. -/
inductive Step (base : ℕ) : Program → Program → Prop
  | malloc (s : Program) (nbytes p : ℕ) (h' : Heap) (hsmall : Small nbytes)
      (hret : Returns (fun fuel => malloc base fuel nbytes s.heap) (p, h')) :
      Step base s ⟨h', if p = 0 then s.live else ⟨p, nbytes⟩ :: s.live⟩
  | free (s : Program) (a : Allocation) (h' : Heap) (ha : a ∈ s.live)
      (hret : Returns (fun fuel => free fuel a.ptr s.heap) h') :
      Step base s ⟨h', s.live.erase a⟩
  | store (s : Program) (a : Allocation) (x : ℕ) (v : Header) (ha : a ∈ s.live)
      (hle : a.ptr ≤ x) (hlt : x < a.ptr + a.nbytes) :
      Step base s
        ⟨{ s.heap with mem := Function.update s.heap.mem (x - x % 8) v }, s.live⟩

/-- Where `exec` ends the memory of a process whose image ends at `imageEnd`:
`sz = PGROUNDUP(sz); allocuvm(pgdir, sz, sz + 2*PGSIZE)`. -/
def heapStart (imageEnd : ℕ) : ℕ := (imageEnd + PGSIZE - 1) / PGSIZE * PGSIZE + 2 * PGSIZE

/-- A process that has not allocated yet. -/
def start (imageEnd : ℕ) (mem : ℕ → Header) (kernel : ℕ → Bool) : Program where
  heap := { mem := mem, freep := 0, brk := heapStart imageEnd, kernel := kernel, sbrks := 0 }
  live := []

/-! ## The invariant -/

/-- The program has not allocated yet, or its free list and the blocks it holds are valid. -/
def Sound (base lo : ℕ) (s : Program) : Prop :=
  (s.heap.freep = 0 ∧ s.heap.brk = lo ∧ s.live = []) ∨
    ∃ free, Valid base lo s.heap free (s.live.map Allocation.block) ∧
      ∀ a ∈ s.live, 8 ≤ a.ptr ∧ Small a.nbytes

variable {base lo : ℕ} {s s' : Program}

/-- The static header lies below the heap, which starts at a multiple of eight. -/
structure Placed (base lo : ℕ) : Prop where
  pos : 0 < base
  le : base + 8 ≤ lo
  dvd : 8 ∣ lo
  lt : lo < KERNBASE

/-- The first call of `malloc` makes the free list. -/
theorem valid_init (hbase : Placed base lo) {h : Heap} (hfreep : h.freep = 0) (hbrk : h.brk = lo) :
    Valid base lo (initFreep base h) [] [] := by
  unfold initFreep
  rw [if_pos hfreep]
  exact
    { circle := Represents.cons_iff.mpr ⟨rfl, Heap.setHeader_size h base base 0,
        ⟨Heap.setHeader_ptr h base base 0, fun c hc => absurd hc List.not_mem_nil⟩⟩
      gapped := List.pairwise_singleton _ _
      freep := ⟨_, List.mem_cons_self, rfl⟩
      base_pos := hbase.pos
      base_le := hbase.le
      start_le := hbrk.ge
      brk_dvd := hbrk ▸ hbase.dvd
      brk_lt := hbrk ▸ hbase.lt
      within := fun c hc => absurd hc List.not_mem_nil
      liveWithin := fun c hc => absurd hc List.not_mem_nil
      liveSize := fun c hc => absurd hc List.not_mem_nil
      liveApart := List.Pairwise.nil
      liveFree := fun c hc => absurd hc List.not_mem_nil }

/-- A second look at `freep` changes nothing. -/
theorem malloc_init (hpos : 0 < base) (fuel nbytes : ℕ) (h : Heap) :
    malloc base fuel nbytes (initFreep base h) = malloc base fuel nbytes h := by
  have hinit : initFreep base (initFreep base h) = initFreep base h := by
    by_cases hfreep : h.freep = 0
    · have : (initFreep base h).freep ≠ 0 := by
        unfold initFreep
        rw [if_pos hfreep]
        exact hpos.ne'
      exact if_neg this
    · unfold initFreep
      simp only [if_neg hfreep]
  unfold malloc
  rw [hinit]

/-- What a call of `malloc` does in a sound state. -/
theorem Sound.returns_malloc (hbase : Placed base lo) (hs : Sound base lo s) {nbytes : ℕ}
    (hsmall : Small nbytes) :
    ∃ p h' free', Returns (fun fuel => malloc base fuel nbytes s.heap) (p, h') ∧
      (p = 0 ∧ Valid base lo h' free' (s.live.map Allocation.block) ∨
        8 ≤ p ∧ p ≠ 0 ∧ Valid base lo h' free'
          ((⟨p, nbytes⟩ :: s.live : List Allocation).map Allocation.block)) := by
  obtain ⟨h, free, hheap, hvalid⟩ : ∃ h free,
      (∀ fuel, malloc base fuel nbytes s.heap = malloc base fuel nbytes h) ∧
        Valid base lo h free (s.live.map Allocation.block) := by
    rcases hs with ⟨hfreep, hbrk, hlive⟩ | ⟨free, hvalid, -⟩
    · refine ⟨_, [], fun fuel => (malloc_init hbase.pos fuel nbytes s.heap).symm, ?_⟩
      rw [hlive]
      exact valid_init hbase hfreep hbrk
    · exact ⟨s.heap, free, fun _ => rfl, hvalid⟩
  obtain ⟨p, h', free', hret, hcases⟩ := hvalid.returns_malloc hsmall
  refine ⟨p, h', free', ?_, ?_⟩
  · simp only [hheap]
    exact hret
  · rcases hcases with hzero | ⟨b, hb, rfl, hvalid'⟩
    · exact .inl hzero
    · have hblock : Allocation.block ⟨b.addr + 8, nbytes⟩ = b := by
        unfold Allocation.block
        rw [← hb]
        rfl
      refine .inr ⟨by omega, by omega, ?_⟩
      rw [List.map_cons, hblock]
      exact hvalid'

/-- What a call of `free` does in a sound state. -/
theorem Sound.returns_free (hs : Sound base lo s) {a : Allocation} (ha : a ∈ s.live) :
    ∃ h', Returns (fun fuel => free fuel a.ptr s.heap) h' ∧ Sound base lo ⟨h', s.live.erase a⟩ := by
  rcases hs with ⟨-, -, hlive⟩ | ⟨free, hvalid, hall⟩
  · rw [hlive] at ha
    exact absurd ha List.not_mem_nil
  · have hvalid' := hvalid.perm ((List.perm_cons_erase ha).map Allocation.block)
    rw [List.map_cons] at hvalid'
    obtain ⟨h', free', hret, hkept, -⟩ := hvalid'.returns_free
    have hptr : a.block.addr + 8 = a.ptr := Nat.sub_add_cancel (hall a ha).1
    rw [hptr] at hret
    exact ⟨h', hret, .inr ⟨free', hkept, fun e he => hall e (List.mem_of_mem_erase he)⟩⟩

/-- The blocks of a sound state have been requested. -/
theorem Sound.requested (hs : Sound base lo s) : ∀ a ∈ s.live, 8 ≤ a.ptr ∧ Small a.nbytes := by
  rcases hs with ⟨-, -, hlive⟩ | ⟨-, -, hall⟩
  · rw [hlive]
    exact fun a ha => absurd ha List.not_mem_nil
  · exact hall

/-- Every step keeps the state sound.

**Proof sketch.** By cases on the step. A call of `malloc` returns what `returns_malloc` says, as
calls have at most one result, and either grants nothing or adds one block to those held; a call of
`free` takes one away; and a store by the program is inside a block that is held, so that it changes
no header. -/
theorem Sound.step (hbase : Placed base lo) (hs : Sound base lo s) (hstep : Step base s s') :
    Sound base lo s' := by
  cases hstep with
  | malloc nbytes p h' hsmall hret =>
    obtain ⟨q, h'', free', hret', hcases⟩ := hs.returns_malloc hbase hsmall
    obtain ⟨rfl, rfl⟩ := Prod.mk.inj (hret.unique hret')
    have hall := hs.requested
    rcases hcases with ⟨rfl, hvalid⟩ | ⟨hp, hne, hvalid⟩
    · exact .inr ⟨free', hvalid, hall⟩
    · rw [if_neg hne]
      exact .inr ⟨free', hvalid, List.forall_mem_cons.mpr ⟨⟨hp, hsmall⟩, hall⟩⟩
  | free a h' ha hret =>
    obtain ⟨h'', hret', hsound⟩ := hs.returns_free ha
    rwa [hret.unique hret']
  | store a x v ha hle hlt =>
    rcases hs with ⟨-, -, hlive⟩ | ⟨free, hvalid, hall⟩
    · rw [hlive] at ha
      exact absurd ha List.not_mem_nil
    · have hperm := (List.perm_cons_erase ha).map Allocation.block
      rw [List.map_cons] at hperm
      have hblock := (hvalid.perm hperm).liveWithin a.block List.mem_cons_self
      obtain ⟨hptr, hsmall⟩ := hall a ha
      have hdvd := hblock.dvd
      have haddr : a.block.addr = a.ptr - 8 := rfl
      have hstop : a.block.stop = a.ptr - 8 + nunits a.nbytes * 8 := rfl
      have hunits := nunits_eq hsmall
      exact .inr ⟨free, ((hvalid.perm hperm).store v (by omega) (by omega)).perm hperm.symm, hall⟩

/-- Every run does. -/
theorem sound_run (hbase : Placed base lo) (hs : Sound base lo s)
    (hrun : Relation.ReflTransGen (Step base) s s') : Sound base lo s' := by
  induction hrun with
  | refl => exact hs
  | tail _ hstep ih => exact ih.step hbase hstep

/-- What `exec` makes of a process. -/
theorem placed_heapStart {imageEnd : ℕ} (hpos : 0 < base) (himage : base + 8 ≤ imageEnd)
    (hfits : heapStart imageEnd < KERNBASE) : Placed base (heapStart imageEnd) where
  pos := hpos
  le := by
    unfold heapStart PGSIZE
    omega
  dvd := by
    unfold heapStart PGSIZE
    omega
  lt := hfits

/-! ## What the allocator guarantees -/

/-- The block `p` for a request of `nbytes` lies at a multiple of eight in the heap from `lo` on,
its header says that it has the size requested, and with its header it shares no memory with the
blocks `live`, nor with the static header, nor with a block of the free list. -/
structure Grants (base lo : ℕ) (live : List Allocation) (free : List Block) (h : Heap)
    (nbytes p : ℕ) : Prop where
  dvd : 8 ∣ p
  room : nbytes ≤ (h.size (p - 8) - 1) * 8
  above : base + 8 ≤ p - 8 ∧ lo ≤ p - 8
  below : p + nbytes ≤ h.brk
  live : ∀ a ∈ live, p + nbytes ≤ a.ptr - 8 ∨ a.ptr + a.nbytes ≤ p - 8
  free : ∀ c ∈ free, p + nbytes ≤ c.addr ∨ c.stop ≤ p - 8

/-- The bytes of a block that was requested end before the block does. -/
theorem ptr_add_le_stop {a : Allocation} (ha : 8 ≤ a.ptr ∧ Small a.nbytes) :
    a.ptr + a.nbytes ≤ a.block.stop := by
  have hunits := nunits_eq ha.2
  have hptr := ha.1
  unfold Block.stop Allocation.block
  dsimp only
  omega

/-- A block that `malloc` has taken is one as requested. -/
theorem Valid.grants {h : Heap} {free : List Block} {live : List Allocation} {a : Allocation}
    (hv : Valid base lo h free ((a :: live).map Allocation.block))
    (ha : ∀ e ∈ a :: live, 8 ≤ e.ptr ∧ Small e.nbytes) :
    Grants base lo live free h a.nbytes a.ptr := by
  obtain ⟨ha, hlive⟩ := List.forall_mem_cons.mp ha
  have hblock := hv.liveWithin a.block List.mem_cons_self
  have hstop := ptr_add_le_stop ha
  have hdvd : 8 ∣ a.ptr - 8 := hblock.dvd
  have hptr := ha.1
  have hsize : h.size (a.ptr - 8) = nunits a.nbytes := hv.liveSize a.block List.mem_cons_self
  have habove : lo ≤ a.ptr - 8 := hblock.le_addr
  refine
    { dvd := by omega
      room := by rw [hsize, nunits_eq ha.2]; omega
      above := ⟨hv.base_le.trans habove, habove⟩
      below := hstop.trans hblock.stop_le
      live := fun e he => ?_
      free := fun c hc => (hv.liveFree a.block List.mem_cons_self c hc).imp_left hstop.trans }
  have hapart := (List.pairwise_cons.mp hv.liveApart).1 e.block (List.mem_map_of_mem he)
  have hestop := ptr_add_le_stop (hlive e he)
  exact hapart.imp hstop.trans hestop.trans

/-- **The allocator.** In every state that a program can reach, the free list is circular and in the
order of addresses, and no two free blocks touch, unless nothing has been allocated yet; `free` of a
block that is held ends; and `malloc` ends, keeps the list so, and returns a null pointer or a block
as requested that overlaps nothing.

**Proof sketch.** In every state that is reached the invariant `Sound` holds (`sound_run`): nothing
has been allocated, or there is a list of free blocks that the memory represents and that is apart
from the blocks held. From such a state `free` ends (`returns_free`) and `malloc` ends with a null
pointer or with a block that it has taken out of the free ones, which is apart from all blocks held
(`returns_malloc`). -/
theorem malloc_free_safe (base imageEnd : ℕ) (mem : ℕ → Header) (kernel : ℕ → Bool)
    (hpos : 0 < base) (himage : base + 8 ≤ imageEnd) (hfits : heapStart imageEnd < KERNBASE)
    (s : Program) (hs : Relation.ReflTransGen (Step base) (start imageEnd mem kernel) s) :
    (s.heap.freep = 0 ∧ s.live = [] ∨ ∃ free, FreeList base s.heap free) ∧
      (∀ a ∈ s.live, ∃ h', Returns (fun fuel => free fuel a.ptr s.heap) h') ∧
      ∀ nbytes, Small nbytes →
        ∃ p h' free', Returns (fun fuel => malloc base fuel nbytes s.heap) (p, h') ∧
          FreeList base h' free' ∧
          (p = 0 ∨ Grants base (heapStart imageEnd) s.live free' h' nbytes p) := by
  have hbase := placed_heapStart hpos himage hfits
  have hsound : Sound base (heapStart imageEnd) s :=
    sound_run hbase (.inl ⟨rfl, rfl, rfl⟩) hs
  refine ⟨?_, fun a ha => ?_, fun nbytes hsmall => ?_⟩
  · rcases hsound with ⟨hfreep, -, hlive⟩ | ⟨free, hvalid, -⟩
    · exact .inl ⟨hfreep, hlive⟩
    · exact .inr ⟨free, hvalid.toFreeList⟩
  · obtain ⟨h', hret, -⟩ := hsound.returns_free ha
    exact ⟨h', hret⟩
  · obtain ⟨p, h', free', hret, hcases⟩ := hsound.returns_malloc hbase hsmall
    rcases hcases with ⟨rfl, hvalid⟩ | ⟨hp, hne, hvalid⟩
    · exact ⟨0, h', free', hret, hvalid.toFreeList, .inl rfl⟩
    · refine ⟨p, h', free', hret, hvalid.toFreeList, .inr ?_⟩
      exact hvalid.grants (List.forall_mem_cons.mpr ⟨⟨hp, hsmall⟩, hsound.requested⟩)

/-! ## A program with two blocks -/

/-- With larger bounds the routines do the same. -/
theorem free_settles (ap : ℕ) (h : Heap) : Settles fun fuel => free fuel ap h := by
  have hloop : Settles fun fuel => loopFuel .loops (freeBody h (ap - 8)) fuel h.freep :=
    loopFuel_settles (fun p => .const (freeBody h (ap - 8) p)) _
  exact hloop.bind fun _ => .const _

theorem morecore_settles (nu : ℕ) (h : Heap) : Settles fun fuel => morecore fuel nu h := by
  unfold morecore
  dsimp only
  split
  · exact .const _
  · exact (free_settles _ _).bind fun _ => .const _

theorem malloc_settles (base nbytes : ℕ) (h : Heap) :
    Settles fun fuel => malloc base fuel nbytes h := by
  unfold malloc
  refine (loopFuel_settles (fun x => ?_) _).bind fun _ => .const _
  unfold mallocBody
  split_ifs
  · exact .const _
  · exact (morecore_settles _ _).bind fun _ => .const _
  · exact .const _

/-- A process whose image is two pages. -/
def twoPages : Program := start 8192 (fun _ => ⟨0, 0⟩) fun _ => true

/-- `malloc_free_safe` for a program that has asked for two blocks and given the first one back:
it can give back the second one, and a third request gets the memory of the first one. -/
theorem malloc_free_safe_held : ∃ s, Relation.ReflTransGen (Step 4096) twoPages s ∧
    s.live = [⟨48840, 200⟩] ∧
    (∃ free, FreeList 4096 s.heap free) ∧
    (∃ h', Returns (fun fuel => free fuel 48840 s.heap) h') ∧
    ∃ h' free', Returns (fun fuel => malloc 4096 fuel 100 s.heap) (49048, h') ∧
      FreeList 4096 h' free' ∧
      Grants 4096 (heapStart 8192) s.live free' h' 100 49048 := by
  obtain ⟨h₁, h₂, h₃, h₄, hfirst, hsecond, hfree, hthird, hfreep⟩ : ∃ h₁ h₂ h₃ h₄,
      malloc 4096 8 100 twoPages.heap = .ok (49048, h₁) ∧
      malloc 4096 8 200 h₁ = .ok (48840, h₂) ∧ free 8 49048 h₂ = .ok h₃ ∧
      malloc 4096 8 100 h₃ = .ok (49048, h₄) ∧ h₃.freep ≠ 0 := by
    have hall : (malloc 4096 8 100 twoPages.heap >>= fun x => malloc 4096 8 200 x.2 >>= fun y =>
        free 8 49048 y.2 >>= fun h => malloc 4096 8 100 h >>= fun z =>
          .ok (x.1, y.1, z.1, h.freep)).toOption = some (49048, 48840, 49048, 16384) := by
      decide +kernel
    obtain ⟨⟨p, h₁⟩, hfirst, hall⟩ := bind_eq_ok.mp (eq_ok_of_toOption hall)
    obtain ⟨⟨q, h₂⟩, hsecond, hall⟩ := bind_eq_ok.mp hall
    obtain ⟨h₃, hfree, hall⟩ := bind_eq_ok.mp hall
    obtain ⟨⟨r, h₄⟩, hthird, hall⟩ := bind_eq_ok.mp hall
    obtain ⟨rfl, rfl, rfl, hfreep⟩ : p = 49048 ∧ q = 48840 ∧ r = 49048 ∧ h₃.freep = 16384 := by
      simpa using hall
    exact ⟨h₁, h₂, h₃, h₄, hfirst, hsecond, hfree, hthird, by rw [hfreep]; decide⟩
  have hsmall : Small 100 ∧ Small 200 := by unfold Small; decide
  have hrun : Relation.ReflTransGen (Step 4096) twoPages ⟨h₃, [⟨48840, 200⟩]⟩ := by
    refine .tail (.tail (.single
      (Step.malloc twoPages 100 _ _ hsmall.1 ((malloc_settles 4096 100 _).returns hfirst)))
      (Step.malloc _ 200 _ _ hsmall.2 ((malloc_settles 4096 200 _).returns hsecond))) ?_
    exact Step.free _ ⟨49048, 100⟩ _ (by simp) ((free_settles 49048 _).returns hfree)
  obtain ⟨hlist, hgive, htake⟩ := malloc_free_safe 4096 8192 (fun _ => ⟨0, 0⟩) (fun _ => true)
    (by decide) (by decide) (by decide) _ hrun
  obtain ⟨p, h', free', hret, hlist', hcases⟩ := htake 100 hsmall.1
  obtain ⟨rfl, rfl⟩ := Prod.mk.inj (((malloc_settles 4096 100 h₃).returns hthird).unique hret)
  exact ⟨_, hrun, rfl, hlist.resolve_left fun h => hfreep h.1, hgive _ List.mem_cons_self, _, free',
    hret, hlist', hcases.resolve_left (by decide)⟩

end HgXv6.Umalloc
