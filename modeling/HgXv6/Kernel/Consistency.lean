import HgXv6.Kernel.Ownership

set_option relaxedAutoImplicit false
set_option autoImplicit false

/-!
# Consistency of the file system

What every call keeps: the ownership of blocks, and that files have no holes. In the middle of a
write the copy of an inode in memory is ahead of the disk, and blocks are allocated behind the end
of the file; the invariant is therefore stated in two parts, of which the first holds at every
point where `bmap` can be called.

## Main definitions

* `HgXv6.Disk.Sound` — exact ownership, by the inodes as the kernel sees them.
* `HgXv6.Disk.Consistent` — what holds between two calls: in addition the copies in memory are
  those on the disk, and there are no holes.

## Main results

* `HgXv6.Disk.wp_bmap` — what `bmap` returns and changes.
* `HgXv6.Disk.Consistent.toSound`, `HgXv6.Disk.Sound.consistent` — from one part to the other.
* `HgXv6.Disk.Consistent.putInode` — an inode is changed in memory and written back.
-/

namespace HgXv6.Disk

open Prog

/-! ## What the small operations do -/

/-- The state with another entry in the inode cache. -/
def Fs.setInode (i : ℕ) (ip : Inode) (s : Fs) : Fs :=
  { s with icache := Function.update s.icache i ip }

/-- The state with another inode on the disk. -/
def Fs.setDinode (i : ℕ) (d : Dinode) (s : Fs) : Fs :=
  { s with
    dinode := Function.update s.dinode i d
    logged := s.logged ++ [IBLOCK i s.sb] }

/-- The state with other data in a block. -/
def Fs.setData (b : ℕ) (data : Data) (s : Fs) : Fs :=
  { s with
    data := Function.update s.data b data
    logged := s.logged ++ [b] }

variable {E : Stop → Prop} {s : Fs}

@[simp] theorem wp_store {Q : PUnit → Fs → Prop} (b : ℕ) (f : Data → Data) :
    Wp E (store b f) Q s ↔ Q ⟨⟩ (s.setData b (f (s.data b))) := Iff.rfl

@[simp] theorem wp_modifyInode {Q : PUnit → Fs → Prop} (i : ℕ) (f : Inode → Inode) :
    Wp E (modifyInode i f) Q s ↔ Q ⟨⟩ (s.setInode i (f (s.icache i))) := Iff.rfl

@[simp] theorem wp_modifyCopy {Q : PUnit → Fs → Prop} (i : ℕ) (f : Dinode → Dinode) :
    Wp E (modifyCopy i f) Q s ↔
      Q ⟨⟩ (s.setInode i { s.icache i with copy := f (s.icache i).copy }) := Iff.rfl

@[simp] theorem wp_iupdate {Q : PUnit → Fs → Prop} (i : ℕ) :
    Wp E (iupdate i) Q s ↔ Q ⟨⟩ (s.setDinode i (s.icache i).copy) := Iff.rfl

@[simp] theorem setInode_icache (i : ℕ) (ip : Inode) :
    (s.setInode i ip).icache = Function.update s.icache i ip := rfl

@[simp] theorem setDinode_icache (i : ℕ) (d : Dinode) :
    (s.setDinode i d).icache = s.icache := rfl

@[simp] theorem take_icache (b : ℕ) : (s.take b).icache = s.icache := rfl

@[simp] theorem release_icache (b : ℕ) : (s.release b).icache = s.icache := rfl

theorem inode_of_valid {i : ℕ} (h : (s.icache i).valid = true) :
    s.inode i = (s.icache i).copy := if_pos h

theorem inode_setInode (i : ℕ) (ip : Inode) : (s.setInode i ip).inode =
    Function.update s.inode i (if ip.valid then ip.copy else s.dinode i) := by
  funext j
  by_cases hj : j = i
  · subst hj
    simp [Fs.inode, Fs.setInode]
  · simp [Fs.inode, Fs.setInode, hj]

theorem inode_setDinode {i : ℕ} (h : (s.icache i).valid = true) (d : Dinode) :
    (s.setDinode i d).inode = s.inode := by
  funext j
  by_cases hj : j = i
  · subst hj
    simp [Fs.inode, Fs.setDinode, h]
  · simp [Fs.inode, Fs.setDinode, hj]

/-! ## The blocks of a file -/

/-- The place of a block of a file. -/
def blockPlace (i bn : ℕ) : Place :=
  if bn < NDIRECT then .slot i bn else .entry i (bn - NDIRECT)

theorem blockPlace_direct {i bn : ℕ} (h : bn < NDIRECT) : blockPlace i bn = .slot i bn := if_pos h

theorem blockPlace_indirect (i j : ℕ) : blockPlace i (NDIRECT + j) = .entry i j := by
  rw [blockPlace, if_neg (by omega), Nat.add_sub_cancel_left]

/-- The block at an index of a file, or 0. -/
def Fs.blockAt (s : Fs) (i bn : ℕ) : ℕ := refs s.inode s.data (blockPlace i bn)

/-- The block at an index in the direct range. -/
theorem blockAt_direct {i bn : ℕ} (hv : (s.icache i).valid = true) (h : bn < NDIRECT) :
    s.blockAt i bn = (s.icache i).copy.addrs bn := by
  rw [Fs.blockAt, blockPlace_direct h, refs, inode_of_valid hv, if_pos h.le]

/-- The block at an index in the indirect range, if there is an indirect block. -/
theorem blockAt_indirect {i j : ℕ} (hv : (s.icache i).valid = true) (hj : j < NINDIRECT)
    (hind : (s.icache i).copy.addrs NDIRECT ≠ 0) :
    s.blockAt i (NDIRECT + j) = getUint (s.data ((s.icache i).copy.addrs NDIRECT)) j := by
  rw [Fs.blockAt, blockPlace_indirect, refs, inode_of_valid hv, if_pos ⟨hind, hj⟩]

/-- Without an indirect block there is no block in the indirect range. -/
theorem blockAt_of_null {i : ℕ} (hv : (s.icache i).valid = true)
    (hnull : (s.icache i).copy.addrs NDIRECT = 0) (j : ℕ) : s.blockAt i (NDIRECT + j) = 0 := by
  rw [Fs.blockAt, blockPlace_indirect, refs, inode_of_valid hv, if_neg (by simp [hnull])]

theorem blockPlace_ne_indirect (i bn i' : ℕ) : blockPlace i bn ≠ .slot i' NDIRECT := by
  unfold blockPlace
  split_ifs with h
  · intro heq
    rw [Place.slot.injEq] at heq
    omega
  · simp

theorem blockPlace_inj {i bn i' bn' : ℕ} (h : blockPlace i bn = blockPlace i' bn') :
    i = i' ∧ bn = bn' := by
  unfold blockPlace at h
  split_ifs at h with h1 h2
  · simpa using h
  · rw [Place.entry.injEq] at h
    omega

/-- What holds at every point where `bmap` can be called. -/
structure Sound (s : Fs) : Prop where
  owned : OwnedBy (refs s.inode s.data) s
  typed : ∀ i, (s.icache i).valid = true → (s.icache i).copy.type ≠ 0
  free : ∀ i k, (s.inode i).type = 0 → k ≤ NDIRECT → (s.inode i).addrs k = 0

/-- The blocks of a file are no indirect blocks. -/
theorem Sound.blockAt_ne (h : Sound s) {i bn : ℕ} (hb : s.blockAt i bn ≠ 0) (i' : ℕ) :
    (s.inode i').addrs NDIRECT ≠ s.blockAt i bn := by
  intro heq
  refine blockPlace_ne_indirect i bn i' (h.owned.owns.inj _ _ ?_ hb)
  rw [show refs s.inode s.data (.slot i' NDIRECT) = (s.inode i').addrs NDIRECT from rfl, heq]
  rfl

/-- The superblock and the tables of the processes and of the open files are the same. -/
structure SameTables (s s' : Fs) : Prop where
  sb : s'.sb = s.sb
  ftable : s'.ftable = s.ftable
  cwd : s'.cwd = s.cwd
  ofile : s'.ofile = s.ofile

theorem SameTables.refl (s : Fs) : SameTables s s := ⟨rfl, rfl, rfl, rfl⟩

theorem SameTables.trans {s s' s'' : Fs} (h : SameTables s s') (h' : SameTables s' s'') :
    SameTables s s'' :=
  ⟨h'.sb.trans h.sb, h'.ftable.trans h.ftable, h'.cwd.trans h.cwd, h'.ofile.trans h.ofile⟩

theorem SameTables.setInode {s s' : Fs} (h : SameTables s s') (i : ℕ) (ip : Inode) :
    SameTables s (s'.setInode i ip) := ⟨h.sb, h.ftable, h.cwd, h.ofile⟩

/-- `s'` comes from `s` by allocating blocks to the inode `i`. -/
structure Grows (i : ℕ) (s s' : Fs) : Prop where
  tables : SameTables s s'
  dinode : s'.dinode = s.dinode
  icache : ∃ addrs, s'.icache = Function.update s.icache i
    { s.icache i with copy := { (s.icache i).copy with addrs := addrs } }
  refs_eq : ∀ p, refs s.inode s.data p ≠ 0 → refs s'.inode s'.data p = refs s.inode s.data p

theorem Grows.refl (i : ℕ) (s : Fs) : Grows i s s :=
  ⟨SameTables.refl s, rfl,
    ⟨(s.icache i).copy.addrs, (Function.update_eq_self i s.icache).symm⟩, fun _ _ => rfl⟩

theorem Grows.trans {i : ℕ} {s s' s'' : Fs} (h : Grows i s s') (h' : Grows i s' s'') :
    Grows i s s'' := by
  obtain ⟨a, ha⟩ := h.icache
  obtain ⟨a', ha'⟩ := h'.icache
  refine ⟨h.tables.trans h'.tables, h'.dinode.trans h.dinode, ⟨a', ?_⟩, fun p hp => ?_⟩
  · rw [ha', ha]
    simp
  · rw [h'.refs_eq p (by rwa [h.refs_eq p hp]), h.refs_eq p hp]

/-- The copy in memory grows in its slots only. -/
theorem Grows.copy {i : ℕ} {s s' : Fs} (h : Grows i s s') : ∃ addrs,
    (s'.icache i).copy = { (s.icache i).copy with addrs := addrs } := by
  obtain ⟨a, ha⟩ := h.icache
  exact ⟨a, by simp [ha]⟩

theorem Grows.valid {i : ℕ} {s s' : Fs} (h : Grows i s s') (j : ℕ) :
    (s'.icache j).ref = (s.icache j).ref ∧ (s'.icache j).valid = (s.icache j).valid := by
  obtain ⟨a, ha⟩ := h.icache
  by_cases hj : j = i
  · subst hj
    simp [ha]
  · simp [ha, hj]

/-- The data of the blocks that files have are the same. -/
def KeepsBlocks (s s' : Fs) : Prop :=
  ∀ i bn, s.blockAt i bn ≠ 0 → s'.data (s.blockAt i bn) = s.data (s.blockAt i bn)

theorem KeepsBlocks.refl (s : Fs) : KeepsBlocks s s := fun _ _ _ => rfl

theorem KeepsBlocks.trans {i : ℕ} {s s' s'' : Fs} (h : KeepsBlocks s s') (hgrows : Grows i s s')
    (h' : KeepsBlocks s' s'') : KeepsBlocks s s'' := by
  intro j bn hb
  have heq : s'.blockAt j bn = s.blockAt j bn := hgrows.refs_eq _ hb
  rw [← h j bn hb, ← heq]
  exact h' j bn (heq.symm ▸ hb)

/-! ## Allocation -/

/-- A block that `balloc` finds is in no file. -/
theorem Sound.keepsBlocks_take (h : Sound s) {b : ℕ} (hb : s.used b = false) :
    KeepsBlocks s (s.take b) := by
  intro i bn _
  exact Function.update_of_ne ((h.owned.fresh hb).2.2 (blockPlace i bn)) ..

/-- A new block is stored in an empty slot.

**Proof sketch.** The references after the step are those before with the slot naming the new block
(`refs_update_slot`): the slot was empty, and if it is the slot of the indirect block, all entries
of a zeroed block are empty as well. A free block is named from nowhere, so the references stay
injective. The other inodes, and the types that make a slot meaningful, have not changed. -/
theorem Sound.take_slot (h : Sound s) {i k b : ℕ} (hv : (s.icache i).valid = true)
    (hk : k ≤ NDIRECT) (hnull : (s.icache i).copy.addrs k = 0) (hlt : b < s.sb.size)
    (hb : s.used b = false) :
    let s' := (s.take b).setInode i { s.icache i with
      copy := { (s.icache i).copy with addrs := Function.update (s.icache i).copy.addrs k b } }
    Sound s' ∧ Grows i s s' ∧ KeepsBlocks s s' ∧ refs s'.inode s'.data (.slot i k) = b ∧
      (k = NDIRECT → ∀ j, refs s'.inode s'.data (.entry i j) = 0) := by
  intro s'
  have hi := inode_of_valid hv
  have hinode : s'.inode = Function.update s.inode i
      { s.inode i with addrs := Function.update (s.inode i).addrs k b } := by
    rw [inode_setInode, hi]
    simp only [hv, if_true]
    rfl
  have hrefs : refs s'.inode s'.data =
      Function.update (refs s.inode s.data) (.slot i k) b := by
    rw [hinode]
    exact refs_update_slot hk (by rw [hi]; exact hnull) (h.owned.fresh hb).2.2
  have hplace : refs s.inode s.data (.slot i k) = 0 := by
    rw [show refs s.inode s.data (.slot i k) = if k ≤ NDIRECT then (s.inode i).addrs k else 0
      from rfl, if_pos hk, hi, hnull]
  refine ⟨⟨?_, ?_, ?_⟩, ⟨⟨rfl, rfl, rfl, rfl⟩, rfl, ⟨_, rfl⟩, ?_⟩, h.keepsBlocks_take hb, ?_, ?_⟩
  · exact (h.owned.take hlt hb hplace).congr hrefs rfl rfl
  · intro j hj
    by_cases hji : j = i
    · subst hji
      simpa [s'] using h.typed j hv
    · simp only [s', setInode_icache, Function.update_of_ne hji] at hj ⊢
      exact h.typed j hj
  · intro j k' htype
    by_cases hji : j = i
    · subst hji
      rw [hinode, Function.update_self] at htype
      exact absurd htype (by rw [hi]; exact h.typed j hv)
    · rw [hinode, Function.update_of_ne hji] at htype ⊢
      exact h.free j k' htype
  · intro p hp
    rw [hrefs, Function.update_of_ne]
    rintro rfl
    exact hp hplace
  · rw [hrefs, Function.update_self]
  · rintro rfl j
    rw [hrefs, Function.update_of_ne (by simp)]
    simp [refs, hi, hnull]

/-- A new block is stored in an empty entry of an indirect block. -/
theorem Sound.take_entry (h : Sound s) {i j b : ℕ} (hv : (s.icache i).valid = true)
    (hj : j < NINDIRECT) (hind : (s.icache i).copy.addrs NDIRECT ≠ 0)
    (hnull : getUint (s.data ((s.icache i).copy.addrs NDIRECT)) j = 0) (hlt : b < s.sb.size)
    (hb : s.used b = false) :
    let a := (s.icache i).copy.addrs NDIRECT
    let s' := (s.take b).setData a (putUint j b ((s.take b).data a))
    Sound s' ∧ Grows i s s' ∧ KeepsBlocks s s' ∧ refs s'.inode s'.data (.entry i j) = b := by
  intro a s'
  have hi := inode_of_valid hv
  have hne : a ≠ b := by
    have hfresh := (h.owned.fresh hb).2.2 (.slot i NDIRECT)
    simpa [refs, hi] using hfresh
  have hdata : (s.take b).data a = s.data a := Function.update_of_ne hne ..
  have hrefs : refs s'.inode s'.data =
      Function.update (refs s.inode s.data) (.entry i j) b := by
    have hentry := @refs_update_entry s.inode s.data i j b hj
      (lt_of_lt_of_le hlt h.owned.size_le) (by rw [hi]; exact hind)
      (fun i' => Owns.indirect_unique h.owned.owns (by rw [hi]; exact hind))
      (h.owned.fresh hb).2.2
    rw [hi] at hentry
    rw [← hentry, ← hdata]
    rfl
  have hplace : refs s.inode s.data (.entry i j) = 0 := by
    simp [refs, hi, hind, hj, hnull]
  refine ⟨⟨?_, h.typed, h.free⟩, ⟨⟨rfl, rfl, rfl, rfl⟩, rfl, (Grows.refl i s).icache, ?_⟩, ?_, ?_⟩
  · exact (h.owned.take hlt hb hplace).congr hrefs rfl rfl
  · intro p hp
    rw [hrefs, Function.update_of_ne]
    rintro rfl
    exact hp hplace
  · intro j' bn hbn
    have hbn' : s.blockAt j' bn ≠ a := by
      have hne' := h.blockAt_ne hbn i
      rw [hi] at hne'
      exact hne'.symm
    rw [← h.keepsBlocks_take hb j' bn hbn]
    exact Function.update_of_ne hbn' ..
  · rw [hrefs, Function.update_self]

/-! ## `bmap` -/

/-- What `bmap` leaves: the block is the one of the file at the index, and if there was one
already nothing has changed. -/
def BmapPost (i bn : ℕ) (s : Fs) (b : ℕ) (s' : Fs) : Prop :=
  Sound s' ∧ Grows i s s' ∧ KeepsBlocks s s' ∧ s'.blockAt i bn = b ∧ b ≠ 0 ∧
    (s.blockAt i bn ≠ 0 → s' = s)

/-- The entry of an indirect block that is there. -/
theorem wp_bmap_entry (hE : E (.panic "balloc: out of blocks")) (h : Sound s) {i j : ℕ}
    (hv : (s.icache i).valid = true) (hj : j < NINDIRECT)
    (hind : (s.icache i).copy.addrs NDIRECT ≠ 0) :
    Wp E (bmap.entry ((s.icache i).copy.addrs NDIRECT) j) (BmapPost i (NDIRECT + j) s) s := by
  have hblock := blockAt_indirect hv hj hind
  unfold bmap.entry
  rw [wp_bind, wp_get, wp_ite]
  refine ⟨fun hnull => ?_, fun hsome => ?_⟩
  · rw [wp_bind]
    refine wp_balloc hE fun b hlt hb => ?_
    rw [wp_bind, wp_store, wp_pure]
    obtain ⟨hsound, hgrows, hkeeps, hrefs⟩ := h.take_entry hv hj hind hnull hlt hb
    refine ⟨hsound, hgrows, hkeeps, ?_, (h.owned.fresh hb).1,
      fun hne => absurd (hblock ▸ hnull) hne⟩
    rw [Fs.blockAt, blockPlace_indirect]
    exact hrefs
  · rw [wp_pure]
    exact ⟨h, Grows.refl i s, KeepsBlocks.refl s, hblock, hsome, fun _ => rfl⟩

/-- `bmap` within the largest size of a file.

**Proof sketch.** By the branches of `bmap`. A direct slot either has a block already, and nothing
changes, or takes a new one (`take_slot`). Behind the direct slots, the indirect block is there or
is allocated first, which is again `take_slot`, and then its entry is found or allocated
(`wp_bmap_entry`). In each branch a block that was there is the block returned. -/
theorem wp_bmap (hE : E (.panic "balloc: out of blocks")) (h : Sound s) {i bn : ℕ}
    (hv : (s.icache i).valid = true) (hbn : bn < MAXFILE) :
    Wp E (bmap i bn) (BmapPost i bn s) s := by
  unfold bmap
  by_cases hdirect : bn < NDIRECT
  · have hblock := blockAt_direct hv hdirect
    rw [if_pos hdirect, wp_bind, wp_get, wp_ite]
    refine ⟨fun hnull => ?_, fun hsome => ?_⟩
    · rw [wp_bind]
      refine wp_balloc hE fun b hlt hb => ?_
      rw [wp_bind, wp_modifyCopy, wp_pure, take_icache]
      obtain ⟨hsound, hgrows, hkeeps, hrefs, -⟩ := h.take_slot hv hdirect.le hnull hlt hb
      refine ⟨hsound, hgrows, hkeeps, ?_, (h.owned.fresh hb).1,
        fun hne => absurd (hblock ▸ hnull) hne⟩
      rw [Fs.blockAt, blockPlace_direct hdirect]
      exact hrefs
    · rw [wp_pure]
      exact ⟨h, Grows.refl i s, KeepsBlocks.refl s, hblock, hsome, fun _ => rfl⟩
  · obtain ⟨j, rfl⟩ : ∃ j, bn = NDIRECT + j := ⟨bn - NDIRECT, by omega⟩
    have hj : j < NINDIRECT := by
      unfold MAXFILE at hbn
      omega
    rw [if_neg hdirect, Nat.add_sub_cancel_left, if_pos hj, wp_bind, wp_get, wp_ite]
    refine ⟨fun hnull => ?_, fun hsome => wp_bmap_entry hE h hv hj hsome⟩
    rw [wp_bind]
    refine wp_balloc hE fun b hlt hb => ?_
    rw [wp_bind, wp_modifyCopy, take_icache]
    obtain ⟨hsound, hgrows, hkeeps, hslot, hentries⟩ := h.take_slot hv le_rfl hnull hlt hb
    set s₁ := (s.take b).setInode i { s.icache i with
      copy := { (s.icache i).copy with
        addrs := Function.update (s.icache i).copy.addrs NDIRECT b } } with hs₁
    have hvalid : (s₁.icache i).valid = true := (hgrows.valid i).2.trans hv
    have hb' : (s₁.icache i).copy.addrs NDIRECT = b := by simp [hs₁]
    have hentry := wp_bmap_entry hE hsound hvalid hj (by rw [hb']; exact (h.owned.fresh hb).1)
    rw [hb'] at hentry
    refine hentry.mono ?_
    intro c s' hpost
    obtain ⟨hsound', hgrows', hkeeps', hblock', hc, -⟩ := hpost
    exact ⟨hsound', hgrows.trans hgrows', hkeeps.trans hgrows hkeeps', hblock', hc,
      fun hne => absurd (blockAt_of_null hv hnull j) hne⟩

/-! ## Between two operations -/

/-- Every index below the end of the file has a block. -/
def HoleFree (inode : ℕ → Dinode) (data : ℕ → Data) (i : ℕ) : Prop :=
  ∀ bn, bn * BSIZE < (inode i).size → bn < MAXFILE ∧ refs inode data (blockPlace i bn) ≠ 0

/-- What holds between two operations. -/
structure Consistent (s : Fs) : Prop where
  owned : OwnedBy (refs s.dinode s.data) s
  free : ∀ i k, (s.dinode i).type = 0 → k ≤ NDIRECT → (s.dinode i).addrs k = 0
  dense : ∀ i, (s.dinode i).type ≠ 0 → HoleFree s.dinode s.data i
  cached : ∀ i, (s.icache i).valid = true →
    (s.icache i).copy = s.dinode i ∧ (s.dinode i).type ≠ 0

/-- If the copies in memory are those on the disk, then the kernel sees what the disk has. -/
theorem inode_eq_dinode
    (h : ∀ i, (s.icache i).valid = true → (s.icache i).copy = s.dinode i) :
    s.inode = s.dinode := by
  funext i
  unfold Fs.inode
  split_ifs with hv
  · exact h i hv
  · rfl

theorem Consistent.inode_eq (h : Consistent s) : s.inode = s.dinode :=
  inode_eq_dinode fun i hi => (h.cached i hi).1

theorem Consistent.typed (h : Consistent s) (i : ℕ) (hv : (s.icache i).valid = true) :
    (s.icache i).copy.type ≠ 0 := by
  rw [(h.cached i hv).1]
  exact (h.cached i hv).2

theorem Consistent.toSound (h : Consistent s) : Sound s where
  owned := by
    rw [h.inode_eq]
    exact h.owned
  typed := h.typed
  free := by
    rw [h.inode_eq]
    exact h.free

/-- What is left to prove at the end of an operation. -/
theorem Sound.consistent (h : Sound s)
    (hsync : ∀ i, (s.icache i).valid = true → (s.icache i).copy = s.dinode i)
    (hdense : ∀ i, (s.inode i).type ≠ 0 → HoleFree s.inode s.data i) : Consistent s := by
  have hinode := inode_eq_dinode hsync
  rw [hinode] at hdense
  refine ⟨hinode ▸ h.owned, hinode ▸ h.free, hdense, fun i hi => ⟨hsync i hi, ?_⟩⟩
  rw [← hsync i hi]
  exact h.typed i hi

/-- A valid inode has no holes. -/
theorem Consistent.blockAt_ne_zero (h : Consistent s) {i bn : ℕ}
    (hv : (s.icache i).valid = true) (hbn : bn * BSIZE < (s.icache i).copy.size) :
    bn < MAXFILE ∧ s.blockAt i bn ≠ 0 := by
  rw [(h.cached i hv).1] at hbn
  rw [Fs.blockAt, h.inode_eq]
  exact h.dense i (h.cached i hv).2 bn hbn

/-- `bmap` of a block that the file has. -/
theorem wp_bmap_of_ne {i bn : ℕ} (hv : (s.icache i).valid = true) (hbn : bn < MAXFILE)
    (hne : s.blockAt i bn ≠ 0) : Wp E (bmap i bn) (fun b s' => b = s.blockAt i bn ∧ s' = s) s := by
  unfold bmap
  by_cases hdirect : bn < NDIRECT
  · have hblock := blockAt_direct hv hdirect
    rw [if_pos hdirect, wp_bind, wp_get, wp_ite]
    exact ⟨fun hnull => absurd (hblock.trans hnull) hne, fun _ => ⟨hblock.symm, rfl⟩⟩
  · obtain ⟨j, rfl⟩ : ∃ j, bn = NDIRECT + j := ⟨bn - NDIRECT, by omega⟩
    have hj : j < NINDIRECT := by
      unfold MAXFILE at hbn
      omega
    have hind : (s.icache i).copy.addrs NDIRECT ≠ 0 := fun hnull =>
      hne (blockAt_of_null hv hnull j)
    have hblock := blockAt_indirect hv hj hind
    rw [if_neg hdirect, Nat.add_sub_cancel_left, if_pos hj, wp_bind, wp_get, wp_ite]
    refine ⟨fun hnull => absurd hnull hind, fun _ => ?_⟩
    unfold bmap.entry
    rw [wp_bind, wp_get, wp_ite]
    exact ⟨fun hnull => absurd (hblock.trans hnull) hne, fun _ => ⟨hblock.symm, rfl⟩⟩

/-- The references and the validity of the entries of the inode cache are the same, and so are
the tables. -/
structure SameRefs (s s' : Fs) : Prop where
  tables : SameTables s s'
  ref : ∀ j, (s'.icache j).ref = (s.icache j).ref
  valid : ∀ j, (s'.icache j).valid = (s.icache j).valid

theorem SameRefs.refl (s : Fs) : SameRefs s s := ⟨SameTables.refl s, fun _ => rfl, fun _ => rfl⟩

theorem SameRefs.trans {s s' s'' : Fs} (h : SameRefs s s') (h' : SameRefs s' s'') :
    SameRefs s s'' where
  tables := h.tables.trans h'.tables
  ref j := (h'.ref j).trans (h.ref j)
  valid j := (h'.valid j).trans (h.valid j)

theorem Grows.sameRefs {i : ℕ} {s s' : Fs} (h : Grows i s s') : SameRefs s s' :=
  ⟨h.tables, fun j => (h.valid j).1, fun j => (h.valid j).2⟩

/-- The state after the fields of an inode are changed in memory and on the disk. -/
def Fs.putInode (i : ℕ) (d : Dinode) (s : Fs) : Fs :=
  (s.setInode i { s.icache i with copy := d }).setDinode i d

/-- Changing the fields of an inode and `iupdate`, with what follows. -/
theorem wp_update {α : Type} {Q : α → Fs → Prop} (i : ℕ) (f : Dinode → Dinode) (m : M α) :
    Wp E (do modifyCopy i f; iupdate i; m) Q s ↔
      Wp E m Q (s.putInode i (f (s.icache i).copy)) := by
  rw [wp_bind, wp_modifyCopy, wp_bind, wp_iupdate, setInode_icache, Function.update_self]
  rfl

theorem sameRefs_putInode (i : ℕ) (d : Dinode) (s : Fs) : SameRefs s (s.putInode i d) := by
  refine ⟨⟨rfl, rfl, rfl, rfl⟩, fun j => ?_, fun j => ?_⟩
  all_goals
    by_cases hj : j = i
    · subst hj
      simp [Fs.putInode]
    · simp [Fs.putInode, hj]

section PutInode

variable {i : ℕ} {d : Dinode}

theorem inode_putInode (hv : (s.icache i).valid = true) :
    (s.putInode i d).inode = Function.update s.inode i d := by
  rw [Fs.putInode, inode_setDinode (by simpa using hv), inode_setInode]
  simp [hv]

/-- Changing fields other than the slots does not change the references. -/
theorem refs_putInode (hv : (s.icache i).valid = true)
    (haddrs : d.addrs = (s.icache i).copy.addrs) :
    refs (s.putInode i d).inode (s.putInode i d).data = refs s.inode s.data := by
  refine refs_congr fun j k => ?_
  rw [inode_putInode hv]
  by_cases hj : j = i
  · subst hj
    rw [Function.update_self, haddrs, inode_of_valid hv]
  · rw [Function.update_of_ne hj]

theorem Sound.putInode (h : Sound s) (hv : (s.icache i).valid = true)
    (haddrs : d.addrs = (s.icache i).copy.addrs) (htype : d.type ≠ 0) :
    Sound (s.putInode i d) := by
  refine ⟨h.owned.congr (refs_putInode hv haddrs) rfl rfl, fun j hj => ?_, fun j k hj hk => ?_⟩
  · by_cases hji : j = i
    · subst hji
      simpa [Fs.putInode] using htype
    · simp only [Fs.putInode, setDinode_icache, setInode_icache,
        Function.update_of_ne hji] at hj ⊢
      exact h.typed j hj
  · rw [inode_putInode hv] at hj ⊢
    by_cases hji : j = i
    · subst hji
      rw [Function.update_self] at hj
      exact absurd hj htype
    · rw [Function.update_of_ne hji] at hj ⊢
      exact h.free j k hj hk

/-- If all other copies are those on the disk, then all are. -/
theorem synced_putInode
    (hsync : ∀ j, j ≠ i → (s.icache j).valid = true → (s.icache j).copy = s.dinode j) (j : ℕ)
    (hj : ((s.putInode i d).icache j).valid = true) :
    ((s.putInode i d).icache j).copy = (s.putInode i d).dinode j := by
  by_cases hji : j = i
  · subst hji
    simp [Fs.putInode, Fs.setInode, Fs.setDinode]
  · simp only [Fs.putInode, Fs.setInode, Fs.setDinode, Function.update_of_ne hji] at hj ⊢
    exact hsync j hji hj

/-- Changing fields other than the slots and the size keeps consistency.

**Proof sketch.** The slots are the same, so all references are, and with them what is owned and
what is free. The copy on the disk is now the one in memory, and as the size is the same the file
has no holes. -/
theorem Consistent.putInode (h : Consistent s) (hv : (s.icache i).valid = true)
    (haddrs : d.addrs = (s.icache i).copy.addrs) (hsize : d.size = (s.icache i).copy.size)
    (htype : d.type ≠ 0) : Consistent (s.putInode i d) := by
  refine (h.toSound.putInode hv haddrs htype).consistent
    (synced_putInode fun j _ hj => (h.cached j hj).1) fun j hj bn hbn => ?_
  rw [refs_putInode hv haddrs]
  rw [inode_putInode hv] at hj hbn
  by_cases hji : j = i
  · subst hji
    rw [Function.update_self, hsize] at hbn
    exact h.blockAt_ne_zero hv hbn
  · rw [Function.update_of_ne hji, h.inode_eq] at hj hbn
    rw [h.inode_eq]
    exact h.dense j hj bn hbn

end PutInode

end HgXv6.Disk
