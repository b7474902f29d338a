import HgXv6.Kernel.Contents

set_option relaxedAutoImplicit false
set_option autoImplicit false

/-!
# Taking and freeing inodes

What the operations on the inode cache keep. A call holds references to the inodes it works on,
and these stay valid until it puts them.

## Main definitions

* `HgXv6.Disk.Held` — an inode is valid and has a number of references.
* `HgXv6.Disk.Keeps`, `HgXv6.Disk.Puts` — what an operation leaves of that.

## Main results

* `HgXv6.Disk.wp_itrunc` — `itrunc` frees each block of an inode once.
* `HgXv6.Disk.wp_iget`, `HgXv6.Disk.wp_ilock`, `HgXv6.Disk.wp_ialloc`, `HgXv6.Disk.wp_iput` —
  these keep consistency.
-/

namespace HgXv6.Disk

open Prog

variable {E : Stop → Prop} {s : Fs}

/-! ## `itrunc` -/

/-- `s'` comes from `s` by clearing slots of the inode `i`. -/
structure Shrinks (i : ℕ) (s s' : Fs) : Prop where
  tables : SameTables s s'
  dinode : s'.dinode = s.dinode
  data : s'.data = s.data
  icache : ∃ addrs, s'.icache = Function.update s.icache i
    { s.icache i with copy := { (s.icache i).copy with addrs := addrs } }

theorem Shrinks.refl (i : ℕ) (s : Fs) : Shrinks i s s :=
  ⟨SameTables.refl s, rfl, rfl, (s.icache i).copy.addrs,
    (Function.update_eq_self i s.icache).symm⟩

theorem Shrinks.trans {i : ℕ} {s s' s'' : Fs} (h : Shrinks i s s') (h' : Shrinks i s' s'') :
    Shrinks i s s'' := by
  obtain ⟨a, ha⟩ := h.icache
  obtain ⟨a', ha'⟩ := h'.icache
  refine ⟨h.tables.trans h'.tables, h'.dinode.trans h.dinode, h'.data.trans h.data, a', ?_⟩
  rw [ha', ha]
  simp

theorem Shrinks.valid {i : ℕ} {s s' : Fs} (h : Shrinks i s s') (j : ℕ) :
    (s'.icache j).ref = (s.icache j).ref ∧ (s'.icache j).valid = (s.icache j).valid := by
  obtain ⟨a, ha⟩ := h.icache
  by_cases hj : j = i
  · subst hj
    simp [ha]
  · simp [ha, hj]

/-- An inode from which a slot is cleared and its block freed. -/
theorem Sound.clear {i k : ℕ} {s s' : Fs} (h : Sound s) (hv : (s.icache i).valid = true)
    (hown : OwnedBy (refs s'.inode s'.data) s') (hshrinks : Shrinks i s s')
    (hinode : s'.inode = Function.update s.inode i
      { s.inode i with addrs := Function.update (s.inode i).addrs k 0 }) : Sound s' := by
  obtain ⟨a, ha⟩ := hshrinks.icache
  refine ⟨hown, fun j hj => ?_, fun j k' hj hk => ?_⟩
  · by_cases hji : j = i
    · subst hji
      rw [ha, Function.update_self]
      exact h.typed j hv
    · rw [ha, Function.update_of_ne hji] at hj ⊢
      exact h.typed j hj
  · by_cases hji : j = i
    · subst hji
      rw [hinode, Function.update_self] at hj
      exact absurd hj (by rw [inode_of_valid hv]; exact h.typed j hv)
    · rw [hinode, Function.update_of_ne hji] at hj ⊢
      exact h.free j k' hj hk

/-- The loop over the direct slots frees their blocks and clears them.

**Proof sketch.** Induction on the number of passes. A slot that names a block gives it back, which
is marked in the free map as it is named (`Owned.used`), and is cleared; then nothing names the
block, and it is free. A slot that names none is left alone. The slots before are clear and stay so.
-/
theorem wp_freeDirect {i : ℕ} (k start : ℕ) (s : Fs) (h : Sound s)
    (hv : (s.icache i).valid = true) (hk : start + k ≤ NDIRECT)
    (hz : ∀ k' < start, (s.icache i).copy.addrs k' = 0) :
    Wp E (freeDirect i k start) (fun _ s' => Sound s' ∧ Shrinks i s s' ∧
      ∀ k' < start + k, (s'.icache i).copy.addrs k' = 0) s := by
  induction k generalizing start s with
  | zero => exact ⟨h, Shrinks.refl i s, hz⟩
  | succ k ih =>
    unfold freeDirect
    rw [wp_bind, wp_get, wp_ite]
    refine ⟨fun hne => ?_, fun hnull => ?_⟩
    · have hi := inode_of_valid hv
      have hplace : refs s.inode s.data (.slot i start) = (s.icache i).copy.addrs start := by
        rw [refs, if_pos (by omega), hi]
      have hp : refs s.inode s.data (.slot i start) ≠ 0 := by rwa [hplace]
      rw [wp_bind]
      refine wp_bfree (hplace ▸ h.owned.used hp) ?_
      rw [wp_bind, wp_modifyCopy]
      set s₁ := (s.release ((s.icache i).copy.addrs start)).setInode i
        { s.icache i with
          copy := { (s.icache i).copy with
            addrs := Function.update (s.icache i).copy.addrs start 0 } } with hs₁
      have hinode : s₁.inode = Function.update s.inode i
          { s.inode i with addrs := Function.update (s.inode i).addrs start 0 } := by
        rw [hs₁, inode_setInode, hi]
        simp only [hv, if_true]
        rfl
      have hshrinks : Shrinks i s s₁ := ⟨⟨rfl, rfl, rfl, rfl⟩, rfl, rfl, _, rfl⟩
      have hown : OwnedBy (refs s₁.inode s₁.data) s₁ := by
        refine (h.owned.release hp).congr ?_ rfl (by rw [hplace]; rfl)
        rw [hinode]
        exact refs_clear_slot (by omega)
      refine (ih (start + 1) s₁ (h.clear hv hown hshrinks hinode)
        ((hshrinks.valid i).2.trans hv) (by omega) fun k' hk' => ?_).mono ?_
      · by_cases hk'' : k' = start
        · simp [hs₁, hk'']
        · simpa [hs₁, hk''] using hz k' (by omega)
      · intro _ s' hpost
        obtain ⟨hsound, hshrinks', hzero⟩ := hpost
        exact ⟨hsound, hshrinks.trans hshrinks', fun k' hk' => hzero k' (by omega)⟩
    · refine (ih (start + 1) s h hv (by omega) fun k' hk' => ?_).mono ?_
      · rcases Nat.lt_or_ge k' start with hlt | hge
        · exact hz k' hlt
        · obtain rfl : k' = start := by omega
          simpa using hnull
      · intro _ s' hpost
        obtain ⟨hsound, hshrinks', hzero⟩ := hpost
        exact ⟨hsound, hshrinks', fun k' hk' => hzero k' (by omega)⟩

/-- The loop over the entries of an indirect block frees the blocks they name. -/
theorem wp_freeIndirect {i a : ℕ} {inode : ℕ → Dinode} (k j : ℕ) (s : Fs)
    (ha : (inode i).addrs NDIRECT = a) (hne : a ≠ 0)
    (h : OwnedBy (dropped (refs inode s.data) i j) s) (hk : j + k ≤ NINDIRECT) :
    Wp E (freeIndirect a k j) (fun _ s' => OwnedBy (dropped (refs inode s.data) i (j + k)) s' ∧
      ∃ used logged, s' = { s with used := used, logged := logged }) s := by
  induction k generalizing j s with
  | zero => exact ⟨h, s.used, s.logged, rfl⟩
  | succ k ih =>
    have hplace : dropped (refs inode s.data) i j (.entry i j) = getUint (s.data a) j := by
      simp only [dropped, refs, ha]
      rw [if_neg (by omega), if_pos ⟨hne, by omega⟩]
    have hnext : OwnedBy (dropped (refs inode s.data) i (j + 1)) s →
        Wp E (freeIndirect a k (j + 1)) (fun _ s' =>
          OwnedBy (dropped (refs inode s.data) i (j + (k + 1))) s' ∧
          ∃ used logged, s' = { s with used := used, logged := logged }) s := by
      intro h'
      rw [show j + (k + 1) = j + 1 + k by omega]
      exact ih (j + 1) s h' (by omega)
    unfold freeIndirect
    rw [wp_bind, wp_get, wp_ite]
    refine ⟨fun hsome => ?_, fun hnull => hnext ?_⟩
    · have hp : dropped (refs inode s.data) i j (.entry i j) ≠ 0 := by rwa [hplace]
      rw [wp_bind]
      refine wp_bfree (hplace ▸ h.used hp) ?_
      have hrel := h.release hp
      rw [← dropped_succ, hplace] at hrel
      refine (ih (j + 1) (s.release (getUint (s.data a) j)) hrel (by omega)).mono ?_
      intro _ s' hpost
      obtain ⟨hown, used, logged, rfl⟩ := hpost
      rw [show j + 1 + k = j + (k + 1) by omega] at hown
      exact ⟨hown, used, logged, rfl⟩
    · rw [dropped_succ, ← show dropped (refs inode s.data) i j (.entry i j) = 0 by
        rw [hplace]; simpa using hnull, Function.update_eq_self]
      exact h

/-- The part of `itrunc` for the indirect block.

**Proof sketch.** If there is no indirect block, all its entries count as empty and nothing is to
do. Otherwise its entries are freed one after the other (`wp_freeIndirect`), while the references
that are left are still injective; then the block itself is freed and its slot cleared, after which
no entry of it counts any more. -/
theorem wp_truncIndirect {i : ℕ} (h : Sound s) (hv : (s.icache i).valid = true)
    (hz : ∀ k < NDIRECT, (s.icache i).copy.addrs k = 0) :
    Wp E (truncIndirect i) (fun _ s' => Sound s' ∧ Shrinks i s s' ∧
      ∀ k ≤ NDIRECT, (s'.icache i).copy.addrs k = 0) s := by
  unfold truncIndirect
  rw [wp_bind, wp_get]
  dsimp only
  rw [wp_ite]
  refine ⟨fun hne => ?_, fun hnull => ?_⟩
  · have hi := inode_of_valid hv
    have hstart : OwnedBy (dropped (refs s.inode s.data) i 0) s := by
      rw [dropped_zero]
      exact h.owned
    refine Wp.bind (wp_freeIndirect NINDIRECT 0 s (by rw [hi]) hne hstart (by omega)) ?_
    intro _ s₁ hpost
    obtain ⟨hown, used, logged, rfl⟩ := hpost
    rw [Nat.zero_add] at hown
    have hplace : dropped (refs s.inode s.data) i NINDIRECT (.slot i NDIRECT) =
        (s.icache i).copy.addrs NDIRECT := by
      simp only [dropped, refs, hi]
      rw [if_pos le_rfl]
    have hp : dropped (refs s.inode s.data) i NINDIRECT (.slot i NDIRECT) ≠ 0 := by rwa [hplace]
    rw [wp_bind]
    refine wp_bfree (hplace ▸ hown.used hp) ?_
    rw [wp_modifyCopy]
    have hrel := hown.release hp
    rw [hplace, ← refs_clear_indirect, hi] at hrel
    set s₁ : Fs := { s with used := used, logged := logged }
    set s₂ := (s₁.release ((s.icache i).copy.addrs NDIRECT)).setInode i
      { s.icache i with
        copy := { (s.icache i).copy with
          addrs := Function.update (s.icache i).copy.addrs NDIRECT 0 } } with hs₂
    have hinode : s₂.inode = Function.update s.inode i
        { s.inode i with addrs := Function.update (s.inode i).addrs NDIRECT 0 } := by
      rw [hs₂, inode_setInode, hi]
      simp only [hv, if_true]
      rfl
    have hshrinks : Shrinks i s s₂ := ⟨⟨rfl, rfl, rfl, rfl⟩, rfl, rfl, _, rfl⟩
    have hown₂ : OwnedBy (refs s₂.inode s₂.data) s₂ := by
      refine hrel.congr ?_ rfl rfl
      rw [hinode, hi]
      rfl
    refine ⟨h.clear hv hown₂ hshrinks hinode, hshrinks, fun k hk => ?_⟩
    by_cases hk' : k = NDIRECT
    · simp [hk']
    · simpa [hs₂, s₁, hk'] using hz k (by omega)
  · refine ⟨h, Shrinks.refl i s, fun k hk => ?_⟩
    by_cases hk' : k = NDIRECT
    · rw [hk']
      simpa using hnull
    · exact hz k (by omega)

/-- `itrunc` leaves an inode without blocks, and no other inode changes.

**Proof sketch.** The direct slots and then the indirect block are freed (`wp_freeDirect`,
`wp_truncIndirect`), after which the inode names no block. With the size set to zero it has no
holes, and with its copy written to the disk the state is consistent. No other inode and no data
have changed. -/
theorem wp_itrunc (h : Consistent s) {i : ℕ} (hv : (s.icache i).valid = true) :
    Wp E (itrunc i) (fun _ s' => Consistent s' ∧ SameRefs s s' ∧
      (∀ k ≤ NDIRECT, (s'.icache i).copy.addrs k = 0) ∧ s'.data = s.data ∧
      ∀ j, j ≠ i → s'.dinode j = s.dinode j) s := by
  unfold itrunc
  refine Wp.bind (wp_freeDirect NDIRECT 0 s h.toSound hv (by omega) (by omega)) ?_
  intro _ s₁ hpost₁
  obtain ⟨hsound₁, hshrinks₁, hzero₁⟩ := hpost₁
  have hv₁ := (hshrinks₁.valid i).2.trans hv
  refine Wp.bind (wp_truncIndirect hsound₁ hv₁ fun k hk => hzero₁ k (by omega)) ?_
  intro _ s₂ hpost₂
  obtain ⟨hsound₂, hshrinks₂, hzero₂⟩ := hpost₂
  have hshrinks := hshrinks₁.trans hshrinks₂
  have hv₂ := (hshrinks.valid i).2.trans hv
  have hother (j : ℕ) (hj : j ≠ i) : s₂.icache j = s.icache j ∧ s₂.inode j = s.dinode j := by
    obtain ⟨addrs, haddrs⟩ := hshrinks.icache
    have hmem : s₂.icache j = s.icache j := by rw [haddrs, Function.update_of_ne hj]
    refine ⟨hmem, ?_⟩
    rw [← h.inode_eq, Fs.inode, Fs.inode, hmem, hshrinks.dinode]
  have haddrs : { (s₂.icache i).copy with size := 0 }.addrs = (s₂.icache i).copy.addrs := rfl
  rw [wp_bind, wp_modifyCopy, wp_iupdate, setInode_icache, Function.update_self]
  change Consistent (s₂.putInode i { (s₂.icache i).copy with size := 0 }) ∧ _
  refine ⟨Sound.consistent ?_ ?_ ?_, ?_, ?_, hshrinks.data, fun j hj => ?_⟩
  · exact hsound₂.putInode hv₂ haddrs (hsound₂.typed i hv₂)
  · refine synced_putInode fun j hj hvj => ?_
    rw [(hother j hj).1] at hvj ⊢
    rw [hshrinks.dinode]
    exact (h.cached j hvj).1
  · intro j htype bn hbn
    rw [refs_putInode hv₂ haddrs]
    rw [inode_putInode hv₂] at htype hbn
    by_cases hj : j = i
    · subst hj
      rw [Function.update_self] at hbn
      exact absurd hbn (by simp)
    · rw [Function.update_of_ne hj, (hother j hj).2] at htype hbn
      obtain ⟨hmax, hne⟩ := h.dense j htype bn hbn
      refine ⟨hmax, ?_⟩
      unfold blockPlace at hne ⊢
      split_ifs at hne ⊢ with hdirect
      · simp only [refs, (hother j hj).2]
        exact hne
      · simp only [refs, (hother j hj).2, hshrinks.data]
        exact hne
  · have hsame : SameRefs s s₂ :=
      ⟨hshrinks.tables, fun j => (hshrinks.valid j).1, fun j => (hshrinks.valid j).2⟩
    exact hsame.trans (sameRefs_putInode i _ s₂)
  · intro k hk
    simpa [Fs.putInode] using hzero₂ k hk
  · rw [← hshrinks.dinode]
    exact Function.update_of_ne hj ..

/-! ## References -/

/-- The inode is valid, and somebody has a reference to it. -/
def Held (s : Fs) (i : ℕ) : Prop := 1 ≤ (s.icache i).ref ∧ (s.icache i).valid = true

/-- No reference is given up, and what is held stays valid. -/
structure Keeps (s s' : Fs) : Prop where
  ref : ∀ j, (s.icache j).ref ≤ (s'.icache j).ref
  held : ∀ j, Held s j → Held s' j

theorem Keeps.refl (s : Fs) : Keeps s s := ⟨fun _ => le_rfl, fun _ h => h⟩

theorem Keeps.trans {s s' s'' : Fs} (h : Keeps s s') (h' : Keeps s' s'') : Keeps s s'' :=
  ⟨fun j => (h.ref j).trans (h'.ref j), fun j hj => h'.held j (h.held j hj)⟩

theorem SameRefs.keeps {s s' : Fs} (h : SameRefs s s') : Keeps s s' :=
  ⟨fun j => (h.ref j).ge, fun j hj => ⟨(h.ref j).symm ▸ hj.1, (h.valid j).trans hj.2⟩⟩

/-- The errors that a call may end with: any but the panic of `bfree`. -/
def NoDoubleFree (e : Stop) : Prop := e ≠ .panic "freeing free block"

/-- Operations on the inode cache alone. -/
theorem Consistent.of_cache {s' : Fs} (h : Consistent s) (hsb : s'.sb = s.sb)
    (hdinode : s'.dinode = s.dinode) (hused : s'.used = s.used) (hdata : s'.data = s.data)
    (hcached : ∀ i, (s'.icache i).valid = true →
      (s'.icache i).copy = s.dinode i ∧ (s.dinode i).type ≠ 0) : Consistent s' where
  owned := h.owned.congr (by rw [hdinode, hdata]) hsb hused
  free := hdinode ▸ h.free
  dense := by
    rw [hdinode, hdata]
    exact h.dense
  cached := by
    rw [hdinode]
    exact hcached

/-- One entry of the inode cache changes. -/
theorem Consistent.setInode (h : Consistent s) {i : ℕ} {ip : Inode}
    (hip : ip.valid = true → ip.copy = s.dinode i ∧ (s.dinode i).type ≠ 0) :
    Consistent (s.setInode i ip) := by
  refine h.of_cache rfl rfl rfl rfl fun j hj => ?_
  by_cases hji : j = i
  · subst hji
    simp only [setInode_icache, Function.update_self] at hj ⊢
    exact hip hj
  · simp only [setInode_icache, Function.update_of_ne hji] at hj ⊢
    exact h.cached j hj

/-- One entry gains references and stays as valid as it was. -/
theorem keeps_setInode {i : ℕ} {ip : Inode} (href : (s.icache i).ref ≤ ip.ref)
    (hvalid : Held s i → ip.valid = true) : Keeps s (s.setInode i ip) := by
  refine ⟨fun j => ?_, fun j hj => ?_⟩
  · by_cases hji : j = i
    · subst hji
      simpa using href
    · simp [hji]
  · by_cases hji : j = i
    · subst hji
      simpa [Held] using ⟨hj.1.trans href, hvalid hj⟩
    · simpa [Held, hji] using hj

/-- The state with one more reference to an inode. -/
def Fs.get (i : ℕ) (s : Fs) : Fs :=
  s.setInode i (if (s.icache i).ref > 0 then { s.icache i with ref := (s.icache i).ref + 1 }
    else { s.icache i with ref := 1, valid := false })

/-- `iget` -/
@[simp] theorem wp_iget {Q : Unit → Fs → Prop} (i : ℕ) : Wp E (iget i) Q s ↔ Q ⟨⟩ (s.get i) :=
  Iff.rfl

theorem ref_get (i j : ℕ) :
    ((s.get i).icache j).ref = (s.icache j).ref + if j = i then 1 else 0 := by
  by_cases hj : j = i
  · subst hj
    by_cases href : (s.icache j).ref > 0
    · simp [Fs.get, href]
    · simp [Fs.get, href]
      omega
  · simp [Fs.get, hj]

theorem Consistent.get (h : Consistent s) (i : ℕ) : Consistent (s.get i) := by
  refine h.setInode fun hv => ?_
  by_cases href : (s.icache i).ref > 0
  · rw [if_pos href] at hv ⊢
    exact h.cached i hv
  · simp [href] at hv

theorem keeps_get (i : ℕ) : Keeps s (s.get i) := by
  refine keeps_setInode ?_ fun hi => ?_
  · by_cases href : (s.icache i).ref > 0
    · simp [href]
    · simp [href]
      omega
  · rw [if_pos (show (s.icache i).ref > 0 from hi.1)]
    exact hi.2

/-- `iget` of an inode that nobody has. -/
theorem wp_iget_of_ref {Q : PUnit → Fs → Prop} {i : ℕ} (href : (s.icache i).ref = 0) :
    Wp E (iget i) Q s ↔ Q ⟨⟩ (s.setInode i ⟨1, false, (s.icache i).copy⟩) := by
  rw [iget, wp_modifyInode, if_neg (by omega)]

/-- `ilock` of an inode that has to be read from the disk. -/
theorem wp_ilock_of_valid {Q : PUnit → Fs → Prop} {i : ℕ} (href : 1 ≤ (s.icache i).ref)
    (hv : (s.icache i).valid = false) (htype : (s.dinode i).type ≠ 0) :
    Wp E (ilock i) Q s ↔ Q ⟨⟩ (s.setInode i ⟨(s.icache i).ref, true, s.dinode i⟩) := by
  unfold ilock
  rw [wp_bind, wp_get, if_neg (by omega), if_neg (by simp [hv]), if_neg htype]
  exact Iff.rfl

/-- The state with one more reference to an inode that has some. -/
def Fs.dup (i : ℕ) (s : Fs) : Fs :=
  s.setInode i { s.icache i with ref := (s.icache i).ref + 1 }

/-- `idup` -/
@[simp] theorem wp_idup {Q : Unit → Fs → Prop} (i : ℕ) : Wp E (idup i) Q s ↔ Q ⟨⟩ (s.dup i) :=
  Iff.rfl

theorem keeps_dup (i : ℕ) : Keeps s (s.dup i) :=
  keeps_setInode (Nat.le_succ (s.icache i).ref) fun hi => hi.2

/-- The state with an inode in memory. -/
def Fs.lock (i : ℕ) (s : Fs) : Fs :=
  if (s.icache i).valid then s
  else s.setInode i { s.icache i with copy := s.dinode i, valid := true }

/-- `ilock` of an inode that is allocated, with a reference. -/
theorem wp_ilock_of_type {Q : Unit → Fs → Prop} {i : ℕ} (href : 1 ≤ (s.icache i).ref)
    (htype : (s.dinode i).type ≠ 0) : Wp E (ilock i) Q s ↔ Q ⟨⟩ (s.lock i) := by
  unfold ilock Fs.lock
  rw [wp_bind, wp_get, if_neg (by omega)]
  by_cases hv : (s.icache i).valid = true
  · rw [if_pos hv, if_pos hv]
    exact Iff.rfl
  · rw [if_neg hv, if_neg hv, if_neg htype]
    exact Iff.rfl

/-- `ilock` of an inode that is not allocated is a panic. -/
theorem wp_ilock {Q : Unit → Fs → Prop} (h : Consistent s) {i : ℕ}
    (hQ : 1 ≤ (s.icache i).ref → (s.dinode i).type ≠ 0 → Q ⟨⟩ (s.lock i)) :
    Wp NoDoubleFree (ilock i) Q s := by
  unfold ilock
  rw [wp_bind, wp_get, wp_ite, wp_ite, wp_ite]
  refine ⟨fun _ => by simp [NoDoubleFree], fun href => ⟨fun hv => ?_, fun hv =>
    ⟨fun _ => by simp [NoDoubleFree], fun htype => ?_⟩⟩⟩
  · have hQ' := hQ (by omega) (h.cached i hv).2
    rwa [Fs.lock, if_pos hv] at hQ'
  · have hQ' := hQ (by omega) htype
    rwa [Fs.lock, if_neg hv] at hQ'

theorem ref_lock (i j : ℕ) : ((s.lock i).icache j).ref = (s.icache j).ref := by
  unfold Fs.lock
  split_ifs
  · rfl
  · by_cases hj : j = i
    · subst hj
      simp
    · simp [hj]

/-- Locking an inode does not touch the other tables. -/
theorem tables_lock (i : ℕ) : SameTables s (s.lock i) := by
  unfold Fs.lock
  split_ifs
  · exact SameTables.refl s
  · exact (SameTables.refl s).setInode i _

theorem Consistent.lock (h : Consistent s) {i : ℕ} (htype : (s.dinode i).type ≠ 0) :
    Consistent (s.lock i) := by
  unfold Fs.lock
  split_ifs
  · exact h
  · exact h.setInode fun _ => ⟨rfl, htype⟩

theorem keeps_lock (i : ℕ) : Keeps s (s.lock i) := by
  unfold Fs.lock
  split_ifs
  · exact Keeps.refl s
  · exact keeps_setInode le_rfl fun _ => rfl

theorem held_lock {i : ℕ} (href : 1 ≤ (s.icache i).ref) : Held (s.lock i) i := by
  refine ⟨by rwa [ref_lock], ?_⟩
  unfold Fs.lock
  split_ifs with hv
  · exact hv
  · simp

/-- An inode on the disk changes while nobody has it in memory, and neither its old nor its new
contents name blocks. -/
theorem Consistent.setDinode (h : Consistent s) {i : ℕ} {d : Dinode}
    (hv : (s.icache i).valid = false) (hold : ∀ k ≤ NDIRECT, (s.dinode i).addrs k = 0)
    (hnew : ∀ k ≤ NDIRECT, d.addrs k = 0) (hsize : d.type ≠ 0 → d.size = 0) :
    Consistent (s.setDinode i d) := by
  have hrefs : refs (Function.update s.dinode i d) s.data = refs s.dinode s.data := by
    funext p
    cases p with
    | slot j k =>
      by_cases hj : j = i
      · subst hj
        by_cases hk : k ≤ NDIRECT
        · simp [refs, hk, hold k hk, hnew k hk]
        · simp [refs, hk]
      · simp [refs, hj]
    | entry j k =>
      by_cases hj : j = i
      · subst hj
        simp [refs, hold NDIRECT le_rfl, hnew NDIRECT le_rfl]
      · simp [refs, hj]
  refine ⟨h.owned.congr hrefs rfl rfl, fun j k hj hk => ?_, fun j hj bn hbn => ?_, fun j hj => ?_⟩
  all_goals simp only [Fs.setDinode] at *
  · by_cases hji : j = i
    · subst hji
      rw [Function.update_self]
      exact hnew k hk
    · rw [Function.update_of_ne hji] at hj ⊢
      exact h.free j k hj hk
  · rw [hrefs]
    by_cases hji : j = i
    · subst hji
      rw [Function.update_self] at hj hbn
      rw [hsize hj] at hbn
      omega
    · rw [Function.update_of_ne hji] at hj hbn
      exact h.dense j hj bn hbn
  · by_cases hji : j = i
    · subst hji
      rw [hv] at hj
      cases hj
    · rw [Function.update_of_ne hji]
      exact h.cached j hj

/-- A free inode gets a type. -/
theorem Consistent.alloc (h : Consistent s) {i : ℕ} (hfree : (s.dinode i).type = 0)
    (type : Int16) : Consistent (s.setDinode i { Dinode.zero with type := type }) := by
  refine h.setDinode ?_ (fun k hk => h.free i k hfree hk) (fun _ _ => rfl) fun _ => rfl
  by_contra hv
  exact (h.cached i (by simpa using hv)).2 hfree

/-- `ialloc` takes a reference to a free inode. -/
theorem wp_ialloc {Q : ℕ → Fs → Prop} (type : Int16)
    (hQ : ∀ i, 1 ≤ i → i < s.sb.ninodes → (s.dinode i).type = 0 →
      Q i ((s.setDinode i { Dinode.zero with type := type }).get i)) :
    Wp NoDoubleFree (ialloc type) Q s := by
  unfold ialloc
  rw [wp_bind, wp_get]
  split
  · simp [NoDoubleFree]
  · next i hi =>
    have hrange := List.mem_range'_1.mp (List.mem_of_find?_eq_some hi)
    exact hQ i hrange.1 (by omega) (by simpa using List.find?_some hi)

/-! ## `iput` -/

/-- The inode has no links, and the last reference to it is to be given up. -/
def Last (s : Fs) (i : ℕ) : Prop :=
  (s.icache i).ref = 1 ∧ (s.icache i).valid = true ∧ (s.icache i).copy.nlink = 0

/-- `s'` comes from `s` by giving up a reference to the inode `i`: the inode is freed if this was
the last one and it has no links, and else the disk is not changed. -/
structure Puts (i : ℕ) (s s' : Fs) : Prop where
  consistent : Consistent s'
  tables : SameTables s s'
  ref : (s'.icache i).ref = (s.icache i).ref - 1
  other : ∀ j, j ≠ i → (s'.icache j).ref = (s.icache j).ref ∧
    (s'.icache j).valid = (s.icache j).valid
  kept : ¬Last s i → s'.dinode = s.dinode ∧ s'.data = s.data ∧
    (s'.icache i).valid = (s.icache i).valid
  freed : Last s i → s'.node = Function.update s.node i .free

/-- What is held stays held, apart from the inode if the reference was the only one. -/
theorem Puts.held {i j : ℕ} {s' : Fs} (h : Puts i s s') (hj : j = i → 2 ≤ (s.icache i).ref)
    (hheld : Held s j) : Held s' j := by
  by_cases hji : j = i
  · subst hji
    have href := hj rfl
    have hlast : ¬Last s j := by
      intro hlast
      have h1 := hlast.1
      omega
    refine ⟨?_, (h.kept hlast).2.2.trans hheld.2⟩
    rw [h.ref]
    omega
  · obtain ⟨href, hvalid⟩ := h.other j hji
    exact ⟨href ▸ hheld.1, hvalid.trans hheld.2⟩

/-- `ip->ref--` -/
theorem wp_unref {Q : Unit → Fs → Prop} (i : ℕ) :
    Wp E (unref i) Q s ↔
      Q ⟨⟩ (s.setInode i { s.icache i with ref := (s.icache i).ref - 1 }) := Iff.rfl

/-- An inode with its last reference is freed.

**Proof sketch.** After `itrunc` the inode names no block. Its type is set to zero, in memory and on
the disk, and it is not valid any more; so it is free, which needs that it names nothing. The other
files have the blocks and the bytes that they had. -/
theorem wp_ifree (h : Consistent s) {i : ℕ} (hv : (s.icache i).valid = true) :
    Wp E (ifree i) (fun _ s' => Consistent s' ∧ SameTables s s' ∧
      (∀ j, (s'.icache j).ref = (s.icache j).ref) ∧
      (∀ j, j ≠ i → (s'.icache j).valid = (s.icache j).valid) ∧
      s'.node = Function.update s.node i .free) s := by
  unfold ifree
  refine Wp.bind (wp_itrunc h hv) ?_
  intro _ s₁ hpost
  obtain ⟨hcons, hsame, hzero, hdata, hother⟩ := hpost
  rw [wp_update, wp_modifyInode]
  set d := { (s₁.icache i).copy with type := 0 }
  have hv₁ : (s₁.icache i).valid = true := (hsame.valid i).trans hv
  have hrefs := hsame.trans (sameRefs_putInode i d s₁)
  refine ⟨?_, hrefs.tables.setInode i _, fun j => ?_, fun j hj => ?_, funext fun j => ?_⟩
  · have hempty : Consistent (s₁.setInode i ⟨(s₁.icache i).ref, false, d⟩) :=
      hcons.setInode fun hv => absurd hv (by simp)
    have hfreed : Consistent ((s₁.setInode i ⟨(s₁.icache i).ref, false, d⟩).setDinode i d) := by
      refine hempty.setDinode (by simp) (fun k hk => ?_) hzero fun htype => absurd rfl htype
      change (s₁.dinode i).addrs k = 0
      rw [← (hcons.cached i hv₁).1]
      exact hzero k hk
    refine hfreed.of_cache rfl rfl rfl rfl fun j hj => ?_
    by_cases hji : j = i
    · subst hji
      simp at hj
    · have hj' := hfreed.cached j
      simp only [Fs.putInode, setInode_icache, setDinode_icache, Function.update_of_ne hji]
        at hj hj' ⊢
      exact hj' hj
  · rw [← hrefs.ref j]
    by_cases hji : j = i
    · subst hji
      simp
    · simp [hji]
  · rw [← hrefs.valid j, setInode_icache, Function.update_of_ne hj]
  · by_cases hji : j = i
    · subst hji
      rw [Function.update_self]
      refine node_eq_free ?_
      simp [Fs.setInode, Fs.putInode, Fs.setDinode, d]
    · rw [Function.update_of_ne hji]
      have hj : ((s₁.putInode i d).setInode i
          { (s₁.putInode i d).icache i with valid := false }).dinode j = s.dinode j :=
        (Function.update_of_ne hji ..).trans (hother j hji)
      refine node_eq hj fun _ o _ => ?_
      rw [byteAt_of_inode hj]
      exact congrArg (fun data => byteAt s.dinode data j o) hdata

/-- `iput`

**Proof sketch.** If it is the last reference to a valid inode without links, the inode is freed
(`wp_ifree`) before the reference goes. Otherwise only the reference goes. -/
theorem wp_iput (h : Consistent s) (i : ℕ) : Wp E (iput i) (fun _ => Puts i s) s := by
  unfold iput
  rw [wp_bind, wp_get, wp_ite]
  refine ⟨fun hlast => ?_, fun hlast => ?_⟩
  · refine Wp.bind (wp_ifree h hlast.2.1) ?_
    intro _ s₁ hpost
    obtain ⟨hcons, htables, href, hvalid, hnode⟩ := hpost
    rw [wp_unref]
    refine ⟨hcons.setInode fun hv => hcons.cached i hv, htables.setInode i _, ?_, fun j hj => ?_,
      fun hnot => ?_, fun _ => hnode⟩
    · simp [href]
    · simp [hj, href, hvalid j hj]
    · exact absurd hlast hnot
  · rw [wp_unref]
    refine ⟨h.setInode fun hv => h.cached i hv, ⟨rfl, rfl, rfl, rfl⟩, by simp, fun j hj => ?_,
      fun _ => ⟨rfl, rfl, by simp⟩, fun hl => absurd hl hlast⟩
    simp [hj]

end HgXv6.Disk
