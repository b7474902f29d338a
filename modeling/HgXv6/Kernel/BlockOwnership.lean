import HgXv6.Kernel.Robust

set_option relaxedAutoImplicit false
set_option autoImplicit false

/-!
# Block ownership over whole runs

Every system call keeps the file system consistent, and so does a sequence of calls by any number
of processes. So a block of the data region is named from at most one place, its bit in the free
map is set exactly if it is named, and no block is freed twice.

## Main results

* `HgXv6.Disk.wp_create`, `HgXv6.Disk.wp_filewrite` — what makes names, and what writes.
* `HgXv6.Disk.wp_run` — a call.
* `HgXv6.Disk.block_ownership` — a sequence of calls.
-/

namespace HgXv6.Disk

open Prog

variable {s : Fs}

/-- Consistency does not mind that an inode is freed, and does not depend on link counts. -/
theorem uncounted_consistent : Uncounted Consistent where
  consistent := id
  frees := fun _ hcons _ _ => hcons
  nlink := fun _ hcons _ _ => hcons

/-! ## Directories -/

/-- `dirlink` gives up no reference if it succeeds. -/
theorem wp_dirlink_keeps (h : Consistent s) {dp : ℕ} (hv : (s.icache dp).valid = true)
    (name : List UInt8) (inum : ℕ) : Wp NoDoubleFree (dirlink dp name inum)
      (fun r s' => Consistent s' ∧ (r = true → Keeps s s')) s := by
  refine wp_dirlink h hv (fun i k _ => ?_) fun k s' _ _ _ _ hcons hsame _ => ?_
  · exact (wp_iput (h.get i) i).mono fun _ s' hputs => ⟨hputs.consistent, by simp⟩
  · exact ⟨hcons, fun _ => hsame.keeps⟩

/-! ## Open files -/

theorem wp_filewriteLoop (f ip k : ℕ) (src : List UInt8) (i : ℕ) (s : Fs) (h : Consistent s) :
    Wp NoDoubleFree (filewriteLoop f ip k src i) (fun _ s' => Consistent s') s := by
  induction k generalizing src i s with
  | zero => exact h
  | succ k ih =>
    unfold filewriteLoop
    rw [wp_ite]
    refine ⟨fun _ => h, fun _ => Wp.bind (uncounted_consistent.ilock h ip) ?_⟩
    intro _ s₁ hpost₁
    rw [wp_bind, wp_get]
    refine Wp.bind (wp_writei noDoubleFree_balloc hpost₁.1 hpost₁.2.2.1.2 _ _) ?_
    intro r s₂ hpost₂
    refine Wp.bind (P := fun _ s' => Consistent s') (hpost₂.1.of_tables _ _ _) ?_
    intro _ s₃ hs₃
    rw [wp_ite, wp_ite]
    exact ⟨fun _ => hs₃, fun _ => ⟨fun _ => noDoubleFree_panic (by decide),
      fun _ => ih _ _ s₃ hs₃⟩⟩

theorem wp_filewrite (h : Consistent s) (f : ℕ) (src : List UInt8) :
    Wp NoDoubleFree (filewrite f src) (fun _ s' => Consistent s') s := by
  unfold filewrite
  rw [wp_bind, wp_get, wp_ite]
  refine ⟨fun _ => h, fun _ => ?_⟩
  cases (s.ftable f).ip with
  | none => exact noDoubleFree_panic (by decide)
  | some ip =>
    refine Wp.bind (wp_filewriteLoop f ip _ src 0 s h) ?_
    intro i s' hs'
    exact hs'

/-! ## Calls -/

theorem wp_create_dots (h : Consistent s) {ip dp : ℕ} (hip : Held s ip) :
    Wp NoDoubleFree (create.dots ip dp) (fun _ s' => Consistent s' ∧ Keeps s s') s := by
  unfold create.dots
  refine Wp.bind (wp_dirlink_keeps h hip.2 _ _) ?_
  intro dot s₁ hpost₁
  rw [wp_ite]
  refine ⟨fun hdot => ?_, fun _ => noDoubleFree_panic (by decide)⟩
  refine Wp.bind (wp_dirlink_keeps hpost₁.1 ((hpost₁.2 hdot).held ip hip).2 _ _) ?_
  intro dotdot s₂ hpost₂
  rw [wp_ite]
  exact ⟨fun hdotdot => ⟨hpost₂.1, (hpost₁.2 hdot).trans (hpost₂.2 hdotdot)⟩,
    fun _ => noDoubleFree_panic (by decide)⟩

theorem wp_create_link (h : Consistent s) {dp : ℕ} (hdp : Held s dp) (name : List UInt8)
    (ip : ℕ) : Wp NoDoubleFree (create.link dp name ip) (fun _ s' => Consistent s') s := by
  unfold create.link
  refine Wp.bind (wp_dirlink_keeps h hdp.2 _ _) ?_
  intro linked s₁ hpost₁
  rw [wp_ite]
  exact ⟨fun _ => uncounted_consistent.iput hpost₁.1 dp (some ip),
    fun _ => noDoubleFree_panic (by decide)⟩

/-- **Proof sketch.** The part of `create` up to the allocation is the same for every property that
is kept like consistency (`uncounted_consistent.create`). The new inode is then allocated, locked
and written, a directory gets its two entries, and the parent its entry; each of these is one step
that keeps consistency, and the two inodes stay held from one step to the next. -/
theorem wp_create (h : Consistent s) (p : ℕ) (path : List UInt8) (type major minor : Int16) :
    Wp NoDoubleFree (create p path type major minor) (fun _ s' => Consistent s') s := by
  refine uncounted_consistent.create h p path type major minor fun s₁ dp name hs₁ hdp _ _ => ?_
  rw [wp_bind]
  refine wp_ialloc type fun ip _ _ hfree => ?_
  have hpost₂ : Consistent _ ∧ Keeps s₁ _ := ⟨(hs₁.alloc hfree type).get ip,
    Keeps.trans ⟨fun _ => le_rfl, fun _ hj => hj⟩ (keeps_get ip)⟩
  refine Wp.bind (uncounted_consistent.ilock hpost₂.1 ip) ?_
  rintro _ s₃ ⟨hs₃, hkeeps₃, hip, -⟩
  have hdp₃ := hkeeps₃.held dp (hpost₂.2.held dp hdp)
  refine uncounted_consistent.update hs₃ hip (fun d => ⟨rfl, rfl, rfl⟩) fun s₄ hs₄ hkeeps₄ => ?_
  have hdp₄ := hkeeps₄.held dp hdp₃
  rw [wp_ite]
  refine ⟨fun _ => ?_, fun _ => wp_create_link hs₄ hdp₄ name ip⟩
  refine uncounted_consistent.update hs₄ hdp₄ (fun d => ⟨rfl, rfl, rfl⟩) fun s₅ hs₅ hkeeps₅ => ?_
  refine Wp.bind (wp_create_dots hs₅ (hkeeps₅.held ip (hkeeps₄.held ip hip))) ?_
  rintro _ s₆ ⟨hs₆, hkeeps₆⟩
  exact wp_create_link hs₆ (hkeeps₆.held dp (hkeeps₅.held dp hdp₄)) name ip

theorem wp_sysUnlink_remove (h : Consistent s) {dp : ℕ} (hdp : Held s dp) (off : ℕ) :
    Wp NoDoubleFree (sysUnlink.remove dp off) (fun _ s' => Consistent s' ∧ SameRefs s s') s := by
  unfold sysUnlink.remove
  refine Wp.bind (wp_writei noDoubleFree_balloc h hdp.2 _ off) ?_
  intro n s₁ hpost₁
  rw [wp_ite]
  exact ⟨fun _ => noDoubleFree_panic (by decide), fun _ => ⟨hpost₁.1, hpost₁.2.1⟩⟩

/-- A call keeps consistency and frees no block twice.

**Proof sketch.** One case for each call. What is common to the calls (the lookup of their paths,
the locks, the reference counts) is proved once for all properties that are kept like consistency,
in `uncounted_consistent`; what is left for each call is what it does in the middle, which is an
entry written, an entry removed, or a file written. -/
theorem wp_run (h : Consistent s) (p : ℕ) (c : Call) :
    Wp NoDoubleFree (c.run p) (fun _ s' => Consistent s') s := by
  cases c with
  | «open» path omode => exact uncounted_consistent.sysOpen h p path omode (wp_create h ..)
  | link old new =>
    exact uncounted_consistent.sysLink h p old new fun _ s₁ ip dp name _ _ hs₁ hdp _ =>
      (wp_dirlink_keeps hs₁ hdp.2 name ip).mono fun _ _ hpost => hpost.1
  | unlink path =>
    exact uncounted_consistent.sysUnlink h p path fun s₁ dp _ _ k hs₁ hdp _ _ _ =>
      wp_sysUnlink_remove hs₁ hdp (16 * k)
  | mkdir path => exact uncounted_consistent.makeNode p path T_DIR 0 0 (wp_create h ..)
  | mknod path major minor =>
    exact uncounted_consistent.makeNode p path T_DEV major minor (wp_create h ..)
  | chdir path => exact uncounted_consistent.sysChdir h p path
  | write fd src =>
    refine Wp.bind (P := fun _ s' => s' = s) rfl ?_
    rintro r s' rfl
    cases r with
    | none => exact h
    | some f => exact wp_filewrite h f src
  | close fd => exact uncounted_consistent.sysClose h p fd

/-- A sequence of calls keeps consistency and frees no block twice. -/
theorem wp_runCalls (h : Consistent s) (cs : List (ℕ × Call)) :
    Wp NoDoubleFree (runCalls cs) (fun _ s' => Consistent s') s := by
  induction cs generalizing s with
  | nil => exact h
  | cons c cs ih => exact Wp.bind (wp_run h c.1 c.2) fun _ s' hs' => ih hs'

/-- **Block ownership.** After every sequence of calls on a consistent file system without holes, no
block is named from two places, a block of the data region is marked in the free map exactly if it
is named, and if the sequence ends early this is not because a free block was freed.

**Proof sketch.** Consistency is kept by every call (`wp_run`), so it holds at the end of the
sequence, and both parts of the statement are read off it: references are injective, and the free
map marks the blocks of the data region that are named. The second half is the error clause of the
same triple, which excludes the panic of `bfree`. -/
theorem block_ownership (h : Consistent s) (cs : List (ℕ × Call)) :
    (∀ s', (runCalls cs).run s = .ok ((), s') →
      (∀ p q, refs s'.dinode s'.data p = refs s'.dinode s'.data q →
        refs s'.dinode s'.data p ≠ 0 → p = q) ∧
      ∀ b, s'.sb.datastart ≤ b → b < s'.sb.size →
        (s'.used b = true ↔ ∃ p, refs s'.dinode s'.data p = b)) ∧
    (runCalls cs).run s ≠ .error (.panic "freeing free block") := by
  refine ⟨fun s' hs' => ?_, fun herr => ?_⟩
  · have hown := ((wp_runCalls h cs).of_ok hs').owned
    refine ⟨hown.owns.inj, fun b hstart hend => ?_⟩
    have hpos := hown.pos
    rw [← hown.owns.mem_iff b (by omega)]
    exact ⟨fun hused => ⟨hstart, hend, hused⟩, fun hmem => hmem.2.2⟩
  · exact (wp_runCalls h cs).of_error herr rfl

/-! ## An empty file system -/

/-- The root directory of an empty file system. -/
def rootDinode : Dinode where
  type := T_DIR
  major := 0
  minor := 0
  nlink := 1
  size := 512
  addrs k := if k = 0 then 59 else 0

/-- A booted system with an empty file system of 1000 blocks, and processes in its root. -/
def emptyFs : Fs where
  sb := ⟨1000, 941, 200, 30, 2, 32, 58⟩
  dinode i := if i = ROOTINO then rootDinode else Dinode.zero
  used b := b < 60
  data b := if b = 59 then
      overlay (overlay (fun _ => 0) 0 (Dirent.bytes ⟨ROOTINO, [chr '.']⟩)) 16
        (Dirent.bytes ⟨ROOTINO, [chr '.', chr '.']⟩)
    else fun _ => 0
  icache i := ⟨if i = ROOTINO then 64 else 0, false, Dinode.zero⟩
  ftable _ := ⟨0, false, false, none, 0⟩
  cwd _ := ROOTINO
  ofile _ _ := none
  logged := []

/-- Only the first slot of the root directory names a block. -/
theorem refs_emptyFs (p : Place) :
    refs emptyFs.dinode emptyFs.data p = if p = .slot ROOTINO 0 then 59 else 0 := by
  cases p with
  | slot i k =>
    by_cases hi : i = ROOTINO
    · by_cases hk : k = 0
      · simp [refs, emptyFs, rootDinode, hi, hk]
      · simp [refs, emptyFs, rootDinode, hi, hk]
    · simp [refs, emptyFs, Dinode.zero, hi]
  | entry i j =>
    by_cases hi : i = ROOTINO
    · simp [refs, emptyFs, rootDinode, hi]
    · simp [refs, emptyFs, Dinode.zero, hi]

theorem consistent_emptyFs : Consistent emptyFs where
  owned := by
    refine ⟨⟨fun p q hpq hp => ?_, fun b hb => ?_⟩, fun b hb => ?_, by decide, by decide⟩
    · rw [refs_emptyFs] at hp
      rw [refs_emptyFs, refs_emptyFs] at hpq
      split_ifs at hp hpq with h1 h2
      · rw [h1, h2]
      · exact absurd rfl hp
    · constructor
      · rintro ⟨hstart, hend, hused⟩
        refine ⟨.slot ROOTINO 0, ?_⟩
        rw [refs_emptyFs, if_pos rfl]
        have h1 : 59 ≤ b := hstart
        have h2 : b < 60 := by simpa [emptyFs] using hused
        omega
      · rintro ⟨p, hp⟩
        rw [refs_emptyFs] at hp
        split_ifs at hp
        · subst hp
          exact ⟨by decide, by decide, by decide⟩
        · exact absurd hp.symm hb
    · have hlt : b < 59 := hb
      simp only [emptyFs, decide_eq_true_eq]
      omega
  free i k htype _ := by
    by_cases hi : i = ROOTINO
    · rw [show emptyFs.dinode i = rootDinode from if_pos hi] at htype
      exact absurd htype (by decide)
    · simp [emptyFs, hi, Dinode.zero]
  dense i htype bn hbn := by
    by_cases hi : i = ROOTINO
    · obtain rfl : bn = 0 := by
        simp only [emptyFs, hi, if_true, rootDinode] at hbn
        unfold BSIZE at hbn
        omega
      rw [refs_emptyFs, hi]
      exact ⟨by decide, by decide⟩
    · simp [emptyFs, hi, Dinode.zero] at htype
  cached i hi := by simp [emptyFs] at hi

/-- A process creates a file, writes it, removes its name while it is open, and closes it: the
calls end, and ownership is exact after them. -/
theorem block_ownership_emptyFs :
    let cs := [(0, Call.open (str "f") (O_CREATE + O_RDWR)), (0, .write 0 (str "text")),
      (0, .unlink (str "f")), (0, .close 0)]
    ((runCalls cs).run emptyFs).toBool = true ∧
    (∀ s', (runCalls cs).run emptyFs = .ok ((), s') →
      (∀ p q, refs s'.dinode s'.data p = refs s'.dinode s'.data q →
        refs s'.dinode s'.data p ≠ 0 → p = q) ∧
      ∀ b, s'.sb.datastart ≤ b → b < s'.sb.size →
        (s'.used b = true ↔ ∃ p, refs s'.dinode s'.data p = b)) ∧
    (runCalls cs).run emptyFs ≠ .error (.panic "freeing free block") :=
  ⟨by decide +kernel, block_ownership consistent_emptyFs _⟩

end HgXv6.Disk
