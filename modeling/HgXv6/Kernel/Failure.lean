import HgXv6.Kernel.BlockOwnership
import HgXv6.Kernel.NameCalls

set_option relaxedAutoImplicit false
set_option autoImplicit false

/-!
# Failed calls on names

A call that makes or removes a name and returns `-1` has changed no name, no contents and no link
count, apart from one case: `sys_open` creates the file before it looks for an entry in the file
table and for a descriptor, and if there are none it returns `-1` and leaves the new file.

## Main definitions

* `HgXv6.Disk.Unchanged` — the tree of names, the contents and the link counts are the same.

## Main results

* `HgXv6.Disk.failed_unchanged_iff` — when a failed call has changed nothing.
-/

namespace HgXv6.Disk

open Prog

variable {s s' s₁ : Fs} {H : List ℕ} {p : ℕ}

/-! ## What a failed call has to leave -/

/-- Follow names from an inode. -/
def follow (n : ℕ → Node) : List (List UInt8) → ℕ → Option ℕ
  | [], i => some i
  | name :: names, i =>
    if (n i).type = T_DIR then ((n i).lookup name).bind fun x => follow n names x.1 else none

/-- The tree of names: the inode that names lead to from the root, and its type. -/
def Fs.tree (s : Fs) (names : List (List UInt8)) : Option (ℕ × Int16) :=
  (follow s.node names ROOTINO).map fun i => (i, (s.node i).type)

/-- The tree of names, the contents of files and the link counts are the same. -/
structure Unchanged (s s' : Fs) : Prop where
  tree : s'.tree = s.tree
  contents : ∀ i, (s'.node i).contents = (s.node i).contents
  nlink : ∀ i, (s'.node i).nlink = (s.node i).nlink

theorem Took.unchanged (h : Took H s s') : Unchanged s s' := by
  refine ⟨?_, fun i => by rw [h.node], fun i => by rw [h.node]⟩
  funext names
  rw [Fs.tree, Fs.tree, h.node]

/-- The calls that make or remove a name, or open a file by its name. -/
def Call.onNames : Call → Bool
  | .open .. => true
  | .link .. => true
  | .unlink .. => true
  | .mkdir .. => true
  | .mknod .. => true
  | .chdir .. => false
  | .write .. => false
  | .close .. => false

/-- The call has to create the file that it opens. -/
def Call.Creates (s : Fs) (p : ℕ) : Call → Prop
  | .open path omode => omode &&& O_CREATE ≠ 0 ∧ s.vacant p path ≠ none
  | _ => False

/-! ## The calls -/

theorem hasRoom_congr (h : SameTables s s₁) : s₁.HasRoom p ↔ s.HasRoom p := by
  unfold Fs.HasRoom
  rw [h.ftable, h.ofile]

/-- A new inode has a link. -/
theorem Made.nlink {dp ip : ℕ} {name : List UInt8} {type : Int16}
    (h : Made dp name ip type s s₁) : (s₁.node ip).nlink = 1 := by
  obtain ⟨k, -, -, hfrees⟩ := h.node
  have hne : ip ≠ dp := by
    rintro rfl
    have hdir := h.dir
    rw [type_node, h.free] at hdir
    exact absurd hdir (by decide)
  have hnew : (made s.node dp ip k name type ip).nlink = 1 := by
    rw [made, Function.update_of_ne hne, Function.update_self, newNode]
    split_ifs
    · rfl
    · rfl
  rw [hfrees.eq (by rw [hnew]; decide), hnew]

/-- An inode that was found or made is opened. -/
theorem wp_openInode_took {ip omode : ℕ} (hs : Settled s) (h : Took [ip] s s₁) :
    Wp NoDoubleFree (openInode p ip omode) (fun r s' => r = -1 → Unchanged s s') s₁ := by
  refine wp_openInode_ends h.consistent ?_ (fun s' _ hputs _ => (h.put hputs).unchanged)
    fun f fd _ _ hr => absurd hr (by omega)
  rw [h.tables.ftable]
  exact hs.closed

/-- `sys_open` -/
theorem wp_sysOpen_fails (hs : Settled s) (path : List UInt8) (omode : ℕ) :
    Wp NoDoubleFree (sysOpen p path omode) (fun r s' => r = -1 →
      (Unchanged s s' ↔ ((Call.open path omode).Creates s p → s.HasRoom p))) s := by
  unfold sysOpen
  rw [wp_ite]
  refine ⟨fun hcreate => ?_, fun hcreate => ?_⟩
  · rw [wp_bind]
    refine wp_create_ends hs p path (by decide) 0 0 (fun s₁ hvacant h₁ _ => ?_)
      (fun ip s₁ hvacant h₁ _ _ _ => ?_) fun dp name ip s₁ _ hvacant hmade => ?_
    · exact iff_of_true h₁.unchanged fun hc => absurd hvacant hc.2
    · refine (wp_openInode_took hs h₁).mono ?_
      intro r s' hunchanged hr
      exact iff_of_true (hunchanged hr) fun hc => absurd hvacant hc.2
    · -- the file has been created, and stays
      have htables := hmade.holds.tables
      refine wp_openInode_ends hmade.holds.consistent ?_ (fun s' hroom hputs _ => ?_)
        fun f fd _ _ hr => absurd hr (by omega)
      · rw [htables.ftable]
        exact hs.closed
      rw [hasRoom_congr htables] at hroom
      refine iff_of_false (fun hunchanged => ?_) fun hc => hroom (hc ⟨hcreate, by simp [hvacant]⟩)
      have hlinks : (s'.node ip).nlink = 1 := by
        rw [(hputs.frees hmade.holds.consistent).eq (by rw [hmade.nlink]; decide), hmade.nlink]
      rw [hunchanged.nlink ip, node_eq_free hmade.free] at hlinks
      exact absurd hlinks (by decide)
  · have hno : ¬(Call.open path omode).Creates s p := fun hc => hcreate hc.1
    rw [wp_bind]
    refine wp_namex_took hs p path false (fun s₁ _ h₁ _ => ?_) fun ip name s₁ _ h₁ => ?_
    · exact iff_of_true h₁.unchanged fun hc => absurd hc hno
    dsimp only
    rw [wp_bind]
    refine wp_lock h₁ fun s₂ h₂ _ _ _ => ?_
    rw [wp_bind, wp_get, wp_ite]
    refine ⟨fun _ => ?_, fun _ => ?_⟩
    · rw [wp_bind]
      exact wp_put h₂ fun s₃ h₃ _ => iff_of_true h₃.unchanged fun hc => absurd hc hno
    · refine (wp_openInode_took hs h₂).mono ?_
      intro r s' hunchanged hr
      exact iff_of_true (hunchanged hr) fun hc => absurd hc hno

/-- `sys_mkdir` and `sys_mknod` -/
theorem wp_makeNode_fails (hs : Settled s) (path : List UInt8) {type : Int16} (htype : type ≠ 0)
    (hfile : type ≠ T_FILE) (major minor : Int16) :
    Wp NoDoubleFree (makeNode p path type major minor) (fun r s' => r = -1 → Unchanged s s') s := by
  unfold makeNode
  rw [wp_bind]
  refine wp_create_ends hs p path htype major minor (fun s₁ _ h₁ _ => h₁.unchanged)
    (fun ip s₁ _ _ _ hf _ => absurd hf hfile) fun dp name ip s₁ _ _ hmade => ?_
  refine Wp.bind (wp_iput hmade.holds.consistent ip) ?_
  intro _ s₂ _ hr
  exact absurd hr (by decide)

/-- **Failed calls.** A call on names that returns `-1` has left the tree of names, the contents of
all files and all link counts as they were, exactly if it did not have to create a file for which
the file table or the descriptor table of the process had no room.

**Proof sketch.** One case for each call. All calls but `open` undo what they have done, or do
nothing until they cannot fail any more, so that `-1` means that nothing has changed and the
condition holds. `open` with `O_CREATE` creates the file first and looks for room in the two tables
afterwards (`wp_sysOpen_fails`), so that it leaves the new file behind exactly if it had to create
one and there was no room. -/
theorem failed_unchanged_iff (hs : Settled s) (p : ℕ) (c : Call) (hc : c.onNames = true)
    (hfail : (c.run p).run s = .ok (-1, s')) :
    Unchanged s s' ↔ (c.Creates s p → s.HasRoom p) := by
  have hother (hno : ¬c.Creates s p)
      (hwp : Wp NoDoubleFree (c.run p) (fun r s' => r = -1 → Unchanged s s') s) :
      Unchanged s s' ↔ (c.Creates s p → s.HasRoom p) :=
    iff_of_true (hwp.of_ok hfail rfl) fun h => absurd h hno
  cases c with
  | «open» path omode => exact (wp_sysOpen_fails hs path omode).of_ok hfail rfl
  | link old new =>
    refine hother id (wp_sysLink_ends hs p old new (fun s₁ h₁ _ => h₁.unchanged) ?_)
    intro dp name ip name' s₁ _ _ _ hr
    exact absurd hr (by decide)
  | unlink path =>
    refine hother id (wp_sysUnlink_ends hs p path (fun s₁ h₁ _ => h₁.unchanged) ?_)
    intro dp name ip k s₁ _ _ hr
    exact absurd hr (by decide)
  | mkdir path => exact hother id (wp_makeNode_fails hs path (by decide) (by decide) 0 0)
  | mknod path major minor =>
    exact hother id (wp_makeNode_fails hs path (by decide) (by decide) major minor)
  | chdir path => cases hc
  | write fd src => cases hc
  | close fd => cases hc

/-! ## A process without free descriptors -/

/-- The inodes of the empty file system. -/
theorem node_emptyFs {i : ℕ} (hi : i ≠ ROOTINO) : emptyFs.node i = .free := by
  refine node_eq_free ?_
  simp [emptyFs, hi, Dinode.zero]

theorem node_rootino : emptyFs.node ROOTINO =
    ⟨T_DIR, 1, contents emptyFs.dinode emptyFs.data ROOTINO⟩ := by
  rw [node_of_type]
  · rfl
  · decide

/-- Between two calls on the empty file system, whoever has files open. -/
theorem settled_of_emptyFs {icache : ℕ → Inode} {ftable : ℕ → File} {ofile : ℕ → ℕ → Option ℕ}
    (hvalid : ∀ i, (icache i).valid = false)
    (hclosed : ∀ f, (ftable f).ref = 0 → (ftable f).ip = none) :
    Settled { emptyFs with icache := icache, ftable := ftable, ofile := ofile } where
  consistent := consistent_emptyFs.of_cache rfl rfl rfl rfl fun i hi => by simp [hvalid] at hi
  safe := by
    intro i _ htype hnlink
    change (emptyFs.node i).type ≠ 0 at htype
    change (emptyFs.node i).nlink = 0 at hnlink
    by_cases hi : i = ROOTINO
    · rw [hi, node_rootino] at hnlink
      exact absurd hnlink (by decide)
    · rw [node_emptyFs hi] at htype
      exact absurd rfl htype
  closed := hclosed
  small := show 200 ≤ 2 ^ 16 by decide
  zero := rfl

theorem settled_emptyFs : Settled emptyFs :=
  settled_of_emptyFs (fun _ => rfl) fun _ _ => rfl

/-- A process has the root directory open under each of its descriptors. -/
def crowdedFs : Fs :=
  { emptyFs with
    icache := fun i => ⟨if i = ROOTINO then 65 else 0, false, Dinode.zero⟩
    ftable := fun f =>
      if f = 0 then ⟨NOFILE, true, false, some ROOTINO, 0⟩ else ⟨0, false, false, none, 0⟩
    ofile := fun p _ => if p = 0 then some 0 else none }

theorem settled_crowdedFs : Settled crowdedFs := by
  refine settled_of_emptyFs (fun _ => rfl) fun f hf => ?_
  by_cases h : f = 0
  · simp [h] at hf
  · simp [h]

/-- A process without free descriptors opens the root directory: the entry of the file table and
the reference to the inode that the call has taken by then are given back. -/
theorem failed_unchanged_iff_crowdedFs : ∃ s',
    (Call.run 0 (.open (str "/") O_RDONLY)).run crowdedFs = .ok (-1, s') ∧
    (Unchanged crowdedFs s' ↔
      ((Call.open (str "/") O_RDONLY).Creates crowdedFs 0 → crowdedFs.HasRoom 0)) := by
  have hrun : ((Call.run 0 (.open (str "/") O_RDONLY)).run crowdedFs).toOption.map Prod.fst =
      some (-1) := by decide +kernel
  cases hres : (Call.run 0 (.open (str "/") O_RDONLY)).run crowdedFs with
  | error e => simp [hres, Except.toOption] at hrun
  | ok x =>
    obtain ⟨r, s'⟩ := x
    obtain rfl : r = -1 := by simpa [hres, Except.toOption] using hrun
    exact ⟨s', rfl, failed_unchanged_iff settled_crowdedFs 0 _ rfl hres⟩

/-- A process without free descriptors creates a file: the call returns `-1`, and the file is
there. -/
theorem not_forall_failed_unchanged : ¬∀ (s : Fs) (p : ℕ) (c : Call) (s' : Fs), Settled s →
    c.onNames = true → (c.run p).run s = .ok (-1, s') → Unchanged s s' := by
  intro h
  have hrun : ((Call.run 0 (.open (str "f") O_CREATE)).run crowdedFs).toOption.map
      (fun x => (x.1, (x.2.node 2).nlink)) = some (-1, 1) := by decide +kernel
  cases hres : (Call.run 0 (.open (str "f") O_CREATE)).run crowdedFs with
  | error e => simp [hres, Except.toOption] at hrun
  | ok x =>
    obtain ⟨r, s'⟩ := x
    obtain ⟨rfl, hlinks⟩ : r = -1 ∧ (s'.node 2).nlink = 1 := by
      simpa [hres, Except.toOption] using hrun
    have hsame := (h crowdedFs 0 _ s' settled_crowdedFs rfl hres).nlink 2
    rw [hlinks] at hsame
    exact absurd hsame (by decide)

end HgXv6.Disk
