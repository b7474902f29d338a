import HgXv6.Kernel.DirectoryMaps
import HgXv6.Kernel.NameSpace

set_option relaxedAutoImplicit false
set_option autoImplicit false

/-!
# Link counts over whole runs

A process may remove the name of a directory in which it, or another process, still works. The
directory has then no links and goes with its last reference, and `iput` does not look at its
entries. Nothing keeps a call from making a new entry in it, and the inode that this entry names is
never freed. A call that makes no entry in a directory without links, and raises no link count
above its maximum, keeps the link counts exact.

## Main definitions

* `HgXv6.Disk.exit` — the part of `exit` that is about files.
* `HgXv6.Disk.Fs.LinksExact` — the link counts are those of the reachable part of the tree.
* `HgXv6.Disk.Action.Allowed` — no entry is made in a directory without links.

## Main results

* `HgXv6.Disk.Tidy.linksExact` — what the invariant means for the inodes that are reached.
* `HgXv6.Disk.linksExact_run` — runs of allowed calls.
* `HgXv6.Disk.not_forall_linksExact` — a file that is made in a removed directory.
-/

namespace HgXv6.Disk

open Prog Relation

variable {s s₁ s₂ s' : Fs} {H : List ℕ} {p i ip d dp k : ℕ} {name : List UInt8}

/-! ## `exit` -/

/-- The loop of `exit` over the descriptors, from `fd` on, in `k` passes. -/
def closeAll (p : ℕ) : ℕ → ℕ → M Unit
  | 0, _ => pure ()
  | k + 1, fd => do
    let s ← get
    match s.ofile p fd with
    | none => closeAll p k (fd + 1)
    | some f => do
      fileclose f
      setFd p fd none
      closeAll p k (fd + 1)

/-- `exit` of a process that is not `initproc`, in so far as it is about files. -/
def exit (p : ℕ) : M Unit := do
  closeAll p NOFILE 0
  let s ← get
  iput (s.cwd p)
  modify fun s => { s with cwd := Function.update s.cwd p 0 }

/-- What a process does: it makes a call, or it exits. -/
inductive Action
  | call (c : Call)
  | exit

/-- The action, by the process `p`. -/
def Action.run (p : ℕ) : Action → M Unit
  | .call c => do
    let _ ← c.run p
    pure ()
  | .exit => Disk.exit p

/-! ## Exact link counts -/

/-- An entry of a directory names the inode. -/
def Names (n : ℕ → Node) (d i : ℕ) : Prop :=
  (n d).type = T_DIR ∧ i ≠ 0 ∧ ∃ k, ((n d).entry k).inum = i

/-- The inode is reached from the root by directory entries. -/
def Fs.Reached (s : Fs) (i : ℕ) : Prop := ReflTransGen (Names s.node) ROOTINO i

/-- The entries in reached directories that name an inode, other than `"."`. -/
def Fs.namesOf (s : Fs) (i : ℕ) : Set (ℕ × ℕ) :=
  {e | s.Reached e.1 ∧ (s.node e.1).type = T_DIR ∧ ((s.node e.1).entry e.2).inum = i ∧
    ((s.node e.1).entry e.2).name ≠ dot}

/-- The link count of each inode that is reached is the number of its names in reached
directories, and the others that are allocated have the link count 0. -/
structure Fs.LinksExact (s : Fs) : Prop where
  reached : ∀ i, s.Reached i →
    (s.namesOf i).Finite ∧ (s.node i).nlink.toInt = (s.namesOf i).ncard
  unreached : ∀ i, (s.node i).type ≠ 0 → ¬s.Reached i → (s.node i).nlink = 0

/-- What holds between two calls. -/
structure Tidy (s : Fs) : Prop where
  settled : Settled s
  counted : Counted s.node

/-- What is reached has links. -/
theorem Counted.reached_iff (h : Counted s.node) (i : ℕ) : s.Reached i ↔ Live s.node i := by
  constructor
  · intro hi
    refine reach_induction hi h.root.live fun d j hd hdj => ?_
    obtain ⟨hdir, hj, k, hk⟩ := hdj
    exact h.live ⟨hdir, hd.2⟩ hk hj
  · intro hi
    refine ReflTransGen.mono (fun d j hdj => ?_) _ _ (h.reach i hi)
    obtain ⟨hd, hj, k, -, hk⟩ := hdj
    exact ⟨hd.1, hj, k, hk⟩

theorem Counted.namesOf_eq (h : Counted s.node) (i : ℕ) : s.namesOf i = links s.node i := by
  ext e
  simp only [Fs.namesOf, links, Set.mem_ofPred_eq, h.reached_iff, Live, LiveDir]
  constructor
  · rintro ⟨hlive, hdir, hinum, hname⟩
    exact ⟨⟨hdir, hlive.2⟩, hinum, hname⟩
  · rintro ⟨hdir, hinum, hname⟩
    refine ⟨⟨?_, hdir.2⟩, hdir.1, hinum, hname⟩
    rw [hdir.1]
    decide

/-- The invariant implies that link counts are exact. -/
theorem Tidy.linksExact (h : Tidy s) : s.LinksExact := by
  constructor
  case reached =>
    intro i hi
    rw [h.counted.namesOf_eq]
    exact (h.counted.count i ((h.counted.reached_iff i).mp hi).1).ncard
  case unreached =>
    intro i htype hi
    by_contra hlinks
    exact hi ((h.counted.reached_iff i).mpr ⟨htype, hlinks⟩)

/-! ## References -/

/-- Only references have changed. -/
theorem Tidy.took (h : Tidy s) (htook : Took H s s₁) : Tidy s₁ := by
  have hnode := htook.node
  refine ⟨h.settled.of_holds htook.toHolds ?_ fun j hnamed htype hnlink => ?_, hnode ▸ h.counted⟩
  · rw [hnode]
    exact h.counted.zero
  · rw [hnode] at htype hnlink
    refine htook.held j (h.settled.safe j ?_ htype hnlink)
    exact (named_congr htook.tables.cwd (fun _ => by rw [hnode]) fun _ => by rw [hnode]).mp hnamed

/-- A reference is put. -/
theorem Tidy.puts (h : Tidy s) (hputs : Puts i s s₁) : Tidy s₁ := by
  have hcons := h.settled.consistent
  have hfrees := hputs.frees hcons
  have hcounted := h.counted.frees hfrees
  refine ⟨⟨hputs.consistent, fun j hnamed => ?_, ?_, ?_, ?_⟩, hcounted⟩
  · refine hputs.safe hcons (h.settled.safe j ?_)
    rcases hnamed with rfl | ⟨q, rfl⟩ | ⟨d, k, hd, hj, hk⟩
    · exact .inl rfl
    · exact .inr (.inl ⟨q, by rw [hputs.tables.cwd]⟩)
    · have hd' : (s₁.node d).type ≠ 0 := by
        rw [hd]
        decide
      rw [hfrees.eq_of_type hd'] at hd hk
      exact .inr (.inr ⟨d, k, hd, hj, hk⟩)
  · rw [hputs.tables.ftable]
    exact h.settled.closed
  · rw [hputs.tables.sb]
    exact h.settled.small
  · rw [← type_node]
    exact hcounted.zero

/-- The names in the tree have changed. Inodes without links were without links before, or are
held, and directories without links have the same entries. -/
theorem Tidy.of_counted (h : Tidy s) (hholds : Holds H s s₁) (hcounted : Counted s₁.node)
    (hkept : ∀ j, (s₁.node j).type ≠ 0 → (s₁.node j).nlink = 0 → Held s₁ j ∨ s₁.node j = s.node j)
    (hdirs : ∀ d, (s₁.node d).type = T_DIR → (s₁.node d).nlink = 0 →
      (s.node d).type = T_DIR ∧ (s₁.node d).entry = (s.node d).entry) : Tidy s₁ := by
  refine ⟨h.settled.of_holds hholds hcounted.zero fun j hnamed htype hnlink => ?_, hcounted⟩
  rcases hkept j htype hnlink with hheld | hnode
  · exact hheld
  rw [hnode] at htype hnlink
  refine hholds.held j (h.settled.safe j ?_ htype hnlink)
  rcases hnamed with rfl | ⟨q, rfl⟩ | ⟨d, k, hd, hj, hk⟩
  · exact .inl rfl
  · exact .inr (.inl ⟨q, by rw [hholds.tables.cwd]⟩)
  · by_cases hlinks : (s₁.node d).nlink = 0
    · obtain ⟨hd', hentry⟩ := hdirs d hd hlinks
      rw [hentry] at hk
      exact .inr (.inr ⟨d, k, hd', hj, hk⟩)
    · have hlive := hcounted.live ⟨hd, hlinks⟩ hk hj
      rw [Live, hnode] at hlive
      exact absurd hnlink hlive.2

/-- An entry of the table of open files changes. -/
theorem Tidy.setFile (h : Tidy s) (f : ℕ) {file : File} (hfile : file.ref = 0 → file.ip = none) :
    Tidy { s with ftable := Function.update s.ftable f file } := by
  refine ⟨⟨h.settled.consistent.of_tables _ s.cwd s.ofile, h.settled.safe, fun g hg => ?_,
    h.settled.small, h.settled.zero⟩, h.counted⟩
  dsimp only at hg ⊢
  by_cases hgf : g = f
  · subst hgf
    rw [Function.update_self] at hg ⊢
    exact hfile hg
  · rw [Function.update_of_ne hgf] at hg ⊢
    exact h.settled.closed g hg

/-- The descriptors of processes change. -/
theorem Tidy.setOfile (h : Tidy s) (ofile : ℕ → ℕ → Option ℕ) : Tidy { s with ofile := ofile } :=
  ⟨⟨h.settled.consistent.of_tables s.ftable s.cwd ofile, h.settled.safe, h.settled.closed,
    h.settled.small, h.settled.zero⟩, h.counted⟩

/-- The current directory of a process changes. -/
theorem Tidy.setCwd (h : Tidy s) (p : ℕ) (hsafe : Safe s i) :
    Tidy { s with cwd := Function.update s.cwd p i } := by
  refine ⟨⟨h.settled.consistent.of_tables s.ftable _ s.ofile, fun j hnamed => ?_,
    h.settled.closed, h.settled.small, h.settled.zero⟩, h.counted⟩
  change Safe s j
  rcases hnamed with rfl | ⟨q, rfl⟩ | hentry
  · exact h.settled.safe _ (.inl rfl)
  · dsimp only
    by_cases hqp : q = p
    · rw [hqp, Function.update_self]
      exact hsafe
    · rw [Function.update_of_ne hqp]
      exact h.settled.safe _ (.inr (.inl ⟨q, rfl⟩))
  · exact h.settled.safe j (.inr (.inr hentry))

/-! ## Files -/

/-- `iput` -/
theorem wp_iput_tidy {α : Type} (h : Tidy s) (i : ℕ) (a : α) :
    Wp NoDoubleFree (do iput i; pure a) (fun _ => Tidy) s :=
  Wp.bind (wp_iput h.settled.consistent i) fun _ _ hputs => h.puts hputs

theorem wp_fileclose_tidy (h : Tidy s) (f : ℕ) :
    Wp NoDoubleFree (fileclose f) (fun _ => Tidy) s := by
  unfold fileclose
  rw [wp_bind, wp_get]
  dsimp only
  rw [wp_ite, wp_ite]
  refine ⟨fun _ => noDoubleFree_panic (by decide), fun _ => ⟨fun hmore => ?_, fun _ => ?_⟩⟩
  · refine h.setFile f fun hzero => ?_
    dsimp only at hzero
    omega
  · refine Wp.bind (P := fun _ => Tidy) (h.setFile f fun _ => rfl) ?_
    intro _ s₁ hs₁
    cases (s.ftable f).ip with
    | none => exact hs₁
    | some ip =>
      exact (wp_iput hs₁.settled.consistent ip).mono fun _ _ hputs => hs₁.puts hputs

theorem wp_openInode_tidy (h : Tidy s) (p ip omode : ℕ) :
    Wp NoDoubleFree (openInode p ip omode) (fun _ => Tidy) s := by
  refine wp_openInode_ends h.settled.consistent h.settled.closed (fun _ _ hputs => h.puts hputs)
    fun f fd _ _ => ?_
  refine (h.setFile f fun hzero => ?_).setOfile _
  exact absurd hzero one_ne_zero

/-- The loop of `exit` -/
theorem wp_closeAll_tidy (h : Tidy s) (p k fd : ℕ) :
    Wp NoDoubleFree (closeAll p k fd) (fun _ => Tidy) s := by
  induction k generalizing fd s with
  | zero => exact h
  | succ k ih =>
    unfold closeAll
    rw [wp_bind, wp_get]
    cases s.ofile p fd with
    | none => exact ih h (fd + 1)
    | some f =>
      refine Wp.bind (wp_fileclose_tidy h f) ?_
      intro _ s₁ hs₁
      refine Wp.bind (P := fun _ => Tidy) (hs₁.setOfile _) ?_
      intro _ s₂ hs₂
      exact ih hs₂ (fd + 1)

theorem wp_exit_tidy (h : Tidy s) (p : ℕ) : Wp NoDoubleFree (exit p) (fun _ => Tidy) s := by
  unfold exit
  refine Wp.bind (wp_closeAll_tidy h p NOFILE 0) ?_
  intro _ s₁ hs₁
  rw [wp_bind, wp_get]
  refine Wp.bind (wp_iput hs₁.settled.consistent (s₁.cwd p)) ?_
  intro _ s₂ hputs
  have hs₂ := hs₁.puts hputs
  exact hs₂.setCwd p fun htype => absurd hs₂.counted.zero htype

theorem wp_sysClose_tidy (h : Tidy s) (p : ℕ) (fd : ℤ) :
    Wp NoDoubleFree (sysClose p fd) (fun _ => Tidy) s := by
  refine Wp.bind (P := fun _ s' => s' = s) rfl ?_
  rintro r s' rfl
  cases r with
  | none => exact h
  | some f =>
    refine Wp.bind (P := fun _ => Tidy) (h.setOfile _) ?_
    intro _ s₁ hs₁
    exact Wp.bind (wp_fileclose_tidy hs₁ f) fun _ _ hs₂ => hs₂

theorem wp_sysChdir_tidy (h : Tidy s) (p : ℕ) (path : List UInt8) :
    Wp NoDoubleFree (sysChdir p path) (fun _ => Tidy) s := by
  unfold sysChdir
  rw [wp_bind]
  refine wp_namex_took h.settled p path false (fun s₁ _ h₁ => h.took h₁) fun ip name s₁ _ h₁ => ?_
  dsimp only
  rw [wp_bind]
  refine wp_lock h₁ fun s₂ h₂ _ hip _ => ?_
  have hs₂ := h.took h₂
  rw [wp_bind, wp_get, wp_ite]
  refine ⟨fun _ => wp_iput_tidy hs₂ ip (-1), fun _ => ?_⟩
  refine Wp.bind (wp_iput hs₂.settled.consistent (s₂.cwd p)) ?_
  intro _ s₃ hputs
  have hsafe : Safe s₃ ip := hputs.safe hs₂.settled.consistent fun _ _ => hip
  exact (hs₂.puts hputs).setCwd p hsafe

/-! ## Names -/

/-- An inode has been made in a directory with links. -/
theorem Tidy.made (h : Tidy s) {type : Int16} (hmade : Made dp name ip type s s₁)
    (htype : type ≠ 0) (hlive : (s.node dp).nlink ≠ 0)
    (hmax : type = T_DIR → (s.node dp).nlink ≠ 32767) (hlen : name.length ≤ DIRSIZ)
    (hzero : 0 ∉ name) : Tidy s₁ := by
  obtain ⟨hdir, hlookup, hfree, hpos, hlt, hholds, k, hk, hle, hfrees⟩ := hmade
  have hd : LiveDir s.node dp := ⟨hdir, hlive⟩
  have hlt' : ip < 2 ^ 16 := lt_of_lt_of_le hlt h.settled.small
  have hfree' : (s.node ip).type = 0 := by rwa [type_node]
  have hmade := h.counted.made hd hfree' hpos hlt' hlookup hk hle ⟨hlt', hlen, hzero⟩ htype hmax
  have hcounted := hmade.frees hfrees
  have hold (j : ℕ) (hj : (s₁.node j).type ≠ 0) (hlinks : (s₁.node j).nlink = 0) :
      s₁.node j = s.node j := by
    have heq := hfrees.eq_of_type hj
    rw [heq] at hlinks ⊢
    have hjd : j ≠ dp := by
      rintro rfl
      rw [Disk.made, Function.update_self, nlink_setEntry, parentNode] at hlinks
      split_ifs at hlinks with htype'
      · exact nlink_succ_ne (h.counted.nlink_pos hd.live).le (hmax htype') hlinks
      · exact hlive hlinks
    have hji : j ≠ ip := by
      rintro rfl
      rw [Disk.made, Function.update_of_ne hjd, Function.update_self, nlink_newNode] at hlinks
      exact absurd hlinks (by decide)
    rw [Disk.made, Function.update_of_ne hjd, Function.update_of_ne hji]
  refine h.of_counted hholds hcounted (fun j hj hlinks => .inr (hold j hj hlinks))
    fun d hd hlinks => ?_
  have heq := hold d (by rw [hd]; decide) hlinks
  rw [heq] at hd ⊢
  exact ⟨hd, rfl⟩

/-- A file has got a name in a directory with links. -/
theorem Tidy.linked (h : Tidy s) (hlinked : Linked dp name ip s s₁)
    (hlive : (s.node dp).nlink ≠ 0) (hmax : (s.node ip).nlink ≠ 32767)
    (hlen : name.length ≤ DIRSIZ) (hzero : 0 ∉ name) : Tidy s₁ := by
  obtain ⟨hfile, halloc, hdir, hlookup, hholds, k, hk, hle, hfrees⟩ := hlinked
  have hd : LiveDir s.node dp := ⟨hdir, hlive⟩
  have hfits : Dirent.Fits ⟨ip, name⟩ := ⟨h.counted.small ip halloc, hlen, hzero⟩
  have hlinked := h.counted.linked hd halloc hfile hlookup hk hle hfits hmax
  have hcounted := hlinked.frees hfrees
  have hold (j : ℕ) (hj : (s₁.node j).type ≠ 0) (hlinks : (s₁.node j).nlink = 0) :
      s₁.node j = s.node j := by
    have heq := hfrees.eq_of_type hj
    rw [heq] at hlinks ⊢
    have hjd : j ≠ dp := by
      rintro rfl
      rw [Disk.linked, Function.update_self] at hlinks
      exact hlive hlinks
    have hji : j ≠ ip := by
      rintro rfl
      rw [Disk.linked, Function.update_of_ne hjd, Function.update_self] at hlinks
      exact nlink_succ_ne (h.counted.count j halloc).nonneg hmax hlinks
    rw [Disk.linked, Function.update_of_ne hjd, Function.update_of_ne hji]
  refine h.of_counted hholds hcounted (fun j hj hlinks => .inr (hold j hj hlinks))
    fun d hd hlinks => ?_
  have heq := hold d (by rw [hd]; decide) hlinks
  rw [heq] at hd ⊢
  exact ⟨hd, rfl⟩

/-- A name has been removed.

**Proof sketch.** The directory with the name is alive, since one without links has no entries but
its dots. It is not the inode removed, as a directory that is removed is empty. The entry is cleared
and the counts go down by those of the entry and, for a directory, of its `..`; what is freed while
the two inodes are put has no links and is not named, so that every count is exact again
(`Counted`). -/
theorem Tidy.unlinked (h : Tidy s) (hunlinked : Unlinked dp name ip k s s₁) : Tidy s₁ := by
  obtain ⟨hdir, hdots, hlookup, hlinks, hempty, hholds, ⟨n, hcleared, hdropped⟩, hsafe⟩ := hunlinked
  obtain ⟨hip, hinum, hname⟩ := lookup_eq_some hlookup
  have hd : LiveDir s.node dp := by
    refine ⟨hdir, fun hzero => ?_⟩
    rcases h.counted.orphan dp k hdir hzero (by rw [hinum]; exact hip) with heq | heq
    · exact hdots.1 (hname.symm.trans heq)
    · exact hdots.2 (hname.symm.trans heq)
  have hne : dp ≠ ip := by
    rintro rfl
    exact hip (hinum.symm.trans
      (hempty hdir k (h.counted.two_le_of_lookup hd hlookup hdots)))
  -- what is freed while the directory is put is not the inode
  have hnode : n ip = cleared s.node dp ip k ip := by
    refine hcleared.eq fun hzero => hlinks ?_
    rw [cleared, Function.update_of_ne hne.symm] at hzero
    rw [hzero]
    decide
  have hfrees : Frees (dropped_link (cleared s.node dp ip k) ip) s₁.node := by
    refine Frees.trans ?_ hdropped
    rw [dropped_link, dropped_link, hnode]
    exact hcleared.update _
  have hcounted := (h.counted.unlinked hd hlookup hdots hempty).frees hfrees
  have hold (j : ℕ) (hj : (s₁.node j).type ≠ 0) (hzero : (s₁.node j).nlink = 0) (hji : j ≠ ip) :
      s₁.node j = s.node j := by
    have heq := hfrees.eq_of_type hj
    rw [heq] at hzero ⊢
    have hjd : j ≠ dp := by
      rintro rfl
      rw [dropped_link, Function.update_of_ne hji, cleared, Function.update_self,
        childless] at hzero
      split_ifs at hzero with hip_dir
      · have hip_live : LiveDir s.node ip := ⟨hip_dir, fun heq => hlinks (by rw [heq]; decide)⟩
        have hchild : Child s.node j ip :=
          ⟨hd, hip, k, h.counted.two_le_of_lookup hd hlookup hdots, hinum⟩
        have htwo := h.counted.two_le_nlink hd hip_live hchild
        have hpred := toInt_pred (a := (s.node j).nlink) (by omega)
        have hzero' : ((s.node j).nlink - 1).toInt = 0 := toInt_eq_zero.mpr hzero
        omega
      · exact hd.2 hzero
    rw [dropped_link, Function.update_of_ne hji, cleared, Function.update_of_ne hjd]
  refine h.of_counted hholds hcounted (fun j hj hzero => ?_) fun d hd hzero => ?_
  · by_cases hji : j = ip
    · rw [hji] at hj hzero ⊢
      exact .inl (hsafe hj hzero)
    · exact .inr (hold j hj hzero hji)
  · have hd' : (s₁.node d).type ≠ 0 := by
      rw [hd]
      decide
    by_cases hdi : d = ip
    · have heq := hfrees.eq_of_type hd'
      rw [hdi, dropped_link, Function.update_self, cleared, Function.update_of_ne hne.symm] at heq
      rw [hdi] at hd ⊢
      rw [heq] at hd ⊢
      exact ⟨hd, entry_congr rfl⟩
    · have heq := hold d hd' hzero hdi
      rw [heq] at hd ⊢
      exact ⟨hd, rfl⟩

/-! ## Runs -/

/-- No entry is made in a directory without links, and no link count is raised that is at its
maximum: `s.vacant` is the place in which a file is created, and a link is made to `ip` if the
name is not there. -/
def Call.LinksAllowed (s : Fs) (p : ℕ) : Call → Prop
  | .open path omode => omode &&& O_CREATE ≠ 0 → ∀ dp name, s.vacant p path = some (dp, name) →
      (s.node dp).nlink ≠ 0
  | .mkdir path => ∀ dp name, s.vacant p path = some (dp, name) →
      (s.node dp).nlink ≠ 0 ∧ (s.node dp).nlink ≠ 32767
  | .mknod path _ _ => ∀ dp name, s.vacant p path = some (dp, name) → (s.node dp).nlink ≠ 0
  | .link old new => ∀ ip name' dp name, s.resolve p old false = some (ip, name') →
      s.resolve p new true = some (dp, name) → (s.node dp).lookup name = none →
      (s.node ip).type ≠ T_DIR → (s.node dp).nlink ≠ 0 ∧ (s.node ip).nlink ≠ 32767
  | _ => True

/-- An action that is not a write, with strings that end at their `'\0'`. -/
def Action.KeepsFiles : Action → Prop
  | .call c => c.KeepsFiles
  | .exit => True

instance (a : Action) : Decidable a.KeepsFiles :=
  match a with
  | .call c => inferInstanceAs (Decidable c.KeepsFiles)
  | .exit => isTrue trivial

/-- An action that makes no entry in a directory without links. -/
def Action.Allowed (s : Fs) (p : ℕ) : Action → Prop
  | .call c => c.LinksAllowed s p
  | .exit => True

/-- Some process has completed an action. -/
def Acts (s s' : Fs) : Prop :=
  ∃ p, ∃ a : Action, a.KeepsFiles ∧ (a.run p).run s = .ok ((), s')

/-- Some process has completed an action that is allowed. -/
def ActsAllowed (s s' : Fs) : Prop :=
  ∃ p, ∃ a : Action, a.KeepsFiles ∧ a.Allowed s p ∧ (a.run p).run s = .ok ((), s')

/-- `create` in a directory with links. -/
theorem wp_create_tidy (h : Tidy s) (p : ℕ) {path : List UInt8} (hpath : 0 ∉ path) {type : Int16}
    (htype : type ≠ 0) (major minor : Int16)
    (hallowed : ∀ dp name, s.vacant p path = some (dp, name) →
      (s.node dp).nlink ≠ 0 ∧ (type = T_DIR → (s.node dp).nlink ≠ 32767)) :
    Wp NoDoubleFree (create p path type major minor) (fun _ => Tidy) s := by
  refine wp_create_ends h.settled p path htype major minor (fun s₁ _ h₁ => h.took h₁)
    (fun ip s₁ _ h₁ _ _ _ => h.took h₁) fun dp name ip s₁ hresolve hvacant hmade => ?_
  obtain ⟨-, hlen, hzero⟩ := resolve_parent hresolve
  obtain ⟨hlive, hmax⟩ := hallowed dp name hvacant
  exact h.made hmade htype hlive hmax hlen (hzero hpath)

theorem wp_makeNode_tidy {type : Int16} {path : List UInt8} (major minor : Int16)
    (hcreate : Wp NoDoubleFree (create p path type major minor) (fun _ => Tidy) s) :
    Wp NoDoubleFree (makeNode p path type major minor) (fun _ => Tidy) s := by
  unfold makeNode
  refine Wp.bind hcreate ?_
  intro r s₁ hs₁
  cases r with
  | none => exact hs₁
  | some ip => exact wp_iput_tidy hs₁ ip 0

theorem wp_sysOpen_tidy (h : Tidy s) (p : ℕ) {path : List UInt8} (hpath : 0 ∉ path) (omode : ℕ)
    (hallowed : (Call.open path omode).LinksAllowed s p) :
    Wp NoDoubleFree (sysOpen p path omode) (fun _ => Tidy) s := by
  unfold sysOpen
  rw [wp_ite]
  refine ⟨fun hcreate => ?_, fun _ => ?_⟩
  · refine Wp.bind (wp_create_tidy h p hpath (by decide) 0 0 fun dp name hvacant =>
      ⟨hallowed hcreate dp name hvacant, fun hdir => absurd hdir (by decide)⟩) ?_
    intro r s₁ hs₁
    cases r with
    | none => exact hs₁
    | some ip => exact wp_openInode_tidy hs₁ p ip omode
  · rw [wp_bind]
    refine wp_namex_took h.settled p path false (fun s₁ _ h₁ => h.took h₁) fun ip name s₁ _ h₁ => ?_
    dsimp only
    rw [wp_bind]
    refine wp_lock h₁ fun s₂ h₂ _ _ _ => ?_
    have hs₂ := h.took h₂
    rw [wp_bind, wp_get, wp_ite]
    exact ⟨fun _ => wp_iput_tidy hs₂ ip (-1), fun _ => wp_openInode_tidy hs₂ p ip omode⟩

/-- A call that is allowed. -/
theorem wp_call_tidy (h : Tidy s) (p : ℕ) {c : Call} (hc : c.KeepsFiles)
    (hallowed : c.LinksAllowed s p) : Wp NoDoubleFree (c.run p) (fun _ => Tidy) s := by
  cases c with
  | «open» path omode =>
    exact wp_sysOpen_tidy h p (hc.2 path (by simp [Call.paths])) omode hallowed
  | link old new =>
    have hnew : 0 ∉ new := hc.2 new (by simp [Call.paths])
    refine wp_sysLink_ends h.settled p old new (fun s₁ h₁ => h.took h₁)
      fun dp name ip name' s₁ hold hresolve hlinked => ?_
    obtain ⟨-, hlen, hzero⟩ := resolve_parent hresolve
    obtain ⟨hlive, hmax⟩ := hallowed ip name' dp name hold hresolve hlinked.lookup hlinked.file
    exact h.linked hlinked hlive hmax hlen (hzero hnew)
  | unlink path =>
    exact wp_sysUnlink_ends h.settled p path (fun s₁ h₁ => h.took h₁)
      fun dp name ip k s₁ _ hunlinked => h.unlinked hunlinked
  | mkdir path =>
    have hpath : 0 ∉ path := hc.2 path (by simp [Call.paths])
    exact wp_makeNode_tidy 0 0 (wp_create_tidy h p hpath (by decide) 0 0 fun dp name hvacant =>
      ⟨(hallowed dp name hvacant).1, fun _ => (hallowed dp name hvacant).2⟩)
  | mknod path major minor =>
    have hpath : 0 ∉ path := hc.2 path (by simp [Call.paths])
    exact wp_makeNode_tidy major minor (wp_create_tidy h p hpath (by decide) major minor
      fun dp name hvacant => ⟨hallowed dp name hvacant, fun hdir => absurd hdir (by decide)⟩)
  | chdir path => exact wp_sysChdir_tidy h p path
  | write fd src => exact absurd hc.1 (by simp [Call.writes])
  | close fd => exact wp_sysClose_tidy h p fd

/-- An action that is allowed. -/
theorem Tidy.acts (h : Tidy s) (hacts : ActsAllowed s s') : Tidy s' := by
  obtain ⟨p, a, ha, hallowed, hrun⟩ := hacts
  refine Wp.of_ok (E := NoDoubleFree) (Q := fun _ => Tidy) ?_ hrun
  cases a with
  | call c => exact Wp.bind (wp_call_tidy h p ha hallowed) fun _ _ hs₁ => hs₁
  | exit => exact wp_exit_tidy h p

/-- **Link counts.** In every run of calls and exits in which no entry is made in a directory that
has lost its name, and no link count is raised above its maximum, the link counts are exact in every
state that is reached.

**Proof sketch.** By induction on the run. The invariant `Tidy` contains the counts, and each
allowed action keeps it (`Tidy.acts`). -/
theorem linksExact_run (h : Tidy s) (hrun : ReflTransGen ActsAllowed s s') : s'.LinksExact := by
  have hs' : Tidy s' := by
    induction hrun with
    | refl => exact h
    | tail _ hacts ih => exact ih.acts hacts
  exact hs'.linksExact

/-! ## A file in a removed directory -/

/-- A sequence of actions, each with the process that does it. -/
def runActions : List (ℕ × Action) → M Unit
  | [] => pure ()
  | a :: as => do
    a.2.run a.1
    runActions as

/-- A sequence of actions is a run. -/
theorem run_of_runActions {R : Fs → Fs → Prop} {as : List (ℕ × Action)}
    (hR : ∀ a ∈ as, ∀ s s', (a.2.run a.1).run s = .ok ((), s') → R s s')
    (hrun : (runActions as).run s = .ok ((), s')) : ReflTransGen R s s' := by
  refine Wp.of_ok (E := fun _ => True) (Q := fun _ s' => ReflTransGen R s s') ?_ hrun
  clear hrun
  induction as generalizing s with
  | nil => exact ReflTransGen.refl
  | cons a as ih =>
    refine (wp_bind ..).mpr ?_
    have hfirst := hR a List.mem_cons_self s
    cases hm : (a.2.run a.1).run s with
    | error e => simp [Wp, hm]
    | ok x =>
      obtain ⟨⟨⟩, s₁⟩ := x
      have hrest := ih (s := s₁) fun b hb => hR b (List.mem_cons_of_mem a hb)
      simp only [Wp, hm]
      exact hrest.mono fun _ s₂ h₂ => ReflTransGen.head (hfirst s₁ hm) h₂

/-- The empty file system has the root directory only. -/
theorem liveDir_emptyFs (hd : LiveDir emptyFs.node d) : d = ROOTINO := by
  by_contra hne
  have hlive := hd.live
  rw [Live, node_emptyFs hne] at hlive
  exact hlive.1 rfl

/-- **Proof sketch.** The root is the only inode in use, and its two entries name itself. So each
count is a count over the entries of one directory, of which two are known and the rest are not in
use. -/
theorem counted_emptyFs : Counted emptyFs.node := by
  have hroot : LiveDir emptyFs.node ROOTINO := by
    rw [LiveDir, node_rootino]
    exact ⟨rfl, show (1 : Int16) ≠ 0 by decide⟩
  have hfree (i : ℕ) (hi : (emptyFs.node i).type ≠ 0) : i = ROOTINO := by
    by_contra hne
    rw [node_emptyFs hne] at hi
    exact hi rfl
  constructor
  case root => exact hroot
  case root_parent => rw [entry_emptyFs_one]
  case self =>
    intro d hd
    rw [liveDir_emptyFs hd, entry_emptyFs_zero]
  case parent =>
    intro d hd
    rw [liveDir_emptyFs hd, entry_emptyFs_one]
    exact ⟨rfl, hroot⟩
  case child =>
    intro d k hd hk hne
    rw [liveDir_emptyFs hd] at hne
    exact absurd (entry_emptyFs_of_le hk) hne
  case tree =>
    intro d i hdi _
    obtain ⟨hd, hi, k, hk, heq⟩ := hdi
    rw [liveDir_emptyFs hd, entry_emptyFs_of_le hk] at heq
    exact absurd heq.symm hi
  case unique =>
    intro d i k k' hd hi hk _ heq
    rw [liveDir_emptyFs hd, entry_emptyFs_of_le hk, liveDir_emptyFs hi] at heq
    exact absurd heq (by decide)
  case count =>
    intro i hi
    obtain rfl := hfree i hi
    have hlinks : links emptyFs.node ROOTINO = {(ROOTINO, 1)} := by
      ext ⟨d, k⟩
      rw [Set.mem_singleton_iff, Prod.mk.injEq]
      constructor
      · rintro ⟨hd, hinum, hname⟩
        obtain rfl := liveDir_emptyFs hd
        have hinum' : ((emptyFs.node ROOTINO).entry k).inum = ROOTINO := hinum
        have hname' : ((emptyFs.node ROOTINO).entry k).name ≠ dot := hname
        obtain rfl | rfl | hk : k = 0 ∨ k = 1 ∨ 2 ≤ k := by omega
        · exact absurd (congrArg Dirent.name entry_emptyFs_zero) hname'
        · exact ⟨rfl, rfl⟩
        · exact absurd (hinum'.symm.trans (entry_emptyFs_of_le hk)) (by decide)
      · rintro ⟨rfl, rfl⟩
        refine ⟨hroot, ?_, ?_⟩
        · rw [entry_emptyFs_one]
        · rw [entry_emptyFs_one]
          decide
    have hone := Counts.empty.insert (x := ((ROOTINO, 1) : ℕ × ℕ)) (by simp)
    rw [hlinks, node_rootino]
    simpa using hone
  case reach =>
    intro i hi
    rw [hfree i hi.1]
  case orphan =>
    intro d k hd hlinks
    have hd' : d = ROOTINO := hfree d (by rw [hd]; decide)
    rw [hd'] at hlinks
    exact absurd hlinks hroot.2
  case small =>
    intro i hi
    rw [hfree i hi]
    decide
  case zero => rw [node_emptyFs (by decide), Node.free]

theorem tidy_emptyFs : Tidy emptyFs := ⟨settled_emptyFs, counted_emptyFs⟩

/-- A process makes a directory and works in it, and another one removes its name. -/
def removeDirectory : List (ℕ × Action) :=
  [(0, .call (.mkdir (str "d"))), (0, .call (.chdir (str "d"))), (1, .call (.unlink (str "d")))]

/-- The link counts are exact as long as nothing is made in the directory. -/
theorem linksExact_run_removeDirectory : ∃ s', ReflTransGen ActsAllowed emptyFs s' ∧
    (s'.node 2).type = T_DIR ∧ (s'.node 2).nlink = 0 ∧ s'.LinksExact := by
  have hvacant : emptyFs.vacant 0 (str "d") = some (ROOTINO, str "d") := by decide +kernel
  have hfacts : ((runActions removeDirectory).run emptyFs).toOption.map
      (fun x => ((x.2.node 2).type, (x.2.node 2).nlink)) = some (T_DIR, 0) := by decide +kernel
  rw [removeDirectory, runActions, StateT.run_bind] at hfacts
  cases hfirst : ((Action.call (.mkdir (str "d"))).run 0).run emptyFs with
  | error e => simp [hfirst, Except.toOption] at hfacts
  | ok x =>
    obtain ⟨⟨⟩, s₁⟩ := x
    rw [hfirst, ok_bind] at hfacts
    have hmkdir : ActsAllowed emptyFs s₁ := by
      refine ⟨0, .call (.mkdir (str "d")), by decide, fun dp name heq => ?_, hfirst⟩
      rw [hvacant] at heq
      obtain ⟨rfl, rfl⟩ := Prod.mk.inj (Option.some.inj heq)
      rw [node_rootino]
      exact ⟨show (1 : Int16) ≠ 0 by decide, show (1 : Int16) ≠ 32767 by decide⟩
    cases hlast : (runActions
        [(0, .call (.chdir (str "d"))), (1, .call (.unlink (str "d")))]).run s₁ with
    | error e => simp [hlast, Except.toOption] at hfacts
    | ok x =>
      obtain ⟨⟨⟩, s'⟩ := x
      obtain ⟨htype, hlinks⟩ : (s'.node 2).type = T_DIR ∧ (s'.node 2).nlink = 0 := by
        simpa [hlast, Except.toOption] using hfacts
      have hrun : ReflTransGen ActsAllowed s₁ s' := by
        refine run_of_runActions (fun a ha s s' hs => ?_) hlast
        simp only [List.mem_cons, List.not_mem_nil, or_false] at ha
        obtain rfl | rfl := ha
        · exact ⟨0, .call (.chdir (str "d")), by decide, trivial, hs⟩
        · exact ⟨1, .call (.unlink (str "d")), by decide, trivial, hs⟩
      have hall := ReflTransGen.head hmkdir hrun
      exact ⟨s', hall, htype, hlinks, linksExact_run tidy_emptyFs hall⟩

/-- The process goes on to create a file there: the file has a link, and no path leads to it.

**Proof sketch.** The run is evaluated: afterwards the inode of the file has a link, and the root,
which is the only directory with a path, has no entry in use but its dots. So no path leads to the
file, and the number of paths is not its link count. -/
theorem not_forall_linksExact :
    ¬∀ s s', Tidy s → ReflTransGen Acts s s' → s'.LinksExact := by
  intro hall
  have hkeeps : ∀ a ∈ removeDirectory ++ [(0, .call (.open (str "f") O_CREATE))],
      a.2.KeepsFiles := by decide
  have hfacts : ((runActions (removeDirectory ++
      [(0, .call (.open (str "f") O_CREATE))])).run emptyFs).toOption.map (fun x =>
        ((x.2.node 3).type, (x.2.node 3).nlink, (x.2.node ROOTINO).contents.length,
          (List.range 32).all fun k => ((x.2.node ROOTINO).entry k).inum ≤ 1)) =
      some (T_FILE, 1, 512, true) := by decide +kernel
  cases hrun : (runActions (removeDirectory ++
      [(0, .call (.open (str "f") O_CREATE))])).run emptyFs with
  | error e => simp [hrun, Except.toOption] at hfacts
  | ok x =>
    obtain ⟨⟨⟩, s'⟩ := x
    obtain ⟨htype, hlinks, hlen, hentries⟩ : (s'.node 3).type = T_FILE ∧ (s'.node 3).nlink = 1 ∧
        (s'.node ROOTINO).contents.length = 512 ∧
        ∀ k < 32, ((s'.node ROOTINO).entry k).inum ≤ 1 := by
      simpa [hrun, Except.toOption] using hfacts
    have hacts : ReflTransGen Acts emptyFs s' :=
      run_of_runActions (fun a ha s s' hs => ⟨a.1, a.2, hkeeps a ha, hs⟩) hrun
    have hreached (i : ℕ) (hi : ReflTransGen (Names s'.node) ROOTINO i) : i = ROOTINO := by
      refine reach_induction (P := fun j => j = ROOTINO) hi rfl fun d j hd hdj => ?_
      subst hd
      obtain ⟨-, hj, k, rfl⟩ := hdj
      have hlt := entry_lt hj
      rw [hlen] at hlt
      exact le_antisymm (hentries k (by omega)) (Nat.pos_of_ne_zero hj)
    have hzero := (hall emptyFs s' tidy_emptyFs hacts).unreached 3
      (by rw [htype]; decide) fun h => absurd (hreached 3 h) (by decide)
    rw [hlinks] at hzero
    exact absurd hzero (by decide)

end HgXv6.Disk
