import HgXv6.Kernel.Calls
import HgXv6.Kernel.Lookup

set_option relaxedAutoImplicit false
set_option autoImplicit false

/-!
# Invariants of the files

Most of what the kernel does changes nothing but references, and frees inodes that have lost their
last link. An invariant that is about the files, and does not mind that such an inode goes, is
kept by all of this. What is left to show for a call is that it is kept where a name is made or
removed, or a file is written.

## Main definitions

* `HgXv6.Disk.Frees` — inodes without links have been freed.
* `HgXv6.Disk.Robust` — an invariant does not mind this.

## Main results

* `HgXv6.Disk.Robust.namex`, `HgXv6.Disk.Robust.fileclose`, `HgXv6.Disk.Robust.openInode`,
  `HgXv6.Disk.Robust.sysChdir`, `HgXv6.Disk.Robust.sysClose` — the source functions keep it.
-/

namespace HgXv6.Disk

open Prog

variable {s s₁ s₂ s' : Fs} {i ip dp : ℕ}

/-! ## Freed inodes -/

/-- Some inodes without links have been freed. -/
def Frees (n n' : ℕ → Node) : Prop :=
  ∀ i, n' i = n i ∨ (n i).nlink = 0 ∧ n' i = .free

theorem Frees.refl (n : ℕ → Node) : Frees n n := fun _ => .inl rfl

theorem Frees.trans {n n' n'' : ℕ → Node} (h : Frees n n') (h' : Frees n' n'') : Frees n n'' := by
  intro i
  rcases h i with heq | ⟨hnlink, hfree⟩
  · rcases h' i with heq' | ⟨hnlink', hfree'⟩
    · exact .inl (heq'.trans heq)
    · exact .inr ⟨heq ▸ hnlink', hfree'⟩
  · rcases h' i with heq' | ⟨-, hfree'⟩
    · exact .inr ⟨hnlink, heq'.trans hfree⟩
    · exact .inr ⟨hnlink, hfree'⟩

/-- An inode with links is not freed. -/
theorem Frees.eq {n n' : ℕ → Node} (h : Frees n n') (hi : (n i).nlink ≠ 0) : n' i = n i :=
  (h i).resolve_right fun hand => hi hand.1

/-- An inode that has a type has not been freed. -/
theorem Frees.eq_of_type {n n' : ℕ → Node} (h : Frees n n') (hi : (n' i).type ≠ 0) :
    n' i = n i := by
  refine (h i).resolve_right fun hand => hi ?_
  rw [hand.2]
  rfl

/-- An inode with links changes. -/
theorem Frees.update {n n' : ℕ → Node} (h : Frees n n') (m : Node) :
    Frees (Function.update n i m) (Function.update n' i m) := by
  intro j
  by_cases hj : j = i
  · subst hj
    simp
  · simpa [hj] using h j

theorem Puts.frees (h : Consistent s₁) (hputs : Puts i s₁ s₂) : Frees s₁.node s₂.node := by
  by_cases hlast : Last s₁ i
  · rw [hputs.freed hlast]
    intro j
    by_cases hj : j = i
    · subst hj
      refine .inr ⟨?_, Function.update_self ..⟩
      rw [h.node_valid hlast.2.1]
      exact hlast.2.2
    · exact .inl (Function.update_of_ne hj ..)
  · obtain ⟨hdinode, hdata, -⟩ := hputs.kept hlast
    rw [node_congr hdinode hdata]
    exact Frees.refl _

/-! ## Robust invariants -/

/-- The invariant implies consistency, and stays when inodes without links are freed. -/
structure Robust (I : Fs → Prop) : Prop where
  consistent : ∀ {s}, I s → Consistent s
  frees : ∀ {s s'}, I s → Consistent s' → s'.sb = s.sb → Frees s.node s'.node → I s'

variable {I : Fs → Prop}

/-- Nothing but references has changed. -/
theorem Robust.same (hI : Robust I) (h : I s) (hcons : Consistent s') (hsb : s'.sb = s.sb)
    (hnode : s'.node = s.node) : I s' := by
  refine hI.frees h hcons hsb ?_
  rw [hnode]
  exact Frees.refl _

theorem Robust.get (hI : Robust I) (h : I s) (i : ℕ) : I (s.get i) :=
  hI.same h ((hI.consistent h).get i) rfl (node_congr rfl rfl)

theorem Robust.dup (hI : Robust I) (h : I s) (i : ℕ) : I (s.dup i) :=
  hI.same h ((hI.consistent h).setInode fun hv => (hI.consistent h).cached i hv) rfl
    (node_congr rfl rfl)

theorem Robust.lock (hI : Robust I) (h : I s) (htype : (s.dinode i).type ≠ 0) : I (s.lock i) := by
  refine hI.same h ((hI.consistent h).lock htype) ?_ (node_lock i)
  unfold Fs.lock
  split_ifs
  · rfl
  · rfl

theorem Robust.put (hI : Robust I) (h : I s) (hputs : Puts i s s') : I s' :=
  hI.frees h hputs.consistent hputs.tables.sb (hputs.frees (hI.consistent h))

/-- The tables of open files and of descriptors do not matter. -/
theorem Consistent.of_tables (h : Consistent s) (ftable : ℕ → File) (cwd : ℕ → ℕ)
    (ofile : ℕ → ℕ → Option ℕ) :
    Consistent { s with ftable := ftable, cwd := cwd, ofile := ofile } :=
  h.of_cache rfl rfl rfl rfl h.cached

theorem Robust.of_tables (hI : Robust I) (h : I s) (ftable : ℕ → File) (cwd : ℕ → ℕ)
    (ofile : ℕ → ℕ → Option ℕ) : I { s with ftable := ftable, cwd := cwd, ofile := ofile } :=
  hI.same h ((hI.consistent h).of_tables ftable cwd ofile) rfl (node_congr rfl rfl)

/-! ## Single steps -/

/-- `ilock` of an inode makes it valid. -/
theorem Robust.ilock (hI : Robust I) (h : I s) (i : ℕ) : Wp NoDoubleFree (ilock i)
    (fun _ s' => I s' ∧ Keeps s s' ∧ Held s' i ∧ s'.node = s.node) s :=
  wp_ilock (hI.consistent h) fun href htype =>
    ⟨hI.lock h htype, keeps_lock i, held_lock href, node_lock i⟩

/-- `iput` where nothing has to be known of the references. -/
theorem Robust.iput {α : Type} (hI : Robust I) (h : I s) (i : ℕ) (a : α) :
    Wp NoDoubleFree (do iput i; pure a) (fun _ => I) s :=
  Wp.bind (wp_iput (hI.consistent h) i) fun _ _ hputs => hI.put h hputs

/-- `dirlookup` takes a reference to what it finds, and else changes nothing. -/
theorem Robust.dirlookup (hI : Robust I) (h : I s) (hv : (s.icache dp).valid = true)
    (name : List UInt8) : Wp NoDoubleFree (dirlookup dp name) (fun r s' => I s' ∧
      (r = none → s' = s ∧ (s.node dp).lookup name = none) ∧ Keeps s s' ∧ s'.node = s.node ∧
      ∀ i off, r = some (i, off) → (s.icache i).ref + 1 ≤ (s'.icache i).ref ∧
        (s.node dp).type = T_DIR ∧
        ∃ k, off = 16 * k ∧ (s.node dp).lookup name = some (i, k)) s := by
  refine wp_dirlookup (hI.consistent h) hv (.inr allows_noDoubleFree) (fun _ hnone => ?_)
    fun i k hdir hsome => ?_
  · exact ⟨h, fun _ => ⟨rfl, hnone⟩, Keeps.refl s, rfl, by simp⟩
  · refine ⟨hI.get h i, by simp, keeps_get i, node_congr rfl rfl, fun i' off heq => ?_⟩
    obtain ⟨rfl, rfl⟩ := Prod.mk.inj (Option.some.inj heq)
    exact ⟨by simp [ref_get], hdir, k, rfl, hsome⟩

/-- Fields of an inode in memory other than its slots, its size and its type are changed. -/
theorem node_putInode (h : Consistent s) (hv : (s.icache i).valid = true) {d : Dinode}
    (haddrs : d.addrs = (s.icache i).copy.addrs) (hsize : d.size = (s.icache i).copy.size)
    (htype : d.type = (s.icache i).copy.type) : (s.putInode i d).node =
      Function.update s.node i { s.node i with nlink := d.nlink } := by
  have hcons := h.putInode hv haddrs hsize (htype ▸ h.typed i hv)
  have hrefs : refs (s.putInode i d).dinode (s.putInode i d).data = refs s.dinode s.data := by
    rw [← hcons.inode_eq, refs_putInode hv haddrs, h.inode_eq]
  have hbyte := byteAt_congr hrefs (show (s.putInode i d).data = s.data from rfl)
  have hd : (s.putInode i d).dinode i = d := Function.update_self ..
  obtain ⟨hcopy, hne⟩ := h.cached i hv
  rw [hcopy] at hsize htype
  funext j
  by_cases hj : j = i
  · subst hj
    have htype' : ((s.putInode j d).dinode j).type ≠ 0 := by
      rw [hd, htype]
      exact hne
    rw [Function.update_self, node_of_type htype', node_of_type hne, contents, contents, hbyte, hd,
      hsize, htype]
  · rw [Function.update_of_ne hj]
    refine node_eq (Function.update_of_ne hj ..) fun _ o _ => ?_
    rw [hbyte]

/-- The invariant does not depend on link counts either. -/
structure Uncounted (I : Fs → Prop) : Prop extends Robust I where
  nlink : ∀ {s s' i nlink}, I s → Consistent s' → s'.sb = s.sb →
    s'.node = Function.update s.node i { s.node i with nlink := nlink } → I s'

/-- Fields of a held inode other than its slots, its size and its type are changed on the disk
too. -/
theorem Uncounted.update {α : Type} {Q : α → Fs → Prop} {f : Dinode → Dinode} {m : M α}
    (hI : Uncounted I) (h : I s) (hi : Held s i)
    (hf : ∀ d, (f d).addrs = d.addrs ∧ (f d).size = d.size ∧ (f d).type = d.type)
    (hm : ∀ s', I s' → Keeps s s' → Wp NoDoubleFree m Q s') :
    Wp NoDoubleFree (do modifyCopy i f; iupdate i; m) Q s := by
  have hcons := hI.consistent h
  obtain ⟨haddrs, hsize, htype⟩ := hf (s.icache i).copy
  have htype' : (f (s.icache i).copy).type ≠ 0 := htype ▸ hcons.typed i hi.2
  have hsame := sameRefs_putInode i (f (s.icache i).copy) s
  have hnode := node_putInode hcons hi.2 haddrs hsize htype
  rw [wp_update]
  exact hm _ (hI.nlink h (hcons.putInode hi.2 haddrs hsize htype') hsame.tables.sb hnode)
    hsame.keeps

/-! ## Path names -/

/-- A directory, and a name for an entry of it. -/
def Parent (s : Fs) (x : ℕ × List UInt8) : Prop :=
  (s.node x.1).type = T_DIR ∧ x.2.length ≤ DIRSIZ ∧ 0 ∉ x.2

theorem Robust.namexLoop (hI : Robust I) (nameiparent : Bool) (k : ℕ) (path name : List UInt8)
    (ip : ℕ) (h : I s) : Wp NoDoubleFree (namexLoop nameiparent k path name ip) (fun r s' => I s' ∧
      (nameiparent = true → 0 ∉ path → ∀ x, r = some x → Parent s' x)) s := by
  have hnone (path : List UInt8) (ip : ℕ) (s : Fs) (h : I s) :
      Wp NoDoubleFree (do Disk.iput ip; pure none) (fun r s' => I s' ∧
        (nameiparent = true → 0 ∉ path → ∀ x, r = some x → Parent s' x)) s :=
    Wp.bind (wp_iput (hI.consistent h) ip) fun _ _ hputs => ⟨hI.put h hputs, by simp⟩
  induction k generalizing path name ip s with
  | zero => simp [Disk.namexLoop, NoDoubleFree]
  | succ k ih =>
    unfold Disk.namexLoop
    cases helem : skipelem path with
    | none =>
      dsimp only
      rw [wp_ite]
      exact ⟨fun _ => hnone path ip s h, fun hparent => ⟨h, fun heq => absurd heq hparent⟩⟩
    | some elem =>
      obtain ⟨hlen, hzero⟩ := skipelem_name helem
      refine Wp.bind (hI.ilock h ip) ?_
      intro _ s₁ hpost
      obtain ⟨hs₁, -, hheld, -⟩ := hpost
      have htype : (s₁.icache ip).copy.type = (s₁.node ip).type := by
        rw [(hI.consistent hs₁).node_valid hheld.2]
      rw [wp_bind, wp_get, wp_ite, wp_ite, htype]
      refine ⟨fun _ => hnone path ip s₁ hs₁, fun hdir => ⟨fun _ => ⟨hs₁, fun _ hpath x hx => ?_⟩,
        fun _ => ?_⟩⟩
      · obtain rfl := Option.some.inj hx
        exact ⟨not_not.mp hdir, hlen, (hzero hpath).1⟩
      refine Wp.bind (hI.dirlookup hs₁ hheld.2 elem.1) ?_
      intro r s₂ hpost₂
      cases r with
      | none => exact hnone path ip s₂ hpost₂.1
      | some next =>
        refine Wp.bind (wp_iput (hI.consistent hpost₂.1) ip) ?_
        intro _ s₃ hputs
        refine (ih elem.2 elem.1 next.1 (hI.put hpost₂.1 hputs)).mono ?_
        intro r s' hpost'
        exact ⟨hpost'.1, fun hparent hpath => hpost'.2 hparent (hzero hpath).2⟩

/-- `namex` with `nameiparent` finds a directory and a name that fits in an entry. -/
theorem Robust.namex (hI : Robust I) (h : I s) (p : ℕ) (path : List UInt8) (nameiparent : Bool) :
    Wp NoDoubleFree (namex p path nameiparent) (fun r s' => I s' ∧
      (nameiparent = true → 0 ∉ path → ∀ x, r = some x → Parent s' x)) s := by
  unfold Disk.namex
  rw [wp_bind, wp_get, wp_ite]
  refine ⟨fun _ => ?_, fun _ => ?_⟩
  · rw [wp_bind, wp_iget]
    exact hI.namexLoop _ _ _ _ _ (hI.get h ROOTINO)
  · rw [wp_bind, wp_idup]
    exact hI.namexLoop _ _ _ _ _ (hI.dup h _)

/-! ## Open files -/

theorem Robust.fileclose (hI : Robust I) (h : I s) (f : ℕ) :
    Wp NoDoubleFree (fileclose f) (fun _ => I) s := by
  unfold Disk.fileclose
  rw [wp_bind, wp_get]
  dsimp only
  rw [wp_ite, wp_ite]
  refine ⟨fun _ => noDoubleFree_panic (by decide), fun _ => ⟨fun _ => hI.of_tables h _ _ _,
    fun _ => ?_⟩⟩
  refine Wp.bind (P := fun _ => I) (hI.of_tables h _ _ _) ?_
  intro _ s₁ hs₁
  cases (s.ftable f).ip with
  | none => exact hs₁
  | some ip => exact (wp_iput (hI.consistent hs₁) ip).mono fun _ _ hputs => hI.put hs₁ hputs

/-- **Proof sketch.** By the steps of the code. The entry of the file table and the descriptor are
no part of what `I` is about (`of_tables`), and each of the calls between keeps `I`. -/
theorem Robust.openInode (hI : Robust I) (h : I s) (p ip omode : ℕ) :
    Wp NoDoubleFree (openInode p ip omode) (fun _ => I) s := by
  unfold Disk.openInode
  refine Wp.bind (P := fun _ => I) ?_ ?_
  · unfold filealloc
    rw [wp_bind, wp_get]
    split
    · exact h
    · exact hI.of_tables h _ _ _
  intro r s₁ hs₁
  cases r with
  | none => exact hI.iput hs₁ ip (-1)
  | some f =>
    refine Wp.bind (P := fun _ => I) ?_ ?_
    · unfold fdalloc
      rw [wp_bind, wp_get]
      split
      · exact hs₁
      · exact hI.of_tables hs₁ _ _ _
    intro r s₂ hs₂
    cases r with
    | none =>
      exact Wp.bind (hI.fileclose hs₂ f) fun _ _ hs₃ =>
        hI.iput hs₃ ip (-1)
    | some fd => exact hI.of_tables hs₂ _ _ _

/-! ## Calls -/

/-- `sys_open`, if `create` keeps the invariant. -/
theorem Robust.sysOpen (hI : Robust I) (h : I s) (p : ℕ) (path : List UInt8) (omode : ℕ)
    (hcreate : Wp NoDoubleFree (create p path T_FILE 0 0) (fun _ => I) s) :
    Wp NoDoubleFree (sysOpen p path omode) (fun _ => I) s := by
  unfold Disk.sysOpen
  rw [wp_ite]
  refine ⟨fun _ => Wp.bind hcreate ?_, fun _ => Wp.bind (hI.namex h p path false) ?_⟩
  · intro r s₁ hs₁
    cases r with
    | none => exact hs₁
    | some ip => exact hI.openInode hs₁ p ip omode
  · intro r s₁ hpost
    rcases r with _ | ⟨ip, name⟩
    · exact hpost.1
    refine Wp.bind (hI.ilock hpost.1 ip) ?_
    intro _ s₂ hpost₂
    rw [wp_bind, wp_get, wp_ite]
    exact ⟨fun _ => hI.iput hpost₂.1 ip (-1),
      fun _ => hI.openInode hpost₂.1 p ip omode⟩

/-- `create`, if the part that makes an inode keeps the invariant. -/
theorem Robust.create (hI : Robust I) (h : I s) (p : ℕ) (path : List UInt8)
    (type major minor : Int16)
    (hnew : ∀ s₁ dp name, I s₁ → Held s₁ dp → (0 ∉ path → Parent s₁ (dp, name)) →
      (s₁.node dp).lookup name = none → Wp NoDoubleFree (do
        let ip ← ialloc type
        Disk.ilock ip
        modifyCopy ip fun d => { d with major := major, minor := minor, nlink := 1 }
        iupdate ip
        if type = T_DIR then do
          modifyCopy dp fun d => { d with nlink := d.nlink + 1 }
          iupdate dp
          create.dots ip dp
          create.link dp name ip
        else create.link dp name ip) (fun _ => I) s₁) :
    Wp NoDoubleFree (create p path type major minor) (fun _ => I) s := by
  unfold Disk.create
  refine Wp.bind (hI.namex h p path true) ?_
  rintro r s₁ ⟨hs₁, hparent⟩
  rcases r with _ | ⟨dp, name⟩
  · exact hs₁
  refine Wp.bind (hI.ilock hs₁ dp) ?_
  rintro _ s₂ ⟨hs₂, -, hdp, hnode₂⟩
  refine Wp.bind (hI.dirlookup hs₂ hdp.2 name) ?_
  rintro r s₃ ⟨hs₃, hnone, -⟩
  rcases r with _ | ⟨ip, off⟩
  · obtain ⟨rfl, hlookup⟩ := hnone rfl
    refine hnew s₃ dp name hs₃ hdp (fun hpath => ?_) hlookup
    rw [Parent, hnode₂]
    exact hparent rfl hpath _ rfl
  · refine Wp.bind (wp_iput (hI.consistent hs₃) dp) ?_
    intro _ s₄ hputs
    refine Wp.bind (hI.ilock (hI.put hs₃ hputs) ip) ?_
    rintro _ s₅ ⟨hs₅, -⟩
    rw [wp_bind, wp_get, wp_ite]
    exact ⟨fun _ => hs₅, fun _ => hI.iput hs₅ ip none⟩

/-- `sys_link`, if `dirlink` keeps the invariant. -/
theorem Uncounted.sysLink (hI : Uncounted I) (h : I s) (p : ℕ) (old new : List UInt8)
    (hdirlink : ∀ s₀ s₁ ip dp name, I s₀ → (s₀.node ip).type ≠ 0 → I s₁ → Held s₁ dp →
      (0 ∉ new → Parent s₁ (dp, name)) →
      Wp NoDoubleFree (dirlink dp name ip) (fun _ => I) s₁) :
    Wp NoDoubleFree (sysLink p old new) (fun _ => I) s := by
  have hbad (ip : ℕ) (s : Fs) (h : I s) : Wp NoDoubleFree (sysLink.bad ip) (fun _ => I) s := by
    unfold sysLink.bad
    refine Wp.bind (hI.ilock h ip) ?_
    rintro _ s₁ ⟨hs₁, -, hip, -⟩
    exact hI.update hs₁ hip (fun d => ⟨rfl, rfl, rfl⟩) fun s₂ hs₂ _ => hI.iput hs₂ ip (-1)
  unfold Disk.sysLink
  refine Wp.bind (hI.namex h p old false) ?_
  rintro r s₁ ⟨hs₁, -⟩
  rcases r with _ | ⟨ip, name⟩
  · exact hs₁
  refine Wp.bind (hI.ilock hs₁ ip) ?_
  rintro _ s₂ ⟨hs₂, -, hip, -⟩
  have hip_type : (s₂.node ip).type ≠ 0 := by
    rw [type_node]
    exact ((hI.consistent hs₂).cached ip hip.2).2
  rw [wp_bind, wp_get, wp_ite]
  refine ⟨fun _ => hI.iput hs₂ ip (-1), fun _ => ?_⟩
  refine hI.update hs₂ hip (fun d => ⟨rfl, rfl, rfl⟩) fun s₃ hs₃ _ => ?_
  refine Wp.bind (hI.namex hs₃ p new true) ?_
  rintro r s₄ ⟨hs₄, hparent⟩
  rcases r with _ | ⟨dp, name⟩
  · exact hbad ip s₄ hs₄
  refine Wp.bind (hI.ilock hs₄ dp) ?_
  rintro _ s₅ ⟨hs₅, -, hdp, hnode₅⟩
  refine Wp.bind (hdirlink s₂ s₅ ip dp name hs₂ hip_type hs₅ hdp fun hpath => ?_) ?_
  · rw [Parent, hnode₅]
    exact hparent rfl hpath _ rfl
  intro linked s₆ hs₆
  refine Wp.bind (wp_iput (hI.consistent hs₆) dp) ?_
  intro _ s₇ hputs
  have hs₇ := hI.put hs₆ hputs
  rw [wp_ite]
  exact ⟨fun _ => hI.iput hs₇ ip 0, fun _ => hbad ip s₇ hs₇⟩

/-- The parent is put first, so the inode must have a reference of its own. -/
theorem Uncounted.drop (hI : Uncounted I) (h : I s) (hip : Held s ip)
    (href : ip = dp → 2 ≤ (s.icache dp).ref) :
    Wp NoDoubleFree (sysUnlink.drop dp ip) (fun _ => I) s := by
  unfold sysUnlink.drop
  refine Wp.bind (wp_iput (hI.consistent h) dp) ?_
  intro _ s₁ hputs
  exact hI.update (hI.put h hputs) (hputs.held href hip) (fun d => ⟨rfl, rfl, rfl⟩)
    fun s₂ hs₂ _ => hI.iput hs₂ ip 0

/-- `sys_unlink`, if clearing the entry keeps the invariant.

**Proof sketch.** By the steps of the code. All of them but the clearing of the entry are about
inodes in memory and keep `I` as any call of theirs does. When the entry is cleared, the lock is
held, the inode is a directory, the name is neither "." nor "..", and the lookup has found the
entry: this is what `hremove` asks for. -/
theorem Uncounted.sysUnlink (hI : Uncounted I) (h : I s) (p : ℕ) (path : List UInt8)
    (hremove : ∀ s₁ dp name ip k, I s₁ → Held s₁ dp → (s₁.node dp).type = T_DIR →
      ¬(name = [chr '.'] ∨ name = [chr '.', chr '.']) →
      (s₁.node dp).lookup name = some (ip, k) →
      Wp NoDoubleFree (sysUnlink.remove dp (16 * k)) (fun _ s' => I s' ∧ SameRefs s₁ s') s₁) :
    Wp NoDoubleFree (sysUnlink p path) (fun _ => I) s := by
  unfold Disk.sysUnlink
  refine Wp.bind (hI.namex h p path true) ?_
  rintro r s₁ ⟨hs₁, -⟩
  rcases r with _ | ⟨dp, name⟩
  · exact hs₁
  refine Wp.bind (hI.ilock hs₁ dp) ?_
  rintro _ s₂ ⟨hs₂, -, hdp, -⟩
  rw [wp_ite]
  refine ⟨fun _ => hI.iput hs₂ dp (-1), fun hdots => ?_⟩
  refine Wp.bind (hI.dirlookup hs₂ hdp.2 name) ?_
  rintro r s₃ ⟨hs₃, -, hkeeps₃, hnode₃, hfound⟩
  rcases r with _ | ⟨ip, off⟩
  · exact hI.iput hs₃ dp (-1)
  obtain ⟨href₃, hdir, k, rfl, hlookup⟩ := hfound ip off rfl
  refine Wp.bind (hI.ilock hs₃ ip) ?_
  rintro _ s₄ ⟨hs₄, hkeeps₄, hip, hnode₄⟩
  have hdp₄ := hkeeps₄.held dp (hkeeps₃.held dp hdp)
  have href : ip = dp → 2 ≤ (s₄.icache dp).ref := by
    rintro rfl
    have hpos := hdp.1
    have hle := hkeeps₄.ref ip
    omega
  have hclear : Wp NoDoubleFree (sysUnlink.remove dp (16 * k))
      (fun _ s' => I s' ∧ SameRefs s₄ s') s₄ := by
    refine hremove s₄ dp name ip k hs₄ hdp₄ ?_ hdots ?_
    · rwa [hnode₄, hnode₃]
    · rwa [hnode₄, hnode₃]
  have hdrop (s₅ : Fs) (hs₅ : I s₅) (hkeeps₅ : Keeps s₄ s₅) :
      Wp NoDoubleFree (sysUnlink.drop dp ip) (fun _ => I) s₅ :=
    hI.drop hs₅ (hkeeps₅.held ip hip) fun heq => (href heq).trans (hkeeps₅.ref dp)
  rw [wp_bind, wp_get, wp_ite, wp_ite]
  refine ⟨fun _ => noDoubleFree_panic (by decide), fun _ => ⟨fun _ => ?_, fun _ => ?_⟩⟩
  · refine Wp.bind (wp_isdirempty (hI.consistent hs₄) hip.2 (.inr allows_noDoubleFree)) ?_
    rintro empty s' ⟨rfl, -⟩
    rw [wp_ite]
    refine ⟨fun _ => Wp.bind hclear ?_, fun _ => ?_⟩
    · rintro _ s₅ ⟨hs₅, hsame₅⟩
      exact hI.update hs₅ (hsame₅.keeps.held dp hdp₄) (fun d => ⟨rfl, rfl, rfl⟩)
        fun s₆ hs₆ hkeeps₆ => hdrop s₆ hs₆ (hsame₅.keeps.trans hkeeps₆)
    · exact Wp.bind (wp_iput (hI.consistent hs₄) ip) fun _ s₅ hputs =>
        hI.iput (hI.put hs₄ hputs) dp (-1)
  · refine Wp.bind hclear ?_
    rintro _ s₅ ⟨hs₅, hsame₅⟩
    exact hdrop s₅ hs₅ hsame₅.keeps

/-- `sys_mkdir` and `sys_mknod`, if `create` keeps the invariant. -/
theorem Robust.makeNode (hI : Robust I) (p : ℕ) (path : List UInt8) (type major minor : Int16)
    (hcreate : Wp NoDoubleFree (Disk.create p path type major minor) (fun _ => I) s) :
    Wp NoDoubleFree (makeNode p path type major minor) (fun _ => I) s := by
  refine Wp.bind hcreate ?_
  intro r s₁ hs₁
  cases r with
  | none => exact hs₁
  | some ip => exact hI.iput hs₁ ip 0

/-- **Proof sketch.** By the steps of the code, each of which keeps `I`; the directory of the
process is no part of what `I` is about. -/
theorem Robust.sysChdir (hI : Robust I) (h : I s) (p : ℕ) (path : List UInt8) :
    Wp NoDoubleFree (sysChdir p path) (fun _ => I) s := by
  unfold Disk.sysChdir
  refine Wp.bind (hI.namex h p path false) ?_
  intro r s₁ hpost₁
  rcases r with _ | ⟨ip, name⟩
  · exact hpost₁.1
  refine Wp.bind (hI.ilock hpost₁.1 ip) ?_
  intro _ s₂ hpost₂
  rw [wp_bind, wp_get, wp_ite]
  refine ⟨fun _ => hI.iput hpost₂.1 ip (-1), fun _ => ?_⟩
  refine Wp.bind (wp_iput (hI.consistent hpost₂.1) (s₂.cwd p)) ?_
  intro _ s₃ hputs
  exact hI.of_tables (hI.put hpost₂.1 hputs) _ _ _

theorem Robust.sysClose (hI : Robust I) (h : I s) (p : ℕ) (fd : ℤ) :
    Wp NoDoubleFree (sysClose p fd) (fun _ => I) s := by
  refine Wp.bind (P := fun _ s' => s' = s) rfl ?_
  rintro r s' rfl
  cases r with
  | none => exact h
  | some f =>
    refine Wp.bind (P := fun _ => I) (hI.of_tables h _ _ _) ?_
    intro _ s₁ hs₁
    exact Wp.bind (hI.fileclose hs₁ f) fun _ _ hs₂ => hs₂

end HgXv6.Disk
