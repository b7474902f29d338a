import HgXv6.Kernel.Directory

set_option relaxedAutoImplicit false
set_option autoImplicit false

/-!
# Following a path name

`namex` follows a path name from directory to directory, takes a reference to each inode that it
reaches and puts it again. In the end the references are those from before and one to the result,
and the disk is not changed: an inode without links is freed by `iput` only if the path had the
last reference to it, and somebody has held it from before.

## Main definitions

* `HgXv6.Disk.walk`, `HgXv6.Disk.Fs.resolve` — what a path name means, by the tables of entries.
* `HgXv6.Disk.Settled` — an inode that a name leads to has links or is held.
* `HgXv6.Disk.Holds`, `HgXv6.Disk.Took` — the references that a call has taken so far.

## Main results

* `HgXv6.Disk.Took.put` — the references can be put, and nothing is freed.
* `HgXv6.Disk.wp_namex_took` — `namex` does what the path means.
-/

namespace HgXv6.Disk

open Prog

variable {s s₁ s₂ : Fs} {H : List ℕ} {i dp : ℕ}

/-! ## What a path name means -/

/-- Follow a path from an inode, for at most so many elements: the inode that is reached, or with
`nameiparent` the directory of the last element, and the last name. -/
def walk (n : ℕ → Node) (nameiparent : Bool) :
    ℕ → List UInt8 → List UInt8 → ℕ → Option (ℕ × List UInt8)
  | 0, _, _, _ => none
  | k + 1, path, name, ip =>
    match skipelem path with
    | none => if nameiparent then none else some (ip, name)
    | some (name, path) =>
      if (n ip).type ≠ T_DIR then none
      else if nameiparent ∧ path = [] then some (ip, name)
      else
        match (n ip).lookup name with
        | none => none
        | some (next, _) => walk n nameiparent k path name next

/-- What a path name means to the process `p`. -/
def Fs.resolve (s : Fs) (p : ℕ) (path : List UInt8) (nameiparent : Bool) :
    Option (ℕ × List UInt8) :=
  walk s.node nameiparent (path.length + 1) path []
    (if path.head? = some (chr '/') then ROOTINO else s.cwd p)

/-- Only the types and the entries matter. -/
theorem walk_congr {n n' : ℕ → Node} (htype : ∀ i, (n' i).type = (n i).type)
    (hcontents : ∀ i, (n' i).contents = (n i).contents) (nameiparent : Bool) (k : ℕ)
    (path name : List UInt8) (ip : ℕ) :
    walk n' nameiparent k path name ip = walk n nameiparent k path name ip := by
  have hlookup (i : ℕ) : (n' i).lookup = (n i).lookup := lookup_congr (hcontents i)
  induction k generalizing path name ip with
  | zero => rfl
  | succ k ih =>
    simp only [walk, htype, hlookup, ih]

/-- An element of a path fits in a directory entry. -/
theorem skipelem_name {path name rest : List UInt8} (h : skipelem path = some (name, rest)) :
    name.length ≤ DIRSIZ ∧ (0 ∉ path → 0 ∉ name ∧ 0 ∉ rest) := by
  unfold skipelem at h
  dsimp only at h
  split_ifs at h
  obtain ⟨rfl, rfl⟩ := Prod.mk.inj (Option.some.inj h)
  refine ⟨by simp, fun hzero => ⟨fun hmem => hzero ?_, fun hmem => hzero ?_⟩⟩
  · exact (List.dropWhile_sublist _).subset
      ((List.takeWhile_sublist _).subset (List.mem_of_mem_take hmem))
  · exact (List.dropWhile_sublist _).subset
      ((List.dropWhile_sublist _).subset ((List.dropWhile_sublist _).subset hmem))

/-- The directory and the name that `nameiparent` finds. -/
theorem walk_parent {n : ℕ → Node} {k : ℕ} {path name name' : List UInt8} {ip : ℕ}
    (h : walk n true k path name ip = some (dp, name')) :
    (n dp).type = T_DIR ∧ name'.length ≤ DIRSIZ ∧ (0 ∉ path → 0 ∉ name') := by
  induction k generalizing path name ip with
  | zero => cases h
  | succ k ih =>
    unfold walk at h
    cases helem : skipelem path with
    | none => simp [helem] at h
    | some elem =>
      obtain ⟨hlen, hzero⟩ := skipelem_name helem
      simp only [helem] at h
      split_ifs at h with htype hlast
      · obtain ⟨rfl, rfl⟩ := Prod.mk.inj (Option.some.inj h)
        exact ⟨not_not.mp htype, hlen, fun hpath => (hzero hpath).1⟩
      · cases hlookup : (n ip).lookup elem.1 with
        | none => simp [hlookup] at h
        | some next =>
          simp only [hlookup] at h
          obtain ⟨hdir, hlen', hzero'⟩ := ih h
          exact ⟨hdir, hlen', fun hpath => hzero' (hzero hpath).2⟩

theorem resolve_parent {p : ℕ} {path name : List UInt8}
    (h : s.resolve p path true = some (dp, name)) :
    (s.node dp).type = T_DIR ∧ name.length ≤ DIRSIZ ∧ (0 ∉ path → 0 ∉ name) := walk_parent h

/-! ## Inodes without links -/

/-- An inode without links is held by somebody, who frees it in the end. -/
def Safe (s : Fs) (i : ℕ) : Prop := (s.node i).type ≠ 0 → (s.node i).nlink = 0 → Held s i

/-- A path name may lead to the inode. -/
def Named (s : Fs) (i : ℕ) : Prop :=
  i = ROOTINO ∨ (∃ p, s.cwd p = i) ∨
    ∃ d k, (s.node d).type = T_DIR ∧ i ≠ 0 ∧ ((s.node d).entry k).inum = i

/-- What holds between two calls: an inode that a name leads to has links or is held, and an entry
of the file table that is free has no inode. An i-number fits in a directory entry, and 0 is
none. -/
structure Settled (s : Fs) : Prop where
  consistent : Consistent s
  safe : ∀ i, Named s i → Safe s i
  closed : ∀ f, (s.ftable f).ref = 0 → (s.ftable f).ip = none
  small : s.sb.ninodes ≤ 2 ^ 16
  zero : (s.dinode 0).type = 0

/-- Only the types, the entries and the current directories matter. -/
theorem named_congr (hcwd : s₁.cwd = s.cwd) (htype : ∀ i, (s₁.node i).type = (s.node i).type)
    (hcontents : ∀ i, (s₁.node i).contents = (s.node i).contents) : Named s₁ i ↔ Named s i := by
  simp only [Named, hcwd, htype, fun d => entry_congr (hcontents d)]

/-! ## The references of a call -/

/-- Since the state `s`, the call has taken the references in the list `H`. -/
structure Holds (H : List ℕ) (s s' : Fs) : Prop where
  consistent : Consistent s'
  tables : SameTables s s'
  ref : ∀ i, (s'.icache i).ref = (s.icache i).ref + H.count i
  held : ∀ i, Held s i → Held s' i

/-- Putting a reference that the call has. -/
theorem Holds.put (h : Holds (i :: H) s s₁) (hputs : Puts i s₁ s₂) : Holds H s s₂ where
  consistent := hputs.consistent
  tables := h.tables.trans hputs.tables
  ref := by
    intro j
    have href := h.ref j
    by_cases hj : j = i
    · subst hj
      rw [List.count_cons_self] at href
      rw [hputs.ref]
      omega
    · rw [List.count_cons_of_ne (Ne.symm hj)] at href
      rw [(hputs.other j hj).1, href]
  held := by
    intro j hj
    refine hputs.held (fun hji => ?_) (h.held j hj)
    have href := h.ref i
    have hheld := hj.1
    rw [List.count_cons_self] at href
    rw [hji] at hheld
    omega

/-- An operation that takes and gives up no reference. -/
theorem Holds.same (h : Holds H s s₁) (hcons : Consistent s₂) (hsame : SameRefs s₁ s₂) :
    Holds H s s₂ where
  consistent := hcons
  tables := h.tables.trans hsame.tables
  ref := fun j => (hsame.ref j).trans (h.ref j)
  held := fun j hj => hsame.keeps.held j (h.held j hj)

theorem Holds.refl (h : Consistent s) : Holds [] s s :=
  ⟨h, SameTables.refl s, fun _ => rfl, fun _ hj => hj⟩

/-- References are taken in two parts. -/
theorem Holds.trans {H' : List ℕ} (h : Holds H s s₁) (h' : Holds H' s₁ s₂) :
    Holds (H' ++ H) s s₂ where
  consistent := h'.consistent
  tables := h.tables.trans h'.tables
  ref := by
    intro j
    rw [h'.ref, h.ref, List.count_append]
    omega
  held := fun j hj => h'.held j (h.held j hj)

theorem Holds.get (h : Holds H s s₁) (i : ℕ) : Holds (i :: H) s (s₁.get i) where
  consistent := h.consistent.get i
  tables := h.tables.setInode i _
  ref := by
    intro j
    rw [ref_get, h.ref, List.count_cons]
    by_cases hj : j = i
    · subst hj
      simp [Nat.add_assoc]
    · simp [hj, Ne.symm hj]
  held := fun j hj => (keeps_get i).held j (h.held j hj)

theorem Holds.lock (h : Holds H s s₁) (htype : (s₁.dinode i).type ≠ 0) :
    Holds H s (s₁.lock i) where
  consistent := h.consistent.lock htype
  tables := h.tables.trans (tables_lock i)
  ref := fun j => (ref_lock i j).trans (h.ref j)
  held := fun j hj => (keeps_lock i).held j (h.held j hj)

/-- Only the number of the references to each inode matters. -/
theorem Holds.perm {H' : List ℕ} (h : Holds H s s₁) (hperm : H.Perm H') : Holds H' s s₁ :=
  ⟨h.consistent, h.tables, fun j => (h.ref j).trans (by rw [hperm.count_eq]), h.held⟩

/-- What is left to prove of a state that a call leaves. -/
theorem Settled.of_holds (hs : Settled s) (h : Holds H s s₁) (hzero : (s₁.node 0).type = 0)
    (hsafe : ∀ i, Named s₁ i → Safe s₁ i) : Settled s₁ where
  consistent := h.consistent
  safe := hsafe
  closed := by
    rw [h.tables.ftable]
    exact hs.closed
  small := by
    rw [h.tables.sb]
    exact hs.small
  zero := by
    rw [← type_node]
    exact hzero

/-- Since the state `s`, the call has taken the references in the list `H`, and else done nothing.
Names lead to the inodes. -/
structure Took (H : List ℕ) (s s' : Fs) : Prop extends Holds H s s' where
  dinode : s'.dinode = s.dinode
  data : s'.data = s.data
  safe : ∀ i ∈ H, Safe s i

theorem Took.refl (h : Consistent s) : Took [] s s := ⟨Holds.refl h, rfl, rfl, by simp⟩

theorem Took.node (h : Took H s s₁) : s₁.node = s.node := node_congr h.dinode h.data

theorem Took.get (h : Took H s s₁) (hsafe : Safe s i) : Took (i :: H) s (s₁.get i) :=
  ⟨h.toHolds.get i, h.dinode, h.data, List.forall_mem_cons.mpr ⟨hsafe, h.safe⟩⟩

/-- `idup` -/
theorem Took.dup (h : Took H s s₁) (hsafe : Safe s i) : Took (i :: H) s (s₁.dup i) := by
  refine ⟨⟨h.consistent.setInode fun hv => h.consistent.cached i hv, h.tables.setInode i _,
    fun j => ?_, fun j hj => ?_⟩, h.dinode, h.data, List.forall_mem_cons.mpr ⟨hsafe, h.safe⟩⟩
  · rw [List.count_cons, ← Nat.add_assoc, ← h.ref]
    by_cases hj : j = i
    · subst hj
      simp [Fs.dup]
    · simp [Fs.dup, hj, Ne.symm hj]
  · exact (keeps_dup i).held j (h.held j hj)

theorem Took.perm {H' : List ℕ} (h : Took H s s₁) (hperm : H.Perm H') : Took H' s s₁ :=
  ⟨h.toHolds.perm hperm, h.dinode, h.data, fun i hi => h.safe i (hperm.mem_iff.mpr hi)⟩

/-- A reference that the call has taken is not the last one to an inode without links. -/
theorem Took.not_last (h : Took (i :: H) s s₁) : ¬Last s₁ i := by
  rintro ⟨href, hv, hnlink⟩
  have hnode := h.consistent.node_valid hv
  have htype := h.consistent.typed i hv
  have hheld : Held s i := by
    refine h.safe i List.mem_cons_self ?_ ?_
    · rw [← h.node, hnode]
      exact htype
    · rw [← h.node, hnode]
      exact hnlink
  have href' := h.ref i
  rw [href, List.count_cons_self] at href'
  have hpos := hheld.1
  omega

/-- Putting a reference that the call has taken frees nothing. -/
theorem Took.put (h : Took (i :: H) s s₁) (hputs : Puts i s₁ s₂) : Took H s s₂ := by
  obtain ⟨hdinode, hdata, -⟩ := hputs.kept h.not_last
  exact ⟨h.toHolds.put hputs, hdinode.trans h.dinode, hdata.trans h.data,
    fun j hj => h.safe j (List.mem_cons_of_mem i hj)⟩

theorem wp_put {E : Stop → Prop} {Q : Unit → Fs → Prop} (h : Took (i :: H) s s₁)
    (hQ : ∀ s', Took H s s' → Q ⟨⟩ s') : Wp E (iput i) Q s₁ :=
  (wp_iput h.consistent i).mono fun _ s' hputs => hQ s' (h.put hputs)

/-- Reading an inode into memory does not change the disk. -/
theorem disk_lock (i : ℕ) (s : Fs) : (s.lock i).dinode = s.dinode ∧ (s.lock i).data = s.data := by
  unfold Fs.lock
  split_ifs
  · exact ⟨rfl, rfl⟩
  · exact ⟨rfl, rfl⟩

theorem node_lock (i : ℕ) : (s.lock i).node = s.node :=
  node_congr (disk_lock i s).1 (disk_lock i s).2

theorem wp_lock {Q : Unit → Fs → Prop} (h : Took H s s₁)
    (hQ : ∀ s', Took H s s' → Keeps s₁ s' → Held s' i → (s.node i).type ≠ 0 → Q ⟨⟩ s') :
    Wp NoDoubleFree (ilock i) Q s₁ := by
  refine wp_ilock h.consistent fun href htype => ?_
  obtain ⟨hdinode, hdata⟩ := disk_lock i s₁
  refine hQ _ ⟨h.toHolds.lock htype, hdinode.trans h.dinode, hdata.trans h.data, h.safe⟩
    (keeps_lock i) (held_lock href) ?_
  rw [type_node, ← h.dinode]
  exact htype

/-- The type of an inode in memory. -/
theorem Took.type_copy (h : Took H s s₁) (hheld : Held s₁ i) :
    (s₁.icache i).copy.type = (s.node i).type := by
  rw [← h.node, h.consistent.node_valid hheld.2]

/-- The link count of an inode in memory. -/
theorem Took.nlink_copy (h : Took H s s₁) (hheld : Held s₁ i) :
    (s₁.icache i).copy.nlink = (s.node i).nlink := by
  rw [← h.node, h.consistent.node_valid hheld.2]

/-- `dirlookup` with references. -/
theorem wp_lookup {Q : Option (ℕ × ℕ) → Fs → Prop} (hs : Settled s) (h : Took H s s₁)
    (hheld : Held s₁ dp) {name : List UInt8}
    (hnone : (s.node dp).lookup name = none → Q none s₁)
    (hsome : ∀ i k s', (s.node dp).lookup name = some (i, k) → Took (i :: H) s s' → Keeps s₁ s' →
      Q (some (i, 16 * k)) s') :
    Wp NoDoubleFree (dirlookup dp name) Q s₁ := by
  refine wp_dirlookup h.consistent hheld.2 (.inr allows_noDoubleFree) (fun _ hlookup => ?_)
    fun i k htype hlookup => ?_
  · rw [h.node] at hlookup
    exact hnone hlookup
  · rw [h.node] at htype hlookup
    obtain ⟨hne, hinum, -⟩ := lookup_eq_some hlookup
    have hnamed : Named s i := .inr (.inr ⟨dp, k, htype, hne, hinum⟩)
    exact hsome i k _ hlookup (h.get (hs.safe i hnamed)) (keeps_get i)

/-! ## `namex` -/

/-- The loop of `namex`. -/
theorem wp_namexLoop_took {Q : Option (ℕ × List UInt8) → Fs → Prop} (hs : Settled s)
    (nameiparent : Bool) (k : ℕ) (path name : List UInt8) (ip : ℕ) (s₁ : Fs)
    (h : Took [ip] s s₁)
    (hnone : ∀ s', walk s.node nameiparent k path name ip = none → Took [] s s' → Q none s')
    (hsome : ∀ i name' s', walk s.node nameiparent k path name ip = some (i, name') →
      Took [i] s s' → Q (some (i, name')) s') :
    Wp NoDoubleFree (namexLoop nameiparent k path name ip) Q s₁ := by
  induction k generalizing path name ip s₁ with
  | zero => simp [namexLoop, NoDoubleFree]
  | succ k ih =>
    unfold namexLoop
    unfold walk at hnone hsome
    cases helem : skipelem path with
    | none =>
      simp only [helem] at hnone hsome ⊢
      rw [wp_ite]
      refine ⟨fun hparent => ?_, fun hparent => ?_⟩
      · rw [wp_bind]
        exact wp_put h fun s' htook => hnone s' (if_pos hparent) htook
      · exact hsome ip name s₁ (if_neg hparent) h
    | some elem =>
      simp only [helem] at hnone hsome ⊢
      rw [wp_bind]
      refine wp_lock h fun s₂ h₂ _ hheld _ => ?_
      rw [wp_bind, wp_get, wp_ite, wp_ite, h₂.type_copy hheld]
      refine ⟨fun htype => ?_, fun htype => ⟨fun hlast => ?_, fun hlast => ?_⟩⟩
      · rw [wp_bind]
        exact wp_put h₂ fun s' htook => hnone s' (if_pos htype) htook
      · refine hsome ip elem.1 s₂ ?_ h₂
        rw [if_neg htype, if_pos hlast]
      · rw [if_neg htype, if_neg hlast] at hnone hsome
        rw [wp_bind]
        refine wp_lookup hs h₂ hheld (fun hlookup => ?_) fun next off s₃ hlookup h₃ _ => ?_
        · simp only [hlookup] at hnone
          rw [wp_bind]
          exact wp_put h₂ fun s' htook => hnone s' trivial htook
        · simp only [hlookup] at hnone hsome
          rw [wp_bind]
          refine wp_put (h₃.perm (List.Perm.swap ip next [])) fun s₄ h₄ => ?_
          exact ih elem.2 elem.1 next s₄ h₄ hnone hsome

/-- `namex` finds what the path means, takes a reference to it, and else does nothing.

**Proof sketch.** The walk begins at the root or at the working directory, with a reference to it,
and the loop goes on from there (`wp_namexLoop_took`), as `Fs.resolve` does. Both places are safe,
that is, a reference to them can be given back without anything being freed. -/
theorem wp_namex_took {Q : Option (ℕ × List UInt8) → Fs → Prop} (hs : Settled s) (p : ℕ)
    (path : List UInt8) (nameiparent : Bool)
    (hnone : ∀ s', s.resolve p path nameiparent = none → Took [] s s' → Q none s')
    (hsome : ∀ i name s', s.resolve p path nameiparent = some (i, name) → Took [i] s s' →
      Q (some (i, name)) s') :
    Wp NoDoubleFree (namex p path nameiparent) Q s := by
  unfold namex
  unfold Fs.resolve at hnone hsome
  rw [wp_bind, wp_get, wp_ite]
  have hrefl := Took.refl hs.consistent
  refine ⟨fun hroot => ?_, fun hroot => ?_⟩
  · rw [if_pos hroot] at hnone hsome
    rw [wp_bind, wp_iget]
    exact wp_namexLoop_took hs _ _ _ _ _ _ (hrefl.get (hs.safe _ (.inl rfl))) hnone hsome
  · rw [if_neg hroot] at hnone hsome
    rw [wp_bind, wp_idup]
    have hnamed : Named s (s.cwd p) := .inr (.inl ⟨p, rfl⟩)
    exact wp_namexLoop_took hs _ _ _ _ _ _ (hrefl.dup (hs.safe _ hnamed)) hnone hsome

end HgXv6.Disk
