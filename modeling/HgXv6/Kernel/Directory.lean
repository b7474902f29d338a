import HgXv6.Kernel.Inodes

set_option relaxedAutoImplicit false
set_option autoImplicit false

/-!
# Directories as tables of entries

A directory is a table of entries, of which the empty ones have the i-number 0. The loops over
the bytes of a directory search this table, and a write at the offset of an entry replaces the
entry and leaves the others.

## Main definitions

* `HgXv6.Disk.Node.entry`, `HgXv6.Disk.Node.setEntry` — the table.
* `HgXv6.Disk.Node.find`, `HgXv6.Disk.Node.lookup` — the searches.

## Main results

* `HgXv6.Disk.entry_setEntry` — what a write does to the table.
* `HgXv6.Disk.wp_dirlookup`, `HgXv6.Disk.wp_dirlink`, `HgXv6.Disk.wp_isdirempty` — the source
  functions on tables.
-/

namespace HgXv6.Disk

open Prog

variable {s : Fs}

/-! ## Tables -/

/-- The entry with an index. Behind the end there are empty entries. -/
def Node.entry (n : Node) (k : ℕ) : Dirent :=
  if 16 * k + 16 ≤ n.contents.length then Dirent.ofBytes ((n.contents.drop (16 * k)).take 16)
  else ⟨0, []⟩

/-- The first entry from the index `k` on with the property `c`. -/
def Node.find (n : Node) (c : Dirent → Bool) (k : ℕ) : Option ℕ :=
  (List.range' k (n.contents.length / 16 - k)).find? fun j => c (n.entry j)

/-- The i-number under a name, and the index of the entry. -/
def Node.lookup (n : Node) (name : List UInt8) : Option (ℕ × ℕ) :=
  (n.find (fun de => de.inum ≠ 0 ∧ de.name = name) 0).map fun k => ((n.entry k).inum, k)

/-- Replace an entry. -/
def Node.setEntry (n : Node) (k : ℕ) (de : Dirent) : Node := n.write (16 * k) de.bytes

variable {n : Node} {c : Dirent → Bool} {k j : ℕ}

/-- An entry that is not empty is within the directory. -/
theorem entry_lt (h : (n.entry k).inum ≠ 0) : 16 * k + 16 ≤ n.contents.length := by
  unfold Node.entry at h
  split_ifs at h with hk
  · exact hk
  · exact absurd rfl h

theorem find_eq_some (h : n.find c k = some j) :
    k ≤ j ∧ 16 * j + 16 ≤ n.contents.length ∧ c (n.entry j) = true := by
  have hrange := List.mem_range'_1.mp (List.mem_of_find?_eq_some h)
  have hdiv := Nat.div_mul_le_self n.contents.length 16
  have hc : c (n.entry j) = true := List.find?_some (p := fun j => c (n.entry j)) h
  exact ⟨hrange.1, by omega, hc⟩

theorem find_eq_none (h : n.find c k = none) (hk : k ≤ j) (hj : 16 * j + 16 ≤ n.contents.length) :
    c (n.entry j) = false := by
  have hall := List.find?_eq_none.mp h j (List.mem_range'_1.mpr ⟨hk, by omega⟩)
  simpa using hall

/-- The entry `k` is looked at first. -/
theorem find_of_le (hk : 16 * k + 16 ≤ n.contents.length) :
    n.find c k = if c (n.entry k) then some k else n.find c (k + 1) := by
  have hcons : n.contents.length / 16 - k = n.contents.length / 16 - (k + 1) + 1 := by omega
  rw [Node.find, hcons, List.range'_succ, List.find?_cons]
  cases hc : c (n.entry k) with
  | true => rfl
  | false => rfl

theorem find_of_ge (hk : n.contents.length ≤ 16 * k) : n.find c k = none := by
  have hnil : n.contents.length / 16 - k = 0 := by omega
  rw [Node.find, hnil]
  rfl

/-- Only the contents matter. -/
theorem entry_congr {n' : Node} (h : n'.contents = n.contents) : n'.entry = n.entry := by
  cases n
  cases n'
  cases h
  rfl

theorem lookup_congr {n' : Node} (h : n'.contents = n.contents) : n'.lookup = n.lookup := by
  cases n
  cases n'
  cases h
  rfl

theorem lookup_eq_some {name : List UInt8} {i : ℕ} (h : n.lookup name = some (i, k)) :
    i ≠ 0 ∧ (n.entry k).inum = i ∧ (n.entry k).name = name := by
  obtain ⟨j, hj, heq⟩ := Option.map_eq_some_iff.mp h
  obtain ⟨rfl, rfl⟩ := Prod.mk.inj heq
  obtain ⟨-, -, hc⟩ := find_eq_some hj
  rw [decide_eq_true_eq] at hc
  exact ⟨hc.1, rfl, hc.2⟩

theorem lookup_eq_none {name : List UInt8} (h : n.lookup name = none) (k : ℕ)
    (hk : (n.entry k).inum ≠ 0) : (n.entry k).name ≠ name := by
  intro hname
  have hc := find_eq_none (Option.map_eq_none_iff.mp h) (Nat.zero_le k) (entry_lt hk)
  rw [decide_eq_false_iff_not] at hc
  exact hc ⟨hk, hname⟩

/-! ## Writing an entry -/

/-- An entry that fits in its bytes. -/
structure Dirent.Fits (de : Dirent) : Prop where
  inum : de.inum < 2 ^ 16
  length : de.name.length ≤ DIRSIZ
  terminated : 0 ∉ de.name

@[simp] theorem length_bytes (de : Dirent) : de.bytes.length = 16 := by
  simp only [Dirent.bytes, List.length_append, List.length_cons, List.length_nil, List.length_take,
    List.length_replicate]
  unfold DIRSIZ
  omega

/-- An entry that fits is read back as it was written. -/
theorem ofBytes_bytes {de : Dirent} (h : de.Fits) : Dirent.ofBytes de.bytes = de := by
  obtain ⟨inum, name⟩ := de
  obtain ⟨hinum, hlen, hzero⟩ := h
  simp only at hinum hlen hzero
  have hname : (name ++ List.replicate (DIRSIZ - name.length) 0).takeWhile (· ≠ 0) = name := by
    rw [List.takeWhile_append_of_pos]
    · cases DIRSIZ - name.length with
      | zero => simp
      | succ m => simp [List.replicate_succ]
    · intro a ha
      have hne : a ≠ 0 := fun heq => hzero (heq ▸ ha)
      simpa using hne
  have hfit : (name ++ List.replicate (DIRSIZ - name.length) 0).take DIRSIZ =
      name ++ List.replicate (DIRSIZ - name.length) 0 := by
    refine List.take_of_length_le ?_
    rw [List.length_append, List.length_replicate]
    omega
  simp only [Dirent.ofBytes, Dirent.bytes, List.take_of_length_le hlen, List.cons_append,
    List.nil_append, List.drop_succ_cons, List.drop_zero, hfit, hname, List.getElem!_cons_zero,
    List.getElem!_cons_succ, UInt8.toNat_ofNat']
  congr 1
  omega

/-- The table after an entry is replaced or appended. -/
theorem entry_write {bs : List UInt8} (hk : 16 * k ≤ n.contents.length) (hbs : bs.length = 16) :
    (n.write (16 * k) bs).entry j = if j = k then Dirent.ofBytes bs else n.entry j := by
  have htake : (n.contents.take (16 * k)).length = 16 * k := by simp [hk]
  have hlen : (n.write (16 * k) bs).contents.length = max n.contents.length (16 * k + 16) := by
    simp only [Node.write, List.length_append, List.length_drop, htake, hbs]
    omega
  have hsame (hj : j ≠ k) : ((n.write (16 * k) bs).contents.drop (16 * j)).take 16 =
      (n.contents.drop (16 * j)).take 16 := by
    refine List.ext_getElem? fun m => ?_
    simp only [List.getElem?_take, List.getElem?_drop]
    split_ifs with hm
    · simp only [Node.write]
      rcases Nat.lt_or_ge (16 * j + m) (16 * k) with hlt | hge
      · rw [List.append_assoc, List.getElem?_append_left (by omega), List.getElem?_take,
          if_pos hlt]
      · rw [List.getElem?_append_right (by rw [List.length_append]; omega), List.getElem?_drop,
          List.length_append, htake, hbs]
        congr 1
        omega
    · rfl
  unfold Node.entry
  rw [hlen]
  by_cases hj : j = k
  · subst hj
    rw [if_pos (by omega), if_pos rfl]
    congr 1
    simp only [Node.write, List.append_assoc]
    rw [List.drop_append_of_le_length htake.ge, List.drop_of_length_le htake.le, List.nil_append,
      ← hbs, List.take_left']
    rfl
  · rw [if_neg hj, hsame hj]
    by_cases hin : 16 * j + 16 ≤ n.contents.length
    · rw [if_pos hin, if_pos (by omega)]
    · rw [if_neg hin, if_neg (by omega)]

theorem entry_setEntry {de : Dirent} (hk : 16 * k ≤ n.contents.length) (hde : de.Fits) :
    (n.setEntry k de).entry j = if j = k then de else n.entry j := by
  rw [Node.setEntry, entry_write hk (length_bytes de), ofBytes_bytes hde]

@[simp] theorem type_setEntry (de : Dirent) : (n.setEntry k de).type = n.type := rfl

@[simp] theorem nlink_setEntry (de : Dirent) : (n.setEntry k de).nlink = n.nlink := rfl

theorem fits_empty : Dirent.Fits ⟨0, []⟩ := ⟨by simp, by simp, by simp⟩

/-! ## The loops over a directory -/

theorem noDoubleFree_panic {msg : String} (h : msg ≠ "freeing free block") :
    NoDoubleFree (.panic msg) := fun heq => h (Stop.panic.inj heq)

/-- What `bmap` may panic with. -/
theorem noDoubleFree_balloc : NoDoubleFree (.panic "balloc: out of blocks") :=
  noDoubleFree_panic (by decide)

variable {E : Stop → Prop} {dp : ℕ} {msg : String}

/-- A valid inode, as a file. -/
theorem Consistent.node_valid (h : Consistent s) (hv : (s.icache dp).valid = true) :
    s.node dp = ⟨(s.icache dp).copy.type, (s.icache dp).copy.nlink,
      contents s.dinode s.data dp⟩ := by
  obtain ⟨hcopy, htype⟩ := h.cached dp hv
  rw [node_of_type htype, hcopy]

/-- A directory whose size is a number of entries. -/
def Node.Whole (n : Node) : Prop := n.type = T_DIR ∧ 16 ∣ n.contents.length

/-- The errors with which a loop over a directory may stop, if the directory is not whole. -/
def Allows (E : Stop → Prop) : Prop :=
  E .blocked ∧ ∀ msg, msg ≠ "freeing free block" → E (.panic msg)

theorem allows_noDoubleFree : Allows NoDoubleFree :=
  ⟨by simp [NoDoubleFree], fun _ => noDoubleFree_panic⟩

/-- The length of a valid inode. -/
theorem Consistent.length_node (h : Consistent s) (hv : (s.icache dp).valid = true) :
    (s.node dp).contents.length = (s.icache dp).copy.size := by
  rw [h.node_valid hv, (h.cached dp hv).1]
  exact length_contents ..

/-- The size of a file is limited by its blocks. -/
theorem Consistent.length_le (h : Consistent s) (hv : (s.icache dp).valid = true) :
    (s.node dp).contents.length ≤ MAXFILE * BSIZE := by
  rw [h.length_node hv]
  by_contra hlt
  exact absurd (h.blockAt_ne_zero hv (not_le.mp hlt)).1 (lt_irrefl _)

/-- The read of a directory entry changes nothing. -/
theorem wp_readDirent (h : Consistent s) (hv : (s.icache dp).valid = true)
    (hE : (s.node dp).Whole ∨ Allows E) (hmsg : msg ≠ "freeing free block") (k : ℕ)
    (hk : 16 * k < (s.node dp).contents.length) : Wp E (readDirent dp (16 * k) msg)
      (fun de s' => s' = s ∧ 16 * k + 16 ≤ (s.node dp).contents.length ∧
        de = (s.node dp).entry k) s := by
  have hcontents : (s.node dp).contents = contents s.dinode s.data dp := by rw [h.node_valid hv]
  have hdir (hwhole : (s.node dp).Whole) : (s.dinode dp).type ≠ T_DEV := by
    rw [← type_node, hwhole.1]
    decide
  unfold readDirent
  refine Wp.bind (wp_readi (fun hdev => ?_) h hv (16 * k) 16) ?_
  · rcases hE with hwhole | hE
    · exact absurd hdev (hdir hwhole)
    · exact hE.1
  intro r s' hpost
  obtain ⟨rfl, hfails, hread⟩ := hpost
  cases r with
  | none =>
    rcases hE with hwhole | hE
    · have hmax := h.length_le hv
      have hsize := h.length_node hv
      rw [(h.cached dp hv).1] at hsize
      rcases hfails rfl with hdev | hfails
      · exact absurd hdev (hdir hwhole)
      · unfold MAXFILE NDIRECT NINDIRECT BSIZE at hmax
        omega
    · exact hE.2 msg hmsg
  | some bs =>
    obtain rfl := hread bs rfl
    have hlen : (((contents s'.dinode s'.data dp).drop (16 * k)).take 16).length =
        min 16 ((s'.node dp).contents.length - 16 * k) := by
      rw [List.length_take, List.length_drop, ← hcontents]
    dsimp only
    rw [wp_ite, hlen]
    refine ⟨fun hshort => ?_, fun hfull => ?_⟩
    · rcases hE with hwhole | hE
      · have hdvd := hwhole.2
        omega
      · exact hE.2 msg hmsg
    · have hfits : 16 * k + 16 ≤ (s'.node dp).contents.length := by omega
      refine ⟨rfl, hfits, ?_⟩
      rw [Node.entry, if_pos hfits, hcontents]

/-- What the search of a directory from the index `k` on finds. -/
def ScanPost (n : Node) (c : Dirent → Bool) (k : ℕ) (r : Option Dirent × ℕ) : Prop :=
  (∃ j, n.find c k = some j ∧ r = (some (n.entry j), 16 * j)) ∨
    n.find c k = none ∧ ∃ j, n.contents.length ≤ 16 * j ∧ r = (none, 16 * j)

/-- The search of a directory changes nothing. -/
theorem wp_scanDir (h : Consistent s) (hv : (s.icache dp).valid = true)
    (hE : (s.node dp).Whole ∨ Allows E) (hmsg : msg ≠ "freeing free block") (c : Dirent → Bool)
    (m k : ℕ) (hm : (s.node dp).contents.length ≤ 16 * (k + m)) :
    Wp E (scanDir dp msg c m (16 * k))
      (fun r s' => s' = s ∧ ScanPost (s.node dp) c k r) s := by
  induction m generalizing k with
  | zero => exact ⟨rfl, .inr ⟨find_of_ge hm, k, hm, rfl⟩⟩
  | succ m ih =>
    unfold scanDir
    rw [wp_bind, wp_get, wp_ite, ← h.length_node hv]
    refine ⟨fun hlt => ?_, fun hge => ⟨rfl, .inr ⟨find_of_ge (by omega), k, by omega, rfl⟩⟩⟩
    refine Wp.bind (wp_readDirent h hv hE hmsg k hlt) ?_
    intro de s' hpost
    obtain ⟨rfl, hin, rfl⟩ := hpost
    have hfind := find_of_le (c := c) hin
    rw [wp_ite]
    refine ⟨fun hc => ⟨rfl, .inl ⟨k, by rw [hfind, if_pos hc], rfl⟩⟩, fun hc => ?_⟩
    rw [if_neg hc] at hfind
    unfold ScanPost
    rw [hfind]
    exact ih (k + 1) (by omega)

/-- The loops look at all entries. -/
theorem wp_dirents {Q : ℕ → Fs → Prop} (h : Consistent s) (hv : (s.icache dp).valid = true)
    (hQ : ∀ m, (s.node dp).contents.length ≤ 16 * m → Q m s) : Wp E (dirents dp) Q s := by
  refine hQ _ ?_
  rw [h.length_node hv]
  omega

/-- `dirlookup` takes a reference to what it finds, and else changes nothing.

**Proof sketch.** The loop over the entries is the search for the first entry in use with the name
(`wp_scanDir`), which is what `Node.lookup` is. If it finds one it takes a reference to the inode,
and if it does not it changes nothing. -/
theorem wp_dirlookup {Q : Option (ℕ × ℕ) → Fs → Prop} (h : Consistent s)
    (hv : (s.icache dp).valid = true) (hE : (s.node dp).Whole ∨ Allows E) {name : List UInt8}
    (hnone : (s.node dp).type = T_DIR → (s.node dp).lookup name = none → Q none s)
    (hsome : ∀ i k, (s.node dp).type = T_DIR → (s.node dp).lookup name = some (i, k) →
      Q (some (i, 16 * k)) (s.get i)) :
    Wp E (dirlookup dp name) Q s := by
  have htype : (s.icache dp).copy.type = (s.node dp).type := by rw [h.node_valid hv]
  unfold dirlookup
  rw [wp_bind, wp_get, wp_ite, htype]
  refine ⟨fun hfile => ?_, fun hdir => ?_⟩
  · rcases hE with hwhole | hE
    · exact absurd hwhole.1 hfile
    · exact hE.2 _ (by decide)
  rw [not_not] at hdir
  rw [wp_bind]
  refine wp_dirents h hv fun m hm => ?_
  refine Wp.bind (wp_scanDir h hv hE (by decide) _ m 0 (by omega)) ?_
  intro r s' hpost
  obtain ⟨rfl, ⟨k, hfind, rfl⟩ | ⟨hfind, k, -, rfl⟩⟩ := hpost
  · refine hsome _ k hdir ?_
    rw [Node.lookup, hfind]
    rfl
  · refine hnone hdir ?_
    rw [Node.lookup, hfind]
    rfl

/-- `dirlink` writes the entry in place of the first that is empty, or at the end.

**Proof sketch.** If the name is there already, the reference taken by the lookup is given back.
Otherwise the second search stops at the first entry that is not in use, or behind the last one, and
the entry is written there. A write into a directory that is refused is a panic, so where the call
goes on the entry has been written. -/
theorem wp_dirlink {Q : Bool → Fs → Prop} (h : Consistent s)
    (hv : (s.icache dp).valid = true) {name : List UInt8} {inum : ℕ}
    (hfound : ∀ i k, (s.node dp).lookup name = some (i, k) →
      Wp NoDoubleFree (iput i) (fun _ => Q false) (s.get i))
    (hlink : ∀ k s', (s.node dp).type = T_DIR → (s.node dp).lookup name = none →
      ((s.node dp).entry k).inum = 0 → 16 * k ≤ (s.node dp).contents.length → Consistent s' →
      SameRefs s s' →
      s'.node = Function.update s.node dp ((s.node dp).setEntry k ⟨inum, name⟩) → Q true s') :
    Wp NoDoubleFree (dirlink dp name inum) Q s := by
  unfold dirlink
  rw [wp_bind]
  refine wp_dirlookup h hv (.inr allows_noDoubleFree) (fun hdir hnone => ?_) fun i k _ hsome => ?_
  · have hdev : (s.dinode dp).type ≠ T_DEV := by
      rw [← type_node, hdir]
      decide
    dsimp only
    rw [wp_bind]
    refine wp_dirents h hv fun m hm => ?_
    refine Wp.bind (wp_scanDir h hv (.inr allows_noDoubleFree) (by decide) _ m 0 (by omega)) ?_
    intro r s' hpost
    obtain ⟨rfl, hscan⟩ := hpost
    obtain ⟨k, hk, hempty⟩ : ∃ k, 16 * k = r.2 ∧ ((s'.node dp).entry k).inum = 0 := by
      rcases hscan with ⟨k, hfind, rfl⟩ | ⟨-, k, hge, rfl⟩
      · exact ⟨k, rfl, by simpa using (find_eq_some hfind).2.2⟩
      · refine ⟨k, rfl, ?_⟩
        rw [Node.entry, if_neg (by omega)]
    obtain ⟨de, off⟩ := r
    obtain rfl : 16 * k = off := hk
    refine Wp.bind (wp_writei noDoubleFree_balloc h hv _ (16 * k)) ?_
    intro r s₁ hpost
    obtain ⟨hcons, hsame, hwrite⟩ := hpost
    rw [wp_ite]
    refine ⟨fun _ => noDoubleFree_panic (by decide), fun hr => ?_⟩
    rcases hwrite with ⟨hfail | hfail, -⟩ | ⟨-, hoff, hnode⟩
    · exact absurd hfail hdev
    · rw [hfail] at hr
      exact absurd (show (-1 : ℤ) ≠ 16 by decide) hr
    · refine hlink k s₁ hdir hnone hempty ?_ hcons hsame hnode
      rwa [h.length_node hv, (h.cached dp hv).1]
  · exact (wp_bind ..).mpr (hfound i k hsome)

/-- `isdirempty` looks for an entry behind `"."` and `".."`, and changes nothing.

**Proof sketch.** The loop searches from the third entry on for one that is in use. If it finds one
the directory is not empty, and if it does not then none of them is in use, since places behind the
end hold no entry. -/
theorem wp_isdirempty (h : Consistent s) (hv : (s.icache dp).valid = true)
    (hE : (s.node dp).Whole ∨ Allows E) : Wp E (isdirempty dp) (fun r s' => s' = s ∧
      (r = true ↔ ∀ k, 2 ≤ k → ((s.node dp).entry k).inum = 0)) s := by
  unfold isdirempty
  rw [wp_bind]
  refine wp_dirents h hv fun m hm => ?_
  refine Wp.bind (wp_scanDir h hv hE (by decide) _ m 2 (by omega)) ?_
  intro r s' hpost
  obtain ⟨rfl, ⟨k, hfind, rfl⟩ | ⟨hfind, j, hge, rfl⟩⟩ := hpost
  · obtain ⟨hk, -, hc⟩ := find_eq_some hfind
    rw [decide_eq_true_eq] at hc
    exact ⟨rfl, iff_of_false (by simp) fun hall => hc (hall k hk)⟩
  · refine ⟨rfl, iff_of_true rfl fun k hk => ?_⟩
    by_contra hne
    have hc := find_eq_none hfind hk (entry_lt hne)
    simp [hne] at hc

end HgXv6.Disk
