import HgXv6.Kernel.FileSystem
import HgXv6.Kernel.BlockOwnership
import HgXv6.Kernel.NameCalls
import Mathlib.Data.List.Find

set_option relaxedAutoImplicit false
set_option autoImplicit false

/-!
# Files on the disk

The programs that read and write files are verified over a file as a table of blocks
(`HgXv6.Inode`), the file system over a disk on which the blocks are named by inodes
(`HgXv6.Disk.Fs`). Both are models of the same functions. The first abstracts from the second: on a
disk that shows a file, `bmap`, `readi`, `writei` and `filewrite` return what they return on the
file, and the disk then shows the file that they leave, unless it is full. Between them the two
tables of open files agree, so that a write through a descriptor and an open of a file that exists
are the same in both.

## Main definitions

* `HgXv6.Disk.Fs.Shows` — the inode of a regular file with the bytes of a file.
* `HgXv6.Disk.Fs.ShowsFiles` — the open files of a process, and the files that they are of.

## Main results

* `HgXv6.Disk.wp_readi_refines`, `HgXv6.Disk.wp_writei_refines` — a read, and a write.
* `HgXv6.Disk.wp_filewrite_refines` — a write in several transactions.
* `HgXv6.Disk.wp_sysWrite_refines` — a write through a descriptor.
* `HgXv6.Disk.wp_sysOpen_refines`, `HgXv6.Disk.wp_sysOpen_create_refines` — an open of a file,
  without `O_CREATE` and with it.
-/

namespace HgXv6.Disk

open Prog

variable {E : Stop → Prop} {s : Fs} {i : ℕ} {ip : HgXv6.Inode}

/-- The inode is one of a regular file, and its bytes are those of the file. -/
structure Fs.Shows (s : Fs) (i : ℕ) (ip : HgXv6.Inode) : Prop where
  type : (s.dinode i).type = T_FILE
  content : ip.content = contents s.dinode s.data i

/-- It depends on the files only. -/
theorem Fs.Shows.of_node {s' : Fs} (h : s.Shows i ip) (hnode : s'.node i = s.node i) :
    s'.Shows i ip := by
  have hs : (s.dinode i).type ≠ 0 := by
    rw [h.type]
    decide
  have htype : (s'.dinode i).type = (s.dinode i).type := by
    rw [← type_node, hnode, type_node]
  have hs' : (s'.dinode i).type ≠ 0 := htype ▸ hs
  have hcontents := congrArg Node.contents hnode
  rw [node_of_type hs, node_of_type hs'] at hcontents
  exact ⟨htype.trans h.type, h.content.trans hcontents.symm⟩

theorem Fs.Shows.size (h : s.Shows i ip) : ip.size = (s.dinode i).size := by
  rw [← ip.length_content, h.content, length_contents]

/-- A byte of the file. -/
theorem Fs.Shows.byte (h : s.Shows i ip) {o : ℕ} (ho : o < ip.size) :
    ip.byte o = byteAt s.dinode s.data i o := by
  have heq := List.getElem_of_eq h.content (i := o) (by rwa [Inode.length_content])
  simpa only [Inode.content, contents, getElem_firstOf] using heq

/-- The copy of the inode in memory is the one on the disk. -/
theorem Fs.Shows.copy (h : s.Shows i ip) (hcons : Consistent s) (hv : (s.icache i).valid = true) :
    (s.icache i).copy.type ≠ T_DEV ∧ (s.icache i).copy.size = ip.size := by
  rw [(hcons.cached i hv).1, h.size]
  refine ⟨?_, rfl⟩
  rw [h.type]
  decide

/-- A file has at most `MAXFILE` blocks. -/
theorem Fs.Shows.size_le (h : s.Shows i ip) (hcons : Consistent s)
    (hv : (s.icache i).valid = true) : ip.size ≤ MAXFILE * BSIZE := by
  by_contra hgt
  have hblock : MAXFILE < MAXFILE ∧ s.blockAt i MAXFILE ≠ 0 :=
    hcons.blockAt_ne_zero hv (by rw [(h.copy hcons hv).2]; omega)
  exact lt_irrefl _ hblock.1

/-! ## Blocks -/

/-- `bmap` within a file finds the data of the block. -/
theorem wp_bmap_refines (h : Consistent s) (hv : (s.icache i).valid = true) (hip : s.Shows i ip)
    {bn : ℕ} (hbn : bn * BSIZE < ip.size) :
    Wp E (bmap i bn) (fun b s' => s' = s ∧ ∃ d ip', HgXv6.bmap bn ip = .ok (d, ip') ∧
      ip'.content = ip.content ∧
      ∀ j < BSIZE, bn * BSIZE + j < ip.size → s.data b j = d j) s := by
  obtain ⟨hlt, hne⟩ := h.blockAt_ne_zero hv (by rwa [(hip.copy h hv).2])
  obtain ⟨d, ip', hbmap, hbyte, hsize, hd⟩ := bmap_ok bn ip hlt
  refine (wp_bmap_of_ne hv hlt hne).mono ?_
  rintro b s' ⟨rfl, rfl⟩
  refine ⟨rfl, d, ip', hbmap, ?_, fun j hj hin => ?_⟩
  · rw [Inode.content, hbyte, hsize, Inode.content]
  · have hdiv : (bn * BSIZE + j) / BSIZE = bn ∧ (bn * BSIZE + j) % BSIZE = j := by
      unfold BSIZE at hj ⊢
      omega
    rw [hd j hj, hip.byte hin, byteAt, hdiv.1, hdiv.2, Fs.blockAt, h.inode_eq]

/-! ## Reading and writing -/

/-- `readi`. It changes nothing, and returns what the read of the file returns.

**Proof sketch.** The test at the start is the same in both, as the sizes are. Where it passes, both
return the bytes from the offset on, cut off at the end of the file (`wp_readi`, `readi_ok`), and
these are the same bytes. -/
theorem wp_readi_refines (h : Consistent s) (hv : (s.icache i).valid = true) (hip : s.Shows i ip)
    {off n : ℕ} (hn : n < 2 ^ 32) :
    Wp E (readi i off n) (fun r s' => s' = s ∧ ∃ ip', HgXv6.readi off n ip = .ok (r, ip') ∧
      ip'.content = ip.content) s := by
  obtain ⟨hdev, hsize⟩ := hip.copy h hv
  by_cases hbad : off > ip.size ∨ (off + n) % 2 ^ 32 < off
  · unfold readi
    rw [wp_bind, wp_get]
    dsimp only
    rw [if_neg hdev, hsize, if_pos hbad, wp_pure]
    exact ⟨rfl, ip, by rw [HgXv6.readi, if_pos hbad], rfl⟩
  · have hle := hip.size_le h hv
    have hwrap : off + n < 2 ^ 32 := by
      unfold MAXFILE NDIRECT NINDIRECT BSIZE at hle
      omega
    have hread := wp_readi (E := E) (fun htype => absurd (hip.type ▸ htype) (by decide)) h hv off n
    refine hread.mono ?_
    rintro r s' ⟨rfl, hnone, hsome⟩
    have hoff : off ≤ ip.size := by omega
    obtain ⟨ip', hreadi, hbyte, hsize'⟩ := readi_ok hoff hle hwrap
    refine ⟨rfl, ip', ?_, by rw [Inode.content, hbyte, hsize', Inode.content]⟩
    cases r with
    | none =>
      rcases hnone rfl with htype | hout | hwrap'
      · rw [hip.type] at htype
        cases htype
      · rw [← hip.size] at hout
        omega
      · omega
    | some bs => rw [hsome bs rfl, ← hip.content, hreadi]

/-- `writei`. If the disk is not full it returns what the write of the file returns, and the disk
shows the file that this leaves, beside the others as they were.

**Proof sketch.** The two tests at the start refuse the same writes in both. A write that is not
refused lays its bytes over the contents, on the disk (`wp_writei`) and in the file (`writei_ok`),
and returns their number in both; so the contents are the same afterwards. -/
theorem wp_writei_refines (hE : E (.panic "balloc: out of blocks")) (h : Consistent s)
    (hv : (s.icache i).valid = true) (hip : s.Shows i ip) (src : List UInt8) (off : ℕ) :
    Wp E (writei i src off) (fun r s' => Consistent s' ∧ SameRefs s s' ∧
      (∀ j, j ≠ i → s'.node j = s.node j) ∧ (r = -1 ∨ r = src.length) ∧
      ∃ ip', HgXv6.writei src off ip = .ok (r, ip') ∧ s'.Shows i ip') s := by
  obtain ⟨hdev, hsize⟩ := hip.copy h hv
  by_cases hbad : off > ip.size ∨ (off + src.length) % 2 ^ 32 < off
  · unfold writei
    rw [wp_bind, wp_get]
    dsimp only
    rw [if_neg hdev, hsize, if_pos hbad, wp_pure]
    exact ⟨h, .refl s, fun _ _ => rfl, .inl rfl, ip, by rw [HgXv6.writei, if_pos hbad], hip⟩
  by_cases hbig : off + src.length > MAXFILE * BSIZE
  · unfold writei
    rw [wp_bind, wp_get]
    dsimp only
    rw [if_neg hdev, hsize, if_neg hbad, if_pos hbig, wp_pure]
    exact ⟨h, .refl s, fun _ _ => rfl, .inl rfl, ip,
      by rw [HgXv6.writei, if_neg hbad, if_pos hbig], hip⟩
  -- nothing refuses the write
  have hresult : Wp E (writei i src off) (fun r _ => r = src.length) s := by
    refine wp_writei_of (fun hd => absurd hd hdev) (fun hout => ?_) fun hoff hmax => ?_
    · rw [hsize] at hout
      omega
    · exact (wp_writeLoop hE _ src off s h.toSound hv le_rfl hmax fun bn hbn =>
        (h.blockAt_ne_zero hv (by omega)).2).mono fun _ _ _ => ⟨fun _ => rfl, fun _ => rfl⟩
  refine ((wp_writei hE h hv src off).and hresult).mono ?_
  rintro r s' ⟨⟨hcons, hrefs, hpost⟩, rfl⟩
  have hin : off ≤ ip.size := by omega
  have hwritei := writei_ok src hin (by
    unfold MAXFILE NDIRECT NINDIRECT BSIZE at hbig
    omega)
  rw [if_neg hbig] at hwritei
  obtain ⟨ip', hok, hbyte, hsize'⟩ := hwritei
  rcases hpost with ⟨htype | hneg, -⟩ | ⟨-, hoff, hnode⟩
  · exact absurd (hip.type ▸ htype) (by decide)
  · omega
  refine ⟨hcons, hrefs, fun j hj => by rw [hnode, Function.update_of_ne hj], .inr rfl, ip', hok, ?_⟩
  have hni : s'.node i = (s.node i).write off src := by rw [hnode, Function.update_self]
  have htype' : (s'.dinode i).type = T_FILE := by
    rw [← type_node, hni]
    exact (type_node s i).trans hip.type
  have hs : (s.dinode i).type ≠ 0 := hip.type ▸ (by decide)
  have hs' : (s'.dinode i).type ≠ 0 := htype' ▸ (by decide)
  refine ⟨htype', ?_⟩
  have hcontents := congrArg Node.contents hni
  rw [node_of_type hs', Node.write, node_of_type hs] at hcontents
  calc ip'.content = firstOf (overlay ip.byte off src) (max ip.size (off + src.length)) := by
        rw [Inode.content, hbyte, hsize']
    _ = ip.content.take off ++ src ++ ip.content.drop (off + src.length) :=
        firstOf_overlay _ _ (by omega)
    _ = contents s'.dinode s'.data i := by rw [hip.content]; exact hcontents.symm

/-! ## Writes in several transactions -/

/-- A write through the open file `f` of the inode `i` has changed the bytes of this inode and the
offset of the open file, and what is in memory. -/
structure Rewritten (f i : ℕ) (s s' : Fs) : Prop where
  consistent : Consistent s'
  node : ∀ j, j ≠ i → s'.node j = s.node j
  ref : ∀ j, (s'.icache j).ref = (s.icache j).ref
  ofile : s'.ofile = s.ofile
  ftable : ∀ g, s'.ftable g =
    { s.ftable g with off := if g = f then (s'.ftable f).off else (s.ftable g).off }

variable {f : ℕ}

theorem Rewritten.refl (h : Consistent s) : Rewritten f i s s := by
  refine ⟨h, fun _ _ => rfl, fun _ => rfl, rfl, fun g => ?_⟩
  split_ifs with hg
  · rw [hg]
  · rfl

theorem Rewritten.trans {s₁ s₂ : Fs} (h : Rewritten f i s s₁) (h' : Rewritten f i s₁ s₂) :
    Rewritten f i s s₂ := by
  refine ⟨h'.consistent, fun j hj => (h'.node j hj).trans (h.node j hj),
    fun j => (h'.ref j).trans (h.ref j), h'.ofile.trans h.ofile, fun g => ?_⟩
  rw [h'.ftable g, h.ftable g]
  split_ifs
  · rfl
  · rfl

/-- One pass: `ilock`, `writei` and the new offset. -/
theorem Rewritten.pass {s₂ : Fs} {off : ℕ} (hcons : Consistent s₂) (hrefs : SameRefs (s.lock i) s₂)
    (hnode : ∀ j, j ≠ i → s₂.node j = (s.lock i).node j) :
    Rewritten f i s
      { s₂ with ftable := Function.update s₂.ftable f { s₂.ftable f with off := off } } := by
  have htables : SameTables s s₂ := (tables_lock i).trans hrefs.tables
  refine ⟨hcons.of_tables _ _ _, fun j hj => ?_, fun j => (hrefs.ref j).trans (ref_lock i j),
    htables.ofile, fun g => ?_⟩
  · rw [← node_lock (s := s) i, ← hnode j hj]
    exact congrFun (node_congr rfl rfl) j
  · dsimp only
    rw [Function.update_self, htables.ftable]
    by_cases hg : g = f
    · rw [hg, Function.update_self, if_pos rfl]
    · rw [Function.update_of_ne hg, if_neg hg]

/-- The loop of `filewrite`.

**Proof sketch.** By induction on the number of passes. In a pass `ilock` changes no file, and
`writei` returns the same on the disk and on the file, -1 or the length of the chunk
(`wp_writei_refines`); so both loops end here, or both go on behind the chunk. -/
theorem wp_filewriteLoop_refines (hE : E (.panic "balloc: out of blocks")) (k : ℕ)
    (src : List UInt8) (n : ℕ) (ip : HgXv6.Inode) (s : Fs) (h : Consistent s)
    (href : 1 ≤ (s.icache i).ref) (hip : s.Shows i ip) :
    Wp E (filewriteLoop f i k src n) (fun r s' => Rewritten f i s s' ∧ ∃ ip', s'.Shows i ip' ∧
      HgXv6.filewriteLoop k src n (s.ftable f).off ip = .ok (r, (s'.ftable f).off, ip')) s := by
  induction k generalizing src n ip s with
  | zero => exact ⟨.refl h, ip, hip, rfl⟩
  | succ k ih =>
    unfold filewriteLoop
    rw [wp_ite]
    refine ⟨fun hnil => ⟨.refl h, ip, hip, by rw [HgXv6.filewriteLoop, if_pos hnil]⟩,
      fun hne => ?_⟩
    have htype : (s.dinode i).type ≠ 0 := hip.type ▸ (by decide)
    rw [wp_bind, wp_ilock_of_type href htype, wp_bind, wp_get, (tables_lock i).ftable]
    refine Wp.bind (wp_writei_refines hE (h.lock htype) (held_lock href).2
      (hip.of_node (congrFun (node_lock i) i)) (src.take maxWrite) (s.ftable f).off) ?_
    rintro r s₂ ⟨hcons, hrefs, hnode, hr, ip₂, hwritei, hip₂⟩
    have hftable : s₂.ftable = s.ftable := ((tables_lock i).trans hrefs.tables).ftable
    obtain ⟨s₃, hs₃⟩ : ∃ s₃ : Fs, s₃ = { s₂ with
        ftable := Function.update s₂.ftable f { s₂.ftable f with
          off := if r > 0 then (s₂.ftable f).off + r.toNat else (s₂.ftable f).off } } := ⟨_, rfl⟩
    have hpass : Rewritten f i s s₃ := hs₃ ▸ Rewritten.pass hcons hrefs hnode
    have hip₃ : s₃.Shows i ip₂ := hip₂.of_node (hs₃ ▸ congrFun (node_congr rfl rfl) i)
    have hoff : (s₃.ftable f).off =
        if r > 0 then (s.ftable f).off + r.toNat else (s.ftable f).off := by
      rw [hs₃]
      dsimp only
      rw [Function.update_self, hftable]
    have hstep : HgXv6.filewriteLoop (k + 1) src n (s.ftable f).off ip =
        if r < 0 then .ok (n, (s₃.ftable f).off, ip₂)
        else if r ≠ (src.take maxWrite).length then .error (.panic "short filewrite")
        else HgXv6.filewriteLoop k (src.drop maxWrite) (n + r.toNat) (s₃.ftable f).off ip₂ := by
      rw [HgXv6.filewriteLoop, if_neg hne]
      simp only [hwritei, ok_bind, hoff]
    unfold modifyFile
    rw [wp_bind, wp_modify, ← hs₃, wp_ite, wp_ite, wp_throw, wp_pure, hstep]
    refine ⟨fun hneg => ⟨hpass, ip₂, hip₃, if_pos hneg⟩, fun hneg => ⟨fun hshort => ?_,
      fun hwhole => ?_⟩⟩
    · rcases hr with hr | hr
      · omega
      · exact absurd hr hshort
    · refine (ih (src.drop maxWrite) (n + r.toNat) ip₂ s₃ hpass.consistent
        (by rw [hpass.ref]; exact href) hip₃).mono ?_
      rintro r' s' ⟨hrest, ip', hip', hloop⟩
      exact ⟨hpass.trans hrest, ip', hip', by rw [if_neg hneg, if_neg hwhole, hloop]⟩

/-- `filewrite`, for an open file of a regular file. It returns what the write of the file returns,
and leaves the offset that this leaves. -/
theorem wp_filewrite_refines (hE : E (.panic "balloc: out of blocks")) (h : Consistent s)
    (hwritable : (s.ftable f).writable = true) (hf : (s.ftable f).ip = some i)
    (href : 1 ≤ (s.icache i).ref) (hip : s.Shows i ip) (src : List UInt8) :
    Wp E (filewrite f src) (fun r s' => Rewritten f i s s' ∧ ∃ ip', s'.Shows i ip' ∧
      HgXv6.filewrite src (s.ftable f).off ip = .ok (r, (s'.ftable f).off, ip')) s := by
  unfold filewrite
  rw [wp_bind, wp_get, if_neg (by rw [hwritable]; decide), hf]
  refine Wp.bind (wp_filewriteLoop_refines hE _ src 0 ip s h href hip) ?_
  rintro n s' ⟨hrest, ip', hip', hloop⟩
  refine ⟨hrest, ip', hip', ?_⟩
  rw [HgXv6.filewrite, hloop]
  rfl

/-! ## Descriptors -/

/-- The regular files are on the disk, in the inodes that `ino` says, no two in one; and the
descriptors of the process are those that it has on the disk, no two for one open file. -/
structure Fs.ShowsFiles (s : Fs) (p : ℕ) (ino : List UInt8 → ℕ) (w : FileSystem) : Prop where
  file : ∀ path ip, w.file path = some ip → s.Shows (ino path) ip
  inj : ∀ path path', (w.file path).isSome → (w.file path').isSome → ino path = ino path' →
    path = path'
  closed : ∀ fd < NOFILE, s.ofile p fd = none → w.ofile fd = none
  opened : ∀ fd < NOFILE, ∀ f, s.ofile p fd = some f → ∃ o : OpenFile, w.ofile fd = some o ∧
    (w.file o.path).isSome ∧ 1 ≤ (s.icache (ino o.path)).ref ∧
    s.ftable f = ⟨(s.ftable f).ref, o.readable, o.writable, some (ino o.path), o.off⟩
  single : ∀ fd < NOFILE, ∀ fd' < NOFILE, ∀ f, s.ofile p fd = some f → s.ofile p fd' = some f →
    fd = fd'

variable {p : ℕ} {ino : List UInt8 → ℕ} {w : FileSystem}

/-- `argfd` finds an open file where that of the process finds one. -/
theorem Fs.ShowsFiles.argfd (h : s.ShowsFiles p ino w) (fd : ℤ) :
    Wp E (argfd p fd) (fun r s' => s' = s ∧
      (r = none → HgXv6.argfd fd w = none) ∧
      ∀ f, r = some f → 0 ≤ fd ∧ fd < NOFILE ∧ s.ofile p fd.toNat = some f) s := by
  unfold Disk.argfd
  rw [wp_bind, wp_get, wp_pure]
  by_cases hfd : fd < 0 ∨ fd ≥ NOFILE
  · rw [if_pos hfd]
    exact ⟨rfl, fun _ => if_pos hfd, nofun⟩
  · rw [if_neg hfd]
    refine ⟨rfl, fun hnone => ?_, fun f hf => ⟨by omega, by omega, hf⟩⟩
    rw [HgXv6.argfd, if_neg hfd]
    exact h.closed _ (by omega) hnone

/-- After a write through a descriptor the other files and descriptors are as before.

**Proof sketch.** The write has changed one inode and the offset of one open file (`Rewritten`).
Another file is in another inode, and another descriptor has another open file. -/
theorem Fs.ShowsFiles.rewritten {s' : Fs} {fd : ℤ} {o : OpenFile} {ip' : HgXv6.Inode}
    (h : s.ShowsFiles p ino w) (hrange : fd.toNat < NOFILE) (hfd : s.ofile p fd.toNat = some f)
    (ho : w.ofile fd.toNat = some o) (hsome : (w.file o.path).isSome)
    (hwrite : Rewritten f (ino o.path) s s') (hip' : s'.Shows (ino o.path) ip') :
    s'.ShowsFiles p ino (w.put fd (o.seek (s'.ftable f).off) ip') := by
  obtain ⟨w', hw'⟩ : ∃ w', w' = w.put fd (o.seek (s'.ftable f).off) ip' := ⟨_, rfl⟩
  have hnew : w'.file o.path = some ip' := hw' ▸ Function.update_self ..
  have hold : ∀ path, path ≠ o.path → w'.file path = w.file path := fun path hne =>
    hw' ▸ Function.update_of_ne hne ..
  have hfiles : ∀ path, (w'.file path).isSome ↔ (w.file path).isSome := by
    intro path
    by_cases heq : path = o.path
    · rw [heq, hnew]
      exact iff_of_true rfl hsome
    · rw [hold path heq]
  have hothers : ∀ fd', fd' ≠ fd.toNat → w'.ofile fd' = w.ofile fd' := fun fd' hne =>
    hw' ▸ Function.update_of_ne hne ..
  rw [← hw']
  refine ⟨fun path ip hpath => ?_, fun path path' hpath hpath' =>
    h.inj path path' ((hfiles path).mp hpath) ((hfiles path').mp hpath'), fun fd' hlt hnone => ?_,
    fun fd' hlt g hg => ?_, fun fd' hlt fd'' hlt' g hg hg' => ?_⟩
  · by_cases heq : path = o.path
    · rw [heq, hnew] at hpath
      rwa [heq, ← Option.some.inj hpath]
    · rw [hold path heq] at hpath
      refine (h.file path ip hpath).of_node (hwrite.node _ fun hino => heq ?_)
      exact h.inj path o.path (by rw [hpath]; rfl) hsome hino
  · rw [hwrite.ofile] at hnone
    rw [hothers fd' fun heq => by rw [heq, hfd] at hnone; cases hnone]
    exact h.closed fd' hlt hnone
  · rw [hwrite.ofile] at hg
    obtain ⟨o', ho', hsome', href', hftable⟩ := h.opened fd' hlt g hg
    by_cases heq : fd' = fd.toNat
    · obtain rfl : g = f := Option.some.inj ((heq ▸ hg).symm.trans hfd)
      obtain rfl : o' = o := Option.some.inj ((heq ▸ ho').symm.trans ho)
      refine ⟨o'.seek (s'.ftable g).off, by rw [hw', heq]; exact Function.update_self ..,
        (hfiles _).mpr hsome', (hwrite.ref _).symm ▸ href', ?_⟩
      rw [hwrite.ftable g, hftable, if_pos rfl]
      rfl
    · have hne : g ≠ f := fun hgf => heq (h.single fd' hlt fd.toNat hrange g hg (hgf ▸ hfd))
      refine ⟨o', by rw [hothers fd' heq, ho'], (hfiles _).mpr hsome',
        (hwrite.ref _).symm ▸ href', ?_⟩
      rw [hwrite.ftable g, if_neg hne]
      exact hftable
  · rw [hwrite.ofile] at hg hg'
    exact h.single fd' hlt fd'' hlt' g hg hg'

/-- A call that has taken references, and else done nothing. -/
theorem Fs.ShowsFiles.took {s' : Fs} {H : List ℕ} (h : s.ShowsFiles p ino w) (ht : Took H s s') :
    s'.ShowsFiles p ino w where
  file path ip hpath := (h.file path ip hpath).of_node (congrFun ht.node _)
  inj := h.inj
  closed fd hlt hnone := h.closed fd hlt (by rwa [ht.tables.ofile] at hnone)
  opened fd hlt f hf := by
    rw [ht.tables.ofile] at hf
    obtain ⟨o, ho, hsome, href, hftable⟩ := h.opened fd hlt f hf
    refine ⟨o, ho, hsome, ?_, by rw [ht.tables.ftable]; exact hftable⟩
    rw [ht.ref]
    exact Nat.le_add_right_of_le href
  single fd hlt fd' hlt' f hf hf' := by
    rw [ht.tables.ofile] at hf hf'
    exact h.single fd hlt fd' hlt' f hf hf'

/-- `fdalloc` finds the same descriptor. -/
theorem Fs.ShowsFiles.fdalloc (h : s.ShowsFiles p ino w) :
    HgXv6.fdalloc w = (List.range NOFILE).find? fun fd => (s.ofile p fd).isNone := by
  refine List.find?_congr fun fd hfd => ?_
  cases hf : s.ofile p fd with
  | none =>
    rw [h.closed fd (List.mem_range.mp hfd) hf]
    rfl
  | some f =>
    obtain ⟨o, ho, -⟩ := h.opened fd (List.mem_range.mp hfd) f hf
    rw [ho]
    rfl

/-- A regular file is opened: an entry of the file table and a descriptor that were free. -/
theorem Fs.ShowsFiles.opens {s₁ : Fs} {path : List UInt8} {omode fd : ℕ} (hs : Settled s)
    (h : s.ShowsFiles p ino w) (ht : Took [ino path] s s₁) (hpath : (w.file path).isSome)
    (href : (s₁.ftable f).ref = 0) (hfd : HgXv6.fdalloc w = some fd) :
    Fs.ShowsFiles { s₁ with
      ftable := Function.update s₁.ftable f ⟨1, omode &&& O_WRONLY = 0,
        omode &&& O_WRONLY ≠ 0 ∨ omode &&& O_RDWR ≠ 0, some (ino path), 0⟩
      ofile := Function.update s₁.ofile p (Function.update (s₁.ofile p) fd (some f)) } p ino
      { w with ofile := Function.update w.ofile fd (some (openFile path omode)) } := by
  have h₁ := h.took ht
  -- an entry that is in use has an inode
  have hused : ∀ fd' < NOFILE, ∀ g, s₁.ofile p fd' = some g → g ≠ f := by
    rintro fd' hlt' g hg rfl
    obtain ⟨o, -, -, -, hftable⟩ := h₁.opened fd' hlt' g hg
    have hnone := hs.closed g (by rw [← ht.tables.ftable]; exact href)
    rw [← ht.tables.ftable, hftable] at hnone
    cases hnone
  have hself : Function.update (s₁.ofile p) fd (some f) fd = some f := Function.update_self ..
  have hother : ∀ fd', fd' ≠ fd → Function.update (s₁.ofile p) fd (some f) fd' = s₁.ofile p fd' :=
    fun fd' hne => Function.update_of_ne hne ..
  refine ⟨fun path' ip hip => (h₁.file path' ip hip).of_node (congrFun (node_congr rfl rfl) _),
    h.inj, fun fd' hlt' hnone => ?_, fun fd' hlt' g hg => ?_,
    fun fd' hlt' fd'' hlt'' g hg hg' => ?_⟩
  · dsimp only at hnone
    rw [Function.update_self] at hnone
    have hne : fd' ≠ fd := by
      rintro rfl
      rw [hself] at hnone
      cases hnone
    rw [hother fd' hne] at hnone
    exact (Function.update_of_ne hne ..).trans (h₁.closed fd' hlt' hnone)
  · dsimp only at hg
    rw [Function.update_self] at hg
    by_cases hfd' : fd' = fd
    · subst hfd'
      obtain rfl : f = g := Option.some.inj (hself.symm.trans hg)
      refine ⟨openFile path omode, Function.update_self .., hpath, ?_, ?_⟩
      · change 1 ≤ (s₁.icache (ino path)).ref
        rw [ht.ref, List.count_singleton_self]
        exact Nat.le_add_left 1 _
      · dsimp only
        rw [Function.update_self, openFile]
        simp only [Bool.decide_or, ne_eq, decide_not]
        rfl
    · rw [hother fd' hfd'] at hg
      obtain ⟨o, ho, hsome, href', hftable⟩ := h₁.opened fd' hlt' g hg
      refine ⟨o, (Function.update_of_ne hfd' ..).trans ho, hsome, href', ?_⟩
      dsimp only
      rw [Function.update_of_ne (hused fd' hlt' g hg)]
      exact hftable
  · dsimp only at hg hg'
    rw [Function.update_self] at hg hg'
    by_cases hfd' : fd' = fd
    · by_cases hfd'' : fd'' = fd
      · exact hfd'.trans hfd''.symm
      · rw [hfd', hself] at hg
        rw [hother fd'' hfd''] at hg'
        exact absurd (Option.some.inj hg).symm (hused fd'' hlt'' g hg')
    · rw [hother fd' hfd'] at hg
      by_cases hfd'' : fd'' = fd
      · rw [hfd'', hself] at hg'
        exact absurd (Option.some.inj hg').symm (hused fd' hlt' g hg)
      · rw [hother fd'' hfd''] at hg'
        exact h₁.single fd' hlt' fd'' hlt'' g hg hg'

/-- `sys_open` from `filealloc` on, if the table of open files has room.

**Proof sketch.** The lowest free descriptor is the same in both (`Fs.ShowsFiles.fdalloc`). If there
is none, the inode is put again and both return -1; otherwise the descriptor gets an open file of
this inode at offset 0, with the same modes (`Fs.ShowsFiles.opens`). -/
theorem wp_openInode_refines (hs : Settled s) (hw : s.ShowsFiles p ino w) {s₁ : Fs}
    {path : List UInt8} {omode : ℕ} (ht : Took [ino path] s s₁) (hsome : (w.file path).isSome)
    (hroom : ∃ f < NFILE, (s.ftable f).ref = 0) :
    Wp NoDoubleFree (openInode p (ino path) omode) (fun r s' => ∃ w', s'.ShowsFiles p ino w' ∧
      (match HgXv6.fdalloc w with
        | none => (-1, w)
        | some fd => (fd, { w with
            ofile := Function.update w.ofile fd (some (openFile path omode)) })) = (r, w')) s₁ := by
  refine wp_openInode_ends ht.consistent (by rw [ht.tables.ftable]; exact hs.closed)
    (fun s' hfull hputs => ?_) fun f fd href hfd => ?_
  · have hnone : HgXv6.fdalloc w = none := by
      rw [hw.fdalloc, List.find?_eq_none]
      refine fun fd hfd hfree => hfull ⟨?_, fd, List.mem_range.mp hfd, ?_⟩
      · rw [ht.tables.ftable]
        exact hroom
      · rw [ht.tables.ofile]
        exact Option.isNone_iff_eq_none.mp hfree
    rw [hnone]
    exact ⟨w, hw.took (ht.put hputs), rfl⟩
  · have hfd' : HgXv6.fdalloc w = some fd := by
      rw [hw.fdalloc, ← hfd, ht.tables.ofile]
    rw [hfd']
    exact ⟨_, hw.opens hs ht hsome href hfd', rfl⟩

/-- `sys_open` without `O_CREATE`, if the table of open files has room. The name means a regular
file, or nothing.

**Proof sketch.** `namei` finds the inode of the file, or nothing if there is none, and then both
return -1. An inode that is found is no directory, and is opened (`wp_openInode_refines`). -/
theorem wp_sysOpen_refines (hs : Settled s) (hw : s.ShowsFiles p ino w) {path : List UInt8}
    {omode : ℕ} (hcreate : omode &&& O_CREATE = 0)
    (hpath : (s.resolve p path false).map Prod.fst =
      if (w.file path).isSome then some (ino path) else none)
    (hroom : ∃ f < NFILE, (s.ftable f).ref = 0) :
    Wp NoDoubleFree (sysOpen p path omode) (fun r s' => ∃ w', s'.ShowsFiles p ino w' ∧
      HgXv6.sysOpen path omode w = (r, w')) s := by
  unfold sysOpen
  rw [if_neg (not_not.mpr hcreate), wp_bind]
  refine wp_namex_took hs p path false (fun s₁ hresolve h₁ => ?_) fun i name s₁ hresolve h₁ => ?_
  · rw [hresolve, Option.map_none] at hpath
    split_ifs at hpath with hsome
    refine ⟨w, hw.took h₁, ?_⟩
    simp only [HgXv6.sysOpen, if_neg (not_not.mpr hcreate), if_neg hsome]
  rw [hresolve, Option.map_some] at hpath
  split_ifs at hpath with hsome
  obtain rfl : i = ino path := Option.some.inj hpath
  obtain ⟨ip, hip⟩ := Option.isSome_iff_exists.mp hsome
  have htype : (s.node (ino path)).type = T_FILE := (type_node ..).trans (hw.file path ip hip).type
  dsimp only
  rw [wp_bind]
  refine wp_lock h₁ fun s₂ h₂ _ hheld _ => ?_
  rw [wp_bind, wp_get, if_neg fun hdir => ?_]
  · simp only [HgXv6.sysOpen, if_neg (not_not.mpr hcreate), if_pos hsome]
    exact wp_openInode_refines hs hw h₂ hsome hroom
  · rw [h₂.type_copy hheld, htype] at hdir
    exact absurd hdir.1 (by decide)

/-- `sys_open` with `O_CREATE` of a file that exists, if the table of open files has room: it is
opened as it is.

**Proof sketch.** `create` finds the name in its directory and a regular file under it, and returns
this file locked. From there on it is opened like any other (`wp_openInode_refines`). -/
theorem wp_sysOpen_create_refines (hs : Settled s) (hw : s.ShowsFiles p ino w) {path : List UInt8}
    {omode : ℕ} (hcreate : omode &&& O_CREATE ≠ 0) (hsome : (w.file path).isSome)
    (hpath : ∃ dp name k, s.resolve p path true = some (dp, name) ∧
      (s.node dp).lookup name = some (ino path, k))
    (hroom : ∃ f < NFILE, (s.ftable f).ref = 0) :
    Wp NoDoubleFree (sysOpen p path omode) (fun r s' => ∃ w', s'.ShowsFiles p ino w' ∧
      HgXv6.sysOpen path omode w = (r, w')) s := by
  obtain ⟨dp, name, k, hresolve, hlookup⟩ := hpath
  obtain ⟨ip, hip⟩ := Option.isSome_iff_exists.mp hsome
  have htype : (s.node (ino path)).type = T_FILE := (type_node ..).trans (hw.file path ip hip).type
  unfold sysOpen
  rw [if_pos hcreate, wp_bind]
  unfold create
  rw [wp_bind]
  refine wp_namex_took hs p path true (fun s₁ hnone _ => ?_) fun dp' name' s₁ hsame h₁ => ?_
  · rw [hresolve] at hnone
    cases hnone
  obtain ⟨rfl, rfl⟩ := Prod.mk.inj (Option.some.inj (hresolve.symm.trans hsame))
  rw [wp_bind]
  refine wp_lock h₁ fun s₂ h₂ _ hdp _ => ?_
  rw [wp_bind]
  refine wp_lookup hs h₂ hdp (fun hnone => ?_) fun i k' s₃ hfound h₃ _ => ?_
  · rw [hlookup] at hnone
    cases hnone
  obtain ⟨rfl, -⟩ := Prod.mk.inj (Option.some.inj (hlookup.symm.trans hfound))
  -- the directory is put, and the file locked
  rw [wp_bind]
  refine wp_put (h₃.perm (List.Perm.swap dp _ [])) fun s₄ h₄ => ?_
  rw [wp_bind]
  refine wp_lock h₄ fun s₅ h₅ _ hheld _ => ?_
  rw [wp_bind, wp_get, if_pos ⟨rfl, (h₅.type_copy hheld).trans htype⟩, wp_pure]
  simp only [HgXv6.sysOpen, if_pos hcreate, HgXv6.create, hip]
  exact wp_openInode_refines hs hw h₅ hsome hroom

/-- `sys_write`.

**Proof sketch.** `argfd` finds an open file on the disk exactly if the process has the descriptor.
If it may not be written through, both calls return -1. Otherwise the write is that of the file
(`wp_filewrite_refines`); what it changes belongs to no other file and to no other descriptor, as no
two share an inode or an open file. -/
theorem wp_sysWrite_refines (hE : E (.panic "balloc: out of blocks")) (h : Consistent s)
    (hw : s.ShowsFiles p ino w) (fd : ℤ) (src : List UInt8) :
    Wp E (sysWrite p fd src) (fun r s' => Consistent s' ∧ ∃ w', s'.ShowsFiles p ino w' ∧
      HgXv6.sysWrite fd src w = .ok (r, w')) s := by
  unfold sysWrite
  refine Wp.bind (hw.argfd fd) ?_
  rintro r s₁ ⟨hs, hnone, hsome⟩
  subst s₁
  cases r with
  | none => exact ⟨h, w, hw, by rw [HgXv6.sysWrite, hnone rfl]⟩
  | some f =>
    obtain ⟨h0, hlt, hf⟩ := hsome f rfl
    obtain ⟨o, ho, hfile, href, hftable⟩ := hw.opened fd.toNat (by omega) f hf
    obtain ⟨ip, hip⟩ := Option.isSome_iff_exists.mp hfile
    have hargfd : HgXv6.argfd fd w = some o := by rw [HgXv6.argfd, if_neg (by omega), ho]
    cases hwritable : o.writable with
    | false =>
      unfold filewrite
      rw [wp_bind, wp_get, if_pos (by rw [hftable, hwritable]), wp_pure]
      refine ⟨h, w, hw, ?_⟩
      simp only [HgXv6.sysWrite, hargfd, hip, hwritable]
      rfl
    | true =>
      refine (wp_filewrite_refines hE h (by rw [hftable, hwritable]) (by rw [hftable]) href
        (hw.file _ ip hip) src).mono ?_
      rintro r s' ⟨hwrite, ip', hip', hok⟩
      refine ⟨hwrite.consistent, _, hw.rewritten (by omega) hf ho hfile hwrite hip', ?_⟩
      rw [show (s.ftable f).off = o.off by rw [hftable]] at hok
      simp only [HgXv6.sysWrite, hargfd, hip, if_pos hwritable, hok, ok_bind]
      rfl

end HgXv6.Disk
