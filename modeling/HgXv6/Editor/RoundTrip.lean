import HgXv6.Editor.Run
import HgXv6.Kernel.FileSystem

set_option relaxedAutoImplicit false
set_option autoImplicit false

/-!
# Saving and loading

The editor on the file system of the kernel. `file_save` passes one byte too many to `write`, the
NUL behind the text, and neither the editor nor the kernel truncates the file: after a save that
succeeds the file holds the text, that byte, and what the old file had behind it.

## Main definitions

* `HgXv6.kernel` — the file system calls of the editor, as the kernel carries them out.
* `HgXv6.oneFile` — a disk with a single file.

## Main results

* `HgXv6.fileSave_content` — what a save leaves in the file.
* `HgXv6.fileSave_ne` — it is never the text.
-/

namespace HgXv6

open Prog

/-- The calls of the editor on the kernel's file system. A read within a file changes nothing on
the disk, and its descriptor is closed again. A write through a descriptor just opened does not
panic (`sysWrite_ok`). -/
def kernel : Sys FileSystem where
  stat w fn :=
    let (fd, w) := sysOpen fn O_RDONLY w
    if fd < 0 then none else sysFstat fd w
  load w fn n :=
    let (fd, w) := sysOpen fn O_RDWR w
    let (fd, w) := if fd < 0 then sysOpen fn O_RDONLY w else (fd, w)
    if fd < 0 then none
    else match sysRead fd n w with
      | .ok (bs, _) => bs
      | .error _ => none
  openSave w fn := sysOpen fn (O_WRONLY ||| O_CREATE) w
  write w fd bs := match sysWrite fd bs w with
    | .ok r => r
    | .error _ => (-1, w)
  close w fd := sysClose fd w

/-- `file_size` finds the length of the file. -/
theorem kernel_stat {w : FileSystem} {fn : List UInt8} {cnt : ℕ}
    (h : kernel.stat w fn = some cnt) : cnt = (w.contentOf fn).length := by
  rcases hopen : sysOpen fn O_RDONLY w with ⟨fd, w'⟩
  simp only [kernel, hopen] at h
  split_ifs at h with hfd
  obtain ⟨ip, hargfd, hip, hcontent⟩ := sysOpen_ok hopen (not_lt.mp hfd)
  simp only [sysFstat, hargfd, openFile, hip, Option.map_some, Option.some.injEq] at h
  rw [← hcontent, Inode.length_content, h]

/-- The bytes that are saved: the text, and the byte behind it. -/
theorem saveBytes_eq {W : Type} {s : Vi W} (h : 0 ≤ s.endp) :
    saveBytes s = s.text ++ [s.mem s.endp] := by
  have hlen : (s.endp + 1).toNat = s.endp.toNat + 1 := by omega
  rw [saveBytes, hlen, bytes_succ, Vi.text, zero_add, Int.toNat_of_nonneg h]

/-- A save that succeeds has opened the file, written all bytes and closed it. -/
theorem fileSave_ok {W : Type} {sys : Sys W} {s s' : Vi W} (hend : 0 ≤ s.endp)
    (h : fileSave sys s = .ok (s.endp + 1, s')) : ∃ fn fd w w', s.cfn = some fn ∧
      sys.openSave s.world fn = (fd, w) ∧ 0 ≤ fd ∧
      sys.write w fd (saveBytes s) = (s.endp + 1, w') ∧ s'.world = sys.close w' fd := by
  unfold fileSave at h
  split at h
  · obtain ⟨t, -, h⟩ := bind_eq_ok.mp h
    obtain ⟨h, -⟩ := Prod.mk.inj (Except.ok.inj h)
    omega
  · rename_i fn hcfn
    dsimp only at h
    split_ifs at h with hfd hres
    · obtain ⟨h, -⟩ := Prod.mk.inj (Except.ok.inj h)
      omega
    · obtain ⟨t, -, h⟩ := bind_eq_ok.mp h
      obtain ⟨h, -⟩ := Prod.mk.inj (Except.ok.inj h)
      omega
    · obtain ⟨-, rfl⟩ := Prod.mk.inj (Except.ok.inj h)
      exact ⟨fn, _, _, _, hcfn, rfl, not_lt.mp hfd, Prod.ext (not_not.mp hres) rfl, rfl⟩

/-- After a save that succeeds, the file holds the text, the byte behind it in the buffer, and what
it held behind as many bytes before.

**Proof sketch.** A save that succeeds has opened the file and written `end - text + 1` bytes at
offset 0. Opening it does not truncate it (`sysOpen_ok`), and a write lays its bytes over the
contents (`sysWrite_ok`); the bytes are the text and the one behind it, and what the file held
further on stays. Closing changes no contents. -/
theorem fileSave_content {s s' : Vi FileSystem} {fn : List UInt8} (hcfn : s.cfn = some fn)
    (hend : 0 ≤ s.endp) (hsave : fileSave kernel s = .ok (s.endp + 1, s')) :
    s'.world.contentOf fn =
      s.text ++ s.mem s.endp :: (s.world.contentOf fn).drop (s.text.length + 1) := by
  obtain ⟨fn', fd, w, w', hcfn', hopen, hfd, hwrite, hworld⟩ := fileSave_ok hend hsave
  obtain rfl := Option.some.inj (hcfn.symm.trans hcfn')
  obtain ⟨ip, hargfd, hip, hcontent⟩ := sysOpen_ok hopen hfd
  obtain ⟨n, off, ip', hr, -, hpost⟩ :=
    sysWrite_ok hargfd hip rfl (Nat.zero_le _) (Nat.zero_le _) (saveBytes s)
  obtain ⟨rfl, rfl⟩ : n = s.endp + 1 ∧
      w.put fd ((openFile fn (O_WRONLY ||| O_CREATE)).seek off) ip' = w' := by
    rw [← Prod.mk.injEq, ← hwrite]
    simp only [kernel, hr]
  have hlen : (saveBytes s).length = s.text.length + 1 := by
    rw [saveBytes_eq hend, List.length_append, List.length_singleton]
  obtain ⟨-, hcontent'⟩ := hpost (by
    rw [hlen, Vi.text, length_bytes]
    omega)
  have hip' := @file_put w fd ((openFile fn (O_WRONLY ||| O_CREATE)).seek off) ip'
  have hclosed : s'.world.contentOf fn = ip'.content := by
    rw [hworld, show kernel.close _ fd = sysClose fd _ from rfl, sysClose_contentOf]
    simp only [FileSystem.contentOf, show (w.put fd _ ip').file fn = some ip' from hip',
      Option.map_some, Option.getD_some]
  calc s'.world.contentOf fn = ip'.content := hclosed
    _ = saveBytes s ++ (s.world.contentOf fn).drop (s.text.length + 1) := by
        rw [hcontent', hcontent, hlen]
        simp [openFile]
    _ = s.text ++ s.mem s.endp :: (s.world.contentOf fn).drop (s.text.length + 1) := by
        rw [saveBytes_eq hend, List.append_assoc, List.singleton_append]

/-- The text of a file just opened has the length of the file. -/
theorem editFile_text_length {fuel : ℕ} {m : ℤ → UInt8} {fn : List UInt8} {cga : Cga}
    {w : FileSystem} {t : Vi FileSystem} (h : editFile kernel fuel m fn cga w = .ok (some t)) :
    t.text.length = (w.contentOf fn).length := by
  obtain ⟨cnt, content, hstat, -, b, c, rfl, -⟩ := editFile_cases h
  rw [← kernel_stat hstat, Vi.text, length_bytes]
  exact Int.toNat_natCast cnt

/-- A save never leaves the text in the file: whenever it succeeds, the contents of the file are not
the text, they are not what they were if the text was loaded from the file and not edited, and the
file, when it is opened again, gives another text.

**Proof sketch.** By `fileSave_content` the file is longer than the text after every save that
succeeds, so it is not the text. In the second part the contents before were the text, and in the
third the text that is read again has the length of the file. -/
theorem fileSave_ne {s s' : Vi FileSystem} {fn : List UInt8} (hcfn : s.cfn = some fn)
    (hend : 0 ≤ s.endp) (hsave : fileSave kernel s = .ok (s.endp + 1, s')) :
    s'.world.contentOf fn ≠ s.text ∧
      (s.world.contentOf fn = s.text → s'.world.contentOf fn ≠ s.world.contentOf fn) ∧
      ∀ fuel m cga t, editFile kernel fuel m fn cga s'.world = .ok (some t) → t.text ≠ s.text := by
  have hlt : s.text.length < (s'.world.contentOf fn).length := by
    rw [fileSave_content hcfn hend hsave, List.length_append, List.length_cons]
    omega
  refine ⟨fun h => ?_, fun h h' => ?_, fun fuel m cga t ht h => ?_⟩
  · rw [h] at hlt
    exact lt_irrefl _ hlt
  · rw [h', h] at hlt
    exact lt_irrefl _ hlt
  · rw [← editFile_text_length ht, h] at hlt
    exact lt_irrefl _ hlt

/-! ## A file of one letter -/

/-- A disk with the single file `f`, and a process with its three standard descriptors open. -/
def oneFile (content : List UInt8) : FileSystem where
  file := fun path =>
    if path = str "f" then
      some { block := fun bn => if bn = 0 then some (overlay (fun _ => 0) 0 content) else none
             size := content.length }
    else none
  creatable := fun _ => true
  ofile := fun fd =>
    if fd < 3 then some { path := str "console", off := 0, readable := true, writable := true }
    else none

/-- The editor on the file `f` with the contents `a`, before anything is drawn. -/
def oneLetter : Vi FileSystem := opened (fun _ => NUL) (str "f") 1 (str "a") clearedScreen
  (oneFile (str "a"))

/-- What is computed of this save. -/
theorem fileSave_oneLetter : ∃ s', fileSave kernel oneLetter = .ok (oneLetter.endp + 1, s') ∧
    s'.world.contentOf (str "f") = [97, 0] := by
  have h : (fileSave kernel oneLetter).map (fun r => decide (r.1 = oneLetter.endp + 1 ∧
      r.2.world.contentOf (str "f") = [97, 0])) = .ok true := by decide +kernel
  rcases hsave : fileSave kernel oneLetter with e | ⟨n, s'⟩
  · rw [hsave] at h
    cases h
  · rw [hsave] at h
    obtain ⟨rfl, hcontent⟩ := of_decide_eq_true (Except.ok.inj h)
    exact ⟨s', rfl, hcontent⟩

/-- `fileSave_ne` for the file `a`. -/
theorem fileSave_ne_letter : ∃ s', fileSave kernel oneLetter = .ok (oneLetter.endp + 1, s') ∧
    s'.world.contentOf (str "f") ≠ oneLetter.text := by
  obtain ⟨s', hsave, -⟩ := fileSave_oneLetter
  exact ⟨s', hsave, (fileSave_ne rfl (by decide) hsave).1⟩

/-- Saving the file `a` leaves it with the letter and a NUL. -/
theorem not_forall_content_eq : ¬∀ (s s' : Vi FileSystem) (fn : List UInt8), s.cfn = some fn →
    0 ≤ s.endp → fileSave kernel s = .ok (s.endp + 1, s') → s'.world.contentOf fn = s.text := by
  intro hall
  obtain ⟨s', hsave, hcontent⟩ := fileSave_oneLetter
  have h := hall oneLetter s' (str "f") rfl (by decide) hsave
  rw [hcontent] at h
  exact absurd h (by decide)

end HgXv6
