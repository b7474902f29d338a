import HgXv6.Kernel.FileSystem
import HgXv6.Lib.Loop

set_option relaxedAutoImplicit false
set_option autoImplicit false

/-!
# The copy loop of `cp`

`cp` on the file system of the kernel (`cp.c`): it opens the source and the destination, and copies
256 bytes at a time until a read returns nothing. The results of the writes are ignored. `open`
does not truncate the destination, so the bytes of an old one that is longer than the source stay
behind the copy.

## Main definitions

* `HgXv6.Cp.copy` — the part of `main` behind the completion of the path.
* `HgXv6.Cp.Copying` — the state in the middle of the loop.

## Main results

* `HgXv6.Cp.copy_succeeds`, `HgXv6.Cp.copy_returns` — what the destination holds at the end.
* `HgXv6.Cp.copies_iff` — it holds the source exactly if it was not longer before.
-/

namespace HgXv6.Cp

open Prog

/-! ## The program -/

/-- `#define BUF_SIZE 256` -/
abbrev BUF_SIZE : ℕ := 256

/-- One pass of the copy loop, on the files and on whether all calls have succeeded so far. -/
def copyStep (fdSrc fdDest : ℤ) (x : FileSystem × Bool) :
    Except Stop ((FileSystem × Bool) × Bool) :=
  sysRead fdSrc BUF_SIZE x.1 >>= fun (bs, w) =>
    match bs with
    | none => .ok ((w, false), false)
    | some [] => .ok ((w, x.2), false)
    | some (b :: bs) => sysWrite fdDest (b :: bs) w >>= fun (n, w) =>
      .ok ((w, x.2 && n = (b :: bs).length), true)

/-- `cp` of the file `src` to the path `com`: the files, and whether all calls have succeeded. The
source is a regular file, so the test of its type passes. -/
def copy (fuel : ℕ) (src com : List UInt8) (w : FileSystem) : Except Stop (FileSystem × Bool) :=
  let (fdSrc, w) := sysOpen src O_RDONLY w
  if fdSrc = -1 then .ok (w, false)
  else
    let (fdDest, w) := sysOpen com (O_WRONLY ||| O_CREATE) w
    if fdDest = -1 then .ok (w, false)
    else loopFuel .loops (copyStep fdSrc fdDest) fuel (w, true) >>= fun x =>
      .ok (sysClose fdDest (sysClose fdSrc x.1), x.2)

/-! ## The loop -/

/-- In the middle of the loop, with `off` bytes copied: the source holds `s`, and the destination
as much of it, and behind that what was there of its old contents `d`. -/
structure Copying (fdSrc fdDest : ℤ) (src com : List UInt8) (s d : List UInt8) (off : ℕ)
    (w : FileSystem) : Prop where
  files_ne : src ≠ com
  fds_ne : fdSrc ≠ fdDest
  source : argfd fdSrc w = some ((openFile src O_RDONLY).seek off)
  target : argfd fdDest w = some ((openFile com (O_WRONLY ||| O_CREATE)).seek off)
  read : ∃ ip, w.file src = some ip ∧ ip.content = s
  written : ∃ ip, w.file com = some ip ∧ ip.content = s.take off ++ d.drop off
  off_le : off ≤ s.length

variable {fdSrc fdDest : ℤ} {src com s d : List UInt8} {off : ℕ} {w : FileSystem}

/-- The next bytes of the source laid over the destination. -/
theorem take_append_drop_next {bs : List UInt8} (hoff : off ≤ s.length)
    (hbs : bs = (s.drop off).take bs.length) :
    (s.take off ++ d.drop off).take off ++ bs ++
        (s.take off ++ d.drop off).drop (off + bs.length) =
      s.take (off + bs.length) ++ d.drop (off + bs.length) := by
  have hlen : (s.take off).length = off := List.length_take_of_le hoff
  rw [List.take_left' hlen, ← List.drop_drop, List.drop_left' hlen, List.drop_drop, List.take_add,
    ← hbs]

/-- A pass in which there is something left to copy.

**Proof sketch.** `read` returns the bytes from the offset on, at most as many as the buffer has,
and at least one since the offset is below the size (`sysRead_ok`). `write` puts them at the offset
of the destination, which is the same one, and writes all of them, as they fit. So both offsets have
moved on by this number, and the destination agrees with the source up to there. -/
theorem Copying.step (h : Copying fdSrc fdDest src com s d off w)
    (hs : s.length ≤ MAXFILE * BSIZE) (hlt : off < s.length) : ∃ w' off',
      copyStep fdSrc fdDest (w, true) = .ok ((w', true), true) ∧ off < off' ∧
        Copying fdSrc fdDest src com s d off' w' := by
  obtain ⟨ip, hip, rfl⟩ := h.read
  obtain ⟨jp, hjp, hcontent⟩ := h.written
  have h32 : MAXFILE * BSIZE + BUF_SIZE < 2 ^ 32 := by decide
  have hsize : off < ip.size := by rwa [Inode.length_content] at hlt
  rw [Inode.length_content] at hs
  obtain ⟨bs, ip', hbs, hip', hread⟩ := sysRead_ok (n := BUF_SIZE) h.source hip rfl hsize.le hs
    (by rw [off_seek]; omega)
  rw [off_seek] at hbs hread
  rw [seek_seek] at hread
  have hlen : bs.length = min BUF_SIZE (ip.size - off) := by
    rw [hbs]
    simp
  set w₁ := w.put fdSrc ((openFile src O_RDONLY).seek (off + bs.length)) ip' with hw₁
  have htarget : argfd fdDest w₁ = some ((openFile com (O_WRONLY ||| O_CREATE)).seek off) :=
    (argfd_put_of_ne h.source h.fds_ne.symm).trans h.target
  have hsize' : off ≤ jp.size := by
    rw [← Inode.length_content, hcontent, List.length_append, List.length_take_of_le hlt.le]
    omega
  obtain ⟨n, off', jp', hwrite, hfits, hpost⟩ := sysWrite_ok htarget
    ((file_put_of_ne h.files_ne.symm).trans hjp) rfl hsize' (by rw [off_seek]; omega) bs
  rw [off_seek] at hfits hpost
  obtain ⟨rfl, hjp'⟩ := hpost (hfits (by omega))
  have hbuf : 0 < BUF_SIZE := by decide
  rw [seek_seek] at hwrite
  refine ⟨w₁.put fdDest ((openFile com (O_WRONLY ||| O_CREATE)).seek (off + bs.length)) jp',
    off + bs.length, ?_, by omega, ?_⟩
  · obtain ⟨b, rest, rfl⟩ := List.exists_cons_of_length_pos (show 0 < bs.length by omega)
    simp only [copyStep, hread, ok_bind, hwrite, hfits (by omega), decide_true, Bool.and_self]
  · refine ⟨h.files_ne, h.fds_ne, ?_, argfd_put htarget, ⟨ip', ?_, hip'⟩, ⟨jp', file_put, ?_⟩,
      ?_⟩
    · exact (argfd_put_of_ne htarget h.fds_ne).trans (argfd_put h.source)
    · exact (file_put_of_ne h.files_ne).trans file_put
    · rw [hjp', hcontent]
      refine take_append_drop_next hlt.le ?_
      rw [hlen, hbs]
      simp
    · rw [Inode.length_content]
      omega

/-- The pass that finds the source at its end. -/
theorem Copying.stop (h : Copying fdSrc fdDest src com s d s.length w)
    (hs : s.length ≤ MAXFILE * BSIZE) : ∃ w',
      copyStep fdSrc fdDest (w, true) = .ok ((w', true), false) ∧
        Copying fdSrc fdDest src com s d s.length w' := by
  obtain ⟨ip, hip, hcontent⟩ := h.read
  have h32 : MAXFILE * BSIZE + BUF_SIZE < 2 ^ 32 := by decide
  have hsize : s.length = ip.size := by rw [← hcontent, Inode.length_content]
  obtain ⟨bs, ip', hbs, hip', hread⟩ := sysRead_ok (n := BUF_SIZE) h.source hip rfl hsize.le
    (by omega) (by rw [off_seek]; omega)
  obtain rfl : bs = [] := by simp [hbs, hcontent]
  refine ⟨_, by simp only [copyStep, hread, ok_bind]; rfl, h.files_ne, h.fds_ne,
    argfd_put h.source, (argfd_put_of_ne h.source h.fds_ne.symm).trans h.target,
    ⟨ip', file_put, hip'.trans hcontent⟩, ?_, le_rfl⟩
  obtain ⟨jp, hjp, hjp'⟩ := h.written
  exact ⟨jp, (file_put_of_ne h.files_ne.symm).trans hjp, hjp'⟩

/-- The loop copies what is left of the source. -/
theorem Copying.loop (h : Copying fdSrc fdDest src com s d off w)
    (hs : s.length ≤ MAXFILE * BSIZE) : ∃ w',
      Returns (fun n => loopFuel .loops (copyStep fdSrc fdDest) n (w, true)) (w', true) ∧
        Copying fdSrc fdDest src com s d s.length w' := by
  obtain ⟨k, hk⟩ : ∃ k, k = s.length - off := ⟨_, rfl⟩
  induction k using Nat.strong_induction_on generalizing off w with
  | _ k ih =>
    rcases h.off_le.lt_or_eq with hlt | rfl
    · obtain ⟨w₁, off', hstep, hoff, h₁⟩ := h.step hs hlt
      obtain ⟨w', hloop, hw'⟩ := ih (s.length - off') (by omega) h₁ rfl
      exact ⟨w', loopFuel_returns_of_step hstep hloop, hw'⟩
    · obtain ⟨w', hstep, hw'⟩ := h.stop hs
      exact ⟨w', loopFuel_returns_of_stop hstep, hw'⟩

/-! ## The program -/

/-- If both files can be opened, all calls succeed, and the destination holds the source at the end,
and behind that what the old destination had there.

**Proof sketch.** Opening the destination leaves the source and its descriptor alone, as the names
differ. Before the first pass both offsets are 0. Each pass moves them on (`Copying.step`), so the
loop comes to the end of the source, where `read` returns 0 and the loop ends with success. -/
theorem copy_succeeds {ip : Inode} (hip : w.file src = some ip) (hsize : ip.size ≤ MAXFILE * BSIZE)
    (hne : src ≠ com) {w₁ w₂ : FileSystem} (hopen : sysOpen src O_RDONLY w = (fdSrc, w₁))
    (hfd : fdSrc ≠ -1) (hopen' : sysOpen com (O_WRONLY ||| O_CREATE) w₁ = (fdDest, w₂))
    (hfd' : fdDest ≠ -1) : ∃ w', Returns (fun n => copy n src com w) (w', true) ∧
      w'.contentOf com = w.contentOf src ++ (w.contentOf com).drop (w.contentOf src).length := by
  have hok := sysOpen_nonneg hopen hfd
  have hok' := sysOpen_nonneg hopen' hfd'
  obtain ⟨ip₁, hargfd, hip₁, hsource⟩ := sysOpen_ok hopen hok
  obtain ⟨jp, hargfd', hjp, htarget⟩ := sysOpen_ok hopen' hok'
  rw [sysOpen_contentOf hopen hok] at htarget
  obtain ⟨hfds, hkept, hip₂⟩ := sysOpen_frame hopen' hok' hargfd hip₁
  have hstart : Copying fdSrc fdDest src com (w.contentOf src) (w.contentOf com) 0 w₂ :=
    ⟨hne, hfds, hkept, hargfd', ⟨ip₁, hip₂, hsource⟩, ⟨jp, hjp, htarget⟩, Nat.zero_le _⟩
  have hs : (w.contentOf src).length ≤ MAXFILE * BSIZE := by
    rwa [FileSystem.contentOf, hip, Option.map_some, Option.getD_some, Inode.length_content]
  obtain ⟨w₃, hloop, hend⟩ := hstart.loop hs
  refine ⟨sysClose fdDest (sysClose fdSrc w₃), ?_, ?_⟩
  · simp only [copy, hopen, if_neg hfd, hopen', if_neg hfd']
    exact Returns.bind hloop (Returns.of_eq rfl)
  · obtain ⟨jp', hjp', hcontent⟩ := hend.written
    have hcom : w₃.contentOf com = jp'.content := by
      rw [FileSystem.contentOf, hjp', Option.map_some, Option.getD_some]
    calc (sysClose fdDest (sysClose fdSrc w₃)).contentOf com = w₃.contentOf com := by
          rw [sysClose_contentOf, sysClose_contentOf]
      _ = jp'.content := hcom
      _ = w.contentOf src ++ (w.contentOf com).drop (w.contentOf src).length := by
          rw [hcontent, List.take_length]

/-- `cp` ends. If it has succeeded, the destination holds the source, and behind that what the old
destination had there.

**Proof sketch.** If one of the files cannot be opened `cp` ends without success. Otherwise it
succeeds, and the destination is as stated (`copy_succeeds`). -/
theorem copy_returns {ip : Inode} (hip : w.file src = some ip)
    (hsize : ip.size ≤ MAXFILE * BSIZE) (hne : src ≠ com) :
    ∃ r, Returns (fun n => copy n src com w) r ∧ (r.2 = true →
      r.1.contentOf com = w.contentOf src ++ (w.contentOf com).drop (w.contentOf src).length) := by
  rcases hopen : sysOpen src O_RDONLY w with ⟨fdSrc, w₁⟩
  by_cases hfd : fdSrc = -1
  · refine ⟨(w₁, false), ?_, nofun⟩
    simp only [copy, hopen, if_pos hfd]
    exact Returns.of_eq rfl
  rcases hopen' : sysOpen com (O_WRONLY ||| O_CREATE) w₁ with ⟨fdDest, w₂⟩
  by_cases hfd' : fdDest = -1
  · refine ⟨(w₂, false), ?_, nofun⟩
    simp only [copy, hopen, if_neg hfd, hopen', if_pos hfd']
    exact Returns.of_eq rfl
  obtain ⟨w', hr, hcontent⟩ := copy_succeeds hip hsize hne hopen hfd hopen' hfd'
  exact ⟨(w', true), hr, fun _ => hcontent⟩

/-- **Copying a file.** `cp` ends, and if it has succeeded, the destination holds what the source
holds exactly if it was no longer than the source before.

**Proof sketch.** The loop of `copy` ends as each pass reads at least one byte of the source or is
the last; and when it has succeeded the destination begins with the source and has its old bytes
behind it (`copy_returns`). There are none exactly if it was no longer than the source. -/
theorem copies_iff {ip : Inode} (hip : w.file src = some ip)
    (hsize : ip.size ≤ MAXFILE * BSIZE) (hne : src ≠ com) :
    ∃ r, Returns (fun n => copy n src com w) r ∧ (r.2 = true →
      (r.1.contentOf com = w.contentOf src ↔
        (w.contentOf com).length ≤ (w.contentOf src).length)) := by
  obtain ⟨r, hr, hcontent⟩ := copy_returns hip hsize hne
  refine ⟨r, hr, fun hok => ?_⟩
  rw [hcontent hok, List.append_right_eq_self, List.drop_eq_nil_iff]

/-- A file of a single block. -/
def smallInode (bs : List UInt8) : Inode where
  block := fun bn => if bn = 0 then some (overlay (fun _ => 0) 0 bs) else none
  size := bs.length

/-- A disk with the files `a`, of one byte, and `b`, of two. -/
def twoFiles : FileSystem where
  file := fun p => if p = str "a" then some (smallInode (str "x"))
    else if p = str "b" then some (smallInode (str "yz")) else none
  creatable := fun _ => true
  ofile := fun _ => none

/-- `copies_iff` for a destination that does not exist. -/
theorem copies_iff_absent : ∃ r, Returns (fun n => copy n (str "a") (str "c") twoFiles) r ∧
    (r.2 = true → (r.1.contentOf (str "c") = twoFiles.contentOf (str "a") ↔
      (twoFiles.contentOf (str "c")).length ≤ (twoFiles.contentOf (str "a")).length)) :=
  copies_iff rfl (by decide) (by decide)

/-- Copied to a longer file, the source has the last byte of that file behind it. -/
theorem not_forall_copies : ¬∀ (w : FileSystem) (src com : List UInt8) (ip : Inode) (n : ℕ)
    (r : FileSystem × Bool), w.file src = some ip → ip.size ≤ MAXFILE * BSIZE → src ≠ com →
    copy n src com w = .ok r → r.2 = true → r.1.contentOf com = w.contentOf src := by
  intro h
  obtain ⟨r, hr, hok, hcontent⟩ : ∃ r, copy 2 (str "a") (str "b") twoFiles = .ok r ∧
      r.2 = true ∧ r.1.contentOf (str "b") = str "xz" := by
    have hrun : (copy 2 (str "a") (str "b") twoFiles).map (fun r => decide (r.2 = true ∧
        r.1.contentOf (str "b") = str "xz")) = .ok true := by decide +kernel
    rcases hr : copy 2 (str "a") (str "b") twoFiles with e | r
    · rw [hr] at hrun
      cases hrun
    · rw [hr] at hrun
      exact ⟨r, rfl, of_decide_eq_true (Except.ok.inj hrun)⟩
  have heq := h twoFiles (str "a") (str "b") _ 2 r rfl (by decide) (by decide) hr hok
  rw [hcontent] at heq
  exact absurd heq (by decide)

end HgXv6.Cp
