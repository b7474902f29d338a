import HgXv6.Base
import HgXv6.Lib.Loop
import HgXv6.Lib.Overlay
import Mathlib.Data.List.TakeWhile

set_option relaxedAutoImplicit false
set_option autoImplicit false

/-!
# The destination of `cp`

`cp` completes its second argument (`cp.c`): if that ends in a slash, the part of the first
argument behind its last slash is appended, in an array of 128 bytes on the stack, with `strcpy`
and `strlen` of the user library (`ulib.c`).

The arguments are strings in the memory of the process, each with its terminating zero. A load
outside of its string and a store outside of the array stop the model: what the program does from
there on is not defined.

## Main definitions

* `HgXv6.Cp.Arg` — an argument.
* `HgXv6.Cp.strcpy`, `HgXv6.Cp.strlen`, `HgXv6.Cp.completePath` — the source functions.
* `HgXv6.Cp.completed` — the path that is meant.

## Main results

* `HgXv6.Cp.strcpy_returns`, `HgXv6.Cp.strcpy_fits` — a copy that fits, and only such a copy,
  ends.
* `HgXv6.Cp.completesPath_iff` — the path is the one that is meant, with no access out of place,
  exactly if the second argument is not empty and the path fits in the array.
-/

namespace HgXv6.Cp

open Prog

/-! ## The program -/

/-- An argument of the program: the bytes of a string up to its terminating zero. -/
structure Arg where
  bytes : List UInt8
  noNul : NUL ∉ bytes

/-- Why the program has no result. -/
inductive Undefined
  /-- a loop is still running after the allowed number of iterations -/
  | loops
  /-- a load from this index of a string -/
  | load (i : ℤ)
  /-- a store to this index of `com` -/
  | store (i : ℕ)
deriving DecidableEq

/-- `s[i]` -/
def Arg.load (s : Arg) (i : ℤ) : Except Undefined UInt8 :=
  if 0 ≤ i ∧ i ≤ s.bytes.length then .ok ((s.bytes[i.toNat]?).getD NUL) else .error (.load i)

/-- The size of the array: `char com[128]` -/
abbrev COMSIZE : ℕ := 128

/-- The array. -/
abbrev Com := ℕ → UInt8

/-- `com[i] = c` -/
def storeCom (i : ℕ) (c : UInt8) (com : Com) : Except Undefined Com :=
  if i < COMSIZE then .ok (Function.update com i c) else .error (.store i)

/-- `strlen(s)` -/
def strlen (fuel : ℕ) (s : Arg) : Except Undefined ℕ :=
  loopFuel .loops (fun n => s.load n >>= fun c =>
    .ok (if c ≠ 0 then (n + 1, true) else (n, false))) fuel 0

/-- One pass of `while((*s++ = *t++) != 0)`: the index in `com`, that in `t`, and `com`. -/
def strcpyStep (t : Arg) (x : ℕ × ℕ × Com) : Except Undefined ((ℕ × ℕ × Com) × Bool) :=
  t.load x.2.1 >>= fun c => storeCom x.1 c x.2.2 >>= fun com =>
    .ok ((x.1 + 1, x.2.1 + 1, com), c ≠ 0)

/-- `strcpy(&com[d], &t[i])` -/
def strcpy (fuel : ℕ) (d : ℕ) (t : Arg) (i : ℕ) (com : Com) : Except Undefined Com :=
  loopFuel .loops (strcpyStep t) fuel (d, i, com) >>= fun x => .ok x.2.2

/-- `for (; i >= 0; i--) if (argv[1][i] == '/') break;` -/
def lastSlash (fuel : ℕ) (s : Arg) (i : ℤ) : Except Undefined ℤ :=
  loopFuel .loops (fun i =>
    if i ≥ 0 then s.load i >>= fun c => .ok (if c = chr '/' then (i, false) else (i - 1, true))
    else .ok (i, false)) fuel i

/-- The string in the array, which `open` takes for the path. -/
def path (com : Com) : List UInt8 := (firstOf com COMSIZE).takeWhile (· ≠ NUL)

/-- The part of `main` that completes the path. -/
def completePath (fuel : ℕ) (argv1 argv2 : Arg) : Except Undefined (List UInt8) :=
  strcpy fuel 0 argv2 0 (fun _ => 0) >>= fun com =>
  strlen fuel argv1 >>= fun len1 =>
  strlen fuel argv2 >>= fun len2 =>
  argv2.load (len2 - 1) >>= fun c =>
  (if c = chr '/' then
    lastSlash fuel argv1 (len1 - 1) >>= fun i => strcpy fuel len2 argv1 (i + 1).toNat com
  else .ok com) >>= fun com => .ok (path com)

/-! ## What is meant -/

/-- The part of a path behind its last slash. -/
def baseName (p : List UInt8) : List UInt8 := (p.reverse.takeWhile (· ≠ chr '/')).reverse

/-- The path that is meant. -/
def completed (argv1 argv2 : List UInt8) : List UInt8 :=
  if argv2.getLast? = some (chr '/') then argv2 ++ baseName argv1 else argv2

/-- The program opens the path that is meant, and all its loads and stores until then are in their
places. -/
def CompletesPath (argv1 argv2 : Arg) : Prop :=
  Returns (fun fuel => completePath fuel argv1 argv2) (completed argv1.bytes argv2.bytes)

/-! ## Loads and stores -/

variable {s : Arg} {com : Com} {d i n : ℕ}

/-- A load of a byte of the string. -/
theorem Arg.load_of_lt (h : i < s.bytes.length) : s.load i = .ok s.bytes[i] := by
  rw [Arg.load, if_pos ⟨by omega, by omega⟩, Int.toNat_natCast, List.getElem?_eq_getElem h,
    Option.getD_some]

/-- A load of the terminating zero. -/
theorem Arg.load_length (s : Arg) : s.load s.bytes.length = .ok NUL := by
  rw [Arg.load, if_pos ⟨by omega, le_rfl⟩, Int.toNat_natCast, List.getElem?_eq_none le_rfl,
    Option.getD_none]

/-- The bytes of the string are not zero. -/
theorem Arg.ne_zero (s : Arg) (h : i < s.bytes.length) : s.bytes[i] ≠ NUL :=
  fun heq => s.noNul (heq ▸ List.getElem_mem h)

/-- The length of a string. -/
theorem strlen_returns (s : Arg) : Returns (fun n => strlen n s) s.bytes.length := by
  refine loopFuel_returns_of_steps (n := s.bytes.length) (fun i => i) (fun i hi => ?_) ?_
  · rw [Arg.load_of_lt hi, ok_bind, if_pos (s.ne_zero hi)]
  · rw [Arg.load_length, ok_bind, if_neg (not_not.mpr rfl)]

/-! ## The last slash -/

/-- There is no slash in the part behind the last slash. -/
theorem not_mem_baseName (p : List UInt8) : chr '/' ∉ baseName p := by
  intro hmem
  have hne := List.mem_takeWhile_imp (List.mem_reverse.mp hmem)
  simp at hne

/-- Before that part there is nothing, or a slash. -/
theorem baseName_split (p : List UInt8) : ∃ pre, p = pre ++ baseName p ∧
    (pre = [] ∨ ∃ dir, pre = dir ++ [chr '/']) := by
  refine ⟨(p.reverse.dropWhile (· ≠ chr '/')).reverse, ?_, ?_⟩
  · rw [baseName, ← List.reverse_append, List.takeWhile_append_dropWhile, List.reverse_reverse]
  · rcases hdrop : p.reverse.dropWhile (· ≠ chr '/') with _ | ⟨c, rest⟩
    · exact .inl rfl
    · have hhead := List.head?_dropWhile_not (fun c => decide (c ≠ chr '/')) p.reverse
      rw [hdrop] at hhead
      have hc : c = chr '/' := by simpa using hhead
      exact .inr ⟨rest.reverse, by rw [hc, List.reverse_cons]⟩

/-- The scan from the end of a string stops before the part behind the last slash. -/
theorem lastSlash_returns (s : Arg) : Returns (fun n => lastSlash n s (s.bytes.length - 1))
    (s.bytes.length - (baseName s.bytes).length - 1) := by
  obtain ⟨pre, hsplit, hpre⟩ := baseName_split s.bytes
  have hlen := congrArg List.length hsplit
  rw [List.length_append] at hlen
  have hstart : (s.bytes.length : ℤ) - 1 = s.bytes.length - 1 - (0 : ℕ) := by omega
  rw [hstart]
  refine loopFuel_returns_of_steps (n := (baseName s.bytes).length)
    (fun i : ℕ => (s.bytes.length : ℤ) - 1 - i) (fun i hi => ?_) ?_
  · obtain ⟨k, hk⟩ : ∃ k : ℕ, (s.bytes.length : ℤ) - 1 - i = k :=
      ⟨s.bytes.length - 1 - i, by omega⟩
    have hlt : k < s.bytes.length := by omega
    have hbyte : s.bytes[k] ∈ baseName s.bytes := by
      rw [List.getElem_of_eq hsplit hlt, List.getElem_append_right (by omega)]
      exact List.getElem_mem _
    have hne : s.bytes[k] ≠ chr '/' := fun heq => not_mem_baseName _ (heq ▸ hbyte)
    have hnext : (s.bytes.length : ℤ) - 1 - (i + 1 : ℕ) = k - 1 := by omega
    simp only [hk, hnext, if_pos (show (k : ℤ) ≥ 0 by omega), Arg.load_of_lt hlt, ok_bind,
      if_neg hne]
  · rcases hpre with rfl | ⟨dir, rfl⟩
    · rw [List.length_nil] at hlen
      rw [if_neg (by omega)]
      congr 2
      omega
    · rw [List.length_append, List.length_singleton] at hlen
      have hlt : dir.length < s.bytes.length := by omega
      have hbyte : s.bytes[dir.length] = chr '/' := by
        rw [List.getElem_of_eq hsplit hlt, List.getElem_append_left (by simp)]
        exact List.getElem_concat_length rfl _
      have hk : (s.bytes.length : ℤ) - 1 - (baseName s.bytes).length = dir.length := by omega
      simp only [hk, if_pos (show (dir.length : ℤ) ≥ 0 by omega), Arg.load_of_lt hlt, ok_bind,
        if_pos hbyte]
      congr 2
      omega

/-! ## Copies -/

/-- One byte copied. -/
theorem strcpyStep_of_lt (hlt : i < s.bytes.length) (hd : d < COMSIZE) : strcpyStep s (d, i, com) =
    .ok ((d + 1, i + 1, overlay com d [s.bytes[i]]), true) := by
  simp only [strcpyStep, Arg.load_of_lt hlt, ok_bind, storeCom, if_pos hd, overlay_singleton]
  rw [decide_eq_true (s.ne_zero hlt)]

/-- The zero copied. -/
theorem strcpyStep_length (hd : d < COMSIZE) : strcpyStep s (d, s.bytes.length, com) =
    .ok ((d + 1, s.bytes.length + 1, overlay com d [NUL]), false) := by
  simp only [strcpyStep, Arg.load_length, ok_bind, storeCom, if_pos hd, overlay_singleton]
  rfl

/-- A copy that fits ends, with the bytes and the zero in the array.

**Proof sketch.** By the number of bytes that are left: before pass `j` the first `j` of them are in
the array. Each pass stores one byte inside the array and the last one stores the zero. -/
theorem strcpy_returns (hi : i ≤ s.bytes.length) (h : d + (s.bytes.length - i) < COMSIZE) :
    Returns (fun n => strcpy n d s i com) (overlay com d (s.bytes.drop i ++ [NUL])) := by
  obtain ⟨k, hk⟩ : ∃ k, k = s.bytes.length - i := ⟨_, rfl⟩
  refine Returns.bind (a := (d + k + 1, i + k + 1, overlay com d (s.bytes.drop i ++ [NUL]))) ?_
    (Returns.of_eq rfl)
  have hstart : (d, i, com) = (d + 0, i + 0, overlay com d ((s.bytes.drop i).take 0)) := by simp
  rw [hstart]
  refine loopFuel_returns_of_steps (n := k)
    (fun j => (d + j, i + j, overlay com d ((s.bytes.drop i).take j))) (fun j hj => ?_) ?_
  · have hlt : j < (s.bytes.drop i).length := by
      rw [List.length_drop]
      omega
    have hnext := overlay_append com d ((s.bytes.drop i).take j) [(s.bytes.drop i)[j]]
    rw [List.length_take_of_le hlt.le, ← List.take_succ_eq_append_getElem hlt] at hnext
    rw [strcpyStep_of_lt (by omega) (by omega), ← hnext, List.getElem_drop]
    rfl
  · have hend : i + k = s.bytes.length := by omega
    have hlen : (s.bytes.drop i).length = k := by
      rw [List.length_drop, hk]
    have hnext := overlay_append com d (s.bytes.drop i) [NUL]
    rw [hlen] at hnext
    rw [hend, List.take_of_length_le hlen.le, strcpyStep_length (by omega), hnext]

/-- A copy that ends has fitted.

**Proof sketch.** Both pointers have moved on by the same number. The loop ends only after the zero
has been stored, and it is stored at the place where the copy ends, which has to be inside the
array. -/
theorem strcpy_fits (hi : i ≤ s.bytes.length) :
    Ensures (strcpy n d s i com) fun _ => d + (s.bytes.length - i) < COMSIZE := by
  refine Ensures.bind (P := fun _ => d + (s.bytes.length - i) < COMSIZE) ?_ fun _ h =>
    (ensures_ok _ _).mpr h
  refine loopFuel_ensures
    (fun x => ∃ j, x.1 = d + j ∧ x.2.1 = i + j ∧ i + j ≤ s.bytes.length)
    (fun _ => d + (s.bytes.length - i) < COMSIZE) ?_ n (d, i, com) ⟨0, rfl, rfl, hi⟩
  rintro ⟨d', i', com'⟩ ⟨j, rfl, rfl, hj⟩
  by_cases hd : d + j < COMSIZE
  · rcases Nat.lt_or_ge (i + j) s.bytes.length with hlt | hge
    · rw [strcpyStep_of_lt hlt hd]
      exact (ensures_ok _ _).mpr ⟨j + 1, rfl, rfl, hlt⟩
    · have heq : i + j = s.bytes.length := by omega
      have hfit : d + (s.bytes.length - i) < COMSIZE := by omega
      rw [heq, strcpyStep_length hd]
      exact (ensures_ok _ _).mpr hfit
  · refine Ensures.bind (P := fun _ => True) (fun _ _ => trivial) fun c _ => ?_
    rw [storeCom, if_neg hd]
    exact (ensures_error _ _).mpr trivial

/-- The index at which the part behind the last slash starts. -/
theorem drop_afterSlash (s : Arg) :
    s.bytes.drop ((s.bytes.length : ℤ) - (baseName s.bytes).length - 1 + 1).toNat =
        baseName s.bytes ∧
      ((s.bytes.length : ℤ) - (baseName s.bytes).length - 1 + 1).toNat =
        s.bytes.length - (baseName s.bytes).length ∧
      (baseName s.bytes).length ≤ s.bytes.length := by
  obtain ⟨pre, hsplit, -⟩ := baseName_split s.bytes
  have hlen := congrArg List.length hsplit
  rw [List.length_append] at hlen
  have hstart : ((s.bytes.length : ℤ) - (baseName s.bytes).length - 1 + 1).toNat = pre.length := by
    omega
  refine ⟨?_, by omega, by omega⟩
  rw [hstart]
  conv_lhs => rw [hsplit]
  exact List.drop_left

/-- Appending the part behind the last slash, if it fits. -/
theorem appendName_returns (h : d + (baseName s.bytes).length < COMSIZE) :
    Returns (fun n => lastSlash n s (s.bytes.length - 1) >>= fun i =>
      strcpy n d s (i + 1).toNat com) (overlay com d (baseName s.bytes ++ [NUL])) := by
  obtain ⟨hdrop, hstart, hle⟩ := drop_afterSlash s
  refine Returns.bind (lastSlash_returns s) ?_
  have hcopy := @strcpy_returns s com d
    ((s.bytes.length : ℤ) - (baseName s.bytes).length - 1 + 1).toNat (by omega) (by omega)
  rwa [hdrop] at hcopy

/-- When it has been appended it has fitted. -/
theorem appendName_fits : Ensures (lastSlash n s (s.bytes.length - 1) >>= fun i =>
    strcpy n d s (i + 1).toNat com) fun _ => d + (baseName s.bytes).length < COMSIZE := by
  obtain ⟨-, hstart, hle⟩ := drop_afterSlash s
  refine Ensures.bind
    (P := fun i => i = (s.bytes.length : ℤ) - (baseName s.bytes).length - 1)
    (fun i hi => (loopFuel_returns_of_eq hi).unique (lastSlash_returns s)) ?_
  rintro _ rfl
  refine (strcpy_fits (by omega)).mono fun _ hfit => ?_
  omega

/-! ## The path -/

/-- A string in the array, from its first byte on. -/
theorem path_overlay {bs : List UInt8} (hnul : NUL ∉ bs) (hlen : bs.length < COMSIZE) :
    path (overlay com 0 (bs ++ [NUL])) = bs := by
  have hlist : (bs ++ [NUL]).length = bs.length + 1 := by simp
  have hfirst : firstOf (overlay com 0 (bs ++ [NUL])) (bs.length + 1) = bs ++ [NUL] := by
    refine List.ext_getElem (by simp) fun i h1 h2 => ?_
    rw [getElem_firstOf, overlay_of_mem (Nat.zero_le i) h2]
    rfl
  rw [path, show COMSIZE = bs.length + 1 + (COMSIZE - (bs.length + 1)) by omega, firstOf_add,
    hfirst, List.append_assoc, List.takeWhile_append_of_pos]
  · simp
  · intro c hc
    exact decide_eq_true fun heq => hnul (heq ▸ hc)

/-- The array when `strcpy` has appended a string to one that it has copied. -/
theorem overlay_append_nul (bs bs' : List UInt8) :
    overlay (overlay com 0 (bs ++ [NUL])) bs.length (bs' ++ [NUL]) =
      overlay com 0 (bs ++ bs' ++ [NUL]) := by
  have hnext := overlay_append com 0 bs (bs' ++ [NUL])
  rw [Nat.zero_add, ← List.append_assoc] at hnext
  rw [← hnext]
  funext i
  refine overlay_congr fun hout => ?_
  -- the zero of the first copy is the first byte of the second
  rcases hout with hlt | hge
  · rw [overlay_of_mem (Nat.zero_le i) (by simp; omega), overlay_of_mem (Nat.zero_le i) (by omega)]
    simp only [Nat.sub_zero]
    exact List.getElem_append_left hlt
  · rw [List.length_append, List.length_singleton] at hge
    rw [overlay_of_le (by simp; omega), overlay_of_le (by omega)]

/-- The part behind the last slash has no zero either. -/
theorem Arg.noNul_baseName (s : Arg) : NUL ∉ baseName s.bytes := by
  obtain ⟨pre, hsplit, -⟩ := baseName_split s.bytes
  intro hmem
  refine s.noNul ?_
  rw [hsplit]
  exact List.mem_append_right _ hmem

/-- **The destination of `cp`.** The program opens the path that is meant, with all accesses in
their places, exactly if its second argument is not empty, and has room in the array together with
what is appended if it ends in a slash.

**Proof sketch.** If the second argument does not fit, the first copy does not stay in the array,
whatever follows. If it fits and is empty, the byte before the array is read. If it does not end in
a slash the path is complete. Otherwise the base name of the first argument is copied behind it, and
the two have to fit together (`strcpy_returns`, `strcpy_fits`). -/
theorem completesPath_iff (argv1 argv2 : Arg) : CompletesPath argv1 argv2 ↔
    argv2.bytes ≠ [] ∧ argv2.bytes.length + (if argv2.bytes.getLast? = some (chr '/') then
      (baseName argv1.bytes).length else 0) < COMSIZE := by
  unfold CompletesPath completePath
  -- the first copy
  by_cases hfit : argv2.bytes.length < COMSIZE
  swap
  · refine iff_of_false (fun h => ?_) (fun h => hfit ?_)
    · obtain ⟨n, hn⟩ := h.exists
      obtain ⟨com, hcom, -⟩ := bind_eq_ok.mp hn
      have hfits := strcpy_fits (Nat.zero_le _) com hcom
      omega
    · exact (Nat.le_add_right ..).trans_lt h.2
  have hcopy := @strcpy_returns argv2 (fun _ => 0) 0 0 (Nat.zero_le _) (by omega)
  rw [List.drop_zero] at hcopy
  rw [Returns.bind_iff hcopy, Returns.bind_iff (strlen_returns argv1),
    Returns.bind_iff (strlen_returns argv2)]
  rcases argv2.bytes.eq_nil_or_concat' with hnil | ⟨init, last, hlast⟩
  · -- the byte before the string is read
    have hload : argv2.load (argv2.bytes.length - 1) = .error (.load (-1)) := by
      rw [hnil]
      exact if_neg (by simp)
    exact iff_of_false (not_returns_of_error (e := .load (-1)) (fun n => by rw [hload]; rfl) _)
      fun h => h.1 hnil
  have hne : argv2.bytes ≠ [] := by simp [hlast]
  have hlen : argv2.bytes.length = init.length + 1 := by simp [hlast]
  have hload : argv2.load (argv2.bytes.length - 1) = .ok last := by
    rw [show (argv2.bytes.length : ℤ) - 1 = init.length by omega, Arg.load_of_lt (by omega),
      List.getElem_of_eq hlast]
    exact congrArg Except.ok (List.getElem_concat_length rfl _)
  have hgetLast : argv2.bytes.getLast? = some last := by simp [hlast]
  simp only [hload, ok_bind, completed, hgetLast, Option.some.injEq]
  by_cases hslash : last = chr '/'
  · simp only [if_pos hslash]
    by_cases hfit' : argv2.bytes.length + (baseName argv1.bytes).length < COMSIZE
    · refine iff_of_true (Returns.bind (appendName_returns hfit') (Returns.of_eq ?_)) ⟨hne, hfit'⟩
      rw [overlay_append_nul, path_overlay]
      · exact fun hmem => (List.mem_append.mp hmem).elim argv2.noNul argv1.noNul_baseName
      · rwa [List.length_append]
    · refine iff_of_false (fun h => ?_) fun h => hfit' h.2
      obtain ⟨n, hn⟩ := h.exists
      obtain ⟨com, hcom, -⟩ := bind_eq_ok.mp hn
      exact hfit' (appendName_fits com hcom)
  · simp only [if_neg hslash, ok_bind, Nat.add_zero]
    rw [path_overlay argv2.noNul hfit]
    exact iff_of_true (Returns.of_eq rfl) ⟨hne, hfit⟩

/-- An empty second argument: the byte before it is read. -/
theorem not_forall_completesPath : ¬∀ argv1 argv2, CompletesPath argv1 argv2 := by
  intro h
  obtain ⟨n, hn⟩ := (h ⟨str "a", by decide⟩ ⟨[], by decide⟩).exists
  obtain ⟨com, -, hn⟩ := bind_eq_ok.mp hn
  obtain ⟨len1, -, hn⟩ := bind_eq_ok.mp hn
  obtain ⟨len2, hlen2, hn⟩ := bind_eq_ok.mp hn
  obtain rfl : len2 = 0 := (loopFuel_returns_of_eq hlen2).unique (strlen_returns ⟨[], by decide⟩)
  obtain ⟨c, hc, -⟩ := bind_eq_ok.mp hn
  cases hc

end HgXv6.Cp
