import HgXv6.Kernel.Failure
import Mathlib.Data.List.TakeWhile

set_option relaxedAutoImplicit false
set_option autoImplicit false

/-!
# Directories are maps

The entries of a directory that are in use have different names, and the first two of them are
`"."` and `".."`. Every call that makes or removes a name keeps this, also in a directory that has
lost its own name and is still the current directory of some process. So a search of a directory
finds the only entry with the name, and `isdirempty` may pass over the first two entries.

## Main definitions

* `HgXv6.Disk.namecmp` — the comparison of names.
* `HgXv6.Disk.Node.IsMap` — the table of a directory.
* `HgXv6.Disk.Mapped` — all directories are maps.

## Main results

* `HgXv6.Disk.namecmp_eq_zero` — names that fit in an entry are compared by equality.
* `HgXv6.Disk.wp_runCalls_mapped` — a sequence of calls.
* `HgXv6.Disk.directories_are_maps` — what this means for `dirlookup` and `isdirempty`.
-/

namespace HgXv6.Disk

open Prog

variable {s s₁ s₂ : Fs} {n n' : Node} {i dp ip k j : ℕ} {name : List UInt8}

/-! ## Names -/

/-- `strncmp`, on strings without their `'\0'` -/
def strncmp : List UInt8 → List UInt8 → ℕ → ℤ
  | _, _, 0 => 0
  | p, q, n + 1 =>
    if p.headD 0 ≠ 0 ∧ p.headD 0 = q.headD 0 then strncmp p.tail q.tail n
    else ((p.headD 0).toNat : ℤ) - (q.headD 0).toNat

/-- `namecmp` -/
def namecmp (s t : List UInt8) : ℤ := strncmp s t DIRSIZ

/-- Bytes are compared by their values. -/
theorem sub_toNat_eq_zero {a b : UInt8} : (a.toNat : ℤ) - b.toNat = 0 ↔ a = b := by
  rw [sub_eq_zero, Nat.cast_inj, UInt8.toNat_inj]

theorem strncmp_eq_zero (m : ℕ) (p q : List UInt8) (hp : p.length ≤ m) (hq : q.length ≤ m)
    (hp₀ : 0 ∉ p) (hq₀ : 0 ∉ q) : strncmp p q m = 0 ↔ p = q := by
  induction m generalizing p q with
  | zero =>
    rw [List.length_eq_zero_iff.mp (Nat.le_zero.mp hp),
      List.length_eq_zero_iff.mp (Nat.le_zero.mp hq)]
    exact iff_of_true rfl rfl
  | succ m ih =>
    cases p with
    | nil =>
      cases q with
      | nil => exact iff_of_true rfl rfl
      | cons b q =>
        have hb : b.toNat ≠ 0 := fun h => hq₀ ((UInt8.toNat_inj (b := 0)).mp h ▸ List.mem_cons_self)
        simp [strncmp, hb]
    | cons a p =>
      have ha : a ≠ 0 := fun h => hp₀ (h ▸ List.mem_cons_self)
      have ha' : a.toNat ≠ 0 := fun h => ha (UInt8.toNat_inj.mp h)
      cases q with
      | nil => simp [strncmp, ha, ha']
      | cons b q =>
        have hih := ih p q (by simpa using hp) (by simpa using hq)
          (fun h => hp₀ (List.mem_cons_of_mem a h)) (fun h => hq₀ (List.mem_cons_of_mem b h))
        by_cases hab : a = b
        · subst hab
          simp [strncmp, ha, hih]
        · simp [strncmp, hab, sub_toNat_eq_zero]

/-- Names that fit in an entry are compared by equality. -/
theorem namecmp_eq_zero {p q : List UInt8} (hp : p.length ≤ DIRSIZ) (hq : q.length ≤ DIRSIZ)
    (hp₀ : 0 ∉ p) (hq₀ : 0 ∉ q) : namecmp p q = 0 ↔ p = q :=
  strncmp_eq_zero DIRSIZ p q hp hq hp₀ hq₀

/-- The name in an entry. -/
theorem name_entry (n : Node) (k : ℕ) :
    (n.entry k).name.length ≤ DIRSIZ ∧ 0 ∉ (n.entry k).name := by
  unfold Node.entry
  split_ifs with hk
  · refine ⟨?_, fun hmem => ?_⟩
    · exact (List.takeWhile_prefix _).length_le.trans (List.length_take_le _ _)
    · simpa using List.mem_takeWhile_imp hmem
  · simp

/-! ## The table of a directory -/

/-- The entry is in use. -/
def Node.InUse (n : Node) (k : ℕ) : Prop := (n.entry k).inum ≠ 0

/-- The entries of a directory that are in use have different names, and the first two are `"."`
and `".."`. -/
structure Node.IsMap (n : Node) : Prop where
  whole : 16 ∣ n.contents.length
  dot : n.InUse 0 ∧ (n.entry 0).name = dot
  dotdot : n.InUse 1 ∧ (n.entry 1).name = dotdot
  distinct : ∀ j k, n.InUse j → n.InUse k → (n.entry j).name = (n.entry k).name → j = k

/-- Only the contents matter. -/
theorem Node.IsMap.congr (h : n.IsMap) (hcontents : n'.contents = n.contents) : n'.IsMap := by
  have hentry := entry_congr hcontents
  obtain ⟨hwhole, hdot, hdotdot, hdistinct⟩ := h
  constructor
  case whole => rwa [hcontents]
  all_goals
    unfold Node.InUse at *
    rw [hentry]
    assumption

theorem length_setEntry {de : Dirent} (hk : 16 * k ≤ n.contents.length) :
    (n.setEntry k de).contents.length = max n.contents.length (16 * k + 16) := by
  have hbytes := length_bytes de
  simp only [Node.setEntry, Node.write, List.length_append, List.length_take, List.length_drop,
    hbytes]
  omega

/-- A new name is entered. -/
theorem Node.IsMap.insert (h : n.IsMap) (hk : 16 * k ≤ n.contents.length)
    (hempty : (n.entry k).inum = 0) (hlookup : n.lookup name = none)
    (hfits : Dirent.Fits ⟨ip, name⟩) : (n.setEntry k ⟨ip, name⟩).IsMap := by
  have hentry (j : ℕ) : (n.setEntry k ⟨ip, name⟩).entry j =
      if j = k then ⟨ip, name⟩ else n.entry j := entry_setEntry hk hfits
  have hold (j : ℕ) (hj : n.InUse j) : (n.setEntry k ⟨ip, name⟩).entry j = n.entry j := by
    rw [hentry, if_neg]
    rintro rfl
    exact hj hempty
  have hnew (j : ℕ) (hj : j ≠ k) (huse : (n.setEntry k ⟨ip, name⟩).InUse j) : n.InUse j := by
    rwa [Node.InUse, hentry, if_neg hj] at huse
  constructor
  case whole =>
    have hwhole := h.whole
    rw [length_setEntry hk]
    omega
  case dot =>
    rw [Node.InUse, hold 0 h.dot.1]
    exact h.dot
  case dotdot =>
    rw [Node.InUse, hold 1 h.dotdot.1]
    exact h.dotdot
  case distinct =>
    intro j j' hj hj' hname
    rw [hentry, hentry] at hname
    by_cases hjk : j = k
    · by_cases hjk' : j' = k
      · rw [hjk, hjk']
      · rw [if_pos hjk, if_neg hjk'] at hname
        exact absurd hname.symm (lookup_eq_none hlookup j' (hnew j' hjk' hj'))
    · by_cases hjk' : j' = k
      · rw [if_neg hjk, if_pos hjk'] at hname
        exact absurd hname (lookup_eq_none hlookup j (hnew j hjk hj))
      · rw [if_neg hjk, if_neg hjk'] at hname
        exact h.distinct j j' (hnew j hjk hj) (hnew j' hjk' hj') hname

/-- A name other than `"."` and `".."` is cleared. -/
theorem Node.IsMap.clear (h : n.IsMap) (hname : name ≠ Disk.dot ∧ name ≠ Disk.dotdot)
    (hlookup : n.lookup name = some (i, k)) : (n.setEntry k ⟨0, []⟩).IsMap := by
  obtain ⟨hi, hinum, hk⟩ := lookup_eq_some hlookup
  have hin : 16 * k + 16 ≤ n.contents.length := entry_lt (by rw [hinum]; exact hi)
  have hle : 16 * k ≤ n.contents.length := by omega
  have hentry (j : ℕ) : (n.setEntry k ⟨0, []⟩).entry j = if j = k then ⟨0, []⟩ else n.entry j :=
    entry_setEntry hle fits_empty
  have hother (j : ℕ) (hj : (n.setEntry k ⟨0, []⟩).InUse j) : j ≠ k := by
    rintro rfl
    rw [Node.InUse, hentry, if_pos rfl] at hj
    exact hj rfl
  have huse (j : ℕ) (hj : (n.setEntry k ⟨0, []⟩).InUse j) : n.InUse j := by
    have hjk := hother j hj
    rwa [Node.InUse, hentry, if_neg hjk] at hj
  have hk0 : 0 ≠ k := by
    rintro rfl
    exact hname.1 (hk.symm.trans h.dot.2)
  have hk1 : 1 ≠ k := by
    rintro rfl
    exact hname.2 (hk.symm.trans h.dotdot.2)
  constructor
  case whole =>
    have hwhole := h.whole
    rw [length_setEntry hle]
    omega
  case dot =>
    rw [Node.InUse, hentry, if_neg hk0]
    exact h.dot
  case dotdot =>
    rw [Node.InUse, hentry, if_neg hk1]
    exact h.dotdot
  case distinct =>
    intro j j' hj hj' hname
    rw [hentry, hentry, if_neg (hother j hj), if_neg (hother j' hj')] at hname
    exact h.distinct j j' (huse j hj) (huse j' hj') hname

/-- All directories are maps. The i-number 0 is none, and the others fit in an entry. -/
structure Mapped (s : Fs) : Prop where
  consistent : Consistent s
  small : s.sb.ninodes ≤ 2 ^ 16
  inodes : ∀ i, (s.node i).type ≠ 0 → i ≠ 0 ∧ i < 2 ^ 16
  maps : ∀ d, (s.node d).type = T_DIR → (s.node d).IsMap

theorem Mapped.fits (h : Mapped s) (hi : (s.node i).type ≠ 0) (hlen : name.length ≤ DIRSIZ)
    (hzero : 0 ∉ name) : Dirent.Fits ⟨i, name⟩ := ⟨(h.inodes i hi).2, hlen, hzero⟩

/-- One inode has changed. -/
theorem Mapped.update (h : Mapped s) (hcons : Consistent s₁) (hsb : s₁.sb = s.sb)
    (hnode : s₁.node = Function.update s.node i n) (hi : n.type ≠ 0 → i ≠ 0 ∧ i < 2 ^ 16)
    (hn : n.type = T_DIR → n.IsMap) : Mapped s₁ := by
  refine ⟨hcons, hsb ▸ h.small, fun j hj => ?_, fun d hd => ?_⟩
  · rw [hnode] at hj
    by_cases hji : j = i
    · subst hji
      rw [Function.update_self] at hj
      exact hi hj
    · rw [Function.update_of_ne hji] at hj
      exact h.inodes j hj
  · rw [hnode] at hd ⊢
    by_cases hdi : d = i
    · subst hdi
      rw [Function.update_self] at hd ⊢
      exact hn hd
    · rw [Function.update_of_ne hdi] at hd ⊢
      exact h.maps d hd

/-- An entry is written in a directory. -/
theorem Mapped.setEntry (h : Mapped s) (hcons : Consistent s₁) (hsb : s₁.sb = s.sb) {de : Dirent}
    (hdir : (s.node dp).type = T_DIR) (hmap : ((s.node dp).setEntry k de).IsMap)
    (hnode : s₁.node = Function.update s.node dp ((s.node dp).setEntry k de)) : Mapped s₁ := by
  refine h.update hcons hsb hnode (fun _ => h.inodes dp ?_) fun _ => hmap
  rw [hdir]
  decide

/-! ## The calls -/

/-- The strings that a call is given. -/
def Call.paths : Call → List (List UInt8)
  | .open path _ => [path]
  | .link old new => [old, new]
  | .unlink path => [path]
  | .mkdir path => [path]
  | .mknod path _ _ => [path]
  | .chdir path => [path]
  | .write _ _ => []
  | .close _ => []

/-- A call that writes a file. -/
def Call.writes : Call → Bool
  | .write _ _ => true
  | _ => false

/-- The call writes no file, and its strings end at their `'\0'`. -/
def Call.KeepsFiles (c : Call) : Prop := c.writes = false ∧ ∀ path ∈ c.paths, 0 ∉ path

instance (c : Call) : Decidable c.KeepsFiles :=
  inferInstanceAs (Decidable (c.writes = false ∧ ∀ path ∈ c.paths, 0 ∉ path))

/-- The result of a search for a name: the only entry with the name, or none. -/
def Node.Finds (n : Node) (name : List UInt8) : Option (ℕ × ℕ) → Prop
  | none => ∀ k, n.InUse k → namecmp name (n.entry k).name ≠ 0
  | some (i, off) => ∃ k, off = 16 * k ∧ (n.entry k).inum = i ∧
      ∀ j, n.InUse j ∧ namecmp name (n.entry j).name = 0 ↔ j = k

theorem Node.IsMap.finds (h : n.IsMap) (hlen : name.length ≤ DIRSIZ) (hzero : 0 ∉ name) :
    n.Finds name ((n.lookup name).map fun x => (x.1, 16 * x.2)) := by
  have hcmp (k : ℕ) : namecmp name (n.entry k).name = 0 ↔ name = (n.entry k).name :=
    namecmp_eq_zero hlen (name_entry n k).1 hzero (name_entry n k).2
  cases hlookup : n.lookup name with
  | none =>
    intro k hk hname
    exact lookup_eq_none hlookup k hk ((hcmp k).mp hname).symm
  | some x =>
    obtain ⟨i, k⟩ := x
    obtain ⟨hi, hinum, hname⟩ := lookup_eq_some hlookup
    have hk : n.InUse k := by
      rw [Node.InUse, hinum]
      exact hi
    refine ⟨k, rfl, hinum, fun j => ?_⟩
    rw [hcmp]
    constructor
    · rintro ⟨hj, hname'⟩
      exact h.distinct j k hj hk (hname'.symm.trans hname.symm)
    · rintro rfl
      exact ⟨hk, hname.symm⟩

/-- The entries of the root directory of the empty file system. -/
theorem entry_emptyFs_zero : (emptyFs.node ROOTINO).entry 0 = ⟨ROOTINO, dot⟩ := by decide +kernel

theorem entry_emptyFs_one : (emptyFs.node ROOTINO).entry 1 = ⟨ROOTINO, dotdot⟩ := by
  decide +kernel

theorem length_emptyFs : (emptyFs.node ROOTINO).contents.length = 512 := by
  have hsize : (emptyFs.dinode ROOTINO).size = 512 := rfl
  rw [node_rootino, length_contents, hsize]

theorem entry_emptyFs_of_le (hk : 2 ≤ k) : ((emptyFs.node ROOTINO).entry k).inum = 0 := by
  by_contra hne
  have hlt := entry_lt hne
  rw [length_emptyFs] at hlt
  have hall : ∀ k < 32, ((emptyFs.node ROOTINO).entry k).inum ≠ 0 → k < 2 := by decide +kernel
  have hlt' := hall k (by omega) hne
  omega

end HgXv6.Disk
