import HgXv6.Kernel.NameCalls
import HgXv6.Lib.Names

set_option relaxedAutoImplicit false
set_option autoImplicit false

/-!
# Exact link counts

The directories that have links form a tree with the root directory at its top, and the link count
of an inode is the number of the entries in them that name it, not counting `"."`. A directory
that has lost its name has no entries but `"."` and `".."`, and no links. This is kept by each
change that a call makes to the files, as long as nothing is made in a directory without links and
no link count is at its maximum: a name comes, or a name goes, or inodes without links change.

## Main definitions

* `HgXv6.Disk.links` — the entries that are counted.
* `HgXv6.Disk.Counted` — the invariant.
* `HgXv6.Disk.Attached` — the files with a name and without it.

## Main results

* `HgXv6.Disk.Counted.of_dead`, `HgXv6.Disk.Counted.attach`, `HgXv6.Disk.Counted.detach` — the
  three kinds of change.
* `HgXv6.Disk.Counted.linked`, `HgXv6.Disk.Counted.made`, `HgXv6.Disk.Counted.unlinked`,
  `HgXv6.Disk.Counted.frees` — the changes keep the invariant.
-/

namespace HgXv6.Disk

open Prog Relation

variable {n n' : ℕ → Node} {d i k x y : ℕ} {name : List UInt8}

/-! ## The invariant -/

/-- The inode is allocated and has links. -/
def Live (n : ℕ → Node) (i : ℕ) : Prop := (n i).type ≠ 0 ∧ (n i).nlink ≠ 0

/-- The inode is a directory and has links. -/
def LiveDir (n : ℕ → Node) (d : ℕ) : Prop := (n d).type = T_DIR ∧ (n d).nlink ≠ 0

/-- The entries of directories with links that name the inode, other than `"."`. -/
def links (n : ℕ → Node) (i : ℕ) : Set (ℕ × ℕ) :=
  {e | LiveDir n e.1 ∧ ((n e.1).entry e.2).inum = i ∧ ((n e.1).entry e.2).name ≠ dot}

/-- An entry behind the first two names the inode. -/
def Child (n : ℕ → Node) (d i : ℕ) : Prop :=
  LiveDir n d ∧ i ≠ 0 ∧ ∃ k, 2 ≤ k ∧ ((n d).entry k).inum = i

/-- The link counts are exact. -/
structure Counted (n : ℕ → Node) : Prop where
  root : LiveDir n ROOTINO
  root_parent : ((n ROOTINO).entry 1).inum = ROOTINO
  self : ∀ d, LiveDir n d → (n d).entry 0 = ⟨d, dot⟩
  parent : ∀ d, LiveDir n d → ((n d).entry 1).name = dotdot ∧ LiveDir n ((n d).entry 1).inum
  child : ∀ d k, LiveDir n d → 2 ≤ k → ((n d).entry k).inum ≠ 0 →
    ((n d).entry k).name ≠ dot ∧ ((n d).entry k).name ≠ dotdot ∧ Live n ((n d).entry k).inum
  tree : ∀ d i, Child n d i → LiveDir n i → i ≠ ROOTINO ∧ ((n i).entry 1).inum = d
  unique : ∀ d i k k', LiveDir n d → LiveDir n i → 2 ≤ k → 2 ≤ k' →
    ((n d).entry k).inum = i → ((n d).entry k').inum = i → k = k'
  count : ∀ i, (n i).type ≠ 0 → Counts (links n i) (n i).nlink.toInt
  reach : ∀ i, Live n i → ReflTransGen (Child n) ROOTINO i
  orphan : ∀ d k, (n d).type = T_DIR → (n d).nlink = 0 → ((n d).entry k).inum ≠ 0 →
    ((n d).entry k).name = dot ∨ ((n d).entry k).name = dotdot
  small : ∀ i, (n i).type ≠ 0 → i < 2 ^ 16
  zero : (n 0).type = 0

theorem LiveDir.live (h : LiveDir n d) : Live n d := by
  refine ⟨?_, h.2⟩
  rw [h.1]
  decide

theorem Live.ne_zero (h : Live n i) (hzero : (n 0).type = 0) : i ≠ 0 := by
  rintro rfl
  exact h.1 hzero

/-- What an entry of a directory with links names has links. -/
theorem Counted.live (h : Counted n) (hd : LiveDir n d) (hk : ((n d).entry k).inum = i)
    (hi : i ≠ 0) : Live n i := by
  subst hk
  match k with
  | 0 =>
    rw [h.self d hd]
    exact hd.live
  | 1 => exact (h.parent d hd).2.live
  | k + 2 => exact (h.child d (k + 2) hd (by omega) hi).2.2

/-- An inode without links is not named. -/
theorem Counted.links_eq_empty (h : Counted n) (hi : i ≠ 0) (hlive : ¬Live n i) :
    links n i = ∅ :=
  Set.eq_empty_iff_forall_notMem.mpr fun _ hmem => hlive (h.live hmem.1 hmem.2.1 hi)

/-- The first two entries of a directory with links are not empty. -/
theorem Counted.two_le (h : Counted n) (hd : LiveDir n d) (hk : ((n d).entry k).inum = 0) :
    2 ≤ k := by
  by_contra hlt
  obtain rfl | rfl : k = 0 ∨ k = 1 := by omega
  · rw [h.self d hd] at hk
    exact hd.live.ne_zero h.zero hk
  · exact (h.parent d hd).2.live.ne_zero h.zero hk

/-- In a directory with links the names `"."` and `".."` are found. -/
theorem Counted.ne_dot (h : Counted n) (hd : LiveDir n d) (hname : (n d).lookup name = none) :
    name ≠ dot ∧ name ≠ dotdot := by
  have hself := h.self d hd
  constructor
  · rintro rfl
    refine lookup_eq_none hname 0 ?_ (by rw [hself])
    rw [hself]
    exact hd.live.ne_zero h.zero
  · rintro rfl
    exact lookup_eq_none hname 1 ((h.parent d hd).2.live.ne_zero h.zero) (h.parent d hd).1

/-- A name other than `"."` and `".."` is found behind these. -/
theorem Counted.two_le_of_lookup (h : Counted n) (hd : LiveDir n d)
    (hname : (n d).lookup name = some (i, k)) (hdots : name ≠ dot ∧ name ≠ dotdot) : 2 ≤ k := by
  obtain ⟨-, -, heq⟩ := lookup_eq_some hname
  by_contra hlt
  obtain rfl | rfl : k = 0 ∨ k = 1 := by omega
  · rw [h.self d hd] at heq
    exact hdots.1 heq.symm
  · rw [(h.parent d hd).1] at heq
    exact hdots.2 heq.symm

/-- A counter that is not at its maximum is raised. -/
theorem toInt_succ {a : Int16} (ha : a ≠ 32767) : (a + 1).toInt = a.toInt + 1 := by
  have hlt := a.toInt_lt
  have hle := a.le_toInt
  have hne : a.toInt ≠ 32767 := fun heq => ha (Int16.toInt_inj.mp heq)
  rw [Int16.toInt_add, show (1 : Int16).toInt = 1 from rfl, Int.bmod_eq_of_le (by omega) (by omega)]

/-- A link count that is raised is not 0. -/
theorem nlink_succ_ne {a : Int16} (ha : 0 ≤ a.toInt) (hmax : a ≠ 32767) : a + 1 ≠ 0 := by
  intro hzero
  have hsucc := toInt_succ hmax
  rw [hzero, show (0 : Int16).toInt = 0 from rfl] at hsucc
  omega

/-- A counter that is not at its minimum is lowered. -/
theorem toInt_pred {a : Int16} (ha : 0 < a.toInt) : (a - 1).toInt = a.toInt - 1 := by
  have hlt := a.toInt_lt
  rw [Int16.toInt_sub, show (1 : Int16).toInt = 1 from rfl, Int.bmod_eq_of_le (by omega) (by omega)]

theorem toInt_eq_zero {a : Int16} : a.toInt = 0 ↔ a = 0 :=
  ⟨fun h => Int16.toInt_inj.mp h, fun h => h ▸ rfl⟩

/-- The link count of an inode with links is positive. -/
theorem Counted.nlink_pos (h : Counted n) (hi : Live n i) : 0 < (n i).nlink.toInt := by
  refine lt_of_le_of_ne (h.count i hi.1).nonneg fun heq => ?_
  exact hi.2 (toInt_eq_zero.mp heq.symm)

/-! ## Inodes without links -/

/-- Nothing but inodes without links changes, and these have no entries but `"."` and `".."`.

**Proof sketch.** An inode is live now exactly if it was, since those that change have no links
before or after. A live directory keeps its entries, and an entry of a dead one that counts for
links would have another name than the two dots. So every link is where it was, and all counts,
which are about live inodes, are too. -/
theorem Counted.of_dead (h : Counted n) (hkeep : ∀ x, Live n x → n' x = n x)
    (hdead : ∀ x, (n' x).type ≠ 0 → n' x = n x ∨ x ≠ 0 ∧ x < 2 ^ 16 ∧ (n' x).nlink = 0 ∧
      ∀ k, ((n' x).entry k).inum ≠ 0 →
        ((n' x).entry k).name = dot ∨ ((n' x).entry k).name = dotdot) : Counted n' := by
  have hlive (x : ℕ) : Live n' x ↔ Live n x := by
    constructor
    · intro hx
      rcases hdead x hx.1 with heq | ⟨-, -, hzero, -⟩
      · simpa only [Live, heq] using hx
      · exact absurd hzero hx.2
    · intro hx
      simpa only [Live, hkeep x hx] using hx
  have hdir (x : ℕ) : LiveDir n' x ↔ LiveDir n x := by
    constructor
    · intro hx
      simpa only [LiveDir, hkeep x ((hlive x).mp hx.live)] using hx
    · intro hx
      simpa only [LiveDir, hkeep x hx.live] using hx
  have heq (x : ℕ) (hx : LiveDir n x) : n' x = n x := hkeep x hx.live
  have hchild (x y : ℕ) : Child n' x y ↔ Child n x y := by
    unfold Child
    rw [hdir]
    refine and_congr_right fun hx => ?_
    rw [heq x hx]
  have hlinks (x : ℕ) : links n' x = links n x := by
    ext e
    simp only [links, Set.mem_ofPred_eq, hdir]
    refine and_congr_right fun he => ?_
    rw [heq e.1 he]
  constructor
  case root => exact (hdir _).mpr h.root
  case root_parent =>
    rw [heq _ h.root]
    exact h.root_parent
  case self =>
    intro x hx
    rw [hdir] at hx
    rw [heq x hx]
    exact h.self x hx
  case parent =>
    intro x hx
    rw [hdir] at hx
    rw [heq x hx, hdir]
    exact h.parent x hx
  case child =>
    intro x j hx hj hne
    rw [hdir] at hx
    rw [heq x hx] at hne ⊢
    rw [hlive]
    exact h.child x j hx hj hne
  case tree =>
    intro x y hxy hy
    rw [hdir] at hy
    rw [heq y hy]
    exact h.tree x y ((hchild x y).mp hxy) hy
  case unique =>
    intro x y j j' hx hy
    rw [hdir] at hx hy
    rw [heq x hx]
    exact h.unique x y j j' hx hy
  case count =>
    intro x hx
    rw [hlinks]
    rcases hdead x hx with hsame | ⟨hpos, -, hzero, -⟩
    · rw [hsame] at hx ⊢
      exact h.count x hx
    · rw [h.links_eq_empty hpos fun hl => ((hlive x).mpr hl).2 hzero, hzero]
      exact Counts.empty
  case reach =>
    intro x hx
    exact ReflTransGen.mono (fun y z hyz => (hchild y z).mpr hyz) _ _
      (h.reach x ((hlive x).mp hx))
  case orphan =>
    intro x j hx hzero hne
    rcases hdead x (by rw [hx]; decide) with hsame | ⟨-, -, -, hentry⟩
    · rw [hsame] at hx hzero hne ⊢
      exact h.orphan x j hx hzero hne
    · exact hentry j hne
  case small =>
    intro x hx
    rcases hdead x hx with hsame | ⟨-, hlt, -, -⟩
    · exact h.small x (hsame ▸ hx)
    · exact hlt
  case zero =>
    by_contra hne
    rcases hdead 0 hne with hsame | ⟨hpos, -⟩
    · exact hne (hsame ▸ h.zero)
    · exact hpos rfl

/-- Freeing inodes without links. -/
theorem Counted.frees (h : Counted n) (hfrees : Frees n n') : Counted n' :=
  h.of_dead (fun _ hx => hfrees.eq hx.2) fun _ hx => .inl (hfrees.eq_of_type hx)

/-! ## Parents -/

/-- A directory with links other than the root is named in its parent. -/
theorem Counted.child_of_parent (h : Counted n) (hx : LiveDir n x) (hroot : x ≠ ROOTINO) :
    Child n ((n x).entry 1).inum x := by
  rcases (h.reach x hx.live).cases_tail with heq | ⟨y, -, hyx⟩
  · exact absurd heq hroot
  · rw [(h.tree y x hyx hx).2]
    exact hyx

/-- An empty directory is not the parent of another one. -/
theorem Counted.parent_ne (h : Counted n) (hi : LiveDir n i) (hdi : Child n d i)
    (hempty : ∀ j, 2 ≤ j → ((n i).entry j).inum = 0) (hx : LiveDir n x) :
    ((n x).entry 1).inum ≠ i := by
  intro heq
  have hroot : x ≠ ROOTINO := by
    rintro rfl
    rw [h.root_parent] at heq
    exact (h.tree d i hdi hi).1 heq.symm
  obtain ⟨-, hx0, j, hj, hinum⟩ := h.child_of_parent hx hroot
  rw [heq, hempty j hj] at hinum
  exact hx0 hinum.symm

/-- The only link to an empty directory is its name. -/
theorem Counted.links_empty_dir (h : Counted n) (hd : LiveDir n d) (hi : LiveDir n i) (hk : 2 ≤ k)
    (hinum : ((n d).entry k).inum = i) (hempty : ∀ j, 2 ≤ j → ((n i).entry j).inum = 0) :
    links n i = {(d, k)} := by
  have hi0 := hi.live.ne_zero h.zero
  have hdi : Child n d i := ⟨hd, hi0, k, hk, hinum⟩
  ext ⟨y, j⟩
  rw [Set.mem_singleton_iff, Prod.mk.injEq]
  constructor
  · rintro ⟨hy, hj, hdot⟩
    dsimp only at hy hj hdot
    match j with
    | 0 => exact absurd (by rw [h.self y hy]) hdot
    | 1 => exact absurd hj (h.parent_ne hi hdi hempty hy)
    | j + 2 =>
      have hyi : Child n y i := ⟨hy, hi0, j + 2, by omega, hj⟩
      obtain rfl : y = d := (h.tree y i hyi hi).2.symm.trans (h.tree d i hdi hi).2
      exact ⟨rfl, h.unique y i (j + 2) k hy hi (by omega) hk hj hinum⟩
  · rintro ⟨rfl, rfl⟩
    refine ⟨hd, hinum, (h.child y j hd hk ?_).1⟩
    rw [hinum]
    exact hi0

/-- A directory with a directory in it has two links. -/
theorem Counted.two_le_nlink (h : Counted n) (hd : LiveDir n d) (hi : LiveDir n i)
    (hdi : Child n d i) : 2 ≤ (n d).nlink.toInt := by
  have hcount := h.count d hd.live.1
  obtain ⟨hroot, hparent⟩ := h.tree d i hdi hi
  have hdotdot : ((i, 1) : ℕ × ℕ) ∈ links n d := by
    refine ⟨hi, hparent, ?_⟩
    rw [(h.parent i hi).1]
    decide
  obtain ⟨e, he, hne⟩ : ∃ e ∈ links n d, e ≠ (i, 1) := by
    by_cases hd_root : d = ROOTINO
    · refine ⟨(ROOTINO, 1), ⟨h.root, h.root_parent.trans hd_root.symm, ?_⟩, fun heq => ?_⟩
      · rw [(h.parent _ h.root).1]
        decide
      · exact hroot (Prod.mk.inj heq).1.symm
    · obtain ⟨hp, hd0, j, hj, hinum⟩ := h.child_of_parent hd hd_root
      refine ⟨(_, j), ⟨hp, hinum, (h.child _ j hp hj ?_).1⟩, fun heq => ?_⟩
      · rw [hinum]
        exact hd0
      · have hj1 := (Prod.mk.inj heq).2
        omega
  have hpos := (hcount.erase hdotdot).pos ⟨he, hne⟩
  omega

/-! ## A name comes or goes -/

/-- In `n'` the entry `k` of the directory `d` names `i`, and in `n` it is empty. A directory that
has not got its name has no other entries than `"."` and `".."`, and its `".."` is no link. -/
structure Attached (n n' : ℕ → Node) (d i k : ℕ) (name : List UInt8) : Prop where
  dir : LiveDir n d
  dir' : LiveDir n' d
  live : Live n' i
  ne : i ≠ d
  pos : i ≠ 0
  two_le : 2 ≤ k
  name_ne : name ≠ dot ∧ name ≠ dotdot
  type : ∀ x, (n' x).type = (n x).type
  empty : ((n d).entry k).inum = 0
  named : (n' d).entry k = ⟨i, name⟩
  entry : ∀ x j, ¬(x = d ∧ j = k) → (n' x).entry j = (n x).entry j
  nlink : (n' i).nlink.toInt = (n i).nlink.toInt + 1
  nlink_dir : (n i).type = T_DIR → (n' d).nlink.toInt = (n d).nlink.toInt + 1
  nlink_other : ∀ x, x ≠ i → (x = d → (n i).type ≠ T_DIR) → (n' x).nlink = (n x).nlink
  folder : (n i).type = T_DIR → (n i).nlink = 0 ∧ (n i).entry 0 = ⟨i, dot⟩ ∧
    (n i).entry 1 = ⟨d, dotdot⟩ ∧ ∀ j, 2 ≤ j → ((n i).entry j).inum = 0

namespace Attached

variable (e : Attached n n' d i k name)
include e

theorem nlink_ne_zero (x : ℕ) : (n' x).nlink ≠ 0 ↔ (n x).nlink ≠ 0 ∨ x = i := by
  by_cases hxi : x = i
  · subst hxi
    exact iff_of_true e.live.2 (.inr rfl)
  by_cases hxd : x = d
  · subst hxd
    exact iff_of_true e.dir'.2 (.inl e.dir.2)
  rw [e.nlink_other x hxi fun heq => absurd heq hxd, or_iff_left hxi]

/-- What is named gets links. -/
theorem live_iff (x : ℕ) : Live n' x ↔ Live n x ∨ x = i := by
  unfold Live
  rw [e.type, e.nlink_ne_zero]
  constructor
  · rintro ⟨htype, hlinks | rfl⟩
    · exact .inl ⟨htype, hlinks⟩
    · exact .inr rfl
  · rintro (⟨htype, hlinks⟩ | rfl)
    · exact ⟨htype, .inl hlinks⟩
    · exact ⟨e.type x ▸ e.live.1, .inr rfl⟩

theorem liveDir_iff (x : ℕ) : LiveDir n' x ↔ LiveDir n x ∨ x = i ∧ (n i).type = T_DIR := by
  unfold LiveDir
  rw [e.type, e.nlink_ne_zero]
  constructor
  · rintro ⟨htype, hlinks | rfl⟩
    · exact .inl ⟨htype, hlinks⟩
    · exact .inr ⟨rfl, htype⟩
  · rintro (⟨htype, hlinks⟩ | ⟨rfl, htype⟩)
    · exact ⟨htype, .inl hlinks⟩
    · exact ⟨htype, .inr rfl⟩

theorem not_liveDir : ¬LiveDir n i := fun hi => hi.2 (e.folder hi.1).1

/-- The entries `"."` and `".."` stay. -/
theorem first {j : ℕ} (hj : j < 2) (x : ℕ) : (n' x).entry j = (n x).entry j := by
  refine e.entry x j ?_
  rintro ⟨-, rfl⟩
  exact absurd e.two_le (by omega)

/-- What is named stays so. -/
theorem entry_eq {x j : ℕ} (hj : ((n x).entry j).inum ≠ 0) : (n' x).entry j = (n x).entry j := by
  refine e.entry x j ?_
  rintro ⟨rfl, rfl⟩
  exact hj e.empty

theorem child_iff (x y : ℕ) : Child n' x y ↔ Child n x y ∨ x = d ∧ y = i := by
  constructor
  · rintro ⟨hx, hy, j, hj, heq⟩
    by_cases hxj : x = d ∧ j = k
    · obtain ⟨rfl, rfl⟩ := hxj
      rw [e.named] at heq
      exact .inr ⟨rfl, heq.symm⟩
    rw [e.entry x j hxj] at heq
    rcases (e.liveDir_iff x).mp hx with hx | ⟨rfl, htype⟩
    · exact .inl ⟨hx, hy, j, hj, heq⟩
    · exact absurd (heq.symm.trans ((e.folder htype).2.2.2 j hj)) hy
  · rintro (⟨hx, hy, j, hj, heq⟩ | ⟨rfl, rfl⟩)
    · refine ⟨(e.liveDir_iff x).mpr (.inl hx), hy, j, hj, ?_⟩
      rw [e.entry_eq (heq ▸ hy), heq]
    · exact ⟨e.dir', e.pos, k, e.two_le, by rw [e.named]⟩

/-- What gets its name or loses it leads nowhere. -/
theorem leaf (x : ℕ) : ¬Child n' i x := by
  intro hx
  rcases (e.child_iff i x).mp hx with hix | ⟨heq, -⟩
  · exact e.not_liveDir hix.1
  · exact e.ne heq

/-- The links are those from before, the name, and `".."` of a directory. -/
theorem mem_links {y : ℕ} (hy : y ≠ 0) (x j : ℕ) : (x, j) ∈ links n' y ↔
    (x, j) ∈ links n y ∨ (x = d ∧ j = k ∧ y = i) ∨
      x = i ∧ j = 1 ∧ y = d ∧ (n i).type = T_DIR := by
  by_cases hxj : x = d ∧ j = k
  · obtain ⟨rfl, rfl⟩ := hxj
    have hold : (x, j) ∉ links n y := fun hmem => hy (hmem.2.1.symm.trans e.empty)
    have hnew : (x, j) ∈ links n' y ↔ i = y := by
      simp only [links, Set.mem_ofPred_eq, e.named]
      exact ⟨fun hmem => hmem.2.1, fun heq => ⟨e.dir', heq, e.name_ne.1⟩⟩
    rw [hnew]
    simp [hold, e.ne.symm, eq_comm]
  have hnot : ¬(x = d ∧ j = k ∧ y = i) := fun hand => hxj ⟨hand.1, hand.2.1⟩
  simp only [links, Set.mem_ofPred_eq, e.entry x j hxj, e.liveDir_iff, hnot, false_or]
  by_cases hxi : x = i ∧ (n i).type = T_DIR
  · obtain ⟨rfl, htype⟩ := hxi
    obtain ⟨-, h0, h1, hj⟩ := e.folder htype
    have hdead : ¬LiveDir n x := e.not_liveDir
    match j with
    | 0 => simp [h0, hdead]
    | 1 => simp [h1, hdead, htype, eq_comm]
    | j + 2 => simp [hj (j + 2) (by omega), hdead, hy.symm]
  · have hnone : ¬(x = i ∧ j = 1 ∧ y = d ∧ (n i).type = T_DIR) :=
      fun hand => hxi ⟨hand.1, hand.2.2.2⟩
    simp [hxi, hnone]

/-- The link counts are exact with the name exactly if they are without it. -/
theorem counts_iff {x : ℕ} (hx : x ≠ 0) :
    Counts (links n' x) (n' x).nlink.toInt ↔ Counts (links n x) (n x).nlink.toInt := by
  by_cases hxi : x = i
  · subst hxi
    have hset : links n' x = Insert.insert (d, k) (links n x) := by
      ext ⟨y, j⟩
      rw [e.mem_links hx]
      simp [e.ne, or_comm]
    rw [hset, e.nlink, Counts.insert_iff]
    exact fun hmem => hx (hmem.2.1.symm.trans e.empty)
  by_cases hxd : x = d ∧ (n i).type = T_DIR
  · obtain ⟨rfl, htype⟩ := hxd
    have hset : links n' x = Insert.insert (i, 1) (links n x) := by
      ext ⟨y, j⟩
      rw [e.mem_links hx]
      simp [hxi, htype, or_comm]
    rw [hset, e.nlink_dir htype, Counts.insert_iff]
    exact fun hmem => e.not_liveDir hmem.1
  · have hset : links n' x = links n x := by
      ext ⟨y, j⟩
      rw [e.mem_links hx]
      simp [hxi, hxd]
    rw [hset, e.nlink_other x hxi fun heq htype => hxd ⟨heq, htype⟩]

end Attached

/-- A name comes.

**Proof sketch.** The links to `i` are those from before and the new entry, and if `i` is a
directory those to `d` get one more from the `..` of `i`; the counts have gone up by as many
(`Attached`). If `i` is a directory it was named nowhere before, so that its parent is the only one,
and walking up from it leads through `d` to the root. -/
theorem Counted.attach (h : Counted n) (e : Attached n n' d i k name) : Counted n' := by
  have hunnamed (hi : LiveDir n' i) {x j : ℕ} (hx : LiveDir n x) : ((n x).entry j).inum ≠ i := by
    intro heq
    have htype : (n i).type = T_DIR := (e.type i).symm.trans hi.1
    exact (h.live hx heq e.pos).2 (e.folder htype).1
  constructor
  case root => exact (e.liveDir_iff _).mpr (.inl h.root)
  case root_parent =>
    rw [e.first (by omega)]
    exact h.root_parent
  case self =>
    intro x hx
    rw [e.first (by omega)]
    rcases (e.liveDir_iff x).mp hx with hx | ⟨rfl, htype⟩
    · exact h.self x hx
    · exact (e.folder htype).2.1
  case parent =>
    intro x hx
    rw [e.first (by omega)]
    rcases (e.liveDir_iff x).mp hx with hx | ⟨rfl, htype⟩
    · exact ⟨(h.parent x hx).1, (e.liveDir_iff _).mpr (.inl (h.parent x hx).2)⟩
    · rw [(e.folder htype).2.2.1]
      exact ⟨rfl, e.dir'⟩
  case child =>
    intro x j hx hj hne
    by_cases hxj : x = d ∧ j = k
    · obtain ⟨rfl, rfl⟩ := hxj
      rw [e.named]
      exact ⟨e.name_ne.1, e.name_ne.2, e.live⟩
    rw [e.entry x j hxj] at hne ⊢
    rcases (e.liveDir_iff x).mp hx with hx | ⟨rfl, htype⟩
    · obtain ⟨hdot, hdotdot, hlive⟩ := h.child x j hx hj hne
      exact ⟨hdot, hdotdot, (e.live_iff _).mpr (.inl hlive)⟩
    · exact absurd ((e.folder htype).2.2.2 j hj) hne
  case tree =>
    intro x y hxy hy
    rw [e.first (by omega)]
    rcases (e.child_iff x y).mp hxy with hxy | ⟨rfl, rfl⟩
    · refine h.tree x y hxy (((e.liveDir_iff y).mp hy).resolve_right ?_)
      obtain ⟨hx, -, j, -, heq⟩ := hxy
      rintro ⟨rfl, -⟩
      exact hunnamed hy hx heq
    · refine ⟨?_, by rw [(e.folder ((e.type y).symm.trans hy.1)).2.2.1]⟩
      rintro rfl
      exact e.not_liveDir h.root
  case unique =>
    intro x y j j' hx hy hj hj' heq heq'
    have hy0 : y ≠ 0 := by
      rintro rfl
      exact hy.live.1 ((e.type 0).trans h.zero)
    rcases (e.liveDir_iff x).mp hx with hx | ⟨rfl, htype⟩
    swap
    · rw [e.entry x j fun hand => e.ne hand.1] at heq
      exact absurd (heq.symm.trans ((e.folder htype).2.2.2 j hj)) hy0
    by_cases hxj : x = d ∧ j = k
    · obtain ⟨rfl, rfl⟩ := hxj
      rw [e.named] at heq
      obtain rfl : i = y := heq
      by_contra hne
      rw [e.entry x j' fun hand => hne hand.2.symm] at heq'
      exact hunnamed hy hx heq'
    by_cases hxj' : x = d ∧ j' = k
    · obtain ⟨rfl, rfl⟩ := hxj'
      rw [e.named] at heq'
      obtain rfl : i = y := heq'
      rw [e.entry x j hxj] at heq
      exact absurd heq (hunnamed hy hx)
    rw [e.entry x j hxj] at heq
    rw [e.entry x j' hxj'] at heq'
    have hy' := ((e.liveDir_iff y).mp hy).resolve_right fun hand => hunnamed (hand.1 ▸ hy) hx
      (hand.1 ▸ heq)
    exact h.unique x y j j' hx hy' hj hj' heq heq'
  case count =>
    intro x hx
    rw [e.type] at hx
    rw [e.counts_iff]
    · exact h.count x hx
    · rintro rfl
      exact hx h.zero
  case reach =>
    intro x hx
    have hmono {y : ℕ} (hy : Live n y) : ReflTransGen (Child n') ROOTINO y :=
      ReflTransGen.mono (fun w z hwz => (e.child_iff w z).mpr (.inl hwz)) _ _ (h.reach y hy)
    rcases (e.live_iff x).mp hx with hx | rfl
    · exact hmono hx
    · exact (hmono e.dir.live).tail ((e.child_iff d x).mpr (.inr ⟨rfl, rfl⟩))
  case orphan =>
    intro x j hx hzero hne
    have hxd : x ≠ d := by
      rintro rfl
      exact e.dir'.2 hzero
    have hlinks : (n x).nlink = 0 := by
      by_contra hlinks
      exact (e.nlink_ne_zero x).mpr (.inl hlinks) hzero
    rw [e.type] at hx
    rw [e.entry x j fun hand => hxd hand.1] at hne ⊢
    exact h.orphan x j hx hlinks hne
  case small =>
    intro x hx
    exact h.small x (e.type x ▸ hx)
  case zero => exact (e.type 0).trans h.zero

/-- A name goes.

**Proof sketch.** The converse of `Counted.attach`: one entry less names `i`, and if `i` is a
directory its `..` counts no more for `d`. A directory that is removed has no entries but its dots,
so that no other directory loses its way to the root. -/
theorem Counted.detach (h : Counted n') (e : Attached n n' d i k name) : Counted n := by
  have hdir {x : ℕ} (hx : LiveDir n x) : LiveDir n' x := (e.liveDir_iff x).mpr (.inl hx)
  have hdi : Child n' d i := (e.child_iff d i).mpr (.inr ⟨rfl, rfl⟩)
  have hzero : (n 0).type = 0 := (e.type 0).symm.trans h.zero
  have hcount {x : ℕ} (hx : (n x).type ≠ 0) : Counts (links n x) (n x).nlink.toInt := by
    rw [← e.counts_iff]
    · exact h.count x ((e.type x).symm ▸ hx)
    · rintro rfl
      exact hx hzero
  have hparent {x : ℕ} (hx : LiveDir n x) : ((n x).entry 1).name = dotdot ∧
      LiveDir n ((n x).entry 1).inum := by
    rw [← e.first (by omega)]
    obtain ⟨hname, hlive⟩ := h.parent x (hdir hx)
    refine ⟨hname, ((e.liveDir_iff _).mp hlive).resolve_right ?_⟩
    rintro ⟨heq, htype⟩
    refine h.parent_ne (heq ▸ hlive) hdi (fun j hj => ?_) (hdir hx) heq
    rw [e.entry i j fun hand => e.ne hand.1]
    exact (e.folder htype).2.2.2 j hj
  constructor
  case root =>
    refine ((e.liveDir_iff _).mp h.root).resolve_right ?_
    rintro ⟨heq, -⟩
    exact (h.tree d i hdi (heq ▸ h.root)).1 heq.symm
  case root_parent =>
    rw [← e.first (by omega)]
    exact h.root_parent
  case self =>
    intro x hx
    rw [← e.first (by omega)]
    exact h.self x (hdir hx)
  case parent => exact fun x hx => hparent hx
  case child =>
    intro x j hx hj hne
    have hchild := h.child x j (hdir hx) hj
    rw [e.entry_eq hne] at hchild
    obtain ⟨hdot, hdotdot, hlive⟩ := hchild hne
    refine ⟨hdot, hdotdot, ((e.live_iff _).mp hlive).elim id fun heq => ?_⟩
    -- another name of the file is left
    have htype : (n i).type ≠ 0 := e.type i ▸ e.live.1
    have hpos := (hcount htype).pos (show (x, j) ∈ links n i from ⟨hx, heq, hdot⟩)
    rw [heq]
    refine ⟨htype, fun hnone => ?_⟩
    rw [hnone] at hpos
    exact absurd hpos (lt_irrefl _)
  case tree =>
    intro x y hxy hy
    rw [← e.first (by omega)]
    exact h.tree x y ((e.child_iff x y).mpr (.inl hxy)) (hdir hy)
  case unique =>
    intro x y j j' hx hy hj hj' heq heq'
    have hy0 := hy.live.ne_zero hzero
    rw [← e.entry_eq (by rw [heq]; exact hy0)] at heq
    rw [← e.entry_eq (by rw [heq']; exact hy0)] at heq'
    exact h.unique x y j j' (hdir hx) (hdir hy) hj hj' heq heq'
  case count => exact fun x hx => hcount hx
  case reach =>
    have hchild (w z : ℕ) (hwz : Child n' w z) (hz : z ≠ i) : Child n w z :=
      ((e.child_iff w z).mp hwz).resolve_right fun hand => hz hand.2
    have hreach {x : ℕ} (hx : Live n x) (hxi : x ≠ i) : ReflTransGen (Child n) ROOTINO x :=
      reach_of_leaf e.leaf hchild (h.reach x ((e.live_iff x).mpr (.inl hx))) hxi
    intro x hx
    by_cases hxi : x = i
    · -- a file that has another name
      subst hxi
      obtain ⟨⟨y, j⟩, hy, heq, hdot⟩ : (links n x).Nonempty := by
        rw [Set.nonempty_iff_ne_empty]
        intro hnone
        exact hx.2 (toInt_eq_zero.mp ((hcount hx.1).eq_zero_iff.mpr hnone))
      dsimp only at hy heq hdot
      have hyx : y ≠ x := fun hyx => e.not_liveDir (hyx ▸ hy)
      refine (hreach hy.live hyx).tail ⟨hy, e.pos, j, ?_, heq⟩
      match j with
      | 0 => exact absurd (by rw [← e.first (by omega), h.self y (hdir hy)]) hdot
      | 1 => exact absurd (heq ▸ (hparent hy).2) e.not_liveDir
      | j + 2 => omega
    · exact hreach hx hxi
  case orphan =>
    intro x j hx hlinks hne
    by_cases hxi : x = i
    · subst hxi
      obtain ⟨-, h0, h1, hj⟩ := e.folder hx
      match j with
      | 0 => exact .inl (by rw [h0])
      | 1 => exact .inr (by rw [h1])
      | j + 2 => exact absurd (hj (j + 2) (by omega)) hne
    · have hxd : x ≠ d := by
        rintro rfl
        exact e.dir.2 hlinks
      rw [← e.type] at hx
      rw [← e.nlink_other x hxi fun heq => absurd heq hxd] at hlinks
      have hsame := e.entry_eq hne
      rw [← hsame] at hne ⊢
      exact h.orphan x j hx hlinks hne
  case small =>
    intro x hx
    exact h.small x ((e.type x).symm ▸ hx)
  case zero => exact hzero

/-! ## What the calls do -/

/-- A file that is named by one more entry.

**Proof sketch.** The file gets one link and one entry, in place of an entry that was not in use. It
is no directory, so that no directory changes its parent. The largest count is excluded, as the
count would wrap. -/
theorem Counted.linked (h : Counted n) (hd : LiveDir n d) (halloc : (n i).type ≠ 0)
    (hfile : (n i).type ≠ T_DIR) (hlookup : (n d).lookup name = none)
    (hk : ((n d).entry k).inum = 0) (hle : 16 * k ≤ (n d).contents.length)
    (hfits : Dirent.Fits ⟨i, name⟩) (hmax : (n i).nlink ≠ 32767) :
    Counted (linked n d i k name) := by
  have hne : i ≠ d := by
    rintro rfl
    exact hfile hd.1
  set n' := Disk.linked n d i k name with hn'
  have hn'd : n' d = (n d).setEntry k ⟨i, name⟩ := by simp [hn', Disk.linked]
  have hn'i : n' i = { n i with nlink := (n i).nlink + 1 } := by simp [hn', Disk.linked, hne]
  have hother (x : ℕ) (hxi : x ≠ i) (hxd : x ≠ d) : n' x = n x := by
    simp [hn', Disk.linked, hxi, hxd]
  have hentry_d (j : ℕ) : (n' d).entry j = if j = k then ⟨i, name⟩ else (n d).entry j := by
    rw [hn'd, entry_setEntry hle hfits]
  have hnlink : (n' i).nlink.toInt = (n i).nlink.toInt + 1 := by
    rw [hn'i]
    exact toInt_succ hmax
  have htype (x : ℕ) : (n' x).type = (n x).type := by
    by_cases hxi : x = i
    · rw [hxi, hn'i]
    by_cases hxd : x = d
    · rw [hxd, hn'd, type_setEntry]
    · rw [hother x hxi hxd]
  suffices e : Attached n n' d i k name from h.attach e
  constructor
  case dir => exact hd
  case dir' => exact ⟨(htype d).trans hd.1, by rw [hn'd]; exact hd.2⟩
  case live =>
    refine ⟨by rwa [htype], ?_⟩
    rw [hn'i]
    exact nlink_succ_ne (h.count i halloc).nonneg hmax
  case ne => exact hne
  case pos =>
    rintro rfl
    exact halloc h.zero
  case two_le => exact h.two_le hd hk
  case name_ne => exact h.ne_dot hd hlookup
  case type => exact htype
  case empty => exact hk
  case named => rw [hentry_d, if_pos rfl]
  case entry =>
    intro x j hxj
    by_cases hxd : x = d
    · subst hxd
      rw [hentry_d, if_neg fun hj => hxj ⟨rfl, hj⟩]
    by_cases hxi : x = i
    · subst hxi
      rw [hn'i]
      rfl
    · rw [hother x hxi hxd]
  case nlink => exact hnlink
  case nlink_dir => exact fun hdir => absurd hdir hfile
  case nlink_other =>
    intro x hxi _
    by_cases hxd : x = d
    · rw [hxd, hn'd, nlink_setEntry]
    · rw [hother x hxi hxd]
  case folder => exact fun hdir => absurd hdir hfile

/-- The files with a new inode that has no name yet. -/
def unnamed (n : ℕ → Node) (d i : ℕ) (type : Int16) : ℕ → Node :=
  Function.update n i { newNode type i d with nlink := 0 }

theorem unnamed_self {type : Int16} :
    unnamed n d i type i = { newNode type i d with nlink := 0 } := Function.update_self ..

theorem unnamed_of_ne {type : Int16} (hx : x ≠ i) : unnamed n d i type x = n x :=
  Function.update_of_ne hx ..

theorem type_unnamed {type : Int16} : (unnamed n d i type i).type = type := by
  rw [unnamed_self, type_newNode]

theorem entry_unnamed {type : Int16} (k : ℕ) :
    (unnamed n d i type i).entry k = (newNode type i d).entry k := by
  rw [unnamed_self]
  exact congrFun (entry_congr rfl) k

/-- A new inode has no entries but `"."` and `".."`. -/
theorem entry_newNode_name {type : Int16} (hi : i < 2 ^ 16) (hd : d < 2 ^ 16)
    (hk : ((newNode type i d).entry k).inum ≠ 0) :
    ((newNode type i d).entry k).name = dot ∨ ((newNode type i d).entry k).name = dotdot := by
  by_cases hdir : type = T_DIR
  · rw [hdir, entry_newNode hi hd] at hk ⊢
    split_ifs at hk ⊢
    · exact .inr rfl
    · exact .inl rfl
    · exact absurd rfl hk
  · rw [newNode, if_neg hdir, Node.entry, if_neg (by simp)] at hk
    exact absurd rfl hk

theorem Counted.alloc (h : Counted n) (hfree : (n i).type = 0) (hpos : i ≠ 0) (hi : i < 2 ^ 16)
    (hd : d < 2 ^ 16) (type : Int16) : Counted (unnamed n d i type) := by
  refine h.of_dead (fun x hx => unnamed_of_ne ?_) fun x _ => ?_
  · rintro rfl
    exact hx.1 hfree
  by_cases hxi : x = i
  · subst hxi
    refine .inr ⟨hpos, hi, by rw [unnamed_self], fun j hj => ?_⟩
    rw [entry_unnamed] at hj ⊢
    exact entry_newNode_name hi hd hj
  · exact .inl (unnamed_of_ne hxi)

/-- A new inode, named by an entry of a directory with links.

**Proof sketch.** The new inode was named by nobody, as only inodes in use are. First it comes into
being without a name, which changes no count, and then it is attached to its directory
(`Counted.attach`), with one link, and a directory with a link to its parent. -/
theorem Counted.made (h : Counted n) (hd : LiveDir n d) (hfree : (n i).type = 0) (hpos : i ≠ 0)
    (hlt : i < 2 ^ 16) (hlookup : (n d).lookup name = none) (hk : ((n d).entry k).inum = 0)
    (hle : 16 * k ≤ (n d).contents.length) (hfits : Dirent.Fits ⟨i, name⟩) {type : Int16}
    (htype : type ≠ 0) (hmax : type = T_DIR → (n d).nlink ≠ 32767) :
    Counted (made n d i k name type) := by
  have hne : i ≠ d := by
    rintro rfl
    exact hd.live.1 hfree
  have hsmall := h.small d hd.live.1
  have hd_unnamed : unnamed n d i type d = n d := unnamed_of_ne hne.symm
  set n' := Disk.made n d i k name type with hn'
  have hn'i : n' i = newNode type i d := by simp [hn', Disk.made, hne]
  have hn'd : n' d = (parentNode type (n d)).setEntry k ⟨i, name⟩ := by simp [hn', Disk.made]
  have hother (x : ℕ) (hxi : x ≠ i) (hxd : x ≠ d) : n' x = unnamed n d i type x := by
    simp [hn', Disk.made, hxi, hxd, unnamed]
  have hentry_d (j : ℕ) : (n' d).entry j = if j = k then ⟨i, name⟩ else (n d).entry j := by
    rw [hn'd, entry_setEntry (by rwa [contents_parentNode]) hfits,
      entry_congr (contents_parentNode type (n d))]
  suffices e : Attached (unnamed n d i type) n' d i k name from
    (h.alloc hfree hpos hlt hsmall type).attach e
  constructor
  case dir => rwa [LiveDir, hd_unnamed]
  case dir' =>
    rw [LiveDir, hn'd, type_setEntry, type_parentNode, nlink_setEntry, parentNode]
    refine ⟨hd.1, ?_⟩
    split_ifs with hdir
    · exact nlink_succ_ne (h.count d hd.live.1).nonneg (hmax hdir)
    · exact hd.2
  case live =>
    rw [Live, hn'i, type_newNode, nlink_newNode]
    exact ⟨htype, by decide⟩
  case ne => exact hne
  case pos => exact hpos
  case two_le => exact h.two_le hd hk
  case name_ne => exact h.ne_dot hd hlookup
  case type =>
    intro x
    by_cases hxi : x = i
    · rw [hxi, hn'i, type_unnamed, type_newNode]
    by_cases hxd : x = d
    · rw [hxd, hn'd, type_setEntry, type_parentNode, hd_unnamed]
    · rw [hother x hxi hxd]
  case empty => rwa [hd_unnamed]
  case named => rw [hentry_d, if_pos rfl]
  case entry =>
    intro x j hxj
    by_cases hxd : x = d
    · subst hxd
      rw [hentry_d, if_neg fun hj => hxj ⟨rfl, hj⟩, hd_unnamed]
    by_cases hxi : x = i
    · rw [hxi, hn'i, entry_unnamed]
    · rw [hother x hxi hxd]
  case nlink =>
    rw [hn'i, nlink_newNode, unnamed_self]
    rfl
  case nlink_dir =>
    intro hdir
    rw [type_unnamed] at hdir
    rw [hn'd, nlink_setEntry, parentNode, if_pos hdir, hd_unnamed]
    exact toInt_succ (hmax hdir)
  case nlink_other =>
    intro x hxi hxd
    rw [type_unnamed] at hxd
    by_cases heq : x = d
    · rw [heq, hn'd, nlink_setEntry, parentNode, if_neg (hxd heq), hd_unnamed]
    · rw [hother x hxi heq]
  case folder =>
    intro hdir
    rw [type_unnamed] at hdir
    subst hdir
    refine ⟨by rw [unnamed_self], ?_, ?_, fun j hj => ?_⟩
    · rw [entry_unnamed, entry_newNode hlt hsmall, if_neg (by omega), if_pos rfl]
    · rw [entry_unnamed, entry_newNode hlt hsmall, if_pos rfl]
    · rw [entry_unnamed, entry_newNode hlt hsmall, if_neg (by omega), if_neg (by omega)]

/-- A name other than `"."` and `".."` is removed, of a file or of an empty directory.

**Proof sketch.** The entry is one behind the two dots, so that the directory keeps these. Seen
backwards the step attaches the name to a state without it, so that `Counted.detach` gives the
counts; an inode whose last link this was is dead now, and its own dots count no more. -/
theorem Counted.unlinked (h : Counted n) (hd : LiveDir n d)
    (hlookup : (n d).lookup name = some (i, k)) (hdots : name ≠ dot ∧ name ≠ dotdot)
    (hempty : (n i).type = T_DIR → ∀ j, 2 ≤ j → ((n i).entry j).inum = 0) :
    Counted (dropped_link (cleared n d i k) i) := by
  obtain ⟨hi0, hinum, hname⟩ := lookup_eq_some hlookup
  have hk := h.two_le_of_lookup hd hlookup hdots
  have hlen := entry_lt (n := n d) (k := k) (by rw [hinum]; exact hi0)
  have hi := h.live hd hinum hi0
  have hdi : Child n d i := ⟨hd, hi0, k, hk, hinum⟩
  have hne : i ≠ d := by
    rintro rfl
    exact hi0 (hinum.symm.trans (hempty hd.1 k hk))
  have hidir (hdir : (n i).type = T_DIR) : LiveDir n i := ⟨hdir, hi.2⟩
  set n' := dropped_link (cleared n d i k) i with hn'
  have hn'i : n' i = { n i with nlink := (n i).nlink - 1 } := by
    simp [hn', dropped_link, cleared, hne]
  have hn'd : n' d = childless (n i).type ((n d).setEntry k ⟨0, []⟩) := by
    simp [hn', dropped_link, cleared, hne.symm]
  have hother (x : ℕ) (hxi : x ≠ i) (hxd : x ≠ d) : n' x = n x := by
    simp [hn', dropped_link, cleared, hxi, hxd]
  have hentry_d (j : ℕ) : (n' d).entry j = if j = k then ⟨0, []⟩ else (n d).entry j := by
    rw [hn'd, entry_congr (contents_childless _ _), entry_setEntry (by omega) fits_empty]
  have hentry_i (j : ℕ) : (n' i).entry j = (n i).entry j := by
    rw [hn'i]
    exact congrFun (entry_congr rfl) j
  have htype_i : (n' i).type = (n i).type := by rw [hn'i]
  have hnlink_d (hdir : (n i).type = T_DIR) : (n' d).nlink.toInt = (n d).nlink.toInt - 1 := by
    have htwo := h.two_le_nlink hd (hidir hdir) hdi
    rw [hn'd, childless, if_pos hdir]
    exact toInt_pred (a := (n d).nlink) (by omega)
  have hnlink_i : (n' i).nlink.toInt = (n i).nlink.toInt - 1 := by
    rw [hn'i]
    exact toInt_pred (h.nlink_pos hi)
  suffices e : Attached n' n d i k name from h.detach e
  constructor
  case dir =>
    rw [LiveDir, hn'd, type_childless, type_setEntry]
    refine ⟨hd.1, fun hzero => ?_⟩
    by_cases hdir : (n i).type = T_DIR
    · have htwo := h.two_le_nlink hd (hidir hdir) hdi
      have hpred := hnlink_d hdir
      rw [hn'd, hzero, show (0 : Int16).toInt = 0 from rfl] at hpred
      omega
    · rw [childless, if_neg hdir] at hzero
      exact hd.2 hzero
  case dir' => exact hd
  case live => exact hi
  case ne => exact hne
  case pos => exact hi0
  case two_le => exact hk
  case name_ne => exact hdots
  case type =>
    intro x
    by_cases hxi : x = i
    · rw [hxi, htype_i]
    by_cases hxd : x = d
    · rw [hxd, hn'd, type_childless, type_setEntry]
    · rw [hother x hxi hxd]
  case empty => rw [hentry_d, if_pos rfl]
  case named => rw [← hinum, ← hname]
  case entry =>
    intro x j hxj
    by_cases hxd : x = d
    · subst hxd
      rw [hentry_d, if_neg fun hj => hxj ⟨rfl, hj⟩]
    by_cases hxi : x = i
    · rw [hxi, hentry_i]
    · rw [hother x hxi hxd]
  case nlink => omega
  case nlink_dir =>
    intro hdir
    have hpred := hnlink_d (htype_i.symm.trans hdir)
    omega
  case nlink_other =>
    intro x hxi hxd
    rw [htype_i] at hxd
    by_cases heq : x = d
    · rw [heq, hn'd, childless, if_neg (hxd heq), nlink_setEntry]
    · rw [hother x hxi heq]
  case folder =>
    intro hdir
    rw [htype_i] at hdir
    have hi' := hidir hdir
    refine ⟨?_, ?_, ?_, fun j hj => ?_⟩
    · -- the name was the only link
      have hcount := h.count i hi.1
      rw [h.links_empty_dir hd hi' hk hinum (hempty hdir), ← insert_empty_eq,
        show (n i).nlink.toInt = (n' i).nlink.toInt + 1 by omega,
        Counts.insert_iff (Set.notMem_empty _)] at hcount
      exact toInt_eq_zero.mp (hcount.eq_zero_iff.mpr rfl)
    · rw [hentry_i]
      exact h.self i hi'
    · rw [hentry_i, ← (h.tree d i hdi hi').2, ← (h.parent i hi').1]
    · rw [hentry_i]
      exact hempty hdir j hj

end HgXv6.Disk
