import HgXv6.Kernel.Robust

set_option relaxedAutoImplicit false
set_option autoImplicit false

/-!
# What the calls on names do

For each call that makes or removes a name, the ways in which it ends: it has done nothing, or it
has changed the files in one way, which is stated as an update of the table of files. What `iput`
frees in the course of a call has no links.

## Main definitions

* `HgXv6.Disk.Made`, `HgXv6.Disk.Linked`, `HgXv6.Disk.Unlinked` — what `create`, `sys_link` and
  `sys_unlink` leave if they change anything.

## Main results

* `HgXv6.Disk.wp_create_ends`, `HgXv6.Disk.wp_sysLink_ends`, `HgXv6.Disk.wp_sysUnlink_ends`,
  `HgXv6.Disk.wp_openInode_ends` — the ways in which the functions end.
-/

namespace HgXv6.Disk

open Prog

variable {s s₁ s₂ : Fs} {i dp : ℕ}

/-! ## Single steps -/

/-- Being held does not go with a reference to another inode. -/
theorem Puts.safe (h : Consistent s₁) (hputs : Puts i s₁ s₂) {j : ℕ} (hsafe : Safe s₁ j) :
    Safe s₂ j := by
  intro htype hnlink
  by_cases hlast : Last s₁ i ∧ j = i
  · obtain ⟨hlast, rfl⟩ := hlast
    rw [hputs.freed hlast, Function.update_self] at htype
    exact absurd rfl htype
  · have hnode : s₂.node j = s₁.node j := by
      by_cases hl : Last s₁ i
      · rw [hputs.freed hl, Function.update_of_ne fun hj => hlast ⟨hl, hj⟩]
      · rw [node_congr (hputs.kept hl).1 (hputs.kept hl).2.1]
    rw [hnode] at htype hnlink
    have hheld := hsafe htype hnlink
    refine hputs.held (fun hj => ?_) hheld
    subst hj
    by_contra href
    refine hlast ⟨⟨?_, hheld.2, ?_⟩, rfl⟩
    · have hpos := hheld.1
      omega
    · rw [h.node_valid hheld.2] at hnlink
      exact hnlink

/-- Fields of an inode in memory are changed on the disk too, with what follows. -/
theorem wp_update_holds {α : Type} {Q : α → Fs → Prop} {H : List ℕ} {f : Dinode → Dinode}
    {m : M α} (h : Holds H s s₁) (hi : Held s₁ i)
    (hf : ∀ d, (f d).addrs = d.addrs ∧ (f d).size = d.size ∧ (f d).type = d.type)
    (hm : ∀ s', s' = s₁.putInode i (f (s₁.icache i).copy) → Holds H s s' → Keeps s₁ s' →
      s'.node = Function.update s₁.node i
        { s₁.node i with nlink := (f (s₁.icache i).copy).nlink } →
      Wp NoDoubleFree m Q s') :
    Wp NoDoubleFree (do modifyCopy i f; iupdate i; m) Q s₁ := by
  obtain ⟨haddrs, hsize, htype⟩ := hf (s₁.icache i).copy
  have htype' : (f (s₁.icache i).copy).type ≠ 0 := htype ▸ h.consistent.typed i hi.2
  rw [wp_update]
  have hsame := sameRefs_putInode i (f (s₁.icache i).copy) s₁
  exact hm _ rfl (h.same (h.consistent.putInode hi.2 haddrs hsize htype') hsame) hsame.keeps
    (node_putInode h.consistent hi.2 haddrs hsize htype)

/-- A free inode gets a type. -/
theorem node_alloc (hfree : (s.dinode i).type = 0) {type : Int16} (htype : type ≠ 0) :
    (s.setDinode i { Dinode.zero with type := type }).node =
      Function.update s.node i ⟨type, 0, []⟩ := by
  funext j
  by_cases hj : j = i
  · subst hj
    have hd : (s.setDinode j { Dinode.zero with type := type }).dinode j =
        { Dinode.zero with type := type } := Function.update_self ..
    rw [Function.update_self, node_of_type (by rw [hd]; exact htype), contents, hd]
    rfl
  · have hd : (s.setDinode i { Dinode.zero with type := type }).dinode j = s.dinode j :=
      Function.update_of_ne hj ..
    rw [Function.update_of_ne hj]
    refine node_eq hd fun _ o _ => ?_
    rw [byteAt_of_inode hd]
    rfl

/-! ## `create` -/

/-- The directory and the name in it that a path means, if there is no entry with the name. -/
def Fs.vacant (s : Fs) (p : ℕ) (path : List UInt8) : Option (ℕ × List UInt8) :=
  (s.resolve p path true).filter fun x => (s.node x.1).lookup x.2 = none

theorem vacant_eq_some {p : ℕ} {path name : List UInt8}
    (hresolve : s.resolve p path true = some (dp, name))
    (hlookup : (s.node dp).lookup name = none) : s.vacant p path = some (dp, name) := by
  simp [Fs.vacant, hresolve, hlookup]

theorem vacant_eq_none {p : ℕ} {path : List UInt8}
    (h : ∀ dp name, s.resolve p path true = some (dp, name) → (s.node dp).lookup name ≠ none) :
    s.vacant p path = none := by
  unfold Fs.vacant
  cases hresolve : s.resolve p path true with
  | none => rfl
  | some x => simpa using h x.1 x.2 hresolve

/-- The entry `"."` -/
abbrev dot : List UInt8 := [chr '.']

/-- The entry `".."` -/
abbrev dotdot : List UInt8 := [chr '.', chr '.']

theorem fits_dot {ip : ℕ} (h : ip < 2 ^ 16) : Dirent.Fits ⟨ip, dot⟩ :=
  ⟨h, show dot.length ≤ DIRSIZ by decide, show 0 ∉ dot by decide⟩

theorem fits_dotdot {ip : ℕ} (h : ip < 2 ^ 16) : Dirent.Fits ⟨ip, dotdot⟩ :=
  ⟨h, show dotdot.length ≤ DIRSIZ by decide, show 0 ∉ dotdot by decide⟩

/-- A new inode: a directory has its entries `"."` and `".."`. -/
def newNode (type : Int16) (ip dp : ℕ) : Node :=
  if type = T_DIR then
    ((⟨T_DIR, 1, []⟩ : Node).setEntry 0 ⟨ip, dot⟩).setEntry 1 ⟨dp, dotdot⟩
  else ⟨type, 1, []⟩

@[simp] theorem type_newNode (type : Int16) (ip dp : ℕ) : (newNode type ip dp).type = type := by
  unfold newNode
  split_ifs with hdir
  · exact hdir.symm
  · rfl

@[simp] theorem nlink_newNode (type : Int16) (ip dp : ℕ) : (newNode type ip dp).nlink = 1 := by
  unfold newNode
  split_ifs
  · rfl
  · rfl

/-- The table of a new directory. -/
theorem entry_newNode {ip dp : ℕ} (hip : ip < 2 ^ 16) (hdp : dp < 2 ^ 16) (j : ℕ) :
    (newNode T_DIR ip dp).entry j =
      if j = 1 then ⟨dp, dotdot⟩ else if j = 0 then ⟨ip, dot⟩ else ⟨0, []⟩ := by
  have hlen : ((⟨T_DIR, 1, []⟩ : Node).setEntry 0 ⟨ip, dot⟩).contents.length = 16 := by
    simp [Node.setEntry, Node.write]
  have hempty : (⟨T_DIR, 1, []⟩ : Node).entry j = ⟨0, []⟩ := by
    rw [Node.entry, if_neg (by simp)]
  have hfirst : ((⟨T_DIR, 1, []⟩ : Node).setEntry 0 ⟨ip, dot⟩).entry j =
      if j = 0 then ⟨ip, dot⟩ else (⟨T_DIR, 1, []⟩ : Node).entry j :=
    entry_setEntry (Nat.zero_le _) (fits_dot hip)
  rw [newNode, if_pos rfl, entry_setEntry (k := 1) (by rw [hlen]) (fits_dotdot hdp), hfirst, hempty]

/-- The directory of a new inode: a new directory links to it by `".."`. -/
def parentNode (type : Int16) (n : Node) : Node :=
  if type = T_DIR then { n with nlink := n.nlink + 1 } else n

@[simp] theorem type_parentNode (type : Int16) (n : Node) :
    (parentNode type n).type = n.type := by
  unfold parentNode
  split_ifs
  · rfl
  · rfl

@[simp] theorem contents_parentNode (type : Int16) (n : Node) :
    (parentNode type n).contents = n.contents := by
  unfold parentNode
  split_ifs
  · rfl
  · rfl

/-- The files with the new inode `ip`, named by the entry `k` of the directory `dp`. -/
def made (n : ℕ → Node) (dp ip k : ℕ) (name : List UInt8) (type : Int16) : ℕ → Node :=
  Function.update (Function.update n ip (newNode type ip dp)) dp
    ((parentNode type (n dp)).setEntry k ⟨ip, name⟩)

/-- What `create` leaves if it makes an inode. -/
structure Made (dp : ℕ) (name : List UInt8) (ip : ℕ) (type : Int16) (s s' : Fs) : Prop where
  dir : (s.node dp).type = T_DIR
  lookup : (s.node dp).lookup name = none
  free : (s.dinode ip).type = 0
  pos : ip ≠ 0
  lt : ip < s.sb.ninodes
  holds : Holds [ip] s s'
  node : ∃ k, ((s.node dp).entry k).inum = 0 ∧ 16 * k ≤ (s.node dp).contents.length ∧
    Frees (made s.node dp ip k name type) s'.node

/-- The entries of a new directory.

**Proof sketch.** The new directory has no entries, so that the lookup of `"."` finds nothing, and
the entry is written at the start; then that of `".."` finds nothing either, and its entry is
written behind the first. The result is `newNode`. -/
theorem wp_create_dots_ends {Q : Unit → Fs → Prop} {H : List ℕ} {ip : ℕ} (h : Holds H s s₁)
    (hip : Held s₁ ip) (hnode : s₁.node ip = ⟨T_DIR, 1, []⟩) (hpos : ip ≠ 0) (hlt : ip < 2 ^ 16)
    (hQ : ∀ s', Holds H s s' → Keeps s₁ s' →
      s'.node = Function.update s₁.node ip (newNode T_DIR ip dp) → Q ⟨⟩ s') :
    Wp NoDoubleFree (create.dots ip dp) Q s₁ := by
  have hdot := fits_dot hlt
  have hempty (k : ℕ) : ((⟨T_DIR, 1, []⟩ : Node).entry k).inum = 0 := by
    rw [Node.entry, if_neg (by simp)]
  unfold create.dots
  rw [wp_bind]
  refine wp_dirlink h.consistent hip.2 (fun i k hlookup => ?_)
    fun k s₂ _ _ _ hk hcons hsame hnode₂ => ?_
  · rw [hnode] at hlookup
    obtain ⟨hne, hinum, -⟩ := lookup_eq_some hlookup
    exact absurd (hinum ▸ hempty k) hne
  obtain rfl : k = 0 := by
    rw [hnode] at hk
    simpa using hk
  rw [hnode] at hnode₂
  have h₂ := h.same hcons hsame
  have hip₂ := hsame.keeps.held ip hip
  have hip_node : s₂.node ip = (⟨T_DIR, 1, []⟩ : Node).setEntry 0 ⟨ip, dot⟩ := by
    rw [hnode₂, Function.update_self]
  have hentry (k : ℕ) : (s₂.node ip).entry k =
      if k = 0 then ⟨ip, dot⟩ else (⟨T_DIR, 1, []⟩ : Node).entry k := by
    rw [hip_node, entry_setEntry (by simp) hdot]
  rw [if_pos rfl, wp_bind]
  refine wp_dirlink h₂.consistent hip₂.2 (fun i k hlookup => ?_)
    fun k s₃ _ _ hk hle hcons' hsame' hnode₃ => ?_
  · obtain ⟨hne, hinum, hname⟩ := lookup_eq_some hlookup
    rw [hentry] at hinum hname
    by_cases hk : k = 0
    · rw [if_pos hk] at hname
      exact absurd hname (show dot ≠ dotdot by decide)
    · rw [if_neg hk] at hinum
      exact absurd (hinum ▸ hempty k) hne
  obtain rfl : k = 1 := by
    have hlen : (s₂.node ip).contents.length = 16 := by
      rw [hip_node]
      simp [Node.setEntry, Node.write]
    rw [hlen] at hle
    rw [hentry] at hk
    have hk0 : k ≠ 0 := by
      rintro rfl
      exact hpos hk
    omega
  rw [if_pos rfl]
  refine hQ s₃ (h₂.same hcons' hsame') (hsame.keeps.trans hsame'.keeps) ?_
  rw [hnode₃, hip_node, hnode₂, Function.update_idem]
  rfl

/-- The entry of the new inode, up to the point where the directory is put. -/
theorem wp_create_link_ends {Q : Option ℕ → Fs → Prop} {H : List ℕ} {ip : ℕ} {name : List UInt8}
    (h : Holds H s s₁) (hdp : Held s₁ dp) (hlookup : (s₁.node dp).lookup name = none)
    (hQ : ∀ k s', ((s₁.node dp).entry k).inum = 0 → 16 * k ≤ (s₁.node dp).contents.length →
      Holds H s s' →
      s'.node = Function.update s₁.node dp ((s₁.node dp).setEntry k ⟨ip, name⟩) →
      Wp NoDoubleFree (do iput dp; pure (some ip)) Q s') :
    Wp NoDoubleFree (create.link dp name ip) Q s₁ := by
  unfold create.link
  rw [wp_bind]
  refine wp_dirlink h.consistent hdp.2 (fun i k hsome => ?_)
    fun k s₂ _ _ hk hle hcons hsame hnode => ?_
  · rw [hlookup] at hsome
    cases hsome
  · rw [if_pos rfl]
    exact hQ k s₂ hk hle (h.same hcons hsame) hnode

/-- The part of `create` that makes the inode, up to the point where the directory is put.

**Proof sketch.** The inode is one that was free, so that it is not the parent. It is locked, gets
its type and one link, and, if it is a directory, its two entries (`wp_create_dots_ends`), and the
parent a link. Then the name is linked in the parent, where it was not, at an entry that was not in
use. -/
theorem wp_create_new {Q : Option ℕ → Fs → Prop} (hcons : Consistent s)
    (hsmall : s.sb.ninodes ≤ 2 ^ 16) (hdp : Held s dp) {name : List UInt8}
    (hlookup : (s.node dp).lookup name = none) {type : Int16} (htype : type ≠ 0)
    (major minor : Int16)
    (hQ : ∀ ip k s', ip ≠ 0 → ip < s.sb.ninodes → (s.dinode ip).type = 0 →
      ((s.node dp).entry k).inum = 0 → 16 * k ≤ (s.node dp).contents.length → Holds [ip] s s' →
      s'.node = made s.node dp ip k name type →
      Wp NoDoubleFree (do iput dp; pure (some ip)) Q s') :
    Wp NoDoubleFree (do
      let ip ← ialloc type
      ilock ip
      modifyCopy ip fun d => { d with major := major, minor := minor, nlink := 1 }
      iupdate ip
      if type = T_DIR then do
        modifyCopy dp fun d => { d with nlink := d.nlink + 1 }
        iupdate dp
        create.dots ip dp
        create.link dp name ip
      else create.link dp name ip) Q s := by
  rw [wp_bind]
  refine wp_ialloc type fun ip hpos hlt hfree => ?_
  have hne : ip ≠ dp := by
    rintro rfl
    exact (hcons.cached ip hdp.2).2 hfree
  have hsame : SameRefs s (s.setDinode ip { Dinode.zero with type := type }) :=
    ⟨⟨rfl, rfl, rfl, rfl⟩, fun _ => rfl, fun _ => rfl⟩
  have h₁ := ((Holds.refl hcons).same (hcons.alloc hfree type) hsame).get ip
  have hnode₁ : ((s.setDinode ip { Dinode.zero with type := type }).get ip).node =
      Function.update s.node ip ⟨type, 0, []⟩ := by
    rw [← node_alloc hfree htype]
    exact node_congr rfl rfl
  have hdp₁ := h₁.held dp hdp
  set s₁ := (s.setDinode ip { Dinode.zero with type := type }).get ip
  rw [wp_bind]
  refine wp_ilock h₁.consistent fun href htype₁ => ?_
  have h₂ := h₁.lock htype₁
  have hip₂ := held_lock href
  have hnode₂ := (node_lock (s := s₁) ip).trans hnode₁
  refine wp_update_holds h₂ hip₂ (fun d => ⟨rfl, rfl, rfl⟩) fun s₃ _ h₃ hkeeps₃ hnode₃ => ?_
  rw [hnode₂, Function.update_self, Function.update_idem] at hnode₃
  have hdp₃ := h₃.held dp hdp
  have hip₃ := hkeeps₃.held ip hip₂
  have hdp_node₃ : s₃.node dp = s.node dp := by
    rw [hnode₃, Function.update_of_ne hne.symm]
  rw [wp_ite]
  refine ⟨fun hd => ?_, fun hd => ?_⟩
  · refine wp_update_holds h₃ hdp₃ (fun d => ⟨rfl, rfl, rfl⟩) fun s₄ _ h₄ hkeeps₄ hnode₄ => ?_
    have hcount : (s₃.icache dp).copy.nlink = (s.node dp).nlink := by
      rw [← hdp_node₃, h₃.consistent.node_valid hdp₃.2]
    dsimp only at hnode₄
    rw [hdp_node₃, hcount] at hnode₄
    have hip_node : s₄.node ip = ⟨T_DIR, 1, []⟩ := by
      rw [hnode₄, Function.update_of_ne hne, hnode₃, Function.update_self, hd]
    rw [wp_bind]
    refine wp_create_dots_ends h₄ (hkeeps₄.held ip hip₃) hip_node (by omega)
      (lt_of_lt_of_le hlt hsmall) fun s₅ h₅ _ hnode₅ => ?_
    have hdp_node : s₅.node dp = { s.node dp with nlink := (s.node dp).nlink + 1 } := by
      rw [hnode₅, Function.update_of_ne hne.symm, hnode₄, Function.update_self]
    refine wp_create_link_ends h₅ (h₅.held dp hdp) ?_ fun k s₆ hk hle h₆ hnode₆ => ?_
    · rw [hdp_node]
      exact hlookup
    rw [hdp_node] at hk hle hnode₆
    refine hQ ip k s₆ (by omega) hlt hfree hk hle h₆ ?_
    rw [hnode₆, hnode₅, hnode₄, hnode₃, made, parentNode, if_pos hd, hd]
    funext j
    by_cases hj : j = dp
    · simp [hj]
    · by_cases hj' : j = ip
      · simp [hj', hne]
      · simp [hj, hj']
  · refine wp_create_link_ends h₃ hdp₃ ?_ fun k s₄ hk hle h₄ hnode₄ => ?_
    · rw [hdp_node₃]
      exact hlookup
    rw [hdp_node₃] at hk hle hnode₄
    refine hQ ip k s₄ (by omega) hlt hfree hk hle h₄ ?_
    rw [hnode₄, made, newNode, parentNode, if_neg hd, if_neg hd, ← hnode₃]

/-- The ways in which `create` ends.

**Proof sketch.** If there is no parent the call has taken nothing. Otherwise the parent is locked
and the name looked up. If it is there, it is returned if a file was asked for and it is one, and
given back otherwise; what is put then has links, so that nothing is freed. If it is not there,
`wp_create_new` makes it. -/
theorem wp_create_ends {Q : Option ℕ → Fs → Prop} (hs : Settled s) (p : ℕ) (path : List UInt8)
    {type : Int16} (htype : type ≠ 0) (major minor : Int16)
    (hnone : ∀ s', s.vacant p path = none → Took [] s s' → Q none s')
    (hold : ∀ ip s', s.vacant p path = none → Took [ip] s s' → Held s' ip → type = T_FILE →
      (s.node ip).type = T_FILE → Q (some ip) s')
    (hnew : ∀ dp name ip s', s.resolve p path true = some (dp, name) →
      s.vacant p path = some (dp, name) → Made dp name ip type s s' → Q (some ip) s') :
    Wp NoDoubleFree (create p path type major minor) Q s := by
  unfold create
  rw [wp_bind]
  refine wp_namex_took hs p path true (fun s₁ hresolve h₁ => ?_) fun dp name s₁ hresolve h₁ => ?_
  · exact hnone s₁ (vacant_eq_none fun dp name heq => by simp [hresolve] at heq) h₁
  obtain ⟨hdir, -, -⟩ := resolve_parent hresolve
  rw [wp_bind]
  refine wp_lock h₁ fun s₂ h₂ _ hdp _ => ?_
  rw [wp_bind]
  refine wp_lookup hs h₂ hdp (fun hlookup => ?_) fun ip k s₃ hlookup h₃ _ => ?_
  · -- the new inode
    refine wp_create_new h₂.consistent ?_ hdp ?_ htype major minor
      fun ip k s₃ hpos hlt hfree hk hle h₃ hnode => ?_
    · rw [h₂.tables.sb]
      exact hs.small
    · rw [h₂.node]
      exact hlookup
    rw [h₂.tables.sb] at hlt
    rw [h₂.dinode] at hfree
    rw [h₂.node] at hk hle hnode
    refine Wp.bind (wp_iput h₃.consistent dp) ?_
    intro _ s₄ hputs
    have h₄ : Holds [ip] s s₄ :=
      ((h₂.toHolds.trans h₃).perm (List.Perm.swap dp ip [])).put hputs
    refine hnew dp name ip s₄ hresolve (vacant_eq_some hresolve hlookup)
      ⟨hdir, hlookup, hfree, hpos, hlt, h₄, k, hk, hle, ?_⟩
    rw [← hnode]
    exact hputs.frees h₃.consistent
  · -- the name is there
    have hvacant : s.vacant p path = none := by
      refine vacant_eq_none fun dp' name' heq => ?_
      rw [hresolve] at heq
      obtain ⟨rfl, rfl⟩ := Prod.mk.inj (Option.some.inj heq)
      rw [hlookup]
      simp
    rw [wp_bind]
    refine wp_put (h₃.perm (List.Perm.swap dp ip [])) fun s₄ h₄ => ?_
    rw [wp_bind]
    refine wp_lock h₄ fun s₅ h₅ _ hip _ => ?_
    rw [wp_bind, wp_get, wp_ite, h₅.type_copy hip]
    refine ⟨fun hfile => hold ip s₅ hvacant h₅ hip hfile.1 hfile.2, fun _ => ?_⟩
    rw [wp_bind]
    exact wp_put h₅ fun s₆ h₆ => hnone s₆ hvacant h₆

/-! ## `sys_link` -/

/-- The files with one more link to the inode `ip`, the entry `k` of the directory `dp`. -/
def linked (n : ℕ → Node) (dp ip k : ℕ) (name : List UInt8) : ℕ → Node :=
  Function.update (Function.update n ip { n ip with nlink := (n ip).nlink + 1 }) dp
    ((n dp).setEntry k ⟨ip, name⟩)

/-- What `sys_link` leaves if it succeeds. -/
structure Linked (dp : ℕ) (name : List UInt8) (ip : ℕ) (s s' : Fs) : Prop where
  file : (s.node ip).type ≠ T_DIR
  alloc : (s.node ip).type ≠ 0
  dir : (s.node dp).type = T_DIR
  lookup : (s.node dp).lookup name = none
  holds : Holds [] s s'
  node : ∃ k, ((s.node dp).entry k).inum = 0 ∧ 16 * k ≤ (s.node dp).contents.length ∧
    Frees (linked s.node dp ip k name) s'.node

/-- An inode that is held may get another link count. -/
theorem Settled.putInode {H : List ℕ} (hs : Settled s) (hi : Held s₁ i)
    (h₂ : Holds H s s₂) (hkeeps : Keeps s₁ s₂) {nlink : Int16}
    (hnode : s₂.node = Function.update s.node i { s.node i with nlink := nlink }) :
    Settled s₂ := by
  have htype (j : ℕ) : (s₂.node j).type = (s.node j).type := by
    rw [hnode]
    by_cases hj : j = i
    · simp [hj]
    · simp [hj]
  have hcontents (j : ℕ) : (s₂.node j).contents = (s.node j).contents := by
    rw [hnode]
    by_cases hj : j = i
    · simp [hj]
    · simp [hj]
  refine hs.of_holds h₂ ?_ fun j hnamed htype' hnlink => ?_
  · rw [htype, type_node]
    exact hs.zero
  · by_cases hj : j = i
    · rw [hj]
      exact hkeeps.held i hi
    · rw [hnode, Function.update_of_ne hj] at htype' hnlink
      exact h₂.held j (hs.safe j ((named_congr h₂.tables.cwd htype hcontents).mp hnamed)
        htype' hnlink)

/-- The label `bad` takes the new link back. -/
theorem wp_sysLink_bad_ends {Q : ℤ → Fs → Prop} {s₃ s₄ : Fs} (h₂ : Took [i] s s₂)
    (hi : Held s₂ i) (h₃ : Holds [i] s s₃)
    (hput : s₃ = s₂.putInode i
      { (s₂.icache i).copy with nlink := (s₂.icache i).copy.nlink + 1 })
    (h₄ : Took [] s₃ s₄) (hQ : ∀ s', Took [] s s' → Q (-1) s') :
    Wp NoDoubleFree (sysLink.bad i) Q s₄ := by
  unfold sysLink.bad
  rw [wp_bind]
  refine wp_lock h₄ fun s₅ h₅ _ hi₅ _ => ?_
  have hlinks := h₃.trans h₅.toHolds
  refine wp_update_holds hlinks hi₅ (fun d => ⟨rfl, rfl, rfl⟩) fun s₆ hput₆ h₆ _ _ => ?_
  have hcopy₂ : (s₂.icache i).copy = s.dinode i := by
    rw [(h₂.consistent.cached i hi.2).1, h₂.dinode]
  have hcopy₅ : (s₅.icache i).copy = { s.dinode i with nlink := (s.dinode i).nlink + 1 } := by
    rw [(h₅.consistent.cached i hi₅.2).1, h₅.dinode, hput, hcopy₂]
    exact Function.update_self ..
  have hdinode : s₆.dinode = s.dinode := by
    rw [hput₆, hcopy₅]
    change Function.update s₅.dinode i _ = _
    rw [h₅.dinode, hput]
    change Function.update (Function.update s₂.dinode i _) i _ = _
    rw [Function.update_idem, h₂.dinode]
    simp
  have hdata : s₆.data = s.data := by
    rw [hput₆]
    change s₅.data = _
    rw [h₅.data, hput]
    exact h₂.data
  rw [wp_bind]
  exact wp_put ⟨h₆, hdinode, hdata, h₂.safe⟩ hQ

/-- The ways in which `sys_link` ends.

**Proof sketch.** The call may fail at the lookup of the old path, at a directory, at the parent of
the new path, or at a name that exists. In the last two cases the link that it has counted already
is taken back, so that the files are as they were. Otherwise the entry is written, and the count
includes it. -/
theorem wp_sysLink_ends {Q : ℤ → Fs → Prop} (hs : Settled s) (p : ℕ) (old new : List UInt8)
    (hfail : ∀ s', Took [] s s' → Q (-1) s')
    (hlink : ∀ dp name ip name' s', s.resolve p old false = some (ip, name') →
      s.resolve p new true = some (dp, name) → Linked dp name ip s s' → Q 0 s') :
    Wp NoDoubleFree (sysLink p old new) Q s := by
  unfold sysLink
  rw [wp_bind]
  refine wp_namex_took hs p old false (fun s₁ _ h₁ => hfail s₁ h₁)
    fun ip name' s₁ hold h₁ => ?_
  rw [wp_bind]
  refine wp_lock h₁ fun s₂ h₂ _ hip halloc => ?_
  rw [wp_bind, wp_get, wp_ite, h₂.type_copy hip]
  refine ⟨fun _ => ?_, fun hfile => ?_⟩
  · rw [wp_bind]
    exact wp_put h₂ hfail
  refine wp_update_holds h₂.toHolds hip (fun d => ⟨rfl, rfl, rfl⟩)
    fun s₃ hput h₃ hkeeps₃ hnode₃ => ?_
  dsimp only at hnode₃
  rw [h₂.node, h₂.nlink_copy hip] at hnode₃
  have hs₃ := hs.putInode hip h₃ hkeeps₃ hnode₃
  have hresolve : s₃.resolve p new true = s.resolve p new true := by
    unfold Fs.resolve
    rw [h₃.tables.cwd]
    refine walk_congr (fun j => ?_) (fun j => ?_) _ _ _ _ _
    all_goals
      rw [hnode₃]
      by_cases hj : j = ip
      · simp [hj]
      · simp [hj]
  have hbad (s₄ : Fs) (h₄ : Took [] s₃ s₄) : Wp NoDoubleFree (sysLink.bad ip) Q s₄ :=
    wp_sysLink_bad_ends h₂ hip h₃ hput h₄ hfail
  rw [wp_bind]
  refine wp_namex_took hs₃ p new true (fun s₄ _ h₄ => hbad s₄ h₄) fun dp name s₄ hnew h₄ => ?_
  rw [hresolve] at hnew
  obtain ⟨hdir, -, -⟩ := resolve_parent hnew
  have hne : dp ≠ ip := by
    rintro rfl
    exact hfile hdir
  have hdp_node : s₃.node dp = s.node dp := by
    rw [hnode₃, Function.update_of_ne hne]
  dsimp only
  rw [wp_bind]
  refine wp_lock h₄ fun s₅ h₅ _ hdp _ => ?_
  rw [wp_bind]
  refine wp_dirlink h₅.consistent hdp.2 (fun i k hlookup => ?_)
    fun k s₆ htype hlookup hk hle hcons hsame hnode₆ => ?_
  · -- the name is there
    rw [h₅.node] at hlookup
    obtain ⟨hi, hinum, -⟩ := lookup_eq_some hlookup
    have hnamed : Named s₃ i := by
      refine .inr (.inr ⟨dp, k, ?_, hi, hinum⟩)
      rw [hdp_node]
      exact hdir
    refine wp_put (h₅.get (hs₃.safe i hnamed)) fun s₆ h₆ => ?_
    rw [wp_bind]
    refine wp_put h₆ fun s₇ h₇ => ?_
    exact hbad s₇ h₇
  · rw [h₅.node, hdp_node] at hlookup hk hle hnode₆
    rw [wp_bind]
    refine (wp_iput hcons dp).mono ?_
    intro _ s₇ hputs₇
    have h₇ := h₃.trans ((h₅.toHolds.same hcons hsame).put hputs₇)
    rw [if_pos rfl, wp_bind]
    refine (wp_iput h₇.consistent ip).mono ?_
    intro _ s₈ hputs₈
    have hlinked : linked s.node dp ip k name = s₆.node := by
      rw [hnode₆, hnode₃]
      rfl
    refine hlink dp name ip name' s₈ hold hnew
      ⟨hfile, halloc, hdir, hlookup, h₇.put hputs₈, k, hk, hle, ?_⟩
    rw [hlinked]
    exact (hputs₇.frees hcons).trans (hputs₈.frees h₇.consistent)

/-! ## `sys_unlink` -/

/-- The directory of an inode that loses its name: a directory gives up its link by `".."`. -/
def childless (type : Int16) (n : Node) : Node :=
  if type = T_DIR then { n with nlink := n.nlink - 1 } else n

@[simp] theorem type_childless (type : Int16) (n : Node) :
    (childless type n).type = n.type := by
  unfold childless
  split_ifs
  · rfl
  · rfl

@[simp] theorem contents_childless (type : Int16) (n : Node) :
    (childless type n).contents = n.contents := by
  unfold childless
  split_ifs
  · rfl
  · rfl

/-- The files without the entry `k` of the directory `dp`, which named `ip`. -/
def cleared (n : ℕ → Node) (dp ip k : ℕ) : ℕ → Node :=
  Function.update n dp (childless (n ip).type ((n dp).setEntry k ⟨0, []⟩))

/-- A link to the inode `ip` is dropped. -/
def dropped_link (n : ℕ → Node) (ip : ℕ) : ℕ → Node :=
  Function.update n ip { n ip with nlink := (n ip).nlink - 1 }

/-- What `sys_unlink` leaves if it succeeds. -/
structure Unlinked (dp : ℕ) (name : List UInt8) (ip k : ℕ) (s s' : Fs) : Prop where
  dir : (s.node dp).type = T_DIR
  ne_dot : name ≠ dot ∧ name ≠ dotdot
  lookup : (s.node dp).lookup name = some (ip, k)
  nlink : ¬(s.node ip).nlink < 1
  empty : (s.node ip).type = T_DIR → ∀ j, 2 ≤ j → ((s.node ip).entry j).inum = 0
  holds : Holds [] s s'
  node : ∃ n, Frees (cleared s.node dp ip k) n ∧ Frees (dropped_link n ip) s'.node
  safe : Safe s' ip

/-- Clearing the entry. -/
theorem wp_sysUnlink_remove_ends {Q : Unit → Fs → Prop} {k : ℕ} (h : Consistent s₁)
    (hdp : Held s₁ dp) (hdir : (s₁.node dp).type = T_DIR)
    (hQ : ∀ s', Consistent s' → SameRefs s₁ s' →
      s'.node = Function.update s₁.node dp ((s₁.node dp).setEntry k ⟨0, []⟩) → Q ⟨⟩ s') :
    Wp NoDoubleFree (sysUnlink.remove dp (16 * k)) Q s₁ := by
  unfold sysUnlink.remove
  refine Wp.bind (wp_writei noDoubleFree_balloc h hdp.2 _ (16 * k)) ?_
  intro r s₂ hpost
  obtain ⟨hcons, hsame, hwrite⟩ := hpost
  rw [wp_ite]
  refine ⟨fun _ => noDoubleFree_panic (by decide), fun hr => ?_⟩
  rcases hwrite with ⟨hdev | hfail, -⟩ | ⟨-, -, hnode⟩
  · rw [← type_node, hdir] at hdev
    exact absurd hdev (by decide)
  · rw [hfail] at hr
    exact absurd (show (-1 : ℤ) ≠ 16 by decide) hr
  · exact hQ s₂ hcons hsame hnode

/-- Dropping the link that the entry was. -/
theorem wp_sysUnlink_drop_ends {Q : ℤ → Fs → Prop} {ip : ℕ} (h : Holds [ip, dp] s s₁)
    (hip : Held s₁ ip)
    (hQ : ∀ s', Holds [] s s' → Safe s' ip →
      (∃ n, Frees s₁.node n ∧ Frees (dropped_link n ip) s'.node) → Q 0 s') :
    Wp NoDoubleFree (sysUnlink.drop dp ip) Q s₁ := by
  unfold sysUnlink.drop
  refine Wp.bind (wp_iput h.consistent dp) ?_
  intro _ s₂ hputs
  have h₂ : Holds [ip] s s₂ := (h.perm (List.Perm.swap dp ip [])).put hputs
  have hip₂ : Held s₂ ip := by
    refine hputs.held (fun heq => ?_) hip
    subst heq
    have href := h.ref ip
    simp only [List.count_cons_self] at href
    omega
  refine wp_update_holds h₂ hip₂ (fun d => ⟨rfl, rfl, rfl⟩) fun s₃ _ h₃ hkeeps₃ hnode₃ => ?_
  have hnlink : (s₂.icache ip).copy.nlink = (s₂.node ip).nlink := by
    rw [h₂.consistent.node_valid hip₂.2]
  dsimp only at hnode₃
  rw [hnlink] at hnode₃
  refine Wp.bind (wp_iput h₃.consistent ip) ?_
  intro _ s₄ hputs₄
  refine hQ s₄ (h₃.put hputs₄) ?_ ⟨s₂.node, hputs.frees h.consistent, ?_⟩
  · exact hputs₄.safe h₃.consistent fun _ _ => hkeeps₃.held ip hip₂
  · rw [dropped_link, ← hnode₃]
    exact hputs₄.frees h₃.consistent

/-- The ways in which `sys_unlink` ends.

**Proof sketch.** The call may fail at the lookup of the parent, at one of the two dots, at a name
that is not there, or at a directory that is not empty; up to there it has taken references only,
and gives them back. Otherwise the entry is cleared, the counts go down, and the two inodes are put,
which frees the one removed if it was the last link. -/
theorem wp_sysUnlink_ends {Q : ℤ → Fs → Prop} (hs : Settled s) (p : ℕ) (path : List UInt8)
    (hfail : ∀ s', Took [] s s' → Q (-1) s')
    (hunlink : ∀ dp name ip k s', s.resolve p path true = some (dp, name) →
      Unlinked dp name ip k s s' → Q 0 s') :
    Wp NoDoubleFree (sysUnlink p path) Q s := by
  have hbad (dp : ℕ) (s₁ : Fs) (h₁ : Took [dp] s s₁) :
      Wp NoDoubleFree (sysUnlink.bad dp) Q s₁ := by
    unfold sysUnlink.bad
    rw [wp_bind]
    exact wp_put h₁ hfail
  unfold sysUnlink
  rw [wp_bind]
  refine wp_namex_took hs p path true (fun s₁ _ h₁ => hfail s₁ h₁) fun dp name s₁ hresolve h₁ => ?_
  obtain ⟨hdir, -, -⟩ := resolve_parent hresolve
  dsimp only
  rw [wp_bind]
  refine wp_lock h₁ fun s₂ h₂ _ hdp _ => ?_
  rw [wp_ite]
  refine ⟨fun _ => hbad dp s₂ h₂, fun hdots => ?_⟩
  rw [wp_bind]
  refine wp_lookup hs h₂ hdp (fun _ => hbad dp s₂ h₂) fun ip k s₃ hlookup h₃ hkeeps₃ => ?_
  dsimp only
  rw [wp_bind]
  refine wp_lock h₃ fun s₄ h₄ hkeeps₄ hip _ => ?_
  have hdp₄ := hkeeps₄.held dp (hkeeps₃.held dp hdp)
  have hdir₄ : (s₄.node dp).type = T_DIR := by rwa [h₄.node]
  rw [wp_bind, wp_get, wp_ite, wp_ite, h₄.nlink_copy hip, h₄.type_copy hip]
  refine ⟨fun _ => noDoubleFree_panic (by decide), fun hnlink => ⟨fun htype => ?_, fun htype => ?_⟩⟩
  · refine Wp.bind (wp_isdirempty h₄.consistent hip.2 (.inr allows_noDoubleFree)) ?_
    intro empty s₅ hpost
    obtain ⟨rfl, hempty⟩ := hpost
    rw [h₄.node] at hempty
    rw [wp_ite]
    refine ⟨fun he => ?_, fun _ => ?_⟩
    · rw [wp_bind]
      refine wp_sysUnlink_remove_ends h₄.consistent hdp₄ hdir₄ fun s₆ hcons hsame hnode₆ => ?_
      have h₆ := h₄.toHolds.same hcons hsame
      have hdp₆ := hsame.keeps.held dp hdp₄
      refine wp_update_holds h₆ hdp₆ (fun d => ⟨rfl, rfl, rfl⟩) fun s₇ _ h₇ hkeeps₇ hnode₇ => ?_
      refine wp_sysUnlink_drop_ends h₇ (hkeeps₇.held ip (hsame.keeps.held ip hip))
        fun s₈ h₈ hsafe hnode₈ => ?_
      have hcleared : cleared s.node dp ip k = s₇.node := by
        have hcount : (s₆.icache dp).copy.nlink = (s.node dp).nlink := by
          have hnd := h₆.consistent.node_valid hdp₆.2
          rw [hnode₆, Function.update_self, h₄.node] at hnd
          exact (congrArg Node.nlink hnd).symm
        rw [hnode₇, hnode₆, Function.update_idem, Function.update_self, h₄.node, hcount, cleared,
          childless, if_pos htype]
        rfl
      rw [← hcleared] at hnode₈
      exact hunlink dp name ip k s₈ hresolve ⟨hdir, not_or.mp hdots, hlookup, hnlink,
        fun _ => hempty.mp he, h₈, hnode₈, hsafe⟩
    · rw [wp_bind]
      exact wp_put h₄ fun s₆ h₆ => hbad dp s₆ h₆
  · rw [wp_bind]
    refine wp_sysUnlink_remove_ends h₄.consistent hdp₄ hdir₄ fun s₆ hcons hsame hnode₆ => ?_
    refine wp_sysUnlink_drop_ends (h₄.toHolds.same hcons hsame) (hsame.keeps.held ip hip)
      fun s₈ h₈ hsafe hnode₈ => ?_
    have hcleared : cleared s.node dp ip k = s₆.node := by
      rw [hnode₆, h₄.node, cleared, childless, if_neg htype]
    rw [← hcleared] at hnode₈
    exact hunlink dp name ip k s₈ hresolve ⟨hdir, not_or.mp hdots, hlookup, hnlink,
      fun hd => absurd hd htype, h₈, hnode₈, hsafe⟩

/-! ## Descriptors -/

/-- There is a free entry in the file table, and a free descriptor. -/
def Fs.HasRoom (s : Fs) (p : ℕ) : Prop :=
  (∃ f < NFILE, (s.ftable f).ref = 0) ∧ ∃ fd < NOFILE, s.ofile p fd = none

instance (s : Fs) (p : ℕ) : Decidable (s.HasRoom p) :=
  inferInstanceAs (Decidable ((∃ f, f < NFILE ∧ (s.ftable f).ref = 0) ∧
    ∃ fd, fd < NOFILE ∧ s.ofile p fd = none))

/-- The ways in which `sys_open` ends, from `filealloc` on.

**Proof sketch.** If the file table or the descriptor table is full, the inode is put and the call
fails, and then there is no room. Otherwise both entries are set up; an entry of the file table that
is free holds no inode, so that nothing else is affected. -/
theorem wp_openInode_ends {Q : ℤ → Fs → Prop} {p ip omode : ℕ} (h : Consistent s₁)
    (hclosed : ∀ f, (s₁.ftable f).ref = 0 → (s₁.ftable f).ip = none)
    (hfail : ∀ s', ¬s₁.HasRoom p → Puts ip s₁ s' → Q (-1) s')
    (hopen : ∀ f fd : ℕ, (s₁.ftable f).ref = 0 →
      (List.range NOFILE).find? (fun fd => (s₁.ofile p fd).isNone) = some fd →
      Q fd { s₁ with
        ftable := Function.update s₁.ftable f ⟨1, omode &&& O_WRONLY = 0,
          omode &&& O_WRONLY ≠ 0 ∨ omode &&& O_RDWR ≠ 0, some ip, 0⟩
        ofile := Function.update s₁.ofile p (Function.update (s₁.ofile p) fd (some f)) }) :
    Wp NoDoubleFree (openInode p ip omode) Q s₁ := by
  have hput (s₂ : Fs) (hs₂ : s₂ = s₁) (hroom : ¬s₁.HasRoom p) :
      Wp NoDoubleFree (do iput ip; pure (-1)) Q s₂ := by
    subst hs₂
    exact Wp.bind (wp_iput h ip) fun _ s' hputs => hfail s' hroom hputs
  unfold openInode filealloc
  rw [wp_bind, wp_bind, wp_get]
  split
  · next hfull =>
    refine hput s₁ rfl fun hroom => ?_
    obtain ⟨⟨f, hf, href⟩, -⟩ := hroom
    have hall := List.find?_eq_none.mp hfull f (List.mem_range.mpr hf)
    simp [href] at hall
  · next f hf =>
    have href : (s₁.ftable f).ref = 0 := by simpa using List.find?_some hf
    unfold modifyFile fdalloc
    rw [wp_bind, wp_modify, wp_pure]
    dsimp only
    rw [wp_bind, wp_bind, wp_get]
    split
    · next hfull =>
      have hroom : ¬s₁.HasRoom p := by
        rintro ⟨-, fd, hfd, hnone⟩
        have hall := List.find?_eq_none.mp hfull fd (List.mem_range.mpr hfd)
        simp [hnone] at hall
      have hfile : s₁.ftable f = ⟨0, (s₁.ftable f).readable, (s₁.ftable f).writable, none,
          (s₁.ftable f).off⟩ := by
        rw [← href, ← hclosed f href]
      -- the entry is taken and given back
      have hsame : { s₁ with
          ftable := Function.update (Function.update s₁.ftable f ⟨1, (s₁.ftable f).readable,
            (s₁.ftable f).writable, none, (s₁.ftable f).off⟩) f ⟨0, (s₁.ftable f).readable,
            (s₁.ftable f).writable, none, (s₁.ftable f).off⟩ } = s₁ := by
        rw [Function.update_idem, ← hfile, Function.update_eq_self]
      unfold fileclose modifyFile
      simp only [wp_bind, wp_get, wp_pure, Function.update_self, hclosed f href]
      rw [if_neg (by decide), if_neg (by decide)]
      simp only [wp_bind, wp_modify, Function.update_self, wp_pure]
      have hclose := hput _ hsame hroom
      simp only [wp_bind, wp_pure] at hclose
      exact hclose
    · next fd hfd =>
      unfold setFd
      simp only [wp_bind, wp_modify, wp_pure, Function.update_self, Function.update_idem]
      exact hopen f fd href hfd

end HgXv6.Disk
