import HgXv6.Kernel.Consistency

set_option relaxedAutoImplicit false
set_option autoImplicit false

/-!
# The contents of inodes

A file is the list of its bytes, wherever the blocks are that hold them. `readi` returns a part of
the list, and `writei` lays bytes over it; the contents of all other files stay what they are,
since no block is in two files.

## Main definitions

* `HgXv6.Disk.byteAt`, `HgXv6.Disk.contents` — the bytes of an inode.
* `HgXv6.Disk.Fs.node` — the files on the disk, by their i-numbers.
* `HgXv6.Disk.Written` — what the loop of `writei` leaves.

## Main results

* `HgXv6.Disk.wp_readi` — a read returns the bytes and changes nothing.
* `HgXv6.Disk.wp_writei` — what a write does to the contents of all inodes.
-/

namespace HgXv6.Disk

open Prog

variable {E : Stop → Prop} {s : Fs}

/-- The byte at a position of an inode. -/
def byteAt (inode : ℕ → Dinode) (data : ℕ → Data) (i o : ℕ) : UInt8 :=
  data (refs inode data (blockPlace i (o / BSIZE))) (o % BSIZE)

/-- The contents of an inode. -/
def contents (inode : ℕ → Dinode) (data : ℕ → Data) (i : ℕ) : List UInt8 :=
  firstOf (byteAt inode data i) (inode i).size

@[simp] theorem length_contents (inode : ℕ → Dinode) (data : ℕ → Data) (i : ℕ) :
    (contents inode data i).length = (inode i).size := length_firstOf ..

/-- The bytes are read through the references. -/
theorem byteAt_congr {inode inode' : ℕ → Dinode} {data data' : ℕ → Data}
    (hrefs : refs inode' data' = refs inode data) (hdata : data' = data) :
    byteAt inode' data' = byteAt inode data := by
  funext i o
  rw [byteAt, byteAt, hrefs, hdata]

/-- What is known of a file by its i-number. -/
structure Node where
  type : Int16
  nlink : Int16
  contents : List UInt8
deriving DecidableEq

/-- An inode that is not allocated. -/
def Node.free : Node := ⟨0, 0, []⟩

/-- The files on the disk. -/
def Fs.node (s : Fs) (i : ℕ) : Node :=
  if (s.dinode i).type = 0 then .free
  else ⟨(s.dinode i).type, (s.dinode i).nlink, contents s.dinode s.data i⟩

theorem node_of_type {i : ℕ} (h : (s.dinode i).type ≠ 0) :
    s.node i = ⟨(s.dinode i).type, (s.dinode i).nlink, contents s.dinode s.data i⟩ := if_neg h

@[simp] theorem type_node (s : Fs) (i : ℕ) : (s.node i).type = (s.dinode i).type := by
  unfold Fs.node
  split_ifs with h
  · exact h.symm
  · rfl

theorem node_eq_free {i : ℕ} (h : (s.dinode i).type = 0) : s.node i = .free := if_pos h

/-- The files depend on the disk alone. -/
theorem node_congr {s' : Fs} (hdinode : s'.dinode = s.dinode) (hdata : s'.data = s.data) :
    s'.node = s.node := by
  funext i
  rw [Fs.node, Fs.node, hdinode, hdata]

/-- A file depends on its inode and the data alone. -/
theorem byteAt_of_inode {inode inode' : ℕ → Dinode} {data : ℕ → Data} {i : ℕ}
    (h : inode' i = inode i) : byteAt inode' data i = byteAt inode data i := by
  funext o
  unfold byteAt blockPlace
  split_ifs with hdirect
  · simp only [refs, h]
  · simp only [refs, h]

/-- One file in two states of the disk. -/
theorem node_eq {s' : Fs} {i : ℕ} (hdinode : s'.dinode i = s.dinode i)
    (hbytes : (s.dinode i).type ≠ 0 → ∀ o < (s.dinode i).size,
      byteAt s'.dinode s'.data i o = byteAt s.dinode s.data i o) : s'.node i = s.node i := by
  unfold Fs.node
  rw [hdinode]
  split_ifs with htype
  · rfl
  · rw [contents, contents, hdinode, firstOf_congr (hbytes htype)]

/-! ## Reading -/

/-- A position within the block that another one is in. -/
theorem div_mod_add {off j : ℕ} (hj : j < BSIZE - off % BSIZE) :
    (off + j) / BSIZE = off / BSIZE ∧ (off + j) % BSIZE = off % BSIZE + j := by
  unfold BSIZE at *
  omega

/-- The loop of `readi` within a file without holes returns the bytes, and changes nothing. -/
theorem wp_readLoop {i : ℕ} (hv : (s.icache i).valid = true)
    (hdense : ∀ bn, bn * BSIZE < (s.icache i).copy.size → bn < MAXFILE ∧ s.blockAt i bn ≠ 0)
    (k n off : ℕ) (hk : n ≤ k) (hn : off + n ≤ (s.icache i).copy.size) :
    Wp E (readLoop i k n off) (fun bs s' =>
      bs = firstOf (fun j => byteAt s.inode s.data i (off + j)) n ∧ s' = s) s := by
  induction k generalizing n off with
  | zero =>
    obtain rfl : n = 0 := by omega
    exact ⟨rfl, rfl⟩
  | succ k ih =>
    unfold readLoop
    rw [wp_ite]
    refine ⟨fun hzero => ?_, fun hpos => ?_⟩
    · subst hzero
      exact ⟨rfl, rfl⟩
    have hblock := hdense (off / BSIZE)
      (lt_of_le_of_lt (Nat.div_mul_le_self off BSIZE) (by omega))
    refine Wp.bind (wp_bmap_of_ne hv hblock.1 hblock.2) ?_
    rintro b s' ⟨hb, rfl⟩
    rw [wp_bind, wp_get]
    set m := min n (BSIZE - off % BSIZE) with hm
    have hmod := Nat.mod_lt off (show 0 < BSIZE by decide)
    refine Wp.bind (ih (n - m) (off + m) (by omega) (by omega)) ?_
    rintro rest s'' ⟨hrest, rfl⟩
    refine ⟨?_, rfl⟩
    have hchunk : firstOf (fun j => s''.data b (off % BSIZE + j)) m =
        firstOf (fun j => byteAt s''.inode s''.data i (off + j)) m := by
      refine firstOf_congr fun j hj => ?_
      have hin : j < BSIZE - off % BSIZE := by omega
      obtain ⟨hdiv, hmod'⟩ := div_mod_add hin
      rw [byteAt, hdiv, hmod', hb]
      rfl
    rw [hchunk, hrest, show n = m + (n - m) by omega, firstOf_add, Nat.add_sub_cancel_left]
    simp only [Nat.add_assoc]

/-- A read of a file without holes returns a part of the contents, and changes nothing. It fails
on an offset that is not within the file. -/
theorem wp_readi_of_holeFree {i : ℕ} (hv : (s.icache i).valid = true)
    (hdev : (s.icache i).copy.type ≠ T_DEV) (hdense : HoleFree s.inode s.data i) (off n : ℕ) :
    Wp E (readi i off n) (fun r s' => s' = s ∧
      (r = none → (s.icache i).copy.size < off ∨ 2 ^ 32 ≤ off + n) ∧
      ∀ bs, r = some bs → bs = ((contents s.inode s.data i).drop off).take n) s := by
  have hinode := inode_of_valid hv
  unfold readi
  rw [wp_bind, wp_get]
  dsimp only
  rw [if_neg hdev, wp_ite]
  refine ⟨fun hbad => ⟨rfl, fun _ => ?_, by simp⟩, fun hoff => ?_⟩
  · have hmod : off + n < 2 ^ 32 → (off + n) % 2 ^ 32 = off + n := Nat.mod_eq_of_lt
    omega
  set m := if off + n > (s.icache i).copy.size then (s.icache i).copy.size - off else n with hm
  have hmin : m = min n ((s.icache i).copy.size - off) := by
    rw [hm]
    split_ifs
    · omega
    · omega
  refine Wp.bind (wp_readLoop hv (fun bn hbn => hdense bn (by rwa [hinode])) _ m off le_rfl
    (by omega)) ?_
  rintro bs s' ⟨rfl, rfl⟩
  refine ⟨rfl, by simp, fun bs hbs => ?_⟩
  obtain rfl := Option.some.inj hbs
  rw [contents, hinode, drop_firstOf, take_firstOf, hmin]

/-- A read returns a part of the contents, and changes nothing. It fails on a device and on an
offset that is not within the file.

**Proof sketch.** A device is not read here. For a file, consistency says that its copy in memory is
the one on the disk and that it has no holes, so that `wp_readi_of_holeFree` applies; its conditions
on the offset are those of the two tests at the start of `readi`. -/
theorem wp_readi {i : ℕ} (hblocked : (s.dinode i).type = T_DEV → E .blocked) (h : Consistent s)
    (hv : (s.icache i).valid = true) (off n : ℕ) :
    Wp E (readi i off n) (fun r s' => s' = s ∧
      (r = none → (s.dinode i).type = T_DEV ∨ (s.dinode i).size < off ∨ 2 ^ 32 ≤ off + n) ∧
      ∀ bs, r = some bs → bs = ((contents s.dinode s.data i).drop off).take n) s := by
  obtain ⟨hcopy, hne⟩ := h.cached i hv
  by_cases hdev : (s.dinode i).type = T_DEV
  · unfold readi
    rw [wp_bind, wp_get]
    dsimp only
    rw [hcopy, if_pos hdev, wp_ite]
    exact ⟨fun _ => hblocked hdev, fun _ => ⟨rfl, fun _ => .inl hdev, by simp⟩⟩
  · have hread := wp_readi_of_holeFree (E := E) hv (by rwa [hcopy])
      (by rw [h.inode_eq]; exact h.dense i hne) off n
    rw [h.inode_eq, hcopy] at hread
    exact hread.mono fun r s' hpost => ⟨hpost.1, fun hr => .inr (hpost.2.1 hr), hpost.2.2⟩

/-! ## Writing -/

/-- Data may be stored in a block of a file. -/
theorem Sound.setData (h : Sound s) {i bn : ℕ} (hb : s.blockAt i bn ≠ 0) (f : Data) :
    Sound (s.setData (s.blockAt i bn) f) ∧ Grows i s (s.setData (s.blockAt i bn) f) ∧
      ∀ i' bn', (s.setData (s.blockAt i bn) f).blockAt i' bn' = s.blockAt i' bn' := by
  have hrefs : refs (s.setData (s.blockAt i bn) f).inode (s.setData (s.blockAt i bn) f).data =
      refs s.inode s.data := refs_update_data f (h.blockAt_ne hb)
  refine ⟨⟨h.owned.congr hrefs rfl rfl, h.typed, h.free⟩,
    ⟨⟨rfl, rfl, rfl, rfl⟩, rfl, (Grows.refl i s).icache, fun p _ => by rw [hrefs]⟩,
    fun i' bn' => ?_⟩
  rw [Fs.blockAt, hrefs]
  rfl

/-- No other byte of a file changes. -/
theorem Sound.byteAt_setData (h : Sound s) {i bn : ℕ} (hb : s.blockAt i bn ≠ 0) (f : Data)
    (j o : ℕ) :
    byteAt (s.setData (s.blockAt i bn) f).inode (s.setData (s.blockAt i bn) f).data j o =
      if j = i ∧ o / BSIZE = bn then f (o % BSIZE) else byteAt s.inode s.data j o := by
  change (s.setData (s.blockAt i bn) f).data
    ((s.setData (s.blockAt i bn) f).blockAt j (o / BSIZE)) (o % BSIZE) = _
  rw [(h.setData hb f).2.2, Fs.setData]
  by_cases hplace : j = i ∧ o / BSIZE = bn
  · obtain ⟨rfl, rfl⟩ := hplace
    simp
  · rw [if_neg hplace]
    refine congrFun (Function.update_of_ne (fun heq => hplace ?_) ..) _
    exact blockPlace_inj (h.owned.owns.inj _ _ heq (by rw [← Fs.blockAt, heq]; exact hb))

/-- What the loop of `writei` leaves when it has written `src` at `off`: the file has a block at
every index up to the offset reached, and within the file nothing is allocated. -/
structure Written (i off : ℕ) (src : List UInt8) (s s' : Fs) : Prop where
  sound : Sound s'
  grows : Grows i s s'
  dense : ∀ bn, bn * BSIZE < max (s.icache i).copy.size (off + src.length) → s'.blockAt i bn ≠ 0
  bytes : ∀ o < max (s.icache i).copy.size (off + src.length),
    byteAt s'.inode s'.data i o = overlay (byteAt s.inode s.data i) off src o
  other : ∀ j o, j ≠ i → s.blockAt j (o / BSIZE) ≠ 0 →
    byteAt s'.inode s'.data j o = byteAt s.inode s.data j o
  within : off + src.length ≤ (s.icache i).copy.size → s'.icache = s.icache

variable {i off : ℕ} {src src' : List UInt8} {s₁ s₂ : Fs}

/-- Nothing is left to write. -/
theorem Written.nil (h : Sound s)
    (hdense : ∀ bn, bn * BSIZE < max (s.icache i).copy.size off → s.blockAt i bn ≠ 0) :
    Written i off [] s s where
  sound := h
  grows := Grows.refl i s
  dense := hdense
  bytes := fun o _ => by rw [overlay_nil]
  other := fun _ _ _ _ => rfl
  within := fun _ => rfl

/-- The size of the file in memory is not changed by the loop. -/
theorem Written.size (h : Written i off src s s₁) :
    (s₁.icache i).copy.size = (s.icache i).copy.size := by
  obtain ⟨addrs, hcopy⟩ := h.grows.copy
  rw [hcopy]

/-- Two writes one behind the other. -/
theorem Written.trans (h : Written i off src s s₁)
    (h' : Written i (off + src.length) src' s₁ s₂) : Written i off (src ++ src') s s₂ where
  sound := h'.sound
  grows := h.grows.trans h'.grows
  dense := by
    intro bn hbn
    refine h'.dense bn ?_
    rw [List.length_append] at hbn
    rw [h.size]
    omega
  bytes := by
    intro o ho
    rw [List.length_append] at ho
    rw [h'.bytes o (by rw [h.size]; omega), ← overlay_append]
    refine overlay_congr fun hout => h.bytes o ?_
    omega
  other := by
    intro j o hj hb
    rw [h'.other j o hj, h.other j o hj hb]
    rw [Fs.blockAt, h.grows.refs_eq _ hb]
    exact hb
  within := by
    intro hle
    rw [List.length_append] at hle
    rw [h'.within (by rw [h.size]; omega), h.within (by omega)]

/-- One pass: `bmap` and the store.

**Proof sketch.** After `bmap` the block of the offset is there, and whatever was there before is as
before. The store changes one block, which no other place names, so that the bytes of all other
files stay. Within the file, a byte in another block is outside the piece written, and a byte in the
block is before the piece, in it or behind it, where the overlay of the block is that of the file.
-/
theorem Written.pass {b m : ℕ} (hm : m = min src.length (BSIZE - off % BSIZE))
    (hpos : 0 < src.length)
    (hdense : ∀ bn, bn * BSIZE < max (s.icache i).copy.size off → s.blockAt i bn ≠ 0)
    (h : BmapPost i (off / BSIZE) s b s₁) :
    Written i off (src.take m) s
      (s₁.setData b (overlay (s₁.data b) (off % BSIZE) (src.take m))) := by
  obtain ⟨hsound, hgrows, hkeeps, rfl, hb, hsame⟩ := h
  have hlen : (src.take m).length = m := by
    rw [List.length_take]
    omega
  have hmod := Nat.mod_lt off (show 0 < BSIZE by decide)
  have hdiv := Nat.div_add_mod off BSIZE
  set f := overlay (s₁.data (s₁.blockAt i (off / BSIZE))) (off % BSIZE) (src.take m) with hf
  obtain ⟨hsound', hgrows', hblocks⟩ := hsound.setData hb f
  have hold (j o : ℕ) (hne : s.blockAt j (o / BSIZE) ≠ 0) :
      byteAt s₁.inode s₁.data j o = byteAt s.inode s.data j o := by
    change s₁.data (s₁.blockAt j (o / BSIZE)) _ = s.data (s.blockAt j (o / BSIZE)) _
    rw [show s₁.blockAt j (o / BSIZE) = s.blockAt j (o / BSIZE) from hgrows.refs_eq _ hne,
      hkeeps j _ hne]
  have hmapped (o : ℕ) (ho : o < (s.icache i).copy.size ∨ o < off) :
      s.blockAt i (o / BSIZE) ≠ 0 := by
    refine hdense _ (lt_of_le_of_lt (Nat.div_mul_le_self o BSIZE) ?_)
    omega
  refine ⟨hsound', hgrows.trans hgrows', fun bn hbn => ?_, fun o ho => ?_, fun j o hj hne => ?_,
    fun hle => ?_⟩
  · rw [hblocks]
    rw [hlen] at hbn
    by_cases hlast : bn = off / BSIZE
    · rw [hlast]
      exact hb
    · have hne : s.blockAt i bn ≠ 0 := by
        refine hdense bn ?_
        rcases Nat.lt_or_ge (bn * BSIZE) (s.icache i).copy.size with hlt | hge
        · omega
        · have hlt : bn < off / BSIZE := by
            unfold BSIZE at *
            omega
          unfold BSIZE at *
          omega
      rw [Fs.blockAt, hgrows.refs_eq _ hne]
      exact hne
  · rw [hsound.byteAt_setData hb]
    rw [hlen] at ho
    have hsplit := Nat.div_add_mod o BSIZE
    by_cases hbn : o / BSIZE = off / BSIZE
    · rw [if_pos ⟨rfl, hbn⟩, hf]
      rw [hbn] at hsplit
      rcases Nat.lt_or_ge o off with hlt | hge
      · rw [overlay_of_lt (by omega), overlay_of_lt hlt, ← hold i o (hmapped o (.inr hlt)), byteAt,
          hbn]
        rfl
      rcases Nat.lt_or_ge o (off + m) with hlt' | hge'
      · rw [overlay_of_mem (by omega) (by omega), overlay_of_mem hge (by omega)]
        congr 1
        omega
      · have hin : o < (s.icache i).copy.size := by omega
        rw [overlay_of_le (by omega), overlay_of_le (by omega), ← hold i o (hmapped o (.inl hin)),
          byteAt, hbn]
        rfl
    · rw [if_neg fun hand => hbn hand.2]
      have hout : o < off ∨ off + (src.take m).length ≤ o := by
        rw [hlen]
        unfold BSIZE at *
        omega
      have hne : s.blockAt i (o / BSIZE) ≠ 0 := by
        refine hmapped o ?_
        omega
      rw [hold i o hne]
      rcases hout with hlt | hge
      · rw [overlay_of_lt hlt]
      · rw [overlay_of_le hge]
  · rw [hsound.byteAt_setData hb, if_neg fun hand => hj hand.1, hold j o hne]
  · rw [hlen] at hle
    have hkeep : s₁ = s := hsame (hmapped off (.inl (by omega)))
    rw [← hkeep]
    rfl

/-- The loop of `writei`.

**Proof sketch.** Induction on the number of passes. A pass writes the piece up to the end of a
block (`Written.pass`), after which the file has a block at every index up to the new offset, as the
next pass requires. Two overlays one behind the other are the overlay with both pieces
(`Written.trans`). -/
theorem wp_writeLoop (hE : E (.panic "balloc: out of blocks")) (k : ℕ) (src : List UInt8)
    (off : ℕ) (s : Fs) (h : Sound s) (hv : (s.icache i).valid = true) (hk : src.length ≤ k)
    (hmax : off + src.length ≤ MAXFILE * BSIZE)
    (hdense : ∀ bn, bn * BSIZE < max (s.icache i).copy.size off → s.blockAt i bn ≠ 0) :
    Wp E (writeLoop i k src off) (fun off' s' => off' = off + src.length ∧ Written i off src s s')
      s := by
  induction k generalizing src off s with
  | zero =>
    obtain rfl : src = [] := List.length_eq_zero_iff.mp (by omega)
    exact ⟨rfl, Written.nil h hdense⟩
  | succ k ih =>
    unfold writeLoop
    rw [wp_ite]
    refine ⟨fun hnil => ?_, fun hne => ?_⟩
    · subst hnil
      exact ⟨rfl, Written.nil h hdense⟩
    have hpos : 0 < src.length := List.length_pos_of_ne_nil hne
    set m := min src.length (BSIZE - off % BSIZE) with hm
    have hlen : (src.take m).length = m := by
      rw [List.length_take]
      omega
    have hmod := Nat.mod_lt off (show 0 < BSIZE by decide)
    have hbn : off / BSIZE < MAXFILE := by
      refine Nat.div_lt_of_lt_mul ?_
      rw [Nat.mul_comm]
      omega
    refine Wp.bind (wp_bmap hE h hv hbn) ?_
    intro b s₁ hpost
    rw [wp_bind, wp_store]
    have hpass := Written.pass hm hpos hdense hpost
    set s₂ := s₁.setData b (overlay (s₁.data b) (off % BSIZE) (src.take m))
    refine (ih (src.drop m) (off + m) s₂ hpass.sound ((hpass.grows.valid i).2.trans hv)
      (by simp; omega) (by simp; omega) ?_).mono ?_
    · intro bn hbn'
      rw [hpass.size] at hbn'
      exact hpass.dense bn (by rwa [hlen])
    · intro off' s' hpost'
      obtain ⟨hoff', hwritten⟩ := hpost'
      refine ⟨?_, ?_⟩
      · rw [hoff', List.length_drop]
        omega
      · rw [← List.take_append_drop m src]
        refine hpass.trans ?_
        rw [hlen]
        exact hwritten

/-- Bytes laid over a file at an offset. -/
def Node.write (n : Node) (off : ℕ) (src : List UInt8) : Node :=
  { n with contents := n.contents.take off ++ src ++ n.contents.drop (off + src.length) }

/-- The files after a write, once the inode is on the disk. -/
theorem Written.node_eq (hw : Written i off src s s₁) (h : Consistent s)
    (hv : (s.icache i).valid = true) (hoff : off ≤ (s.dinode i).size)
    (hrefs : refs s₂.dinode s₂.data = refs s₁.inode s₁.data) (hdata : s₂.data = s₁.data)
    (hother : ∀ j, j ≠ i → s₂.dinode j = s.dinode j)
    (htype : (s₂.dinode i).type = (s.dinode i).type)
    (hnlink : (s₂.dinode i).nlink = (s.dinode i).nlink)
    (hsize : (s₂.dinode i).size = max (s.dinode i).size (off + src.length)) :
    s₂.node = Function.update s.node i ((s.node i).write off src) := by
  have hbyte := byteAt_congr hrefs hdata
  obtain ⟨hcopy, hne⟩ := h.cached i hv
  funext j
  by_cases hj : j = i
  · subst hj
    have hcontents : contents s₂.dinode s₂.data j = (contents s.dinode s.data j).take off ++ src ++
        (contents s.dinode s.data j).drop (off + src.length) :=
      calc contents s₂.dinode s₂.data j
          = firstOf (byteAt s₁.inode s₁.data j) (max (s.dinode j).size (off + src.length)) := by
            rw [contents, hsize, hbyte]
        _ = firstOf (overlay (byteAt s.dinode s.data j) off src)
              (max (s.dinode j).size (off + src.length)) :=
            firstOf_congr fun o ho => by rw [hw.bytes o (by rw [hcopy]; exact ho), h.inode_eq]
        _ = _ := firstOf_overlay _ _ hoff
    rw [Function.update_self, node_of_type hne, node_of_type (htype ▸ hne), htype, hnlink,
      Node.write, hcontents]
  · rw [Function.update_of_ne hj]
    refine Disk.node_eq (hother j hj) fun hj' o ho => ?_
    have hblock : s.blockAt j (o / BSIZE) ≠ 0 := by
      rw [Fs.blockAt, h.inode_eq]
      exact (h.dense j hj' (o / BSIZE) (lt_of_le_of_lt (Nat.div_mul_le_self o BSIZE) ho)).2
    rw [hbyte, hw.other j o hj hblock, h.inode_eq]

/-- The tests of `writei`, and what it does after its loop. -/
theorem wp_writei_of {Q : ℤ → Fs → Prop}
    (hdev : (s.icache i).copy.type = T_DEV → ∀ r, Q r s)
    (hbad : (s.icache i).copy.size < off ∨ MAXFILE * BSIZE < off + src.length → Q (-1) s)
    (hloop : off ≤ (s.icache i).copy.size → off + src.length ≤ MAXFILE * BSIZE →
      Wp E (writeLoop i src.length src off) (fun off' s' =>
        (src.length > 0 ∧ off' > (s.icache i).copy.size →
          Q src.length (s'.putInode i { (s'.icache i).copy with size := off' })) ∧
        (¬(src.length > 0 ∧ off' > (s.icache i).copy.size) → Q src.length s')) s) :
    Wp E (writei i src off) Q s := by
  unfold writei
  rw [wp_bind, wp_get]
  dsimp only
  rw [wp_ite, wp_ite, wp_ite]
  refine ⟨fun h => hdev h _, fun _ => ⟨fun hwrap => hbad ?_, fun hoff =>
    ⟨fun hbig => hbad (.inr hbig), fun hmax => ?_⟩⟩⟩
  · have hmod : off + src.length < 2 ^ 32 → (off + src.length) % 2 ^ 32 = off + src.length :=
      Nat.mod_eq_of_lt
    unfold MAXFILE NDIRECT NINDIRECT BSIZE
    omega
  · refine Wp.bind (hloop (by omega) (Nat.le_of_not_lt hmax)) fun off' s' hpost => ?_
    rw [wp_ite, wp_update, wp_pure, wp_pure]
    exact hpost

/-- A write keeps consistency, and it writes all of the bytes or changes nothing.

**Proof sketch.** A device, an offset behind the end and a file that would be too long are refused
before anything is changed. Otherwise the loop lays the bytes over the file (`wp_writeLoop`). If the
file has grown, its new size is stored and the inode written to the disk; if it has not, nothing was
allocated and the inode is the one on the disk still. In either case the disk is consistent again,
the file with the number `i` is the one with the bytes laid over it, and the others are as before.
-/
theorem wp_writei (hE : E (.panic "balloc: out of blocks")) (h : Consistent s)
    (hv : (s.icache i).valid = true) (src : List UInt8) (off : ℕ) :
    Wp E (writei i src off) (fun r s' => Consistent s' ∧ SameRefs s s' ∧
      (((s.dinode i).type = T_DEV ∨ r = -1) ∧ s' = s ∨
        r = src.length ∧ off ≤ (s.dinode i).size ∧
          s'.node = Function.update s.node i ((s.node i).write off src))) s := by
  obtain ⟨hcopy, -⟩ := h.cached i hv
  have hsame (r : ℤ) (hr : (s.dinode i).type = T_DEV ∨ r = -1) :
      Consistent s ∧ SameRefs s s ∧ (((s.dinode i).type = T_DEV ∨ r = -1) ∧ s = s ∨
        r = src.length ∧ off ≤ (s.dinode i).size ∧
          s.node = Function.update s.node i ((s.node i).write off src)) :=
    ⟨h, SameRefs.refl s, .inl ⟨hr, rfl⟩⟩
  refine wp_writei_of (fun hdev r => hsame r (.inl (by rwa [← hcopy])))
    (fun _ => hsame _ (.inr rfl)) fun hoff' hmax => ?_
  refine (wp_writeLoop hE _ src off s h.toSound hv le_rfl hmax fun bn hbn =>
    (h.blockAt_ne_zero hv (by omega)).2).mono ?_
  intro off' s' hpost
  obtain ⟨hlen, hw⟩ := hpost
  obtain ⟨hsound, hgrows, hdense, -, -, hin⟩ := id hw
  obtain ⟨addrs, haddrs⟩ := hgrows.icache
  have hv' : (s'.icache i).valid = true := (hgrows.valid i).2.trans hv
  have hother (j : ℕ) (hj : j ≠ i) : s'.icache j = s.icache j := by
    rw [haddrs, Function.update_of_ne hj]
  have hinode (j : ℕ) (hj : j ≠ i) : s'.inode j = s.dinode j := by
    rw [← h.inode_eq, Fs.inode, Fs.inode, hother j hj, hgrows.dinode]
  have hdense' (j : ℕ) (hj : j ≠ i) (htype : (s'.inode j).type ≠ 0) :
      HoleFree s'.inode s'.data j := by
    intro bn hbn
    rw [hinode j hj] at htype hbn
    obtain ⟨hbn', hne⟩ := h.dense j htype bn hbn
    rw [← h.inode_eq] at hne
    refine ⟨hbn', ?_⟩
    rw [hgrows.refs_eq _ hne]
    exact hne
  refine ⟨fun hgrown => ?_, fun hgrown => ?_⟩
  · have hslots : { (s'.icache i).copy with size := off' }.addrs = (s'.icache i).copy.addrs := rfl
    set t := s'.putInode i { (s'.icache i).copy with size := off' } with ht
    have hcons : Consistent t := by
      refine Sound.consistent ?_ ?_ ?_
      · exact hsound.putInode hv' hslots (hsound.typed i hv')
      · refine synced_putInode fun j hj hvj => ?_
        rw [hother j hj] at hvj ⊢
        rw [hgrows.dinode]
        exact (h.cached j hvj).1
      · intro j htype bn hbn
        rw [ht, refs_putInode hv' hslots]
        rw [ht, inode_putInode hv'] at htype hbn
        by_cases hj : j = i
        · subst hj
          rw [Function.update_self] at hbn
          replace hbn : bn * BSIZE < off' := hbn
          refine ⟨?_, hdense bn (by omega)⟩
          unfold BSIZE at *
          omega
        · rw [Function.update_of_ne hj] at htype hbn
          exact hdense' j hj htype bn hbn
    refine ⟨hcons, hgrows.sameRefs.trans (sameRefs_putInode i _ s'),
      .inr ⟨rfl, hcopy ▸ hoff', ?_⟩⟩
    have hti : t.dinode i = { s.dinode i with addrs := addrs, size := off' } := by
      rw [ht]
      simp [Fs.putInode, Fs.setDinode, haddrs, hcopy]
    refine hw.node_eq h hv (hcopy ▸ hoff') ?_ rfl (fun j hj => ?_) ?_ ?_ ?_
    · rw [← hcons.inode_eq]
      exact refs_putInode hv' hslots
    · rw [← hgrows.dinode]
      exact Function.update_of_ne hj ..
    · rw [hti]
    · rw [hti]
    · rw [hti, ← hcopy]
      change off' = _
      omega
  · have hkeep : s'.icache = s.icache := by
      refine hin ?_
      omega
    have hcons : Consistent s' := by
      refine hsound.consistent ?_ fun j htype => ?_
      · rw [hkeep, hgrows.dinode]
        exact fun j hj => (h.cached j hj).1
      · by_cases hj : j = i
        · subst hj
          intro bn hbn
          rw [inode_of_valid hv', hkeep] at hbn
          exact ⟨(h.blockAt_ne_zero hv hbn).1, hdense bn (by omega)⟩
        · exact hdense' j hj htype
    refine ⟨hcons, hgrows.sameRefs, .inr ⟨rfl, hcopy ▸ hoff', ?_⟩⟩
    refine hw.node_eq h hv (hcopy ▸ hoff') ?_ rfl (fun j _ => ?_) ?_ ?_ ?_
    · rw [hcons.inode_eq]
    all_goals rw [hgrows.dinode]
    rw [← hcopy]
    omega

end HgXv6.Disk
