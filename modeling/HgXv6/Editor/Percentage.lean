import HgXv6.Editor.Holes
import HgXv6.Editor.Reach
import HgXv6.Kernel.File

set_option relaxedAutoImplicit false
set_option autoImplicit false

/-!
# The percentage of Ctrl-G

Ctrl-G divides a hundred times the cursor's offset by the length of the text, in the arithmetic of
a 32-bit `int`. On an empty text, which is what an empty file and the deletion of the last
character leave, the division traps; and with the cursor behind the text, where deletions leave
it, the percentage can exceed a hundred.

## Main definitions

* `HgXv6.percentage` — what Ctrl-G computes.
* `HgXv6.PercentageOk` — it is computed, and lies between 0 and 100.
* `HgXv6.Config.Counts` — the steps after which it still is.

## Main results

* `HgXv6.showStatus_percentage` — the report of Ctrl-G prints it.
* `HgXv6.step_counted` — such a step leaves a text, and the cursor in it or just behind it.
* `HgXv6.percentage_run` — the percentage is right in every run of such steps.
-/

namespace HgXv6

open Prog

variable {W : Type} {sys : Sys W} {s t : Vi W} {x y : Config W} {b : ℤ}

/-! ## The computation -/

/-- `i = (dot-text)*100/(end-text);` in 32 bits; the division by zero traps. -/
def percentage (s : Vi W) : Except Stop ℤ :=
  if s.endp = 0 then .error .trap else .ok ((Int.bmod (s.dot * 100) (2 ^ 32)).tdiv s.endp)

/-- Ctrl-G computes a percentage between 0 and 100. -/
def PercentageOk (s : Vi W) : Prop := ∃ i, percentage s = .ok i ∧ 0 ≤ i ∧ i ≤ 100

/-- Without an overflow the product is exact. -/
theorem bmod_of_lt {a : ℤ} (h0 : 0 ≤ a) (h : a < 2 ^ 31) : Int.bmod a (2 ^ 32) = a := by
  rw [Int.bmod_eq_emod_of_lt (by omega)]
  omega

/-- The report of Ctrl-G prints the percentage. -/
theorem showStatus_percentage (h0 : 0 ≤ s.dot) (h : s.dot * 100 < 2 ^ 31) :
    showStatus s = percentage s >>= fun i => printReport
      (s.cfn.getD (str "(null)") ++ chr ' ' :: printint s.dot ++ chr '/' :: printint s.endp ++
        str " : " ++ printint i ++ str "% has readed") s := by
  unfold showStatus percentage
  rw [bmod_of_lt (by omega) h]
  split_ifs
  · rfl
  · rfl

/-! ## The invariant -/

/-- There is a text, and the cursor is in it or so little behind it that the percentage is right. -/
structure Counted (s : Vi W) : Prop where
  pos : 0 < s.endp
  dot_nonneg : 0 ≤ s.dot
  dot_lt : s.dot * 100 < 101 * s.endp
  top : 0 ≤ s.screenbegin

/-- The text is no longer than the buffer, which has the size `b`. -/
def Stored (b : ℤ) (s : Vi W) : Prop := s.textend = b ∧ s.endp ≤ b

/-- In a buffer of moderate size the percentage is right. -/
theorem Counted.percentageOk (h : Counted s) (hs : Stored b s) (hb : 101 * b < 2 ^ 31) :
    PercentageOk s := by
  obtain ⟨hpos, h0, hlt, -⟩ := h
  have hend := hs.2
  have hexact := bmod_of_lt (a := s.dot * 100) (by omega) (by omega)
  refine ⟨s.dot * 100 / s.endp, ?_, Int.ediv_nonneg (by omega) hpos.le, ?_⟩
  · rw [percentage, if_neg hpos.ne', hexact, Int.tdiv_eq_ediv_of_nonneg (by omega)]
  · have := Int.ediv_lt_of_lt_mul hpos hlt
    omega

/-- The invariant as one on the places behind the text. -/
theorem Counted.near (h : Counted s) : Near (max 0 (s.dot - s.endp)) s.endp s where
  slack := le_max_left _ _
  pos := h.pos
  dot_nonneg := h.dot_nonneg
  dot_le := by omega
  top := h.top
  endp := le_rfl

/-- A command that takes the cursor no further behind the text keeps the invariant. -/
theorem Counted.of_near (h : Counted s) (ht : Near (max 0 (s.dot - s.endp)) s.endp t) :
    Counted t := by
  have hpos := h.pos
  have hlt := h.dot_lt
  have hend := ht.endp
  have hdot := ht.dot_le
  exact ⟨by omega, ht.dot_nonneg, by omega, ht.top⟩

theorem synchronize_counted {fuel : ℕ} (h : Counted s) (ht : synchronize fuel s = .ok t) :
    Counted t :=
  h.of_near (synchronize_near h.near fuel t ht)

/-! ## The buffer -/

theorem Stored.makeHoleAdd (h : Stored b s) (p : ℤ) (n : ℕ) :
    Stored b (HgXv6.makeHoleAdd p n s) := by
  obtain ⟨hb, hle⟩ := h
  unfold HgXv6.makeHoleAdd
  split_ifs
  · exact ⟨hb, hle⟩
  · exact ⟨hb, by dsimp only; omega⟩

theorem Stored.makeHoleDelete (h : Stored b s) {p q : ℤ} (hpq : p ≤ q) :
    Stored b (HgXv6.makeHoleDelete p q s) := by
  refine ⟨h.1, ?_⟩
  have := h.2
  rw [makeHoleDelete_endp hpq]
  omega

theorem Stored.moves (h : Stored b s) (hm : Moves s t) : Stored b t := by
  obtain ⟨_, _, rfl, -⟩ := hm
  exact h

theorem Stored.store (h : Stored b s) (p : ℤ) (c : UInt8) : Stored b (HgXv6.store p c s) := h

theorem Stored.typeText (h : Stored b s) (c : UInt8) : Stored b (HgXv6.typeText c s) :=
  ((h.makeHoleAdd s.dot 1).store _ c).moves (dotIncrease_moves _)

theorem Stored.overText (h : Stored b s) (c : UInt8) : Stored b (HgXv6.overText c s) :=
  Stored.moves (s := HgXv6.store s.dot c { s with hasChanged := true }) h (dotIncrease_moves _)

theorem Stored.openBelow (h : Stored b s) : Stored b (HgXv6.openBelow s) :=
  ((h.makeHoleAdd _ 1).store _ NL).moves (dotNextLine_moves _)

/-- No step makes the text longer than the buffer. -/
theorem Effect.stored {m : May} (h : Effect m s t) (hs : Stored b s) : Stored b t := by
  cases h with
  | move hm h => exact hs.moves h
  | lastRow h => exact hs
  | spill h => exact hs
  | redraw hset h =>
    obtain ⟨_, _, _, rfl⟩ := redraw_viewed h
    exact hs
  | synchronize h =>
    obtain ⟨_, _, _, rfl⟩ := synchronize_viewed h
    exact hs
  | findChar => exact hs
  | pattern h => exact hs
  | jump h hp => exact hs
  | change => exact hs
  | @typed _ _ c _ hc h =>
    obtain ⟨_, _, rfl, -⟩ := redraw_synchronize_ensures _ _ t h
    exact hs.typeText c
  | @overtyped _ _ c hm hc h =>
    obtain ⟨_, _, rfl, -⟩ := redraw_ensures _ _ t h
    exact hs.overText c
  | opened hl h =>
    obtain ⟨_, _, rfl, -⟩ := redraw_synchronize_ensures _ _ _ h
    rcases hl with rfl | rfl
    · exact hs.openBelow
    · exact hs.makeHoleAdd _ 1
  | file _ h => exact hs

/-- Nor does an edit. -/
theorem Stored.edit (h : Stored b s) {cmd : Cmd} {f : Vi W → Vi W} (hf : cmd.edit = some f) :
    Stored b (f s) := by
  have h' : Stored b { s with hasChanged := true } := h
  cases cmd with
  | toggle => cases hf; exact (h'.store s.dot _).moves (dotIncrease_moves _)
  | join => cases hf; exact h'.makeHoleDelete le_rfl
  | deleteTail =>
    cases hf
    unfold HgXv6.deleteTail
    dsimp only
    split_ifs with hd
    · exact h'.makeHoleDelete hd
    · exact h
  | indent => cases hf; exact h'.makeHoleAdd _ 1
  | unindent =>
    cases hf
    unfold HgXv6.unindent
    dsimp only
    split_ifs
    · exact h'.makeHoleDelete le_rfl
    · exact h
  | _ => cases hf

/-- No pass makes the text longer than the buffer. -/
theorem step_stored (h : Step sys x y) (hx : Paused x.vi) (hs : Stored b x.vi) :
    Stored b y.vi := by
  obtain ⟨fuel, r, ks, u, v, hp⟩ := step_cases h
  obtain ⟨_, _, _, hy⟩ := synchronize_viewed hp.sync
  obtain ⟨c, hu, -⟩ := hp.start
  have hu' : Stored b u := by
    rw [hu]
    exact hs
  have hv : Stored b v := by
    rcases execCmd_cases sys fuel _ ks (hp.paused hx) _ hp.exec with h | ⟨f, hf, h⟩ | ⟨-, -, h⟩
    · exact h.preserves (fun _ _ h hs => h.stored hs) (fun _ _ _ hs => hs) hu'
    · obtain ⟨-, rfl⟩ := Prod.mk.inj h
      exact hu'.edit hf
    · obtain ⟨_, _, rfl, -⟩ := dotDelete_ensures fuel _ v h
      exact Stored.makeHoleDelete (s := { u with hasChanged := true }) hu' le_rfl
  rw [hy]
  exact hv

/-! ## Deletions -/

/-- One character deleted, if the percentage is right afterwards. -/
theorem Counted.deleteOne (h : Counted s) (p : ℤ) (h2 : 2 ≤ s.endp)
    (hlt : s.dot * 100 < 101 * (s.endp - 1)) :
    Counted (makeHoleDelete p p { s with hasChanged := true }) := by
  have hend := makeHoleDelete_endp (le_refl p) { s with hasChanged := true }
  dsimp only at hend
  exact ⟨by omega, h.dot_nonneg, by rw [hend]; exact hlt.trans_le (by omega), h.top⟩

/-- `D` leaves the cursor's character or the one behind those it deletes. -/
theorem Counted.deleteTail (h : Counted s) : Counted (HgXv6.deleteTail s) := by
  have h0 := h.dot_nonneg
  unfold HgXv6.deleteTail
  dsimp only
  split_ifs with hd
  · have hle : endLine s.mem s.endp s.dot ≤ s.endp - 1 := by
      rcases endLine_or s.mem s.endp s.dot with heq | hle
      · omega
      · exact hle
    have hend := makeHoleDelete_endp hd { s with hasChanged := true }
    dsimp only at hend
    exact ⟨by omega, h0, by rw [hend]; show s.dot * 100 < _; omega, h.top⟩
  · exact h

/-- The next command is no deletion that leaves no text, or the cursor too far behind it, and no
search that leaves the text. -/
def Config.Counts (x : Config W) : Prop :=
  ∀ r ks, x.keys = r :: ks → SearchInside (keyCmd (r.into x.c)) ks x.vi ∧
    (Deletes (keyCmd (r.into x.c)) x.vi →
      2 ≤ x.vi.endp ∧ x.vi.dot * 100 < 101 * (x.vi.endp - 1))

/-- Such a command keeps the invariant. -/
theorem execCmd_counted (h : Counted s) (hp : Paused s) {cmd : Cmd} {ks : List Read}
    (hsearch : SearchInside cmd ks s)
    (hdel : Deletes cmd s → 2 ≤ s.endp ∧ s.dot * 100 < 101 * (s.endp - 1)) (fuel : ℕ) :
    Ensures (execCmd sys fuel cmd ks s) fun r => Counted r.2 := by
  by_cases hd : Deletes cmd s
  · obtain ⟨h2, hlt⟩ := hdel hd
    cases cmd with
    | deleteChar =>
      refine Ensures.bind (P := Counted) ?_ fun t ht => (ensures_ok _ _).mpr ht
      have hcounted := h.deleteOne s.dot h2 hlt
      exact fun t ht => hcounted.of_near (redraw_near hcounted.near fuel t ht)
    | join => exact (ensures_ok _ _).mpr (h.deleteOne _ h2 hlt)
    | unindent =>
      have htab : s.mem (beginLine s.mem s.dot) = TAB := hd
      have hdelete := h.deleteOne (beginLine s.mem s.dot) h2 hlt
      refine (ensures_ok _ _).mpr ?_
      simp only [unindent, if_pos htab]
      exact hdelete
    | _ => exact absurd hd id
  · by_cases htail : cmd = .deleteTail
    · subst htail
      exact (ensures_ok _ _).mpr h.deleteTail
    · exact fun r hr => h.of_near (execCmd_near h.near hp.settled.le hd htail hsearch fuel r hr)

/-! ## Runs -/

/-- Such a pass keeps the invariant. -/
theorem step_counted (h : Step sys x y) (hc : x.Counts) (hx : Paused x.vi) (hs : Counted x.vi) :
    Counted y.vi := by
  obtain ⟨fuel, r, ks, u, v, hp⟩ := step_cases h
  obtain ⟨hsearch, hdel⟩ := hc r ks hp.keys
  obtain ⟨c, rfl, -⟩ := hp.start
  have hu : Counted { x.vi.act (.exec (r.into x.c)) with cga := c } :=
    ⟨hs.pos, hs.dot_nonneg, hs.dot_lt, hs.top⟩
  have hv := execCmd_counted hu (hp.paused hx) hsearch hdel fuel _ hp.exec
  exact synchronize_counted hv hp.sync

/-- The state in which the main loop is entered with a file that is not empty. -/
theorem Opens.counted {fn : List UInt8} (h : Opens sys fn s) (hne : 0 < s.endp) :
    Counted s ∧ Stored s.textend s := by
  have hvalid := h.valid.1
  have hdot : s.dot = 0 := by
    obtain ⟨_, _, _, _, _, -, _, _, rfl, -⟩ := h.cases
    rfl
  exact ⟨⟨hne, hdot.ge, by omega, hvalid.screenbegin_nonneg⟩, rfl, hvalid.endp_le⟩

/-- The buffer of a file that is no longer than `n`. -/
theorem Opens.textend_le {fn : List UInt8} {n : ℤ} (h : Opens sys fn s) (hn : 5120 ≤ n)
    (hsize : s.endp ≤ n) : s.textend ≤ 2 * n := by
  obtain ⟨m, cga, w, cnt, content, -, b, c, rfl, -⟩ := h.cases
  have hend : (opened m fn cnt content cga w).endp = cnt := rfl
  have htextend : (opened m fn cnt content cga w).textend =
      if (cnt : ℤ) * 2 < 10240 then (10240 : ℤ) else (cnt : ℤ) * 2 := by simp only [opened]
  dsimp only at hsize ⊢
  rw [htextend]
  split_ifs <;> omega

/-- **The percentage.** In every run from a file that is not empty, in which no deletion leaves no
text or the cursor too far behind it and no search leaves the text, Ctrl-G computes a percentage
between 0 and 100.

**Proof sketch.** The cursor is on a character of a text that is not empty when the main loop is
entered (`Opens.counted`), and each step of such a command keeps this (`step_counted`). The text
fits in its buffer along the run (`step_stored`), and the buffer is so small that the product with
100 does not overflow. -/
theorem percentage_run {fn : List UInt8} {ks : List Read} (hs : Opens sys fn s)
    (hne : 0 < s.endp) (hsize : s.endp ≤ MAXFILE * BSIZE)
    (h : RunIf sys Config.Counts ⟨none, ks, s⟩ y) : PercentageOk y.vi := by
  obtain ⟨hcounted, hstored⟩ := hs.counted hne
  have hbuffer := hs.textend_le (n := MAXFILE * BSIZE) (by decide) hsize
  obtain ⟨-, hcounted', hstored'⟩ := RunIf.preserves
    (P := fun y => Paused y.vi ∧ Counted y.vi ∧ Stored s.textend y.vi) h
    (fun x y hstep hc hx => ⟨step_paused hstep hx.1, step_counted hstep hc hx.1 hx.2.1,
      step_stored hstep hx.1 hx.2.2⟩)
    ⟨hs.paused, hcounted, hstored⟩
  refine hcounted'.percentageOk hstored' ?_
  unfold MAXFILE NDIRECT NINDIRECT BSIZE at hbuffer
  omega

/-- `percentage_run` for `x` on the first character of a file of two. -/
theorem percentage_run_delete : ∃ s y, Opens (readOnly (str "ab")) (str "f") s ∧
    RunIf (readOnly (str "ab")) Config.Counts ⟨none, [.byte (chr 'x')], s⟩ y ∧
    PercentageOk y.vi := by
  obtain ⟨s, y, hs, hy, hf⟩ := session_run (readOnly (str "ab")) 20 1 (str "f")
    [.byte (chr 'x')] () (P := fun s _ => s.editing = true ∧ s.dot = 0 ∧ s.endp = 2)
    (by decide +kernel)
  obtain ⟨hed, hdot, hend⟩ := hf
  have hcounts : Config.Counts ⟨none, [.byte (chr 'x')], s⟩ := by
    rintro r ks ⟨⟩
    refine ⟨fun h => h.elim, fun _ => ?_⟩
    dsimp only
    omega
  have hrun : RunIf (readOnly (str "ab")) Config.Counts ⟨none, [.byte (chr 'x')], s⟩ y :=
    .single ⟨mainRun_step hed hy, hcounts⟩
  have hsize : s.endp ≤ MAXFILE * BSIZE := by
    unfold MAXFILE NDIRECT NINDIRECT BSIZE
    omega
  exact ⟨s, y, hs, hrun, percentage_run hs (by omega) hsize hrun⟩

/-- When `x` has deleted the only character, Ctrl-G traps. -/
theorem not_forall_percentageOk : ¬∀ (fn content : List UInt8) (s : Vi Unit) (ks : List Read)
    (y : Config Unit), Opens (readOnly content) fn s →
    Run (readOnly content) ⟨none, ks, s⟩ y → PercentageOk y.vi := by
  intro hall
  obtain ⟨s, y, hs, hy, hend⟩ := session_run (readOnly (str "a")) 20 1 (str "f")
    [.byte (chr 'x')] () (P := fun _ y => y.vi.endp = 0) (by decide +kernel)
  obtain ⟨i, hi, -⟩ := hall _ _ s _ y hs (mainRun_run hy)
  rw [percentage, if_pos hend] at hi
  cases hi

end HgXv6
