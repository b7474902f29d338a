import HgXv6.Editor.Sync

set_option relaxedAutoImplicit false
set_option autoImplicit false

/-!
# Searching

A search compares the pattern with the text at one place after another, turns round at the edge of
the text, and goes on from its other end up to the cursor. It steps before it compares, also after
it has turned round, so that it never looks at the place where it turns to; and in a text of one
character it steps over the edge, where nothing stops it.

Both searches are treated at once. The places of the text are counted in the direction of the
search, from the one it turns to; counted so, both go upwards.

## Main definitions

* `HgXv6.Occurs` — the pattern occurs in the text at a place.
* `HgXv6.Direction.at`, `HgXv6.Direction.Sweeps` — the places of the text in the order of a search.
* `HgXv6.searchRecord` — a search, with a record of the bytes of the text it compares.
* `HgXv6.FindsIn`, `HgXv6.FitsIn` — a search returns the first occurrence; the condition for it.

## Main results

* `HgXv6.equal_iff_occurs` — a comparison sees an occurrence.
* `HgXv6.turn_returns`, `HgXv6.turn_fits` — the drawing when the search turns round.
* `HgXv6.finds_first`, `HgXv6.FindsIn.fits` — the condition is enough, and necessary.
-/

namespace HgXv6

open Prog

variable {W : Type}

/-! ## Occurrences -/

/-- The pattern occurs at the place `p` of the text. -/
def Occurs (m : ℤ → UInt8) (e : ℤ) (pat : List UInt8) (p : ℤ) : Prop :=
  0 ≤ p ∧ p + pat.length ≤ e ∧ bytes m p pat.length = pat

/-- How far behind the cursor a place is, in the order in which a search visits the text: the
places after the cursor first, then those from the start of the text up to it. -/
def rank (e dot q : ℤ) : ℤ := if dot < q then q - dot - 1 else q + (e - dot - 1)

/-- The addresses that `equal` reads. -/
def equalReads (m : ℤ → UInt8) : ℤ → List UInt8 → List ℤ
  | _, [] => []
  | p, c :: s => p :: if m p = c then equalReads m (p + 1) s else []

/-- A comparison is one of the bytes from the pointer on. -/
theorem equal_iff (m : ℤ → UInt8) (p : ℤ) (pat : List UInt8) :
    equal m p pat = true ↔ bytes m p pat.length = pat := by
  induction pat generalizing p with
  | nil => simp [equal]
  | cons c pat ih =>
    rw [List.length_cons, bytes_succ', List.cons.injEq, ← ih, equal, Bool.and_eq_true, beq_iff_eq]

section Text

variable {m : ℤ → UInt8} {e : ℤ} {pat : List UInt8}

/-- With a NUL behind the text, a comparison at a place of the text sees an occurrence in it. -/
theorem equal_iff_occurs (hnul : m e = NUL) (hpat : NUL ∉ pat) {p : ℤ} (h0 : 0 ≤ p) (hp : p ≤ e) :
    equal m p pat = true ↔ Occurs m e pat p := by
  rw [equal_iff]
  refine ⟨fun h => ⟨h0, ?_, h⟩, fun h => h.2.2⟩
  by_contra hlt
  have hmem : m e ∈ bytes m p pat.length := by
    have hget := getElem_bytes m p pat.length (e - p).toNat (by rw [length_bytes]; omega)
    rw [show p + ((e - p).toNat : ℤ) = e by omega] at hget
    rw [← hget]
    exact List.getElem_mem _
  rw [h, hnul] at hmem
  exact hpat hmem

/-- A comparison stops at the NUL behind the text. -/
theorem equalReads_mem (hnul : m e = NUL) (hpat : NUL ∉ pat) {p : ℤ} (hp : p ≤ e) {a : ℤ}
    (ha : a ∈ equalReads m p pat) : p ≤ a ∧ a ≤ e := by
  induction pat generalizing p with
  | nil => simp [equalReads] at ha
  | cons c pat ih =>
    simp only [List.mem_cons, not_or] at hpat
    simp only [equalReads, List.mem_cons] at ha
    rcases ha with rfl | ha
    · exact ⟨le_rfl, hp⟩
    split_ifs at ha with hc
    · have hne : p ≠ e := by
        rintro rfl
        exact hpat.1 (hnul ▸ hc)
      have := ih hpat.2 (by omega) ha
      omega
    · simp at ha

/-- A pattern that is not empty does not occur at the end of the text. -/
theorem Occurs.lt (hne : pat ≠ []) {p : ℤ} (h : Occurs m e pat p) : p < e := by
  have hlen := List.length_pos_iff.mpr hne
  have := h.2.1
  omega

end Text

/-! ## The places of the text in the order of a search -/

/-- The place that lies `k` steps behind the one to which a search turns. -/
def Direction.at (dir : Direction) (e k : ℤ) : ℤ := dir.restart e + dir.step * k

/-- A search goes through the places of the text and turns at the last one; and counting twice in
its direction is counting from the start. -/
structure Direction.Sweeps (dir : Direction) : Prop where
  edge : ∀ e, dir.edge e = dir.at e (e - 1)
  at_at : ∀ e k, dir.at e (dir.at e k) = k
  bounds : ∀ e k, 0 ≤ k → k ≤ e - 1 → 0 ≤ dir.at e k ∧ dir.at e k ≤ e - 1
  msg : RowFits dir.msg (24 * 80)

/-- Forward, the places are counted from the start of the text. -/
@[simp] theorem forward_at (e k : ℤ) : forward.at e k = k := by
  simp [Direction.at, forward]

/-- Backward, they are counted from the last character. -/
@[simp] theorem backward_at (e k : ℤ) : backward.at e k = e - 1 - k := by
  simp only [Direction.at, backward]
  ring

theorem forward_sweeps : forward.Sweeps where
  edge e := (forward_at e _).symm
  at_at e k := by simp
  bounds e k h0 hk := by simp [h0, hk]
  msg := by decide

theorem backward_sweeps : backward.Sweeps where
  edge e := by
    rw [backward_at, sub_self]
    rfl
  at_at e k := by simp
  bounds e k h0 hk := by
    rw [backward_at]
    omega
  msg := by decide

/-- The count of the cursor's place. -/
def Direction.cursor (dir : Direction) (s : Vi W) : ℤ := dir.at s.endp s.dot

/-- The next place. -/
theorem Direction.at_succ (dir : Direction) (e k : ℤ) :
    dir.at e k + dir.step = dir.at e (k + 1) := by
  unfold Direction.at
  ring

/-- Different counts are different places. -/
theorem Direction.Sweeps.at_inj {dir : Direction} (h : dir.Sweeps) {e j k : ℤ} :
    dir.at e j = dir.at e k ↔ j = k := by
  refine ⟨fun heq => ?_, congrArg _⟩
  rw [← h.at_at e j, heq, h.at_at]

/-! ## The search -/

/-- The bytes of the text that one pass of a search compares. -/
def passReads (dir : Direction) (pat : List UInt8) (x : Vi W × ℤ × ℕ) : List ℤ :=
  if x.2.1 = dir.edge x.1.endp ∧ x.2.2 = 1 then []
  else equalReads x.1.mem
    ((if x.2.1 = dir.edge x.1.endp then dir.restart x.1.endp else x.2.1) + dir.step) pat

/-- One pass of a search, with a record of what has been compared. -/
def recordBody (fuel : ℕ) (dir : Direction) (pat : List UInt8)
    (y : (Vi W × ℤ × ℕ) × List ℤ) : Except Stop (((Vi W × ℤ × ℕ) × List ℤ) × Bool) :=
  searchBody fuel dir pat y.1 >>= fun r =>
    .ok ((r.1, y.2 ++ passReads dir pat y.1), r.2)

/-- A search: the pointer it returns, and the bytes of the text it has compared. -/
def searchRecord (fuel : ℕ) (dir : Direction) (pat : List UInt8) (s : Vi W) :
    Except Stop (ℤ × Vi W × List ℤ) :=
  loopFuel .loops (recordBody fuel dir pat) fuel ((s, s.dot, 0), []) >>= fun y =>
    .ok (y.1.2.1, y.1.1, y.2)

/-- It is the search of the editor, less the record. -/
theorem search_eq_record (fuel : ℕ) (dir : Direction) (pat : List UInt8) (s : Vi W) :
    search fuel dir pat s = searchRecord fuel dir pat s >>= fun r => .ok (r.1, r.2.1) := by
  have hrec := loopFuel_record (e := Stop.loops) (searchBody fuel dir pat)
    (fun x l => l ++ passReads dir pat x) fuel (s, s.dot, 0) []
  unfold search searchRecord recordBody
  rw [← hrec]
  simp only [bind_assoc, ok_bind]

/-- `p` is the first occurrence behind the cursor, in the order of the search, or the cursor if
there is none. -/
def FirstIn (dir : Direction) (pat : List UInt8) (s : Vi W) (p : ℤ) : Prop :=
  Occurs s.mem s.endp pat p ∧ (∀ q, Occurs s.mem s.endp pat q →
      rank s.endp (dir.cursor s) (dir.at s.endp p) ≤
        rank s.endp (dir.cursor s) (dir.at s.endp q)) ∨
    (∀ q, ¬Occurs s.mem s.endp pat q) ∧ p = s.dot

/-- The search returns the first occurrence behind the cursor, and compares only bytes of the text
and the NUL behind it. -/
def FindsIn (dir : Direction) (pat : List UInt8) (s : Vi W) : Prop :=
  ∃ p t reads, Returns (fun fuel => searchRecord fuel dir pat s) (p, t, reads) ∧
    FirstIn dir pat s p ∧ ∀ a ∈ reads, 0 ≤ a ∧ a ≤ s.endp

/-- The pattern occurs at the place with the count `k`. -/
def Hit (dir : Direction) (pat : List UInt8) (s : Vi W) (k : ℤ) : Prop :=
  Occurs s.mem s.endp pat (dir.at s.endp k)

/-- The text has at least two characters; and the pattern occurs behind the cursor, or the screen
can be redrawn when the search turns round, and, unless the cursor is on the place it turns to, the
pattern does not occur there. -/
def FitsIn (dir : Direction) (pat : List UInt8) (s : Vi W) : Prop :=
  2 ≤ s.endp ∧ ((∃ k, dir.cursor s < k ∧ Hit dir pat s k) ∨
    ScreenFits s.mem s.endp s.dot s.screenbegin ∧ (dir.cursor s = 0 ∨ ¬Hit dir pat s 0))

/-! ## Turning round -/

/-- What a search draws when it turns round. -/
def turn (dir : Direction) (fuel : ℕ) (s : Vi W) : Except Stop (Vi W) :=
  printOnStatusLine dir.msg s >>= synchronize fuel >>= redraw fuel

/-- From `s` to `t` only the view has changed, and the editor is as ready to draw as before. -/
structure TurnedRound (s t : Vi W) : Prop where
  viewed : Viewed s t
  typing : Typing t
  pos : t.cga.pos < 25 * 80

section Turn

variable {dir : Direction} {s : Vi W}

/-- The drawing returns if the text can be drawn.

**Proof sketch.** The message is short enough for the last row. The synchronisation returns by the
condition and leaves the window adjusted, so that the redraw behind it finds its window where it is
and draws the same text once more. -/
theorem turn_returns (hdir : dir.Sweeps) (h : Typing s) (hpos : s.cga.pos < 25 * 80)
    (hfits : ScreenFits s.mem s.endp s.dot s.screenbegin) :
    ∃ t, TurnedRound s t ∧ Returns (fun fuel => turn dir fuel s) t := by
  obtain ⟨c, hc, -⟩ := printOnStatusLine_ok dir.msg hpos hdir.msg
  obtain ⟨d, hd, hsync⟩ := synchronize_returns_of_fits (s := { s with cga := c }) { h with }
    hfits.sync
  have hadj := h.windowTop_adjusted hfits.1
  have htop := windowTop_of_lt (e := s.endp) hadj.lt
  obtain ⟨d', hd', hredraw⟩ := redraw_returns (h.adjusted hfits.1 d
    (some (windowTop s.mem s.endp s.dot s.screenbegin)))
    ⟨windowFits_of_lt hadj.le hadj.lt, by dsimp only; rw [htop]; exact hfits.2⟩
  dsimp only at hredraw
  rw [htop] at hredraw
  refine ⟨_, ⟨⟨_, d', some (windowTop s.mem s.endp s.dot s.screenbegin), rfl⟩,
    h.adjusted hfits.1 d' _, hd'⟩, ?_⟩
  exact ((Returns.of_eq hc).bind hsync).bind hredraw

/-- If the drawing returns then the text could be drawn.

**Proof sketch.** If the synchronisation has returned then the window could be adjusted
(`synchronize_fits`), and if the redraw behind it has returned then the text from the adjusted
window could be drawn (`redraw_fits`); these are the two parts of the condition. -/
theorem turn_fits (hdir : dir.Sweeps) (h : Typing s) (fuel : ℕ) :
    Ensures (turn dir fuel s) fun t =>
      ScreenFits s.mem s.endp s.dot s.screenbegin ∧ TurnedRound s t := by
  have hsync : Ensures (printOnStatusLine dir.msg s >>= synchronize fuel) fun t =>
      WindowFits s.mem s.endp s.screenbegin s.dot ∧ ∃ c y, t = { s with
        screenbegin := windowTop s.mem s.endp s.dot s.screenbegin, cga := c
        synScreenbegin := y } := by
    refine Ensures.bind (printOnStatusLine_ensures dir.msg s hdir.msg) ?_
    rintro _ ⟨c, rfl, -⟩
    refine (synchronize_fits (s := { s with cga := c }) { h with } fuel).mono ?_
    rintro _ ⟨hsync, c', -, rfl⟩
    exact ⟨hsync.1, c', _, rfl⟩
  refine Ensures.bind hsync ?_
  rintro _ ⟨hwindow, c, y, rfl⟩
  have hadj := h.windowTop_adjusted hwindow
  have htop := windowTop_of_lt (e := s.endp) hadj.lt
  refine (redraw_fits (h.adjusted hwindow c y) fuel).mono ?_
  rintro _ ⟨hfits, d, hd, rfl⟩
  dsimp only at hfits ⊢
  rw [ScreenFits, htop] at hfits
  rw [htop]
  exact ⟨⟨hwindow, hfits.2⟩, ⟨_, d, y, rfl⟩, h.adjusted hwindow d y, hd⟩

/-- The drawing changes the view only. -/
theorem turn_viewed (hdir : dir.Sweeps) (fuel : ℕ) (s : Vi W) :
    Ensures (turn dir fuel s) (Viewed s) := by
  intro t ht
  obtain ⟨u, hu, ht⟩ := bind_eq_ok.mp ht
  obtain ⟨v, hv, hu⟩ := bind_eq_ok.mp hu
  obtain ⟨c, rfl, -⟩ := printOnStatusLine_ensures dir.msg s hdir.msg v hv
  have hview : Viewed s { s with cga := c } := ⟨_, c, _, rfl⟩
  exact (hview.trans (synchronize_viewed hu)).trans (redraw_viewed ht)

end Turn

/-! ## One pass -/

/-- What a pass does at the place with the count `k`. -/
def visit (dir : Direction) (pat : List UInt8) (t : Vi W) (k : ℤ) (count : ℕ) :
    Except Stop ((Vi W × ℤ × ℕ) × Bool) :=
  if equal t.mem (dir.at t.endp k) pat then .ok ((t, dir.at t.endp k, count), false)
  else if dir.at t.endp k = t.dot then
    printOnStatusLine (str "Pattern not found") t >>= fun t => .ok ((t, t.dot, count), false)
  else .ok ((t, dir.at t.endp k, count), true)

/-- What a visit ends with: a place where the pattern was found, the cursor, or a place to go on
from. -/
theorem visit_ensures {dir : Direction} {pat : List UInt8} {t : Vi W} {k : ℤ} {count : ℕ}
    {I Q : Vi W × ℤ × ℕ → Prop}
    (hfound : equal t.mem (dir.at t.endp k) pat = true → Q (t, dir.at t.endp k, count))
    (hback : ∀ u, Viewed t u → dir.at t.endp k = t.dot → Q (u, u.dot, count))
    (hgo : dir.at t.endp k ≠ t.dot → I (t, dir.at t.endp k, count)) :
    Ensures (visit dir pat t k count) fun r => if r.2 then I r.1 else Q r.1 := by
  unfold visit
  split_ifs with heq hdot
  · rw [ensures_ok]
    exact hfound heq
  · refine Ensures.bind (printOnStatusLine_ensures _ t (by decide)) ?_
    rintro _ ⟨c, rfl, -⟩
    rw [ensures_ok]
    exact hback { t with cga := c } ⟨_, c, _, rfl⟩ hdot
  · rw [ensures_ok]
    exact hgo hdot

/-- The bytes compared so far are bytes of the text or the NUL behind it. -/
def InBuffer (e : ℤ) (l : List ℤ) : Prop := ∀ a ∈ l, 0 ≤ a ∧ a ≤ e

/-- From the place with the count `k`, having turned round `count` times, the search ends and
returns `q`, and compares only bytes of the text and the NUL behind it. -/
def Finds (dir : Direction) (pat : List UInt8) (t : Vi W) (k : ℤ) (count : ℕ) (q : ℤ) : Prop :=
  ∀ l, InBuffer t.endp l → ∃ u count' l', InBuffer t.endp l' ∧
    LoopReturns .loops (fun n => recordBody n dir pat) ((t, dir.at t.endp k, count), l)
      ((u, q, count'), l')

section Pass

variable {dir : Direction} {pat : List UInt8} {s t : Vi W} {k : ℤ} {count : ℕ}
variable (hdir : dir.Sweeps)

include hdir

/-- A pass before the edge. -/
theorem searchBody_step (fuel : ℕ) (hk : k ≠ t.endp - 1) :
    searchBody fuel dir pat (t, dir.at t.endp k, count) = visit dir pat t (k + 1) count := by
  have hedge : dir.at t.endp k ≠ dir.edge t.endp := by
    rw [hdir.edge]
    exact fun heq => hk (hdir.at_inj.mp heq)
  simp only [searchBody, hedge, false_and, if_false, ok_bind, dir.at_succ]
  rfl

/-- A pass at the edge, when the search has turned round before. -/
theorem searchBody_end (fuel : ℕ) :
    searchBody fuel dir pat (t, dir.at t.endp (t.endp - 1), 1) = .ok ((t, t.dot, 1), false) := by
  simp only [searchBody, hdir.edge, and_self, if_true]

/-- A pass at the edge, when the search turns round. -/
theorem searchBody_turn (fuel : ℕ) :
    searchBody fuel dir pat (t, dir.at t.endp (t.endp - 1), 0) =
      turn dir fuel t >>= fun u => visit dir pat u 1 1 := by
  have hstart : ∀ e, dir.restart e + dir.step = dir.at e 1 := fun e => by
    rw [Direction.at, mul_one]
  simp only [searchBody, hdir.edge, zero_ne_one, and_false, if_false, if_true, bind_assoc,
    ok_bind, turn, hstart]
  rfl

/-- The record of a pass before the edge. -/
theorem InBuffer.append_step (count : ℕ) (hnul : t.mem t.endp = NUL) (hpat : NUL ∉ pat)
    (h0 : 0 ≤ k + 1) (hk : k < t.endp - 1) {l : List ℤ} (hl : InBuffer t.endp l) :
    InBuffer t.endp (l ++ passReads dir pat (t, dir.at t.endp k, count)) := by
  have hedge : dir.at t.endp k ≠ dir.edge t.endp := by
    rw [hdir.edge]
    exact fun heq => absurd (hdir.at_inj.mp heq) (by omega)
  obtain ⟨hlo, hhi⟩ := hdir.bounds t.endp (k + 1) h0 (by omega)
  intro a ha
  rcases List.mem_append.mp ha with ha | ha
  · exact hl a ha
  · simp only [passReads, hedge, false_and, if_false, dir.at_succ] at ha
    have := equalReads_mem hnul hpat (by omega) ha
    omega

section Steps

variable {q : ℤ} (hnul : t.mem t.endp = NUL) (hpat : NUL ∉ pat) (h0 : 0 ≤ k + 1)
  (hk : k < t.endp - 1)

include hnul hpat h0 hk

/-- The pattern is found. -/
theorem finds_match (heq : equal t.mem (dir.at t.endp (k + 1)) pat = true) :
    Finds dir pat t k count (dir.at t.endp (k + 1)) := by
  intro l hl
  refine ⟨t, count, _, hl.append_step hdir count hnul hpat h0 hk,
    LoopReturns.of_stop (Returns.of_le 0 fun n _ => ?_)⟩
  rw [recordBody, searchBody_step hdir _ (by omega), visit, if_pos heq, ok_bind]

/-- The pattern is not found here. -/
theorem finds_step (hno : ¬equal t.mem (dir.at t.endp (k + 1)) pat = true)
    (hdot : dir.at t.endp (k + 1) ≠ t.dot) (h : Finds dir pat t (k + 1) count q) :
    Finds dir pat t k count q := by
  intro l hl
  obtain ⟨u, count', l', hl', hret⟩ := h _ (hl.append_step hdir count hnul hpat h0 hk)
  refine ⟨u, count', l', hl', LoopReturns.of_step (Returns.of_le 0 fun n _ => ?_) hret⟩
  rw [recordBody, searchBody_step hdir _ (by omega), visit, if_neg hno, if_neg hdot, ok_bind]

/-- The search is back at the cursor. -/
theorem finds_dot (hno : ¬equal t.mem (dir.at t.endp (k + 1)) pat = true)
    (hdot : dir.at t.endp (k + 1) = t.dot) (hpos : t.cga.pos < 25 * 80) :
    Finds dir pat t k count t.dot := by
  intro l hl
  obtain ⟨c, hc, -⟩ := printOnStatusLine_ok (str "Pattern not found") hpos (by decide)
  refine ⟨{ t with cga := c }, count, _, hl.append_step hdir count hnul hpat h0 hk,
    LoopReturns.of_stop (Returns.of_le 0 fun n _ => ?_)⟩
  rw [recordBody, searchBody_step hdir _ (by omega), visit, if_neg hno, if_pos hdot, hc, ok_bind,
    ok_bind]

end Steps

/-- The search is at the edge for the second time. -/
theorem finds_end : Finds dir pat t (t.endp - 1) 1 t.dot := by
  intro l hl
  refine ⟨t, 1, l ++ [], by simpa using hl, LoopReturns.of_stop (Returns.of_le 0 fun n _ => ?_)⟩
  rw [recordBody, searchBody_end hdir, ok_bind]
  simp [passReads, hdir.edge]

/-- The search turns round, and goes on from the other end. -/
theorem finds_turn {u : Vi W} {q : ℤ} (he : 2 ≤ t.endp) (hview : Viewed t u)
    (hret : Returns (fun fuel => turn dir fuel t) u) (h : Finds dir pat u 0 1 q) :
    Finds dir pat t (t.endp - 1) 0 q := by
  obtain ⟨b, c, y, rfl⟩ := hview
  intro l hl
  obtain ⟨v, count', l', hl', hloop⟩ := h l hl
  refine ⟨v, count', l', hl', LoopReturns.of_eq ?_ hloop⟩
  have hedge : dir.at t.endp 0 ≠ dir.at t.endp (t.endp - 1) := fun heq =>
    absurd (hdir.at_inj.mp heq) (by omega)
  have hreads : passReads dir pat (t, dir.at t.endp (t.endp - 1), 0) =
      passReads dir pat ({ t with screenbegin := b, cga := c, synScreenbegin := y },
        dir.at t.endp 0, 1) := by
    have hzero : dir.at t.endp 0 = dir.restart t.endp := by simp [Direction.at]
    rw [hzero] at hedge
    simp only [passReads, hdir.edge, hedge, false_and, zero_ne_one, and_false, if_false, if_true,
      hzero]
  filter_upwards [hret] with n hn
  rw [recordBody, recordBody, searchBody_turn hdir, hn, ok_bind, hreads]
  exact congrArg (· >>= _) (searchBody_step hdir n (k := 0) (t := { t with
    screenbegin := b, cga := c, synScreenbegin := y }) (by dsimp only; omega)).symm

/-- The pattern is not found up to `k + d`. -/
theorem finds_scan (hnul : t.mem t.endp = NUL) (hpat : NUL ∉ pat) {q : ℤ} (d : ℕ) (h0 : 0 ≤ k)
    (hd : k + d ≤ t.endp - 1)
    (hno : ∀ r, k < r → r ≤ k + d →
      ¬equal t.mem (dir.at t.endp r) pat = true ∧ dir.at t.endp r ≠ t.dot)
    (h : Finds dir pat t (k + d) count q) : Finds dir pat t k count q := by
  induction d generalizing k with
  | zero => simpa using h
  | succ d ih =>
    push_cast at hd hno h
    obtain ⟨hne, hdot⟩ := hno (k + 1) (by omega) (by omega)
    refine finds_step hdir hnul hpat (by omega) (by omega) hne hdot ?_
    refine ih (by omega) (by omega) (fun r h1 h2 => hno r (by omega) (by omega)) ?_
    rwa [show k + 1 + (d : ℤ) = k + (d + 1) by ring]

end Pass

/-! ## The search as a whole -/

/-- The first place behind `a` with a property. -/
theorem exists_first {P : ℤ → Prop} {a q : ℤ} (ha : a < q) (hq : P q) :
    ∃ d : ℕ, a + d + 1 ≤ q ∧ P (a + d + 1) ∧ ∀ r, a < r → r ≤ a + d → ¬P r := by
  classical
  have hex : ∃ d : ℕ, P (a + d + 1) := ⟨(q - a - 1).toNat, by
    rwa [show a + ((q - a - 1).toNat : ℤ) + 1 = q by omega]⟩
  refine ⟨Nat.find hex, ?_, Nat.find_spec hex, fun r h1 h2 hr => ?_⟩
  · have hle : Nat.find hex ≤ (q - a - 1).toNat := Nat.find_min' hex (by
      rwa [show a + ((q - a - 1).toNat : ℤ) + 1 = q by omega])
    omega
  · refine Nat.find_min hex (m := (r - a - 1).toNat) (by omega) ?_
    rwa [show a + ((r - a - 1).toNat : ℤ) + 1 = r by omega]

section Search

variable {dir : Direction} {pat : List UInt8} {s : Vi W} {j k : ℤ}

section Order

variable (hdir : dir.Sweeps)

include hdir

/-- The cursor is at the place with its count. -/
theorem at_cursor : dir.at s.endp (dir.cursor s) = s.dot := hdir.at_at _ _

/-- The count of the cursor is that of a place of the text. -/
theorem cursor_bounds (h : Typing s) : 0 ≤ dir.cursor s ∧ dir.cursor s ≤ s.endp - 1 := by
  have h0 := h.screenbegin_nonneg.trans h.screenbegin_le
  have hdot := h.dot_lt
  exact hdir.bounds s.endp s.dot h0 (by omega)

/-- Only the count of the cursor is that of the cursor's place. -/
theorem at_ne_dot (hk : k ≠ dir.cursor s) : dir.at s.endp k ≠ s.dot := by
  rw [← at_cursor hdir (s := s)]
  exact fun heq => hk (hdir.at_inj.mp heq)

/-- The pattern occurs at places of the text only. -/
theorem hit_bounds (hne : pat ≠ []) (h : Hit dir pat s k) : 0 ≤ k ∧ k ≤ s.endp - 1 := by
  have hlt := Occurs.lt hne h
  have hbounds := hdir.bounds s.endp (dir.at s.endp k) h.1 (by omega)
  rwa [hdir.at_at] at hbounds

/-- A comparison at a place of the text sees whether the pattern occurs there. -/
theorem equal_iff_hit (h : Typing s) (hpat : NUL ∉ pat) (h0 : 0 ≤ k) (hk : k ≤ s.endp - 1) :
    equal s.mem (dir.at s.endp k) pat = true ↔ Hit dir pat s k := by
  obtain ⟨hlo, hhi⟩ := hdir.bounds s.endp k h0 hk
  exact equal_iff_occurs h.nul hpat hlo (by omega)

/-- The first place behind the cursor where the pattern occurs. -/
theorem firstIn_hit (hj : Hit dir pat s j)
    (hleast : ∀ k, Hit dir pat s k →
      rank s.endp (dir.cursor s) j ≤ rank s.endp (dir.cursor s) k) :
    FirstIn dir pat s (dir.at s.endp j) := by
  refine .inl ⟨hj, fun q hq => ?_⟩
  rw [hdir.at_at]
  exact hleast _ (by rwa [Hit, hdir.at_at])

/-- The pattern occurs nowhere. -/
theorem firstIn_none (hnone : ∀ k, ¬Hit dir pat s k) : FirstIn dir pat s s.dot :=
  .inr ⟨fun q hq => hnone (dir.at s.endp q) (by rwa [Hit, hdir.at_at]), rfl⟩

end Order

section Sufficient

variable (hdir : dir.Sweeps) (h : Typing s) (hpat : NUL ∉ pat)

include hdir h hpat

/-- If the pattern occurs behind the cursor, the first of these places is found on the way to the
edge. -/
theorem finds_behind (hne : pat ≠ []) (hbehind : ∃ k, dir.cursor s < k ∧ Hit dir pat s k) :
    ∃ q, Finds dir pat s (dir.cursor s) 0 q ∧ FirstIn dir pat s q := by
  obtain ⟨k, hk, hit⟩ := hbehind
  obtain ⟨d, hd, hfirst, hbefore⟩ := exists_first hk hit
  obtain ⟨h0, hcur⟩ := cursor_bounds hdir h
  have hlast := (hit_bounds hdir hne hfirst).2
  refine ⟨dir.at s.endp (dir.cursor s + d + 1), ?_, firstIn_hit hdir hfirst fun r hr => ?_⟩
  · refine finds_scan hdir h.nul hpat d h0 (by omega) (fun r h1 h2 => ⟨?_, ?_⟩) ?_
    · rw [equal_iff_hit hdir h hpat (by omega) (by omega)]
      exact hbefore r h1 h2
    · exact at_ne_dot hdir (by omega)
    · exact finds_match hdir h.nul hpat (by omega) (by omega)
        ((equal_iff_hit hdir h hpat (by omega) hlast).mpr hfirst)
  · have hr' : ¬(dir.cursor s < r ∧ r ≤ dir.cursor s + d) := fun hin => hbefore r hin.1 hin.2 hr
    have := hit_bounds hdir hne hr
    unfold rank
    split_ifs <;> omega

/-- Otherwise the search gets to the edge and turns round. -/
theorem finds_round (he : 2 ≤ s.endp) (hnone : ∀ k, dir.cursor s < k → ¬Hit dir pat s k) {u : Vi W}
    {q : ℤ} (hview : Viewed s u) (hret : Returns (fun fuel => turn dir fuel s) u)
    (hq : Finds dir pat u 0 1 q) : Finds dir pat s (dir.cursor s) 0 q := by
  obtain ⟨h0, hcur⟩ := cursor_bounds hdir h
  refine finds_scan hdir h.nul hpat (s.endp - 1 - dir.cursor s).toNat h0 (by omega)
    (fun r h1 h2 => ⟨?_, ?_⟩) ?_
  · rw [equal_iff_hit hdir h hpat (by omega) (by omega)]
    exact hnone r h1
  · exact at_ne_dot hdir (by omega)
  · rw [show dir.cursor s + ((s.endp - 1 - dir.cursor s).toNat : ℤ) = s.endp - 1 by omega]
    exact finds_turn hdir he hview hret hq

/-- With the cursor on the place it turns to, the search gets to the edge again, and has compared
every other place by then. -/
theorem finds_again_start (hne : pat ≠ []) (hzero : dir.cursor s = 0)
    (hnone : ∀ k, dir.cursor s < k → ¬Hit dir pat s k) :
    Finds dir pat s 0 1 s.dot ∧ FirstIn dir pat s s.dot := by
  obtain ⟨h0, hcur⟩ := cursor_bounds hdir h
  constructor
  · refine finds_scan hdir h.nul hpat (s.endp - 1).toNat le_rfl (by omega)
      (fun r h1 h2 => ⟨?_, ?_⟩) ?_
    · rw [equal_iff_hit hdir h hpat (by omega) (by omega)]
      exact hnone r (by omega)
    · exact at_ne_dot hdir (by omega)
    · rw [show (0 : ℤ) + ((s.endp - 1).toNat : ℤ) = s.endp - 1 by omega]
      exact finds_end hdir
  · have hone : ∀ r, Hit dir pat s r → r = dir.cursor s := fun r hr => by
      have := hit_bounds hdir hne hr
      have : ¬dir.cursor s < r := fun hlt => hnone r hlt hr
      omega
    by_cases hown : Hit dir pat s (dir.cursor s)
    · have hfirst := firstIn_hit hdir hown fun r hr => (hone r hr ▸ le_rfl)
      rwa [at_cursor hdir] at hfirst
    · exact firstIn_none hdir fun r hr => hown (hone r hr ▸ hr)

/-- With the cursor elsewhere, the search finds the first place behind the one it turned to, up to
the cursor, or gets back to the cursor. -/
theorem finds_again (hne : pat ≠ []) (hpos : s.cga.pos < 25 * 80) (hcur : dir.cursor s ≠ 0)
    (hstart : ¬Hit dir pat s 0) (hnone : ∀ k, dir.cursor s < k → ¬Hit dir pat s k) :
    ∃ q, Finds dir pat s 0 1 q ∧ FirstIn dir pat s q := by
  obtain ⟨h0, hlast⟩ := cursor_bounds hdir h
  -- the places left are those from the second one to the cursor
  have hleft : ∀ r, Hit dir pat s r → 0 < r ∧ r ≤ dir.cursor s := fun r hr => by
    have hbounds := hit_bounds hdir hne hr
    have h1 : ¬dir.cursor s < r := fun hlt => hnone r hlt hr
    have h2 : r ≠ 0 := fun hzero => hstart (hzero ▸ hr)
    omega
  by_cases hbefore : ∃ k, 0 < k ∧ Hit dir pat s k
  · obtain ⟨k, hk, hit⟩ := hbefore
    obtain ⟨d, hd, hfirst, hpassed⟩ := exists_first hk hit
    have hle := (hleft _ hit).2
    refine ⟨dir.at s.endp (0 + d + 1), ?_, firstIn_hit hdir hfirst fun r hr => ?_⟩
    · refine finds_scan hdir h.nul hpat d le_rfl (by omega) (fun r h1 h2 => ⟨?_, ?_⟩) ?_
      · rw [equal_iff_hit hdir h hpat (by omega) (by omega)]
        exact hpassed r h1 h2
      · exact at_ne_dot hdir (by omega)
      · exact finds_match hdir h.nul hpat (by omega) (by omega)
          ((equal_iff_hit hdir h hpat (by omega) (by omega)).mpr hfirst)
    · have h1 := hleft r hr
      have h2 : ¬(0 < r ∧ r ≤ 0 + d) := fun hin => hpassed r hin.1 hin.2 hr
      unfold rank
      split_ifs <;> omega
  · have hnowhere : ∀ r, ¬Hit dir pat s r := fun r hr => hbefore ⟨r, (hleft r hr).1, hr⟩
    refine ⟨s.dot, ?_, firstIn_none hdir hnowhere⟩
    have hback : (0 : ℤ) + ((dir.cursor s - 1).toNat : ℤ) = dir.cursor s - 1 := by omega
    refine finds_scan hdir h.nul hpat (dir.cursor s - 1).toNat le_rfl (by omega)
      (fun r h1 h2 => ⟨?_, ?_⟩) ?_
    · rw [equal_iff_hit hdir h hpat (by omega) (by omega)]
      exact hnowhere r
    · exact at_ne_dot hdir (by omega)
    · rw [hback]
      refine finds_dot hdir h.nul hpat (by omega) (by omega) ?_ ?_ hpos
      · rw [equal_iff_hit hdir h hpat (by omega) (by omega)]
        exact hnowhere _
      · rw [sub_add_cancel, at_cursor hdir]

/-- **The search.** If the condition holds, the search ends at the first occurrence.

**Proof sketch.** If the pattern occurs behind the cursor, the first of these places is found on
the way to the edge. Otherwise the search turns round, and it is left to look at the places from
the second one on. -/
theorem finds_first (hne : pat ≠ []) (hpos : s.cga.pos < 25 * 80) (hfits : FitsIn dir pat s) :
    ∃ q, Finds dir pat s (dir.cursor s) 0 q ∧ FirstIn dir pat s q := by
  obtain ⟨he, hfits⟩ := hfits
  by_cases hbehind : ∃ k, dir.cursor s < k ∧ Hit dir pat s k
  · exact finds_behind hdir h hpat hne hbehind
  · have hnone : ∀ k, dir.cursor s < k → ¬Hit dir pat s k :=
      fun k h1 h2 => hbehind ⟨k, h1, h2⟩
    obtain ⟨hscreen, hstart⟩ := hfits.resolve_left hbehind
    obtain ⟨u, ⟨hview, htyping, hupos⟩, hret⟩ := turn_returns hdir h hpos hscreen
    have hround : ∀ q, Finds dir pat u 0 1 q → Finds dir pat s (dir.cursor s) 0 q :=
      fun q => finds_round hdir h hpat he hnone hview hret
    obtain ⟨b, c, y, rfl⟩ := hview
    by_cases hzero : dir.cursor s = 0
    · obtain ⟨hfinds, hfirst⟩ := finds_again_start hdir htyping hpat hne hzero hnone
      exact ⟨_, hround _ hfinds, hfirst⟩
    · obtain ⟨q, hfinds, hfirst⟩ := finds_again hdir htyping hpat hne hupos hzero
        (hstart.resolve_left hzero) hnone
      exact ⟨q, hround q hfinds, hfirst⟩

end Sufficient

/-! ## The condition is necessary -/

/-- The pointer is at a place behind the one to which a search turns; in a text of one character it
is then not in the text. -/
def Behind (dir : Direction) (e p : ℤ) : Prop := ∃ k, 1 ≤ k ∧ p = dir.at e k

/-- How far a search in a text of one character gets. -/
def LeavesText (dir : Direction) (s : Vi W) (x : Vi W × ℤ × ℕ) : Prop :=
  Viewed s x.1 ∧ ∃ k, x.2.1 = dir.at s.endp k ∧ (k = 0 ∧ x.2.2 = 0 ∨ 1 ≤ k ∧ x.2.2 = 1)

/-- What is known when a search returns the pointer `p`. It has found the pattern behind the cursor,
or it has turned round; then the screen could be drawn, and `p` is not the place it turned to unless
the cursor is there. -/
def Turned (dir : Direction) (pat : List UInt8) (s : Vi W) (p : ℤ) : Prop :=
  (∃ k, dir.cursor s < k ∧ Hit dir pat s k) ∨
    ScreenFits s.mem s.endp s.dot s.screenbegin ∧ (1 ≤ dir.at s.endp p ∨ dir.cursor s = 0)

/-- How far a search gets: on its way to the edge, or it has turned round. -/
def OnTheWay (dir : Direction) (s : Vi W) (x : Vi W × ℤ × ℕ) : Prop :=
  ∃ k, x.2.1 = dir.at s.endp k ∧
    (x.2.2 = 0 ∧ x.1 = s ∧ dir.cursor s ≤ k ∧ k ≤ s.endp - 1 ∨
      x.2.2 = 1 ∧ Viewed s x.1 ∧ ScreenFits s.mem s.endp s.dot s.screenbegin ∧ 0 ≤ k)

section Necessary

variable (hdir : dir.Sweeps)

include hdir

/-- A visit of a place that is not in a text of one character. -/
theorem visit_leaves {u : Vi W} (hcur : dir.cursor s = 0) (hu : Viewed s u) (hk : 1 ≤ k) :
    Ensures (visit dir pat u k 1) fun r =>
      if r.2 then LeavesText dir s r.1 else Behind dir s.endp r.1.2.1 := by
  have hview := hu
  obtain ⟨_, _, _, rfl⟩ := hview
  refine visit_ensures (I := LeavesText dir s) (Q := fun x => Behind dir s.endp x.2.1)
    (fun _ => ⟨k, hk, rfl⟩) (fun v _ hback => ?_) fun _ => ⟨hu, k, rfl, .inr ⟨hk, rfl⟩⟩
  exact absurd hback (at_ne_dot hdir (s := s) (by omega))

/-- In a text of one character a search that returns has left the text. -/
theorem search_single (he : s.endp = 1) (hcur : dir.cursor s = 0) (fuel : ℕ) :
    Ensures (search fuel dir pat s) fun r => Behind dir s.endp r.1 := by
  refine Ensures.bind (P := fun x => Behind dir s.endp x.2.1) ?_ fun x hx => (ensures_ok _ _).mpr hx
  refine loopFuel_ensures (LeavesText dir s) _ ?_ fuel _
    ⟨Viewed.refl s, 0, (hcur ▸ at_cursor hdir).symm, .inl ⟨rfl, rfl⟩⟩
  rintro ⟨t, p, count⟩ ⟨hview, k, rfl, hk⟩
  have hend : t.endp = s.endp := by
    obtain ⟨_, _, _, rfl⟩ := hview
    rfl
  dsimp only at hk
  rw [← hend]
  obtain ⟨rfl, rfl⟩ | ⟨hk, rfl⟩ := hk
  · rw [show (0 : ℤ) = t.endp - 1 by omega, searchBody_turn hdir]
    refine Ensures.bind (turn_viewed hdir fuel t) fun u hu => ?_
    rw [hend]
    exact visit_leaves hdir hcur (hview.trans hu) le_rfl
  · rw [searchBody_step hdir fuel (by omega), hend]
    exact visit_leaves hdir hcur hview (by omega)

/-- A visit after turning round. -/
theorem visit_turned {u : Vi W} (hu : Viewed s u)
    (hscreen : ScreenFits s.mem s.endp s.dot s.screenbegin) (hk : 0 ≤ k) :
    Ensures (visit dir pat u (k + 1) 1) fun r =>
      if r.2 then OnTheWay dir s r.1 else Turned dir pat s r.1.2.1 := by
  have hview := hu
  obtain ⟨_, _, _, rfl⟩ := hview
  have hfar : 1 ≤ dir.at s.endp (dir.at s.endp (k + 1)) := by
    rw [hdir.at_at]
    omega
  refine visit_ensures (I := OnTheWay dir s) (Q := fun x => Turned dir pat s x.2.1)
    (fun _ => .inr ⟨hscreen, .inl hfar⟩) (fun v hv hback => .inr ⟨hscreen, .inl ?_⟩)
    fun _ => ⟨k + 1, rfl, .inr ⟨rfl, hu, hscreen, by omega⟩⟩
  obtain ⟨_, _, _, rfl⟩ := hv
  dsimp only at hback ⊢
  rwa [← hback]

/-- A visit on the way to the edge. -/
theorem visit_onTheWay (h : Typing s) (hpat : NUL ∉ pat) (hk : dir.cursor s ≤ k)
    (hlast : k + 1 ≤ s.endp - 1) :
    Ensures (visit dir pat s (k + 1) 0) fun r =>
      if r.2 then OnTheWay dir s r.1 else Turned dir pat s r.1.2.1 := by
  have h0 := (cursor_bounds hdir h).1
  refine visit_ensures (I := OnTheWay dir s) (Q := fun x => Turned dir pat s x.2.1)
    (fun heq => .inl ⟨k + 1, by omega, ?_⟩)
    (fun v _ hback => absurd hback (at_ne_dot hdir (by omega)))
    fun _ => ⟨k + 1, rfl, .inl ⟨rfl, rfl, by omega, hlast⟩⟩
  exact (equal_iff_hit hdir h hpat (by omega) hlast).mp heq

/-- One pass. -/
theorem searchBody_onTheWay (h : Typing s) (hpat : NUL ∉ pat) (fuel : ℕ) {x : Vi W × ℤ × ℕ}
    (hx : OnTheWay dir s x) :
    Ensures (searchBody fuel dir pat x) fun r =>
      if r.2 then OnTheWay dir s r.1 else Turned dir pat s r.1.2.1 := by
  obtain ⟨t, p, count⟩ := x
  obtain ⟨k, hp, hx⟩ := hx
  dsimp only at hp hx
  obtain ⟨rfl, rfl, hk, hlast⟩ | ⟨rfl, hview, hscreen, hk⟩ := hx
  · subst hp
    by_cases hedge : k = t.endp - 1
    · rw [hedge, searchBody_turn hdir]
      refine Ensures.bind (turn_fits hdir h fuel) fun u hu => ?_
      exact visit_turned hdir hu.2.viewed hu.1 le_rfl
    · rw [searchBody_step hdir fuel hedge]
      exact visit_onTheWay hdir h hpat hk (by omega)
  · have hviewed : t.dot = s.dot ∧ t.endp = s.endp := by
      obtain ⟨_, _, _, rfl⟩ := hview
      exact ⟨rfl, rfl⟩
    rw [hp, ← hviewed.2]
    by_cases hedge : k = t.endp - 1
    · rw [hedge, searchBody_end hdir, ensures_ok]
      have hcur : dir.at s.endp t.dot = dir.cursor s := by rw [hviewed.1, Direction.cursor]
      have h0 := (cursor_bounds hdir h).1
      exact .inr ⟨hscreen, by dsimp only; omega⟩
    · rw [searchBody_step hdir fuel hedge]
      exact visit_turned hdir hview hscreen hk

/-- The search as a whole. -/
theorem search_turned (h : Typing s) (hpat : NUL ∉ pat) (fuel : ℕ) :
    Ensures (search fuel dir pat s) fun r => Turned dir pat s r.1 := by
  refine Ensures.bind (P := fun x => Turned dir pat s x.2.1) ?_ fun x hx => (ensures_ok _ _).mpr hx
  refine loopFuel_ensures (OnTheWay dir s) _ (fun x hx => ?_) fuel _
    ⟨dir.cursor s, (at_cursor hdir).symm, .inl ⟨rfl, rfl, le_rfl, (cursor_bounds hdir h).2⟩⟩
  exact searchBody_onTheWay hdir h hpat fuel hx

/-- A search that finds the first occurrence meets the condition.

**Proof sketch.** On a text of one character the search looks at places that are not in it, and
returns one of them, which is neither an occurrence nor the cursor. On a longer one, suppose there
is no occurrence behind the cursor. Then the search has turned round, so the screen could be drawn,
and it starts again behind the first place of its sweep (`search_turned`). So if the pattern occurs
at the first place it must also occur at the cursor, or the search would have passed over the first
occurrence. -/
theorem FindsIn.fits (h : Typing s) (hne : pat ≠ []) (hpat : NUL ∉ pat)
    (hfinds : FindsIn dir pat s) : FitsIn dir pat s := by
  obtain ⟨p, t, reads, hret, hfirst, -⟩ := hfinds
  obtain ⟨h0, hlast⟩ := cursor_bounds hdir h
  obtain ⟨fuel, hfuel⟩ := hret.exists
  have hsearch : search fuel dir pat s = .ok (p, t) := by
    rw [search_eq_record, hfuel, ok_bind]
  by_cases he : s.endp = 1
  · obtain ⟨k, hk, hp⟩ := search_single hdir he (by omega) fuel _ hsearch
    dsimp only at hp
    rcases hfirst with ⟨hocc, -⟩ | ⟨-, hdot⟩
    · have := hit_bounds hdir hne (s := s) (k := k) (by rwa [Hit, ← hp])
      omega
    · exact absurd (hp.symm.trans hdot) (at_ne_dot hdir (by omega))
  · refine ⟨by omega, ?_⟩
    rcases search_turned hdir h hpat fuel _ hsearch with hbehind | ⟨hscreen, hstart⟩
    · exact .inl hbehind
    by_cases hbehind : ∃ k, dir.cursor s < k ∧ Hit dir pat s k
    · exact .inl hbehind
    refine .inr ⟨hscreen, ?_⟩
    by_contra hno
    rw [not_or, not_not] at hno
    obtain ⟨hcur, hzero⟩ := hno
    rcases hfirst with ⟨hocc, hleast⟩ | ⟨hnone, -⟩
    · have hp : ¬dir.cursor s < dir.at s.endp p := fun hlt =>
        hbehind ⟨_, hlt, by rwa [Hit, hdir.at_at]⟩
      have hrank := hleast _ hzero
      rw [hdir.at_at] at hrank
      dsimp only at hstart
      unfold rank at hrank
      split_ifs at hrank <;> omega
    · exact hnone _ hzero

/-- **Both searches.** With window and cursor in a text that is not empty and a NUL behind it, a
search returns the first occurrence of the pattern behind the cursor exactly if the condition
holds. -/
theorem findsIn_iff (h : Typing s) (hpos : s.cga.pos < 25 * 80) (hne : pat ≠ [])
    (hpat : NUL ∉ pat) : FindsIn dir pat s ↔ FitsIn dir pat s := by
  constructor
  · exact FindsIn.fits hdir h hne hpat
  · intro hfits
    obtain ⟨q, hfinds, hfirst⟩ := finds_first hdir h hpat hne hpos hfits
    obtain ⟨u, count, l, hl, hloop⟩ := hfinds [] (by simp [InBuffer])
    have hend : InBuffer s.endp l := hl
    refine ⟨q, u, l, ?_, hfirst, hend⟩
    unfold searchRecord
    rw [at_cursor hdir] at hloop
    filter_upwards [hloop.returns] with n hn
    rw [hn, ok_bind]

end Necessary

end Search

end HgXv6
