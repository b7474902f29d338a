import HgXv6.Editor.Run

set_option relaxedAutoImplicit false
set_option autoImplicit false

/-!
# Messages and the text area

A message is printed in row 24, over 78 blanks, and the cursor is put back. The fixed messages of
the editor and the pattern of a search are short enough for the row. The report of Ctrl-G begins
with the name of the file, which is as long as the user likes: a report that does not fit wraps,
and the screen scrolls.

Putting the cursor back lights the cell it is put on. Between two passes that cell is lit already.

## Main definitions

* `HgXv6.Undisturbed` — a function that draws in row 24 only, and puts the cursor back.
* `HgXv6.statusMessages` — what `printOnStatusLine` is called with.
* `HgXv6.QuietStatus` — no message disturbs the text area.
* `HgXv6.ReportFits` — the report of Ctrl-G can be printed in one row.

## Main results

* `HgXv6.printReport_undisturbed_iff` — a report disturbs nothing exactly if it fits.
* `HgXv6.run_litAt` — the cell under the cursor is lit in every run.
* `HgXv6.quietStatus_run_iff` — when no message disturbs the text area.
-/

namespace HgXv6

open Prog

variable {W : Type} {sys : Sys W} {x y : Config W} {s t : Vi W} {msg : List UInt8}

/-! ## One line -/

/-- Print `msg` in the last row and put the cursor on the cell `p`. -/
def printLine (msg : List UInt8) (p : ℕ) (c : Cga) : Except Stop Cga :=
  setCursorPos rows 0 c >>= consolewrite msg >>=
    setCursorPos ((p / columns : ℕ) : ℤ) ((p % columns : ℕ) : ℤ)

/-- A call changes cells of the last row only, does not scroll, and leaves the cursor on the
cell `p`. -/
def Restores24 (f : Cga → Except Stop Cga) (p : ℕ) (c : Cga) : Prop :=
  ∃ c', f c = .ok c' ∧ RowOnly c c' ∧ c'.pos = p

/-- Moving the cursor to the last row. -/
theorem setCursorPos_rows (c : Cga) :
    ∃ c', setCursorPos rows 0 c = .ok c' ∧ RowOnly c c' ∧ c'.pos = 24 * 80 := by
  obtain ⟨c', h, hpos⟩ := setCursorPos_ok (x := rows) (y := 0) c
    ⟨by decide, by decide, by decide, by decide⟩
  have hrow : c'.pos = 24 * 80 := hpos
  refine ⟨c', h, ⟨fun i hi => ?_, setCursorPos_scrolls h⟩, hrow⟩
  exact setCursorPos_crt h fun heq => by omega

/-- A line is printed in the last row only exactly if it fits there, and the cell the cursor is
put on is lit. -/
theorem printLine_restores_iff {p : ℕ} {c : Cga} (hp : p < 24 * 80) :
    Restores24 (printLine msg p) p c ↔ RowFits msg (24 * 80) ∧ LitAt c p := by
  obtain ⟨c₁, h₁, hrow₁, hpos₁⟩ := setCursorPos_rows c
  constructor
  · rintro ⟨c', h, hrow, hpos⟩
    rw [printLine, h₁, ok_bind] at h
    obtain ⟨c₂, h₂, h₃⟩ := bind_eq_ok.mp h
    have hscr : c₂.scrolls = c₁.scrolls := by
      rw [← setCursorPos_scrolls h₃, hrow.scrolls, hrow₁.scrolls]
    obtain ⟨hfits, -⟩ := consolewrite_rowOnly hpos₁.ge (by omega) h₂ hscr
    refine ⟨hpos₁ ▸ hfits, (hrow.litAt hp).mp ?_⟩
    rw [← hpos]
    exact setCursorPos_litAt h₃
  · rintro ⟨hfits, hlit⟩
    obtain ⟨c₂, h₂, -, -, hscr₂⟩ := consolewrite_row (hpos₁ ▸ hfits)
    obtain ⟨-, hrow₂⟩ := consolewrite_rowOnly hpos₁.ge (by omega) h₂ hscr₂
    obtain ⟨c₃, h₃, hpos₃⟩ := setCursorPos_restore c₂ (p := p) (by omega)
    have hrow := hrow₁.trans hrow₂
    have hrow₃ : RowOnly c₂ c₃ := by
      refine ⟨fun i _ => setCursorPos_crt h₃ fun heq => ?_, setCursorPos_scrolls h₃⟩
      rw [heq, hpos₃]
      exact (hrow.litAt hp).mpr hlit
    refine ⟨c₃, ?_, hrow.trans hrow₃, hpos₃⟩
    rw [printLine, h₁, ok_bind, h₂]
    exact h₃

/-- A change of the last row before does not matter. -/
theorem restores24_congr {f : Cga → Except Stop Cga} {p : ℕ} {c d : Cga} (h : RowOnly c d) :
    (∃ c', f d = .ok c' ∧ RowOnly c c' ∧ c'.pos = p) ↔ Restores24 f p d :=
  exists_congr fun _ => and_congr_right fun _ => and_congr_left fun _ =>
    ⟨h.symm.trans, h.trans⟩

/-- `printOnStatusLine` prints one line after it has blanked the last row. -/
theorem statusLine_restores_iff {c : Cga} (hp : c.pos < 24 * 80) :
    Restores24 (statusLine msg) c.pos c ↔ RowFits msg (24 * 80) ∧ LitAt c c.pos := by
  obtain ⟨c₁, h₁, hrow₁, hpos₁⟩ := setCursorPos_rows c
  obtain ⟨c₂, h₂, -, -, hscr₂⟩ := consolewrite_row (hpos₁ ▸ rowFits_statusBuffer)
  obtain ⟨-, hrow₂⟩ := consolewrite_rowOnly hpos₁.ge (by omega) h₂ hscr₂
  have hrow := hrow₁.trans hrow₂
  have heq : statusLine msg c = printLine msg c.pos c₂ := by
    rw [statusLine, printLine, h₁, ok_bind, h₂, ok_bind]
  rw [← hrow.litAt hp, ← printLine_restores_iff hp, ← restores24_congr hrow, ← heq]
  rfl

/-- A report is one more line after an empty one. -/
def reportLine (msg : List UInt8) (c : Cga) : Except Stop Cga :=
  statusLine [] c >>= fun c => printLine msg c.pos c

theorem reportLine_restores_iff {c : Cga} (hp : c.pos < 24 * 80) :
    Restores24 (reportLine msg) c.pos c ↔ RowFits msg (24 * 80) ∧ LitAt c c.pos := by
  obtain ⟨c₁, h₁, hpos₁, -, -⟩ := @statusLine_ok [] c (by omega) (by decide)
  have heq : reportLine msg c = printLine msg c.pos c₁ := by
    rw [reportLine, h₁, ok_bind, hpos₁]
  have hlit : Restores24 (reportLine msg) c.pos c → LitAt c c.pos := by
    rintro ⟨c', h, hrow, hpos⟩
    rw [heq] at h
    obtain ⟨c₂, -, h₂⟩ := bind_eq_ok.mp h
    rw [← hrow.litAt hp, ← hpos]
    exact setCursorPos_litAt h₂
  by_cases hc : LitAt c c.pos
  · obtain ⟨c', h, hrow, -⟩ := (@statusLine_restores_iff [] c hp).mpr ⟨by decide, hc⟩
    obtain rfl : c₁ = c' := Except.ok.inj (h₁.symm.trans h)
    rw [← hrow.litAt hp, ← printLine_restores_iff hp, ← restores24_congr hrow, ← heq]
    rfl
  · exact iff_of_false (fun h => hc (hlit h)) fun h => hc h.2

/-! ## The editor's functions -/

/-- A function of the editor changes cells of row 24 only, does not scroll, and puts the cursor
back where it was. -/
def Undisturbed (f : Vi W → Except Stop (Vi W)) (s : Vi W) : Prop :=
  ∃ c, f s = .ok { s with cga := c } ∧ RowOnly s.cga c ∧ c.pos = s.cga.pos

/-- For a function that draws, this is so of what it draws. -/
theorem undisturbed_draw_iff {f : Cga → Except Stop Cga} :
    Undisturbed (Vi.draw f) s ↔ Restores24 f s.cga.pos s.cga := by
  constructor
  · rintro ⟨c, h, hrow, hpos⟩
    obtain ⟨c', h', heq⟩ := draw_ensures f s _ h
    obtain rfl : c = c' := congrArg Vi.cga heq
    exact ⟨c, h', hrow, hpos⟩
  · rintro ⟨c, h, hrow, hpos⟩
    exact ⟨c, draw_eq h, hrow, hpos⟩

/-- Drawing one thing after the other. -/
theorem draw_bind (f : Cga → Except Stop Cga) (g : Cga → Cga → Except Stop Cga) (s : Vi W) :
    (s.draw f >>= fun t => t.draw (g t.cga)) = s.draw fun c => f c >>= fun d => g d d := by
  unfold Vi.draw
  rcases hf : f s.cga with e | c
  · simp only [hf, error_bind]
  · simp only [hf, ok_bind]

/-- A report draws its line. -/
theorem printReport_eq (msg : List UInt8) (s : Vi W) :
    printReport msg s = s.draw (reportLine msg) := by
  have hline : ∀ t : Vi W, (t.draw (setCursorPos rows 0) >>= fun u => u.draw (consolewrite msg) >>=
      moveCursor t.cga.pos) = t.draw (printLine msg t.cga.pos) := by
    intro t
    unfold Vi.draw printLine
    rcases setCursorPos rows 0 t.cga with e | c
    · rfl
    · simp only [ok_bind]
      rcases consolewrite msg c with e | d
      · rfl
      · rfl
  unfold printReport
  simp only [hline]
  exact draw_bind _ (fun c => printLine msg c.pos) s

/-- When a message disturbs nothing. -/
theorem printOnStatusLine_undisturbed_iff (hp : s.cga.pos < 24 * 80) :
    Undisturbed (printOnStatusLine msg) s ↔ RowFits msg (24 * 80) ∧ LitAt s.cga s.cga.pos := by
  rw [← statusLine_restores_iff hp]
  exact undisturbed_draw_iff

/-- When a report disturbs nothing. -/
theorem printReport_undisturbed_iff (hp : s.cga.pos < 24 * 80) :
    Undisturbed (printReport msg) s ↔ RowFits msg (24 * 80) ∧ LitAt s.cga s.cga.pos := by
  rw [← reportLine_restores_iff hp, ← undisturbed_draw_iff]
  simp only [Undisturbed, printReport_eq]

/-! ## The messages -/

/-- The strings `printOnStatusLine` is called with. -/
def statusMessages : List (List UInt8) :=
  [str "--COMMAND--", str "No current filename!!!", str "save error!!!",
    str "last one same char", str "search hit BOTTOM, continuing at TOP", str "Pattern not found",
    str "search hit TOP, continuing at BOTTOM", str "can't delete the character!!!", [],
    str "No write since last change (add ! to override)", str "vi made by huanggang 2016150170",
    str "huanggang is smart and nice boy!", str "wrong command!", str "--INSERT--",
    str "No previous regular expression", str "--REPLACE--", str "Already at newest change",
    str "encounter a wrong char !!!!!!"]

/-- No message disturbs the text area. -/
structure QuietStatus (s : Vi W) : Prop where
  messages : ∀ msg ∈ statusMessages, Undisturbed (printOnStatusLine msg) s
  pattern : Undisturbed (printReport (chr '/' :: s.lastFindString)) s
  report : Undisturbed showStatus s

/-- The file name has no newline, and leaves room in a row for the numbers of the report and the
text between them. -/
def ReportFits (fn : List UInt8) (s : Vi W) : Prop :=
  NL ∉ fn ∧ rowWidth fn + (printint s.dot).length + (printint s.endp).length +
    (printint ((s.dot * 100).tdiv s.endp)).length + 17 < columns

instance (fn : List UInt8) (s : Vi W) : Decidable (ReportFits fn s) :=
  inferInstanceAs (Decidable (_ ∧ _))

theorem rowWidth_append (a b : List UInt8) : rowWidth (a ++ b) = rowWidth a + rowWidth b := by
  simp [rowWidth]

/-- The characters of a number are visible. -/
theorem printint_visible (x : ℤ) : ∀ c ∈ printint x, 33 ≤ c ∧ c ≤ 126 := by
  intro c hc
  rcases List.mem_append.mp hc with h | h
  · split_ifs at h
    · obtain rfl := List.mem_singleton.mp h
      decide
    · cases h
  · obtain ⟨d, hd, rfl⟩ := List.mem_map.mp h
    have hdigit := Nat.isDigit_of_mem_toDigits (by decide) (by decide) hd
    simp only [Char.isDigit, Bool.and_eq_true, decide_eq_true_eq] at hdigit
    have hlo : 48 ≤ d.val.toNat := hdigit.1
    have hhi : d.val.toNat ≤ 57 := hdigit.2
    have hval : (chr d).toNat = d.val.toNat := by
      have : (chr d).toNat = d.val.toNat % 256 := rfl
      omega
    rw [UInt8.le_iff_toNat_le, UInt8.le_iff_toNat_le, hval]
    exact ⟨hlo.trans' (by decide), hhi.trans (by decide)⟩

/-- When the report of Ctrl-G fits in the last row. -/
theorem rowFits_statusReport_iff {fn : List UInt8} (hcfn : s.cfn = some fn) :
    RowFits (statusReport s) (24 * 80) ↔ ReportFits fn s := by
  have hnl : ∀ x, NL ∉ printint x := fun x h => absurd (printint_visible x NL h) (by decide)
  have hw : ∀ x, rowWidth (printint x) = (printint x).length :=
    fun x => rowWidth_visible (printint_visible x)
  have hcons : ∀ (b : UInt8) (l : List UInt8), b ≠ TAB → rowWidth (b :: l) = 1 + rowWidth l := by
    intro b l hb
    simp [rowWidth, cellWidth, hb]
  have hcolon : rowWidth (str " : ") = 3 := by decide
  have hread : rowWidth (str "% has readed") = 12 := by decide
  have hspace : NL ≠ chr ' ' := by decide
  have hslash : NL ≠ chr '/' := by decide
  have hnlcolon : NL ∉ str " : " := by decide
  have hnlread : NL ∉ str "% has readed" := by decide
  unfold RowFits ReportFits statusReport
  rw [hcfn, Option.getD_some]
  simp only [rowWidth_append, hcons _ _ (show chr ' ' ≠ TAB by decide),
    hcons _ _ (show chr '/' ≠ TAB by decide), hw, hcolon, hread, List.mem_append, List.mem_cons,
    hnl, hspace, hslash, hnlcolon, hnlread, or_false, columns]
  refine and_congr_right fun _ => ?_
  omega

/-- What the messages disturb, in a state whose remembered pattern is short. -/
theorem quietStatus_iff {fn : List UInt8} (hcfn : s.cfn = some fn)
    (hpat : ShortPattern s.lastFindString) (hp : s.cga.pos < 24 * 80) :
    QuietStatus s ↔ LitAt s.cga s.cga.pos ∧ s.endp ≠ 0 ∧ ReportFits fn s := by
  have hstatus : Undisturbed showStatus s ↔
      s.endp ≠ 0 ∧ RowFits (statusReport s) (24 * 80) ∧ LitAt s.cga s.cga.pos := by
    rw [← printReport_undisturbed_iff hp]
    unfold Undisturbed showStatus
    split_ifs with hend
    · simp [hend]
    · simp [hend]
  rw [rowFits_statusReport_iff hcfn] at hstatus
  constructor
  · intro h
    obtain ⟨hend, hfits, hlit⟩ := hstatus.mp h.report
    exact ⟨hlit, hend, hfits⟩
  · rintro ⟨hlit, hend, hfits⟩
    refine ⟨fun msg hmsg => ?_, ?_, hstatus.mpr ⟨hend, hfits, hlit⟩⟩
    · have hall : ∀ msg ∈ statusMessages, RowFits msg (24 * 80) := by decide +kernel
      exact (printOnStatusLine_undisturbed_iff hp).mpr ⟨hall msg hmsg, hlit⟩
    · exact (printReport_undisturbed_iff hp).mpr ⟨hpat.rowFits, hlit⟩

/-! ## Every run -/

/-- No step changes the file name. -/
theorem Effect.cfn {m : May} {s t : Vi W} (h : Effect m s t) : t.cfn = s.cfn := by
  rcases h.frame with ⟨_, _, _, _, _, _, _, rfl⟩ | ⟨_, rfl⟩ | ⟨_, -, rfl⟩ | ⟨-, _, _, _, _, rfl⟩
  all_goals rfl

/-- No pass changes it. -/
theorem step_cfn (h : Step sys x y) (hx : Paused x.vi) : y.vi.cfn = x.vi.cfn := by
  obtain ⟨fuel, r, ks, u, v, hp⟩ := step_cases h
  have hu := hp.paused hx
  obtain ⟨_, _, _, hy⟩ := synchronize_viewed hp.sync
  obtain ⟨c, hu', -⟩ := hp.start
  have hux : u.cfn = x.vi.cfn := by
    rw [hu']
    rfl
  have hyv : y.vi.cfn = v.cfn := by rw [hy]
  rw [hyv, ← hux]
  rcases execCmd_cases sys fuel _ ks hu _ hp.exec with h | ⟨f, hf, h⟩ | ⟨-, -, h⟩
  · exact h.preserves (P := fun t => t.cfn = u.cfn) (fun s t h hs => h.cfn.trans hs)
      (fun _ _ _ hs => hs) rfl
  · obtain ⟨-, rfl⟩ := Prod.mk.inj h
    obtain ⟨_, _, _, _, _, _, _, hfu⟩ := Cmd.edit_edited hf u
    rw [hfu]
  · obtain ⟨_, _, rfl, -⟩ := dotDelete_ensures fuel _ v h
    rfl

/-- The cell under the cursor is lit after a synchronisation. -/
theorem synchronize_litAt {fuel : ℕ} (h : synchronize fuel s = .ok t) :
    LitAt t.cga t.cga.pos := by
  obtain ⟨u, -, h⟩ := bind_eq_ok.mp h
  obtain ⟨v, -, h⟩ := bind_eq_ok.mp h
  obtain ⟨c, hc, h⟩ := bind_eq_ok.mp h
  cases h
  exact setCursorPos_litAt hc

/-- It is lit, and above the last row, when the main loop is entered. -/
theorem Opens.litAt {fn : List UInt8} (h : Opens sys fn s) :
    LitAt s.cga s.cga.pos ∧ s.cga.pos < 24 * 80 := by
  obtain ⟨fuel, m, cga, w, h⟩ := h
  simp only [editFile] at h
  split at h
  · cases h
  split at h
  · cases h
  obtain ⟨t, -, h⟩ := bind_eq_ok.mp h
  obtain ⟨u, hu, h⟩ := bind_eq_ok.mp h
  cases h
  obtain ⟨c, hc, hu⟩ := bind_eq_ok.mp hu
  cases hu
  refine ⟨setCursorPos_litAt hc, ?_⟩
  have hpos : c.pos = 0 := (setCursorPos_pos hc).2
  dsimp only
  omega

/-- The cell under the cursor is lit, and above the last row, in every run from an opened file. -/
theorem run_litAt {fn : List UInt8} {c : Option UInt8} {ks : List Read} (hs : Opens sys fn s)
    (h : Run sys ⟨c, ks, s⟩ y) : LitAt y.vi.cga y.vi.cga.pos ∧ y.vi.cga.pos < 24 * 80 := by
  refine Run.preserves
    (P := fun y => LitAt y.vi.cga y.vi.cga.pos ∧ y.vi.cga.pos < 24 * 80) h ?_ hs.litAt
  intro x y hstep _
  obtain ⟨fuel, r, ks, u, v, hp⟩ := step_cases hstep
  refine ⟨synchronize_litAt hp.sync, ?_⟩
  obtain ⟨b, c, hy, hb, hpos, -⟩ := synchronize_ensures fuel v _ hp.sync
  rw [hy]
  exact hpos.trans_lt hb.lt

/-- The file name is the one that was opened. -/
theorem run_cfn {fn : List UInt8} {c : Option UInt8} {ks : List Read} (hs : Opens sys fn s)
    (h : Run sys ⟨c, ks, s⟩ y) : y.vi.cfn = some fn := by
  have hrun := Run.preserves (P := fun y => Paused y.vi ∧ y.vi.cfn = some fn) h
    (fun x y hstep hx => ⟨step_paused hstep hx.1, (step_cfn hstep hx.1).trans hx.2⟩)
    ⟨hs.paused, by obtain ⟨_, _, _, _, _, -, _, _, rfl, -⟩ := hs.cases; rfl⟩
  exact hrun.2

/-- **Messages.** In every state reached from an opened file the cell under the cursor is lit.
Whatever the screen and the cursor above row 24, no message disturbs the text area exactly if this
cell is lit, there is a text, and the report of Ctrl-G fits.

**Proof sketch.** Each pass of the main loop ends with the cursor drawn (`run_litAt`), keeps the
name of the file (`run_cfn`) and leaves a pattern that is short. So all messages fit in row 24 but
the report of Ctrl-G, which may not; and a message that fits disturbs nothing but the cell under the
cursor, which it lights (`quietStatus_iff`). -/
theorem quietStatus_run_iff {fn : List UInt8} {ks : List Read} (hs : Opens sys fn s)
    (h : Run sys ⟨none, ks, s⟩ y) : (LitAt y.vi.cga y.vi.cga.pos ∧ y.vi.cga.pos < 24 * 80) ∧
      ∀ c : Cga, c.pos < 24 * 80 → (QuietStatus { y.vi with cga := c } ↔
        LitAt c c.pos ∧ y.vi.endp ≠ 0 ∧ ReportFits fn y.vi) :=
  ⟨run_litAt hs h, fun c hp => quietStatus_iff (s := { y.vi with cga := c }) (run_cfn hs h)
    (run_paused hs h).pattern hp⟩

/-- `quietStatus_run_iff` when a file of two characters has been opened. -/
theorem quietStatus_run_iff_open : ∃ s, Opens (readOnly (str "ab")) (str "f") s ∧
    (LitAt s.cga s.cga.pos ∧ s.cga.pos < 24 * 80) ∧
      ∀ c : Cga, c.pos < 24 * 80 → (QuietStatus { s with cga := c } ↔
        LitAt c c.pos ∧ s.endp ≠ 0 ∧ ReportFits (str "f") s) := by
  obtain ⟨s, y, hs, -⟩ := session_run (readOnly (str "ab")) 20 0 (str "f") [] ()
    (P := fun _ _ => True) (by decide +kernel)
  exact ⟨s, hs, quietStatus_run_iff (y := ⟨none, [], s⟩) hs .refl⟩

/-- With a path of 61 characters the report of Ctrl-G does not fit in the row. -/
theorem not_forall_quietStatus : ¬∀ (fn content : List UInt8) (s : Vi Unit) (ks : List Read)
    (y : Config Unit), Opens (readOnly content) fn s →
    Run (readOnly content) ⟨none, ks, s⟩ y → QuietStatus y.vi := by
  intro hall
  obtain ⟨s, y, hs, -, hf⟩ := session_run (readOnly (str "ab")) 20 0
    ((List.replicate 30 (str "./")).flatten ++ str "f") [] ()
    (P := fun s _ => ¬ReportFits ((List.replicate 30 (str "./")).flatten ++ str "f") s)
    (by decide +kernel)
  have hstart : Run (readOnly (str "ab")) ⟨none, [], s⟩ ⟨none, [], s⟩ := .refl
  have hquiet := hall _ _ s [] ⟨none, [], s⟩ hs hstart
  have hcfn := run_cfn hs hstart
  exact hf ((quietStatus_iff hcfn hs.paused.pattern hs.litAt.2).mp hquiet).2.2

end HgXv6
