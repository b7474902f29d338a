import HgXv6.Editor.LineStart
import HgXv6.Editor.Save

set_option relaxedAutoImplicit false
set_option autoImplicit false

/-!
# The window starts at a line

The top of the window is the start of a line in every state between two commands, if every
command was given in a state in which it keeps it so. Edits take place below the top of the
window. Insert and replace mode adjust the window after each key, and all other commands once;
the calls that print, prompt and save leave text, cursor and window alone.

## Main definitions

* `HgXv6.Unmoved` — text, cursor and window have not changed.
* `HgXv6.KeyMode`, `HgXv6.KeyMode.Fits` — insert and replace mode, and the keys after which the
  adjustment of the window fits.
* `HgXv6.Aligns` — the states in which a command leaves the window at the start of a line.

## Main results

* `HgXv6.KeyMode.Keeps.loop` — the loop of a mode.
* `HgXv6.execCmd_lined` — a command in such a state.
* `HgXv6.lineStart_run` — the window starts at a line in every run of such commands.
* `HgXv6.aligns_move` — what the condition says of a move where no line is too long.
-/

namespace HgXv6

open Prog

variable {W : Type} {sys : Sys W} {m : ℤ → UInt8} {p q : ℤ}

/-! ## Calls that leave text, cursor and window alone -/

/-- From `s` to `t` text, cursor and window have not changed. -/
structure Unmoved (s t : Vi W) : Prop where
  mem : t.mem = s.mem
  endp : t.endp = s.endp
  dot : t.dot = s.dot
  screenbegin : t.screenbegin = s.screenbegin

theorem Unmoved.refl (s : Vi W) : Unmoved s s := ⟨rfl, rfl, rfl, rfl⟩

theorem Unmoved.trans {s t u : Vi W} (h : Unmoved s t) (h' : Unmoved t u) : Unmoved s u :=
  ⟨h'.mem.trans h.mem, h'.endp.trans h.endp, h'.dot.trans h.dot,
    h'.screenbegin.trans h.screenbegin⟩

theorem Unmoved.lined {s t : Vi W} (h : Unmoved s t) (hs : Lined s) : Lined t :=
  hs.congr h.mem h.dot h.screenbegin

theorem Unmoved.topFits {s t : Vi W} (h : Unmoved s t) (hs : TopFits s) : TopFits t := by
  unfold TopFits lastTop HgXv6.pulledBack at hs ⊢
  rw [h.mem, h.endp, h.dot, h.screenbegin]
  exact hs

theorem draw_unmoved (f : Cga → Except Stop Cga) (s : Vi W) : Ensures (s.draw f) (Unmoved s) := by
  refine (draw_ensures f s).mono ?_
  rintro _ ⟨c, -, rfl⟩
  exact ⟨rfl, rfl, rfl, rfl⟩

/-- Reading the key that a command takes. -/
theorem readArg_unmoved (ks : List Read) (s : Vi W) :
    Ensures (readArg ks s) fun r => Unmoved s r.2.2 := by
  cases ks with
  | nil => exact (ensures_error _ _).mpr trivial
  | cons r ks => exact (ensures_ok _ _).mpr ⟨rfl, rfl, rfl, rfl⟩

theorem printReport_unmoved (msg : List UInt8) (s : Vi W) :
    Ensures (printReport msg s) (Unmoved s) := by
  refine (printReport_ensures msg s).mono ?_
  rintro _ ⟨c, rfl, -⟩
  exact ⟨rfl, rfl, rfl, rfl⟩

/-- What is drawn before and after a quiet call. -/
theorem Unmoved.bind {s t : Vi W} {x : Except Stop (Vi W)} (h : Unmoved s t)
    (hx : Ensures x (Unmoved t)) : Ensures x (Unmoved s) :=
  hx.mono fun _ hu => h.trans hu

/-- A synchronisation does not move a window that shows the cursor. -/
theorem synchronize_unmoved {s : Vi W} (h : InView s) (fuel : ℕ) :
    Ensures (synchronize fuel s) (Unmoved s) := by
  refine (synchronize_ensures fuel s).mono ?_
  rintro _ ⟨b, c, rfl, hb, -⟩
  exact ⟨rfl, rfl, rfl, hb.stay h.le h.lt⟩

/-- Nor does a redraw. -/
theorem redraw_unmoved {s : Vi W} (h : InView s) (fuel : ℕ) :
    Ensures (redraw fuel s) (Unmoved s) := by
  refine (redraw_ensures fuel s).mono ?_
  rintro _ ⟨b, c, rfl, hb, -⟩
  exact ⟨rfl, rfl, rfl, hb.stay h.le h.lt⟩

theorem Unmoved.inView {s t : Vi W} (h : Unmoved s t) (hs : InView s) : InView t := by
  refine ⟨?_, ?_⟩
  · rw [h.screenbegin, h.dot]
    exact hs.le
  · rw [h.mem, h.screenbegin, h.dot]
    exact hs.lt

/-- A search leaves text, cursor and window alone until it has ended. -/
theorem search_unmoved {s : Vi W} (hs : InView s) (dir : Direction) (pat : List UInt8) (fuel : ℕ) :
    Ensures (search fuel dir pat s) fun r => Unmoved s r.2 := by
  refine Ensures.bind (P := fun x => Unmoved s x.1) ?_ fun x hx => (ensures_ok _ _).mpr hx
  refine loopFuel_ensures (fun x => Unmoved s x.1) _ ?_ fuel _ (Unmoved.refl s)
  rintro ⟨t, p, count⟩ ht
  refine Ensures.mono (P := fun r => Unmoved s r.1.1) ?_ fun r hr => by split_ifs <;> exact hr
  have hprint : ∀ {u : Vi W} {msg : List UInt8}, Unmoved s u →
      Ensures (printOnStatusLine msg u) (Unmoved s) := fun hu => hu.bind (draw_unmoved _ _)
  unfold searchBody
  dsimp only
  by_cases hstop : p = dir.edge t.endp ∧ count = 1
  · rw [if_pos hstop]
    exact (ensures_ok _ _).mpr ht
  · rw [if_neg hstop]
    refine Ensures.bind (P := fun x => Unmoved s x.1) ?_ ?_
    · split_ifs
      · have hsync : Ensures (printOnStatusLine dir.msg t >>= synchronize fuel) (Unmoved s) :=
          Ensures.bind (hprint ht) fun u hu => hu.bind (synchronize_unmoved (hu.inView hs) fuel)
        have hturn : Ensures (printOnStatusLine dir.msg t >>= synchronize fuel >>= redraw fuel)
            (Unmoved s) :=
          Ensures.bind hsync fun u hu => hu.bind (redraw_unmoved (hu.inView hs) fuel)
        exact Ensures.bind hturn fun u hu => (ensures_ok _ _).mpr hu
      · exact (ensures_ok _ _).mpr ht
    · rintro ⟨u, q, k⟩ hu
      dsimp only
      split_ifs
      · exact (ensures_ok _ _).mpr hu
      · exact Ensures.bind (hprint hu) fun v hv => (ensures_ok _ _).mpr hv
      · exact (ensures_ok _ _).mpr hu

/-- The prompt `/` leaves them alone. -/
theorem patternLoop_unmoved (ks : List Read) (tmp : Option UInt8) (pat : List UInt8) (s : Vi W) :
    Ensures (patternLoop ks tmp pat s) fun r => Unmoved s r.2.2 := by
  induction ks generalizing tmp pat s with
  | nil =>
    unfold patternLoop
    split_ifs
    · exact (ensures_error _ _).mpr trivial
    · exact (ensures_ok _ _).mpr (Unmoved.refl s)
  | cons r ks ih =>
    have hact : Unmoved s (s.act (.arg (r.into tmp))) := ⟨rfl, rfl, rfl, rfl⟩
    have hrest : ∀ {c : Option UInt8} {q : List UInt8} {t : Vi W}, Unmoved s t →
        Ensures (patternLoop ks c q t) fun r => Unmoved s r.2.2 :=
      fun ht => (ih _ _ _).mono fun _ hr => ht.trans hr
    simp only [patternLoop]
    split_ifs
    · exact Ensures.bind (hact.bind (draw_unmoved _ _)) fun t ht => (ensures_ok _ _).mpr ht
    · exact (ensures_ok _ _).mpr hact
    · exact Ensures.bind (hact.bind (draw_unmoved _ _)) fun t ht => hrest ht
    · exact hrest hact
    · exact (ensures_ok _ _).mpr (Unmoved.refl s)

/-- Saving leaves them alone. -/
theorem fileSave_unmoved (sys : Sys W) (s : Vi W) :
    Ensures (fileSave sys s) fun r => Unmoved s r.2 := by
  refine (fileSave_ensures sys s).mono ?_
  rintro r ⟨c, w, oks, hr, -⟩
  rw [hr]
  exact ⟨rfl, rfl, rfl, rfl⟩

/-- The prompt `:` leaves them alone. -/
theorem colon_unmoved (sys : Sys W) (ks : List Read) (s : Vi W) :
    Ensures (colon sys ks s) fun r => Unmoved s r.2 := by
  refine Ensures.bind (draw_unmoved _ s) fun t ht => ?_
  refine Ensures.bind (ht.bind (draw_unmoved _ t)) fun u hu => ?_
  have hprompt : Prompted u u := ⟨u.cga, [], by rw [List.append_nil], rfl⟩
  refine Ensures.bind (colonLoop_ensures hprompt ks (by decide)) ?_
  rintro ⟨order, ks', v⟩ ⟨-, _, _, rfl, -⟩
  refine Ensures.bind (P := Unmoved s) ?_ fun v hv => ?_
  · have hv : ∀ {c acts e h}, Unmoved s { u with
        cga := c, trace := acts, editing := e, hasChanged := h } :=
      fun {_ _ _ _} => ⟨hu.mem, hu.endp, hu.dot, hu.screenbegin⟩
    unfold colonCommand
    split_ifs
    · exact (ensures_ok _ _).mpr hv
    · exact hv.bind (draw_unmoved _ _)
    · exact (ensures_ok _ _).mpr hv
    · exact Ensures.bind (fileSave_unmoved sys _) fun r hr =>
        (ensures_ok _ _).mpr ((hv.trans hr).trans ⟨rfl, rfl, rfl, rfl⟩)
    · exact Ensures.bind (fileSave_unmoved sys _) fun r hr => (ensures_ok _ _).mpr (hv.trans hr)
    · exact hv.bind (draw_unmoved _ _)
    · exact hv.bind (draw_unmoved _ _)
    · exact hv.bind (draw_unmoved _ _)
  · exact Ensures.bind (hv.bind (draw_unmoved _ v)) fun w hw => (ensures_ok _ _).mpr hw

/-! ## Insert and replace mode -/

/-- What insert and replace mode do with keys, until ESC. -/
structure KeyMode (W : Type) where
  msg : List UInt8
  act : UInt8 → Act
  /-- what a key does to text and cursor, before the window is adjusted -/
  edit : UInt8 → Vi W → Vi W
  /-- what a key does -/
  pass : ℕ → UInt8 → Vi W → Except Stop (Vi W)

/-- Insert mode. -/
def insertMode : KeyMode W where
  msg := str "--INSERT--"
  act := .insert
  edit c s := if isPrintChar c then typeText c s else insertKey c s
  pass fuel c s := if isPrintChar c then typeChar fuel c s else synchronize fuel (insertKey c s)

/-- Replace mode. -/
def replaceMode : KeyMode W where
  msg := str "--REPLACE--"
  act := .replace
  edit c s := if isPrintChar c then overText c s else s
  pass fuel c s := if isPrintChar c then overtype fuel c s else .ok s

namespace KeyMode

/-- The loop of a mode. -/
def loop (M : KeyMode W) (fuel : ℕ) :
    List Read → Option UInt8 → Vi W → Except Stop (List Read × Vi W)
  | [], _, s => printOnStatusLine M.msg s >>= fun _ => .error .blocked
  | r :: ks, c, s =>
    printOnStatusLine M.msg s >>= fun s =>
    let c := r.into c
    let s := s.act (M.act c)
    if c = VI_K_ESC then printOnStatusLine (str "--COMMAND--") s >>= fun s => .ok (ks, s)
    else M.pass fuel c s >>= M.loop fuel ks (some c)

/-- Whenever a key makes the mode adjust the window, the adjustment fits. -/
def Fits (M : KeyMode W) (fuel : ℕ) : List Read → Option UInt8 → Vi W → Prop
  | [], _, _ => True
  | r :: ks, c, s => ∀ u, printOnStatusLine M.msg s = .ok u → r.into c ≠ VI_K_ESC →
      TopFits (M.edit (r.into c) (u.act (M.act (r.into c)))) ∧
      ∀ t, M.pass fuel (r.into c) (u.act (M.act (r.into c))) = .ok t →
        M.Fits fuel ks (some (r.into c)) t

/-- A key after which the adjustment fits keeps the invariant. -/
def Keeps (M : KeyMode W) : Prop :=
  ∀ fuel c s, Lined s → s.screenbegin ≤ s.dot → TopFits (M.edit c s) →
    Ensures (M.pass fuel c s) fun t => Lined t ∧ t.screenbegin ≤ t.dot

/-- The loop of such a mode keeps the invariant.

**Proof sketch.** Induction on the keys. The message that the loop prints before each key and the
record of the key leave text, window and cursor alone. ESC ends the mode; any other key is handled
by the mode, which keeps the invariant as long as the adjustment after it fits, and then the rest of
the keys has that condition again. -/
theorem Keeps.loop {M : KeyMode W} (hM : M.Keeps) {fuel : ℕ} {ks : List Read} {c : Option UInt8}
    {s : Vi W} (h : Lined s) (hle : s.screenbegin ≤ s.dot) (hfits : M.Fits fuel ks c s) :
    Ensures (M.loop fuel ks c s) fun r => Lined r.2 := by
  induction ks generalizing c s with
  | nil => exact Ensures.bind (fun _ h => h) fun _ _ => (ensures_error _ _).mpr trivial
  | cons r ks ih =>
    simp only [KeyMode.loop]
    refine Ensures.bind (P := fun u => Unmoved s u ∧ printOnStatusLine M.msg s = .ok u)
      (fun u hu => ⟨draw_unmoved _ s u hu, hu⟩) ?_
    rintro u ⟨hu, hprint⟩
    have hread : Unmoved s (u.act (M.act (r.into c))) :=
      hu.trans ⟨rfl, rfl, rfl, rfl⟩
    by_cases hesc : r.into c = VI_K_ESC
    · rw [if_pos hesc]
      exact Ensures.bind (hread.bind (draw_unmoved _ _)) fun t ht =>
        (ensures_ok _ _).mpr (ht.lined h)
    · rw [if_neg hesc]
      obtain ⟨h1, h2⟩ := hfits u hprint hesc
      have hle' : (u.act (M.act (r.into c))).screenbegin ≤ (u.act (M.act (r.into c))).dot := by
        rw [hread.screenbegin, hread.dot]
        exact hle
      intro x hx
      obtain ⟨t, ht, hx⟩ := bind_eq_ok.mp hx
      obtain ⟨hlined, hview⟩ := hM fuel _ _ (hread.lined h) hle' h1 t ht
      exact ih hlined hview (h2 t ht) x hx

end KeyMode

/-- The loop of `insert` is that of its mode. -/
theorem insertLoop_eq_loop (fuel : ℕ) (ks : List Read) (c : Option UInt8) (s : Vi W) :
    insertLoop fuel ks c s = insertMode.loop fuel ks c s := by
  induction ks generalizing c s with
  | nil => rfl
  | cons r ks ih =>
    rw [insertLoop_cons]
    simp only [KeyMode.loop, insertMode]
    congr 1
    funext u
    split_ifs
    · rfl
    · congr 1
      funext t
      exact ih _ _
    · congr 1
      funext t
      exact ih _ _

/-- The loop of the command `R` is that of its mode. -/
theorem replaceLoop_eq_loop (fuel : ℕ) (ks : List Read) (tmp : Option UInt8) (s : Vi W) :
    replaceLoop fuel ks tmp s = replaceMode.loop fuel ks tmp s := by
  induction ks generalizing tmp s with
  | nil => rfl
  | cons r ks ih =>
    rw [replaceLoop_cons]
    simp only [KeyMode.loop, replaceMode]
    congr 1
    funext u
    split_ifs
    · rfl
    · congr 1
      funext t
      exact ih _ _
    · exact ih _ _

theorem typeText_editedFrom (c : UInt8) (s : Vi W) : EditedFrom s.dot s (typeText c s) := by
  simp only [typeText, makeHoleAdd_dot]
  exact ((makeHoleAdd_editedFrom _ _ s).trans (store_editedFrom _ _ _)).trans
    (dotIncrease_editedFrom _ _)

theorem overText_editedFrom (c : UInt8) (s : Vi W) : EditedFrom s.dot s (overText c s) :=
  EditedFrom.trans (t := store s.dot c s) (store_editedFrom _ _ _) (dotIncrease_editedFrom _ _)

theorem le_dotIncrease (s : Vi W) : s.dot ≤ (dotIncrease s).dot := by
  unfold dotIncrease
  split_ifs
  · exact (Int.lt_succ s.dot).le
  · exact le_rfl

/-- Typing and overtyping take place at the cursor, and the cursor does not go back. -/
theorem Lined.typeText {s : Vi W} (h : Lined s) (hle : s.screenbegin ≤ s.dot) (c : UInt8) :
    Lined (HgXv6.typeText c s) := by
  refine h.edited hle (typeText_editedFrom c s) (h.dot.trans ?_)
  exact (makeHoleAdd_dot s.dot 1 s).symm.le.trans (le_dotIncrease _)

theorem Lined.overText {s : Vi W} (h : Lined s) (hle : s.screenbegin ≤ s.dot) (c : UInt8) :
    Lined (HgXv6.overText c s) :=
  h.edited hle (overText_editedFrom c s) (h.dot.trans (le_dotIncrease _))

/-- Insert mode keeps the invariant after every key for which the adjustment fits. -/
theorem insertMode_keeps : (insertMode : KeyMode W).Keeps := by
  intro fuel c s h hle hfits
  simp only [insertMode] at hfits ⊢
  split_ifs at hfits ⊢
  · intro t ht
    have hlined := redraw_synchronize_lined (h.typeText hle c) hfits fuel t ht
    obtain ⟨b, d, rfl, hb, -⟩ := redraw_synchronize_ensures fuel _ t ht
    exact ⟨hlined, hb.le⟩
  · intro t ht
    exact ⟨synchronize_lined (h.insertKey c) hfits fuel t ht, (synchronize_settled ht).le⟩

/-- So does replace mode. -/
theorem replaceMode_keeps : (replaceMode : KeyMode W).Keeps := by
  intro fuel c s h hle hfits
  simp only [replaceMode] at hfits ⊢
  split_ifs at hfits ⊢
  · intro t ht
    exact ⟨redraw_lined (h.overText hle c) hfits fuel t ht, (redraw_redrawn ht).le⟩
  · exact (ensures_ok _ _).mpr ⟨h, hle⟩

/-! ## Commands -/

/-- The state in which the commands that end in insert mode enter it. -/
def Cmd.enters (fuel : ℕ) (cmd : Cmd) (s : Vi W) : Option (Except Stop (Vi W)) :=
  match cmd with
  | .insert => some (.ok s)
  | .append => some (.ok (dotRight s))
  | .insertHead => some (synchronize fuel (dotHead s))
  | .appendTail => some (synchronize fuel (dotDecrease (dotTail s)))
  | .openBelow => some (redraw fuel (HgXv6.openBelow s) >>= synchronize fuel)
  | .openAbove => some (redraw fuel (HgXv6.openAbove s) >>= synchronize fuel)
  | _ => none

/-- Such a command is what it does first, and insert mode. -/
theorem execCmd_enters {cmd : Cmd} {fuel : ℕ} {s : Vi W} {x : Except Stop (Vi W)}
    (h : cmd.enters fuel s = some x) (sys : Sys W) (ks : List Read) :
    execCmd sys fuel cmd ks s = x >>= insert fuel ks := by
  cases cmd with
  | insert | append | insertHead | appendTail | openBelow | openAbove =>
    cases h
    rfl
  | _ => cases h

/-- The commands that adjust the window themselves to the place where they leave the cursor,
without having moved it before. -/
def Cmd.adjusts : Cmd → Bool
  | .slash | .next | .prev | .replace => true
  | _ => false

/-- The states, and keys to come, in which a command keeps the window at the start of a line. The
moves have their condition; wherever the window is adjusted, in insert and replace mode after
each key, before insert mode by `A`, and at last at the place where the command leaves the cursor,
the adjustment fits; and no search runs out of the text at its start. -/
structure Aligns (sys : Sys W) (cmd : Cmd) (ks : List Read) (s : Vi W) : Prop where
  move : ∀ mv, cmd = .move mv → MoveAligns mv s
  appendTail : cmd = .appendTail → TopFits (dotDecrease (dotTail s))
  insert : ∀ fuel x t, cmd.enters fuel s = some x → x = .ok t →
    insertMode.Fits fuel ks none { t with hasChanged := true }
  replace : cmd = .replaceMode → ∀ fuel, replaceMode.Fits fuel ks none { s with hasChanged := true }
  landing : ∀ fuel r, execCmd sys fuel cmd ks s = .ok r → 0 ≤ r.2.dot ∧
    TopFits { r.2 with
      screenbegin := if cmd.adjusts then s.screenbegin else r.2.screenbegin }

/-- The window is not below the start of the cursor's line. -/
theorem Lined.le_beginLine {s : Vi W} (h : Lined s) (hle : s.screenbegin ≤ s.dot) :
    s.screenbegin ≤ beginLine s.mem s.dot := by
  have h0 := beginLine_nonneg s.mem h.dot
  by_contra hlt
  rcases h.start with hz | hnl
  · omega
  · exact ne_of_beginLine_le (p := s.dot) (q := s.screenbegin - 1) (m := s.mem) (by omega)
      (by omega) hnl

/-- The edits at the cursor take place below the top of the window. -/
theorem Lined.edit {s : Vi W} (h : Lined s) (hle : s.screenbegin ≤ s.dot) {cmd : Cmd}
    {f : Vi W → Vi W} (hf : cmd.edit = some f) : Lined (f s) := by
  have hline := h.le_beginLine hle
  have hend := le_endLine s.mem s.endp s.dot
  cases cmd with
  | toggle =>
    cases hf
    exact h.edited hle (EditedFrom.trans (t := store s.dot (reverseChar (s.mem s.dot)) s)
      (store_editedFrom _ _ _) (dotIncrease_editedFrom _ _)) (h.dot.trans (le_dotIncrease _))
  | join =>
    cases hf
    exact h.edited (hle.trans hend) (makeHoleDelete_editedFrom le_rfl s) h.dot
  | deleteTail =>
    cases hf
    unfold HgXv6.deleteTail
    dsimp only
    split_ifs with hd
    · exact h.edited hle (makeHoleDelete_editedFrom hd s) h.dot
    · exact h
  | indent =>
    cases hf
    have hedit := (makeHoleAdd_editedFrom (beginLine s.mem s.dot) 1
      { s with hasChanged := true }).trans (store_editedFrom _ TAB _)
    have hdot : (HgXv6.indent s).dot = s.dot := makeHoleAdd_dot _ 1 { s with hasChanged := true }
    refine Lined.edited (s := { s with hasChanged := true }) (h.congr rfl rfl rfl) hline hedit ?_
    exact h.dot.trans_eq hdot.symm
  | unindent =>
    cases hf
    unfold HgXv6.unindent
    dsimp only
    split_ifs
    · exact h.edited hline (makeHoleDelete_editedFrom le_rfl s) h.dot
    · exact h
  | _ => cases hf

/-- A shorter stretch has no more cells. -/
theorem cells_mono_right (m : ℤ → UInt8) (hpq : p ≤ q) (a : ℤ) : cells m a p ≤ cells m a q := by
  by_cases hap : a ≤ p
  · have hsplit : (q - a).toNat = (p - a).toNat + (q - p).toNat := by omega
    unfold cells
    rw [hsplit, bytes_append, List.foldl_append]
    exact le_foldl_cellStep _ _
  · rw [cells_of_le m (by omega)]
    exact Nat.zero_le _

/-- The cursor goes back, but not above the window. -/
theorem InView.back {s : Vi W} (h : InView s) {d : ℤ} (h1 : s.screenbegin ≤ d) (h2 : d ≤ s.dot) :
    InView { s with dot := d } :=
  ⟨h1, (cells_mono_right s.mem h2 _).trans_lt h.lt⟩

/-- At the start of a line of the text no cells count against the window. -/
theorem topFits_of_lineStart {s : Vi W} (hstart : LineStart s.mem s.dot)
    (hend : s.dot ≤ s.endp - 1) : TopFits s := by
  right
  rw [lastTop, min_eq_left hend, hstart.beginLine, cells_of_le _ le_rfl]
  decide

/-- Going to the next line leads to the start of a line, or nowhere. -/
theorem dotNextLine_topFits {s : Vi W} (h : InView s) : TopFits (dotNextLine s).2 := by
  rw [dotNextLine_eq]
  dsimp only
  by_cases hp : endLine s.mem s.endp s.dot < s.endp - 1
  · have hstart := lineStart_succ (endLine_stop hp)
    rw [if_pos hp]
    split_ifs
    · exact topFits_of_lineStart hstart (by dsimp only; omega)
    · exact topFits_of_lineStart hstart (by dsimp only; omega)
  · rw [if_neg hp]
    exact h.topFits

/-- The new line below is put after the cursor. -/
theorem openBelow_fits {s : Vi W} (h : Lined s) (hs : InView s) :
    Lined (openBelow s) ∧ TopFits (openBelow s) := by
  have hle := le_nextLine s.mem s.endp s.dot
  have hedit := (makeHoleAdd_editedFrom (nextLine s.mem s.endp s.dot) 1 s).trans
    (store_editedFrom _ NL _)
  have hdot : (store (nextLine s.mem s.endp s.dot) NL
      (makeHoleAdd (nextLine s.mem s.endp s.dot) 1 s)).dot = s.dot := makeHoleAdd_dot _ _ _
  have hlined := h.edited (hs.le.trans hle) hedit (h.dot.trans_eq hdot.symm)
  have hview := hs.edited ⟨hedit.1, fun q hq => hedit.2 q (by omega)⟩ hdot
  exact ⟨hlined.dotNextLine, dotNextLine_topFits hview⟩

/-- The new line above is put at the start of the cursor's line, below the top of the window. -/
theorem openAbove_fits {s : Vi W} (h : Lined s) (hs : InView s) :
    Lined (openAbove s) ∧ TopFits (openAbove s) := by
  have hline := h.le_beginLine hs.le
  have h0 := beginLine_nonneg s.mem h.dot
  have hedit : EditedFrom (beginLine s.mem s.dot) { s with dot := beginLine s.mem s.dot }
      (openAbove s) := by
    have hadd := (makeHoleAdd_editedFrom (beginLine s.mem s.dot) 1 s).trans
      (store_editedFrom _ NL _)
    exact ⟨hadd.1, hadd.2⟩
  have hback := hs.back hline (beginLine_le _ _)
  exact ⟨(h.withDot h0).edited hline hedit h0, (hback.edited hedit rfl).topFits⟩

/-- Where insert mode is entered the invariant holds, and the cursor is not above the window. -/
theorem enters_lined {cmd : Cmd} {fuel : ℕ} {s t : Vi W} {x : Except Stop (Vi W)} (h : Lined s)
    (hs : InView s) (htail : cmd = .appendTail → TopFits (dotDecrease (dotTail s)))
    (hx : cmd.enters fuel s = some x) (ht : x = .ok t) : Lined t ∧ t.screenbegin ≤ t.dot := by
  have hsync : ∀ {u : Vi W}, Lined u → TopFits u → synchronize fuel u = .ok t →
      Lined t ∧ t.screenbegin ≤ t.dot := fun hu hfits ht =>
    ⟨synchronize_lined hu hfits fuel t ht, (synchronize_settled ht).le⟩
  have hopen : ∀ {u : Vi W}, Lined u ∧ TopFits u → (redraw fuel u >>= synchronize fuel) = .ok t →
      Lined t ∧ t.screenbegin ≤ t.dot := by
    rintro u ⟨hu, hfits⟩ ht
    have hlined := redraw_synchronize_lined hu hfits fuel t ht
    obtain ⟨b, c, rfl, hb, -⟩ := redraw_synchronize_ensures fuel u t ht
    exact ⟨hlined, hb.le⟩
  subst ht
  cases cmd with
  | insert =>
    cases hx
    exact ⟨h, hs.le⟩
  | append =>
    cases hx
    refine ⟨h.dotRight, ?_⟩
    unfold dotRight
    split_ifs
    · have hinc := le_dotIncrease s
      have hsb := (dotIncrease_editedFrom 0 s).1
      have := hs.le
      omega
    · exact hs.le
  | insertHead =>
    have hfits : InView (dotHead s) := by
      rw [dotHead_eq]
      exact hs.back (h.le_beginLine hs.le) (beginLine_le _ _)
    exact hsync h.dotHead hfits.topFits (Option.some.inj hx)
  | appendTail => exact hsync h.dotTail.dotDecrease (htail rfl) (Option.some.inj hx)
  | openBelow => exact hopen (openBelow_fits h hs) (Option.some.inj hx)
  | openAbove => exact hopen (openAbove_fits h hs) (Option.some.inj hx)
  | _ => cases hx

/-- Insert mode, and the message after it. -/
theorem insert_lined {fuel : ℕ} {ks : List Read} {s : Vi W} (h : Lined s)
    (hle : s.screenbegin ≤ s.dot)
    (hfits : insertMode.Fits fuel ks none { s with hasChanged := true }) :
    Ensures (insert fuel ks s) fun r => Lined r.2 := by
  refine Ensures.bind (P := fun r => Lined r.2) ?_ fun r hr => ?_
  · rw [insertLoop_eq_loop]
    exact insertMode_keeps.loop (h.congr rfl rfl rfl) hle hfits
  · exact Ensures.bind (draw_unmoved _ r.2) fun t ht => (ensures_ok _ _).mpr (ht.lined hr)

/-- `findChar`, and the cursor at the pointer it returns. -/
theorem findChar_lined {s : Vi W} (h : Lined s) (hs : InView s) (fuel : ℕ) (c : UInt8) :
    Ensures (findChar fuel c s) fun r => Lined { r.2 with dot := r.1 } := by
  unfold findChar
  dsimp only
  have hx := @iterWhile_inv (ℤ × Bool)
    (fun x => !x.2 && decide (x.1 < endLine s.mem s.endp s.dot))
    (fun x => (x.1 + 1, s.mem (x.1 + 1) == c)) (fun x => 0 ≤ x.1) (fun x hx _ => by omega)
    (endLine s.mem s.endp s.dot - s.dot + 1).toNat (s.dot, false) h.dot
  split_ifs
  · refine Ensures.bind (synchronize_unmoved hs fuel) fun t ht => ?_
    refine Ensures.bind (ht.bind (draw_unmoved _ t)) fun u hu => ?_
    exact (ensures_ok _ _).mpr ((hu.lined h).withDot (hu.lined h).dot)
  · exact (ensures_ok _ _).mpr (h.withDot hx)

/-- The commands `n` and `N`: if the place found is not before the text and the adjustment to it
fits, the window is adjusted to it. -/
theorem searchAgain_lined {s : Vi W} (h : Lined s) (hs : InView s) (fuel : ℕ) (dir : Direction) :
    Ensures (searchAgain fuel dir s) fun t =>
      0 ≤ t.dot → TopFits { t with screenbegin := s.screenbegin } → Lined t ∧ TopFits t := by
  unfold searchAgain
  split_ifs
  · exact (draw_unmoved _ s).mono fun t ht _ _ => ⟨ht.lined h, (ht.inView hs).topFits⟩
  · refine Ensures.bind (search_unmoved hs dir _ fuel) ?_
    rintro ⟨p, u⟩ hu
    dsimp only at hu ⊢
    intro t ht h0 hfits
    obtain ⟨v, hv, ht⟩ := bind_eq_ok.mp ht
    have hquiet := printReport_unmoved _ v t ht
    obtain ⟨b, c, heq, hb, -⟩ := synchronize_ensures fuel _ v hv
    have hdot : t.dot = p := by rw [hquiet.dot, heq]
    have hmem : t.mem = u.mem := by rw [hquiet.mem, heq]
    have hendp : t.endp = u.endp := by rw [hquiet.endp, heq]
    have hstart : Unmoved { t with screenbegin := s.screenbegin } { u with dot := p } :=
      ⟨hmem.symm, hendp.symm, hdot.symm, hu.screenbegin⟩
    have hlined : Lined { u with dot := p } := (hu.lined h).withDot (hdot ▸ h0)
    have hv' := synchronize_lined hlined (hstart.topFits hfits) fuel v hv
    have hset := synchronize_settled hv
    exact ⟨hquiet.lined hv', (hquiet.inView ⟨hset.le, hset.lt⟩).topFits⟩

/-- The command `/`. -/
theorem slash_lined {s : Vi W} (h : Lined s) (hs : InView s) (fuel : ℕ) (ks : List Read) :
    Ensures (slash fuel ks s) fun r =>
      0 ≤ r.2.dot → TopFits { r.2 with screenbegin := s.screenbegin } →
      Lined r.2 ∧ TopFits r.2 := by
  refine Ensures.bind (draw_unmoved _ s) fun t ht => ?_
  refine Ensures.bind (ht.bind (draw_unmoved _ t)) fun u hu => ?_
  refine Ensures.bind ((patternLoop_unmoved ks none [] u).mono fun r hr => hu.trans hr) ?_
  rintro ⟨pat, ks', v⟩ hv
  dsimp only at hv ⊢
  rcases pat with _ | pat
  · exact (ensures_ok _ _).mpr fun _ _ => ⟨hv.lined h, (hv.inView hs).topFits⟩
  · refine Ensures.bind (hv.bind (draw_unmoved _ v)) fun w hw => ?_
    have hset : Unmoved s (if pat ≠ [] then { w with lastFindString := pat } else w) := by
      split_ifs
      · exact hw.trans ⟨rfl, rfl, rfl, rfl⟩
      · exact hw
    refine Ensures.bind (searchAgain_lined (hset.lined h) (hset.inView hs) fuel forward) ?_
    intro t ht
    rw [hset.screenbegin] at ht
    exact (ensures_ok _ _).mpr ht

/-- The command `r`. -/
theorem replace_lined {s : Vi W} (h : Lined s) (hs : InView s) (fuel : ℕ) (ks : List Read) :
    Ensures (execCmd sys fuel .replace ks s) fun r =>
      TopFits { r.2 with screenbegin := s.screenbegin } → Lined r.2 ∧ TopFits r.2 := by
  refine Ensures.bind (readArg_unmoved ks s) ?_
  rintro ⟨c, ks', t⟩ hread
  dsimp only at hread ⊢
  split_ifs
  · intro x hx hfits
    obtain ⟨u, hu, hx⟩ := bind_eq_ok.mp hx
    cases hx
    have hedit := overText_editedFrom c t
    have hred := redraw_redrawn hu
    obtain ⟨b, d, hueq, -⟩ := redraw_ensures fuel _ u hu
    have hstart : Unmoved { u with screenbegin := s.screenbegin } (overText c t) := by
      rw [hueq]
      exact ⟨rfl, rfl, rfl, hedit.1.trans hread.screenbegin⟩
    have hlined := redraw_lined ((hread.lined h).overText (hread.inView hs).le c)
      (hstart.topFits hfits) fuel u hu
    exact ⟨hlined, InView.topFits ⟨hred.le, hred.lt⟩⟩
  · exact (ensures_ok _ _).mpr fun _ => ⟨hread.lined h, (hread.inView hs).topFits⟩

/-- The commands that adjust the window at the end only, or in a mode: they keep the invariant.

**Proof sketch.** One case for each command. Those that enter insert mode do so in a state with the
invariant (`enters_lined`), and insert mode keeps it; an edit at the cursor takes place below the
top of the window, so that the line that the window starts with stays one; moves have their own
condition. The rest reads keys, draws or saves, which touches neither the text nor the window. -/
theorem execCmd_lined_of_not_adjusts {fuel : ℕ} {cmd : Cmd} {ks : List Read} {s : Vi W}
    (h : Lined s) (hs : InView s) (hk : Aligns sys cmd ks s) (hadj : cmd.adjusts = false) :
    Ensures (execCmd sys fuel cmd ks s) fun r => Lined r.2 := by
  rcases hx : cmd.enters fuel s with _ | x
  · rcases hf : cmd.edit (W := W) with _ | f
    · have hchange : Unmoved s { s with hasChanged := true } := ⟨rfl, rfl, rfl, rfl⟩
      cases cmd with
      | move mv =>
        exact Ensures.bind (doMove_lined h (hk.move mv rfl) fuel) fun t ht =>
          (ensures_ok _ _).mpr ht
      | find =>
        refine Ensures.bind (readArg_unmoved ks s) ?_
        rintro ⟨c, ks', t⟩ ht
        dsimp only at ht ⊢
        have hread : Unmoved s { t with lastFindChar := c } := ht.trans ⟨rfl, rfl, rfl, rfl⟩
        split_ifs
        · exact Ensures.bind (findChar_lined (hread.lined h) (hread.inView hs) fuel c)
            fun r hr => (ensures_ok _ _).mpr hr
        · exact (ensures_ok _ _).mpr (ht.lined h)
      | findAgain =>
        simp only [execCmd]
        split_ifs
        · exact Ensures.bind (findChar_lined h hs fuel _) fun r hr => (ensures_ok _ _).mpr hr
        · exact (ensures_ok _ _).mpr h
      | replaceMode =>
        simp only [execCmd, replaceLoop_eq_loop]
        exact replaceMode_keeps.loop (hchange.lined h) hs.le (hk.replace rfl fuel)
      | del => exact (ensures_ok _ _).mpr (hchange.lined h)
      | deleteChar =>
        have hedit := makeHoleDelete_editedFrom (le_refl s.dot) { s with hasChanged := true }
        have hview := (hchange.inView hs).edited hedit rfl
        exact Ensures.bind (redraw_lined ((hchange.lined h).edited hs.le hedit h.dot)
          hview.topFits fuel) fun t ht => (ensures_ok _ _).mpr ht
      | colon => exact (colon_unmoved sys ks s).mono fun r hr => hr.lined h
      | refresh =>
        refine Ensures.bind (P := Unmoved s) ?_ fun t ht => (ensures_ok _ _).mpr (ht.lined h)
        exact Ensures.bind (redraw_unmoved hs fuel) fun t ht => ht.bind (draw_unmoved _ t)
      | status =>
        simp only [execCmd, showStatus]
        split_ifs
        · exact (ensures_error _ _).mpr trivial
        · exact Ensures.bind (printReport_unmoved _ s) fun t ht =>
            (ensures_ok _ _).mpr (ht.lined h)
      | quit =>
        refine Ensures.bind (readArg_unmoved ks s) ?_
        rintro ⟨c, ks', t⟩ ht
        dsimp only at ht ⊢
        split_ifs
        · refine Ensures.bind (fileSave_unmoved sys _) fun r hr => (ensures_ok _ _).mpr ?_
          exact ((ht.trans hr).lined h).congr rfl rfl rfl
        · exact (ensures_ok _ _).mpr (ht.lined h)
      | other =>
        exact Ensures.bind (draw_unmoved _ s) fun t ht => (ensures_ok _ _).mpr (ht.lined h)
      | slash | next | prev | replace => cases hadj
      | insert | insertHead | append | appendTail | openBelow | openAbove => cases hx
      | toggle | join | deleteTail | indent | unindent => cases hf
    · rw [execCmd_edit hf, ensures_ok]
      exact h.edit hs.le hf
  · rw [execCmd_enters hx]
    intro r hr
    obtain ⟨t, ht, hr⟩ := bind_eq_ok.mp hr
    obtain ⟨hlined, hle⟩ := enters_lined h hs hk.appendTail hx ht
    exact insert_lined hlined hle (hk.insert fuel x t hx ht) r hr

/-- A command leaves the window at the start of a line, and the cursor where the adjustment of
the window fits. -/
theorem execCmd_lined {fuel : ℕ} {cmd : Cmd} {ks : List Read} {s : Vi W} (h : Lined s)
    (hs : InView s) (hk : Aligns sys cmd ks s) :
    Ensures (execCmd sys fuel cmd ks s) fun r => Lined r.2 ∧ TopFits r.2 := by
  intro r hr
  obtain ⟨h0, hfits⟩ := hk.landing fuel r hr
  rcases hadj : cmd.adjusts with _ | _
  · rw [hadj] at hfits
    exact ⟨execCmd_lined_of_not_adjusts h hs hk hadj r hr, hfits⟩
  · rw [hadj] at hfits
    cases cmd with
    | slash => exact slash_lined h hs fuel ks r hr h0 hfits
    | next | prev =>
      obtain ⟨t, ht, hr⟩ := bind_eq_ok.mp hr
      cases hr
      exact searchAgain_lined h hs fuel _ t ht h0 hfits
    | replace => exact replace_lined h hs fuel ks r hr hfits
    | _ => cases hadj

/-! ## Runs -/

/-- The next command keeps the window at the start of a line, from the state `u` on in which
`doCmd` is called. -/
def Config.Aligns (sys : Sys W) (x : Config W) : Prop :=
  ∀ r ks u, x.keys = r :: ks →
    printOnStatusLine (str "--COMMAND--") (x.vi.act (.exec (r.into x.c))) = .ok u →
    HgXv6.Aligns sys (keyCmd (r.into x.c)) ks u

/-- A pass with such a command leaves the window at the start of a line. -/
theorem step_lined {x y : Config W} (h : Step sys x y) (hk : x.Aligns sys) (hp : Paused x.vi)
    (hx : Lined x.vi) : Lined y.vi := by
  obtain ⟨hed, fuel, c, hiter, hc⟩ := h
  rcases hkeys : x.keys with _ | ⟨r, ks⟩
  · rw [hkeys] at hiter
    cases hiter
  · rw [hkeys] at hiter
    obtain ⟨u, hu, hiter⟩ := bind_eq_ok.mp hiter
    obtain ⟨⟨ks', v⟩, hv, hiter⟩ := bind_eq_ok.mp hiter
    obtain ⟨t, ht, hiter⟩ := bind_eq_ok.mp hiter
    simp only [Except.ok.injEq, Prod.mk.injEq] at hiter
    obtain ⟨-, -, rfl⟩ := hiter
    have hact : Unmoved x.vi (x.vi.act (.exec (r.into x.c))) := ⟨rfl, rfl, rfl, rfl⟩
    have hstart := hact.trans (draw_unmoved _ _ u hu)
    have hview : InView x.vi := ⟨hp.settled.le, hp.settled.lt⟩
    obtain ⟨h1, h2⟩ := execCmd_lined (hstart.lined hx) (hstart.inView hview)
      (hk r ks u hkeys hu) _ hv
    exact synchronize_lined h1 h2 fuel _ ht

/-- The window starts at the first line when the main loop is entered. -/
theorem Opens.lined {fn : List UInt8} {s : Vi W} (h : Opens sys fn s) : Lined s := by
  obtain ⟨m, cga, w, cnt, content, -, b, c, rfl, hb, -⟩ := h.cases
  have h0 := hb.nonneg le_rfl le_rfl
  have hle := hb.le
  obtain rfl : b = 0 := by omega
  exact ⟨le_rfl, le_rfl, .inl rfl⟩

/-- In every state reached from an opened file by such commands the window starts at a line.

**Proof sketch.** The window begins with the first line when the main loop is entered
(`Opens.lined`), and each step of such a command keeps it at the start of a line (`step_lined`), so
that it is there along the run. -/
theorem lineStart_run {fn : List UInt8} {s : Vi W} {ks : List Read} {y : Config W}
    (hs : Opens sys fn s) (h : RunIf sys (Config.Aligns sys) ⟨none, ks, s⟩ y) :
    LineStart y.vi.mem y.vi.screenbegin := by
  have hrun := RunIf.preserves (P := fun y => Lined y.vi ∧ Paused y.vi) h
    (fun x y hstep hk hx => ⟨step_lined hstep hk hx.2 hx.1, step_paused hstep hx.2⟩)
    ⟨hs.lined, hs.paused⟩
  exact hrun.1.start

/-- Where no line is too long for the window, the condition for a move is on the cursor alone:
PageUp and PageDown are not given in the middle of the first line and of the last one.

**Proof sketch.** The last line is short, as `G` needs it. A move changes neither the text nor its
end, and leaves the cursor on a character (`doMove_moves`); the line of this character leaves room
for it, so that the adjustment fits. -/
theorem aligns_move {s : Vi W} {mv : Move}
    (hup : mv = .pageUp → LineStart s.mem s.dot ∨ 0 < beginLine s.mem s.dot)
    (hdown : mv = .pageDown → LineStart s.mem s.dot ∨ endLine s.mem s.endp s.dot < s.endp - 1)
    (hdot : 0 ≤ s.dot ∧ s.dot < s.endp) (htop : 0 ≤ s.screenbegin ∧ s.screenbegin < s.endp)
    (hshort : ∀ p, 0 ≤ p → p < s.endp →
      cells s.mem (beginLine s.mem p) p < rows * columns) (ks : List Read) :
    Aligns sys (.move mv) ks s := by
  refine ⟨?_, nofun, ?_, nofun, fun fuel r hr => ?_⟩
  · rintro _ ⟨⟩
    cases mv with
    | pageUp => exact hup rfl
    | pageDown => exact hdown rfl
    | fileTail => exact hshort (s.endp - 1) (by omega) (by omega)
    | _ => trivial
  · intro fuel x t hx
    cases hx
  · obtain ⟨t, ht, hr⟩ := bind_eq_ok.mp hr
    cases hr
    obtain ⟨d, b, rfl, htext⟩ := doMove_moves fuel mv s t ht
    obtain ⟨⟨h0, hd⟩, -⟩ := htext ⟨hdot.1, .inl (by omega)⟩ ⟨htop.1, .inl (by omega)⟩
    have hle : d ≤ s.endp - 1 := by omega
    refine ⟨h0, .inr ?_⟩
    rw [lastTop]
    dsimp only
    rw [min_eq_left hle]
    exact hshort d h0 (by omega)

/-- With the cursor at the start of a line, PageDown keeps the window at one. -/
theorem aligns_pageDown {s : Vi W} (h : Lined s) (hdot : LineStart s.mem s.dot)
    (ks : List Read) : Aligns sys (.move .pageDown) ks s := by
  refine ⟨?_, nofun, ?_, nofun, fun fuel r hr => ?_⟩
  · rintro _ ⟨⟩
    exact .inl hdot
  · intro fuel x t hx
    cases hx
  · obtain ⟨t, ht, hr⟩ := bind_eq_ok.mp hr
    have hmv : MoveAligns .pageDown s := .inl hdot
    have hlined := doMove_lined h hmv fuel t ht
    rw [doMove] at ht
    generalize (fun s : Vi W => (dotNextLine s).2)^[rows - 1] s = u at ht
    cases ht
    cases hr
    refine ⟨hlined.dot, InView.topFits ⟨le_rfl, ?_⟩⟩
    rw [cells_of_le _ (by exact le_rfl)]
    decide

/-- `lineStart_run` for PageDown on a file of two lines. -/
theorem lineStart_run_pageDown : ∃ s y, Opens (readOnly (str "a\nb")) (str "f") s ∧
    RunIf (readOnly (str "a\nb")) (Config.Aligns (readOnly (str "a\nb")))
      ⟨none, [.byte 231], s⟩ y ∧
    y.vi.screenbegin = 2 ∧ LineStart y.vi.mem y.vi.screenbegin := by
  obtain ⟨s, y, hs, hy, hf⟩ := session_run (readOnly (str "a\nb")) 20 1 (str "f")
    [.byte 231] () (P := fun s y => s.editing = true ∧ s.dot = 0 ∧ y.vi.screenbegin = 2)
    (by decide +kernel)
  have hcmd : keyCmd 231 = .move .pageDown := by decide
  have hk : Config.Aligns (readOnly (str "a\nb")) ⟨none, [.byte 231], s⟩ := by
    intro r ks u hkeys hu
    obtain ⟨rfl, rfl⟩ := List.cons.inj hkeys
    have hact : Unmoved s (s.act (.exec 231)) := ⟨rfl, rfl, rfl, rfl⟩
    have hstart : Unmoved s u := hact.trans (draw_unmoved _ _ u hu)
    have hdot : LineStart u.mem u.dot := .inl (hstart.dot.trans hf.2.1)
    have hal := @aligns_pageDown Unit (readOnly (str "a\nb")) u (hstart.lined hs.lined) hdot []
    rw [← hcmd] at hal
    exact hal
  have hrun : RunIf (readOnly (str "a\nb")) (Config.Aligns (readOnly (str "a\nb")))
      ⟨none, [.byte 231], s⟩ y := .single ⟨mainRun_step hf.1 hy, hk⟩
  exact ⟨s, y, hs, hrun, hf.2.2, lineStart_run hs hrun⟩

/-- On a line of three letters, `l` and PageUp put the top of the window on the second. -/
theorem not_forall_lineStart : ¬∀ (fn content : List UInt8) (s : Vi Unit) (ks : List Read)
    (y : Config Unit), Opens (readOnly content) fn s →
    Run (readOnly content) ⟨none, ks, s⟩ y → LineStart y.vi.mem y.vi.screenbegin := by
  intro hall
  obtain ⟨s, y, hs, hy, hf⟩ := session_run (readOnly (str "abc\n")) 20 2 (str "f")
    [.byte (chr 'l'), .byte 230] ()
    (P := fun _ y => ¬LineStart y.vi.mem y.vi.screenbegin) (by decide +kernel)
  exact hf (hall _ _ s _ y hs (mainRun_run hy))

end HgXv6
