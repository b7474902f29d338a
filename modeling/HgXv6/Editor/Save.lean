import HgXv6.Editor.Run

set_option relaxedAutoImplicit false
set_option autoImplicit false

/-!
# Edits that are lost on quitting

The flag `hasChanged` should keep `:q` from ending the editing while there are changes that have
not been saved. It is set by every command that changes the text. But `:w` clears it before it
tries to save, and no command looks at the result of `file_save`: when a save fails, `:q` ends
the editing all the same, as do `:wq` and `ZZ` themselves. While every save of a changed text
succeeds, no edit is lost.

An observer of the run keeps the account: whether the text has changed since it was loaded, and
how the last save since the last change ended.

## Main definitions

* `HgXv6.Observer` — the observer's account.
* `HgXv6.SaveSucceeds` — the file system accepts the text as it stands.
* `HgXv6.Watched`, `HgXv6.WatchedStep` — runs with an observer.

## Main results

* `HgXv6.Effect.marks` — a step that changes the text sets the flag.
* `HgXv6.notLost_run` — no edit is lost while every save of a changed text succeeds.
-/

namespace HgXv6

open Prog

variable {W : Type} {sys : Sys W}

/-! ## The observer -/

/-- How the saves in a record ended, oldest first. -/
def savesOf (trace : List Act) : List Bool :=
  trace.filterMap fun a => match a with
    | .save ok => some ok
    | _ => none

@[simp] theorem savesOf_append (l l' : List Act) : savesOf (l ++ l') = savesOf l ++ savesOf l' :=
  List.filterMap_append

@[simp] theorem savesOf_map_save (oks : List Bool) : savesOf (oks.map .save) = oks := by
  simp [savesOf, List.filterMap_map]

/-- What an observer of a run knows. -/
structure Observer where
  /-- the text has changed since it was loaded -/
  changed : Bool
  /-- how the last save since the last change ended, if there was one -/
  saved : Option Bool
deriving DecidableEq

/-- The account before the first key. -/
def Observer.start : Observer := ⟨false, none⟩

/-- The account after a pass from `s` to `t`. -/
def Observer.see (o : Observer) (s t : Vi W) : Observer :=
  let o := if t.text = s.text then o else ⟨true, none⟩
  { o with saved := ((savesOf t.trace).drop (savesOf s.trace).length).getLast?.or o.saved }

/-- The text has not changed since it was loaded, or the last save after the last change
succeeded. -/
def Observer.NotLost (o : Observer) : Prop := o.changed = false ∨ o.saved = some true

/-- A pass that leaves the text alone and does not save. -/
theorem Observer.see_of_eq (o : Observer) {s t : Vi W} (htext : t.text = s.text)
    (hsaves : savesOf t.trace = savesOf s.trace) : o.see s t = o := by
  simp [Observer.see, htext, hsaves]

/-- A pass that leaves the text alone and saves. -/
theorem Observer.see_of_saves (o : Observer) {s t : Vi W} {oks : List Bool}
    (htext : t.text = s.text) (hsaves : savesOf t.trace = savesOf s.trace ++ oks) :
    o.see s t = { o with saved := oks.getLast?.or o.saved } := by
  simp [Observer.see, htext, hsaves]

/-! ## Commands that do not save -/

/-- From `s` to `t` nothing has been saved, and if the text has changed the flag is set. -/
structure Marks (s t : Vi W) : Prop where
  saves : savesOf t.trace = savesOf s.trace
  editing : t.editing = s.editing
  flag : t.hasChanged = true ∨ t.text = s.text ∧ t.hasChanged = s.hasChanged

theorem Marks.refl (s : Vi W) : Marks s s := ⟨rfl, rfl, .inr ⟨rfl, rfl⟩⟩

theorem Marks.trans {s t u : Vi W} (h : Marks s t) (h' : Marks t u) : Marks s u := by
  refine ⟨h'.saves.trans h.saves, h'.editing.trans h.editing, ?_⟩
  rcases h'.flag with h1 | ⟨h1, h2⟩
  · exact .inl h1
  · rcases h.flag with h3 | ⟨h3, h4⟩
    · exact .inl (h2.trans h3)
    · exact .inr ⟨h1.trans h3, h2.trans h4⟩

/-- An edit that leaves the flag set. -/
theorem Edited.marks {s t : Vi W} (h : Edited s t) (ht : t.hasChanged = true) : Marks s t := by
  obtain ⟨_, _, _, _, _, _, _, rfl⟩ := h
  exact ⟨rfl, rfl, .inl ht⟩

/-- A change of window and screen. -/
theorem Viewed.marks {s t : Vi W} (h : Viewed s t) : Marks s t := by
  obtain ⟨_, _, _, rfl⟩ := h
  exact ⟨rfl, rfl, .inr ⟨rfl, rfl⟩⟩

/-- A move. -/
theorem Moves.marks {s t : Vi W} (h : Moves s t) : Marks s t := by
  obtain ⟨_, _, rfl, -⟩ := h
  exact ⟨rfl, rfl, .inr ⟨rfl, rfl⟩⟩

/-- Replacing a character sets the flag. -/
theorem overText_hasChanged (c : UInt8) (s : Vi W) : (overText c s).hasChanged = true := by
  obtain ⟨_, _, heq, -⟩ := dotIncrease_moves (store s.dot c { s with hasChanged := true })
  rw [overText, heq]
  rfl

/-- Every step that is not a file operation marks a change of the text.

**Proof sketch.** One case for each kind of step. Whatever only moves, draws or reads leaves the
text and the flag. Whatever edits sets the flag, in insert and replace mode with each character, and
for an opened line after it has been drawn. -/
theorem Effect.marks {m : May} (hm : ¬m.file) {s t : Vi W} (h : Effect m s t) : Marks s t := by
  cases h with
  | move _ h => exact h.marks
  | lastRow h => exact ⟨rfl, rfl, .inr ⟨rfl, rfl⟩⟩
  | spill h => exact ⟨rfl, rfl, .inr ⟨rfl, rfl⟩⟩
  | redraw _ h => exact (redraw_viewed h).marks
  | synchronize h => exact (synchronize_viewed h).marks
  | findChar => exact ⟨rfl, rfl, .inr ⟨rfl, rfl⟩⟩
  | pattern h => exact ⟨rfl, rfl, .inr ⟨rfl, rfl⟩⟩
  | jump h hp => exact ⟨rfl, rfl, .inr ⟨rfl, rfl⟩⟩
  | change => exact ⟨rfl, rfl, .inl rfl⟩
  | typed hs hc h =>
    exact ((typeText_edited _ s).trans (redraw_synchronize_edited h)).marks
      ((typeChar_hasChanged h).trans hs)
  | overtyped _ _ h =>
    refine ((overText_edited _ s).trans (redraw_viewed h).edited).marks ?_
    obtain ⟨_, _, _, rfl⟩ := redraw_viewed h
    exact overText_hasChanged _ s
  | opened hl h =>
    refine ((Edited.trans ?_ (redraw_synchronize_edited h)).trans (change_edited _)).marks rfl
    rcases hl with rfl | rfl
    · exact openBelow_edited s
    · exact openAbove_edited s
  | file _ h => exact absurd h hm

/-- A key that is read and acted on. -/
theorem act_marks {a : Act} (h : a.key ≠ none) (s : Vi W) : Marks s (s.act a) := by
  refine ⟨?_, rfl, .inr ⟨rfl, rfl⟩⟩
  cases a with
  | save ok => exact absurd rfl h
  | _ => simp [Vi.act, savesOf]

/-- The edits at the cursor set the flag if they do anything. -/
theorem Cmd.edit_hasChanged {cmd : Cmd} {f : Vi W → Vi W} (h : cmd.edit = some f) (s : Vi W) :
    (f s).hasChanged = true ∨ f s = s := by
  cases cmd with
  | toggle =>
    cases h
    left
    simp only [toggleCase, dotIncrease]
    split_ifs <;> rfl
  | join => cases h; exact .inl rfl
  | deleteTail =>
    cases h
    simp only [HgXv6.deleteTail]
    split_ifs
    · exact .inl rfl
    · exact .inr rfl
  | indent =>
    cases h
    left
    simp only [HgXv6.indent, store, makeHoleAdd]
    split_ifs <;> rfl
  | unindent =>
    cases h
    simp only [HgXv6.unindent]
    split_ifs
    · exact .inl rfl
    · exact .inr rfl
  | _ => cases h

/-- Every command but `:` and `Z` marks a change of the text. -/
theorem execCmd_marks (sys : Sys W) (fuel : ℕ) {cmd : Cmd} {ks : List Read} {s : Vi W}
    (hp : Paused s) (hcmd : cmd ≠ .colon ∧ cmd ≠ .quit) :
    Ensures (execCmd sys fuel cmd ks s) fun r => Marks s r.2 := by
  intro r hr
  rcases execCmd_cases sys fuel cmd ks hp r hr with hpath | ⟨f, hf, rfl⟩ | ⟨rfl, -, hx⟩
  · have hfile : ¬(may cmd ks s).file := fun h => h.elim hcmd.1 hcmd.2
    exact hpath.preserves (P := fun t => Marks s t) (fun _ _ heff ht => ht.trans (heff.marks hfile))
      (fun _ _ ha ht => ht.trans (act_marks ha _)) (Marks.refl s)
  · rcases Cmd.edit_hasChanged hf s with h | h
    · exact (Cmd.edit_edited hf s).marks h
    · rw [h]
      exact Marks.refl s
  · obtain ⟨_, _, heq, -⟩ := dotDelete_ensures fuel _ _ hx
    rw [heq]
    exact ⟨rfl, rfl, .inl rfl⟩

/-! ## Commands that save -/

/-- The file system accepts the text as it stands. -/
def SaveSucceeds (sys : Sys W) (s : Vi W) : Prop :=
  ∃ cfn, s.cfn = some cfn ∧ 0 ≤ (sys.openSave s.world cfn).1 ∧
    (sys.write (sys.openSave s.world cfn).2 (sys.openSave s.world cfn).1 (saveBytes s)).1 =
      s.endp + 1

/-- The string that the keys spell at the prompt `:`. -/
def orderKeys : List Read → List UInt8 → List UInt8
  | [], order => order
  | r :: ks, order =>
    let c := r.into none
    if c = NL then order
    else
      let order := order ++ [c]
      if order.length = orderSize - 1 then order else orderKeys ks order

/-- The command that the keys spell at the prompt `:`. -/
def colonOrder (ks : List Read) : List UInt8 := (orderKeys ks []).takeWhile (· ≠ NUL)

/-- The commands that call `file_save`. -/
def Saves (cmd : Cmd) (ks : List Read) : Prop :=
  match cmd with
  | .colon => colonOrder ks = str "w" ∨ colonOrder ks = str "wq"
  | .quit => ∃ r, ks.head? = some r ∧ r.into none = chr 'Z'
  | _ => False

/-- The commands `:q`, `:wq` and `ZZ`. -/
def Quits (cmd : Cmd) (ks : List Read) : Prop :=
  match cmd with
  | .colon => colonOrder ks = str "q" ∨ colonOrder ks = str "wq"
  | .quit => ∃ r, ks.head? = some r ∧ r.into none = chr 'Z'
  | _ => False

/-- From `s` to `t` keys have been read, and nothing but the screen has changed. -/
def Prompted (s t : Vi W) : Prop :=
  ∃ c acts, t = { s with cga := c, trace := s.trace ++ acts } ∧ savesOf acts = []

theorem Prompted.cga {s t : Vi W} (h : Prompted s t) (c : Cga) :
    Prompted s { t with cga := c } := by
  obtain ⟨_, acts, rfl, hacts⟩ := h
  exact ⟨c, acts, rfl, hacts⟩

/-- The loop of the prompt `:` reads the command that the keys spell. -/
theorem colonLoop_ensures {s t : Vi W} (h : Prompted s t) (ks : List Read) {order : List UInt8}
    (hlen : order.length < orderSize - 1) :
    Ensures (colonLoop ks order t) fun r => r.1 = orderKeys ks order ∧ Prompted s r.2.2 := by
  induction ks generalizing order t with
  | nil => exact (ensures_error _ _).mpr trivial
  | cons r ks ih =>
    obtain ⟨d, acts, rfl, hacts⟩ := h
    simp only [colonLoop, orderKeys]
    have hread : Prompted s (Vi.act (.arg (r.into none))
        { s with cga := d, trace := s.trace ++ acts }) := by
      refine ⟨d, acts ++ [.arg (r.into none)], ?_, ?_⟩
      · simp only [Vi.act, List.append_assoc]
      · rw [savesOf_append, hacts]
        rfl
    by_cases hnl : r.into none = NL
    · rw [if_pos hnl, if_pos hnl]
      exact (ensures_ok _ _).mpr ⟨rfl, hread⟩
    · rw [if_neg hnl, if_neg hnl]
      unfold orderSize at hlen
      refine Ensures.bind (writeAt_ensures (y := order.length + 1) _ hnl (by omega)) ?_
      rintro _ ⟨c, rfl, -⟩
      by_cases hfull : (order ++ [r.into none]).length = orderSize - 1
      · rw [if_pos hfull, if_pos hfull]
        exact (ensures_ok _ _).mpr ⟨rfl, hread.cga c⟩
      · rw [if_neg hfull, if_neg hfull]
        refine ih (hread.cga c) ?_
        rw [List.length_append, List.length_singleton] at hfull ⊢
        unfold orderSize at hfull ⊢
        omega

/-- A save leaves the text alone, and is recorded as successful if it is. -/
theorem fileSave_ensures (sys : Sys W) (s : Vi W) : Ensures (fileSave sys s) fun r =>
    ∃ c w oks, r.2 = { s with cga := c, world := w, trace := s.trace ++ oks.map .save } ∧
      (SaveSucceeds sys s → oks = [true]) := by
  unfold fileSave
  split
  · rename_i hcfn
    refine Ensures.bind (printOnStatusLine_ensures
      (str "No current filename!!!") s (by decide)) ?_
    rintro _ ⟨c, rfl, -⟩
    refine (ensures_ok _ _).mpr ⟨c, s.world, [], by simp, ?_⟩
    rintro ⟨cfn, h, -⟩
    exact absurd (hcfn.symm.trans h) nofun
  · rename_i cfn hcfn
    dsimp only
    split_ifs with hfd hcnt
    · refine (ensures_ok _ _).mpr ⟨s.cga, _, [false], rfl, ?_⟩
      rintro ⟨cfn', h, hfd', -⟩
      obtain rfl := Option.some.inj (hcfn.symm.trans h)
      exact absurd hfd (not_lt.mpr hfd')
    · refine Ensures.bind (printOnStatusLine_ensures (str "save error!!!") _ (by decide)) ?_
      rintro _ ⟨c, rfl, -⟩
      refine (ensures_ok _ _).mpr ⟨c, _, [false], rfl, ?_⟩
      rintro ⟨cfn', h, -, hcnt'⟩
      obtain rfl := Option.some.inj (hcfn.symm.trans h)
      exact absurd hcnt' hcnt
    · exact (ensures_ok _ _).mpr ⟨s.cga, _, [true], rfl, fun _ => rfl⟩

/-- What a command that saves or quits has done between `s` and `t`. -/
structure FileDone (sys : Sys W) (cmd : Cmd) (ks : List Read) (s t : Vi W) : Prop where
  text : t.text = s.text
  saves : ∃ oks, savesOf t.trace = savesOf s.trace ++ oks ∧ (¬Saves cmd ks → oks = []) ∧
    (Saves cmd ks → SaveSucceeds sys s → oks = [true])
  flag : t.hasChanged = s.hasChanged ∨ Saves cmd ks
  quit : t.editing = false → s.editing = true → Quits cmd ks →
    Saves cmd ks ∨ s.hasChanged = false

/-- A command that does not save, and ends the editing only if it may. -/
theorem fileDone_of_not_saves {cmd : Cmd} {ks : List Read} {s t : Vi W} (htext : t.text = s.text)
    (hsaves : savesOf t.trace = savesOf s.trace) (hflag : t.hasChanged = s.hasChanged)
    (hcmd : ¬Saves cmd ks)
    (hquit : t.editing = false → s.editing = true → Quits cmd ks → s.hasChanged = false) :
    FileDone sys cmd ks s t where
  text := htext
  saves := ⟨[], by simp [hsaves], fun _ => rfl, fun h => absurd h hcmd⟩
  flag := .inl hflag
  quit h1 h2 h3 := .inr (hquit h1 h2 h3)

/-- A command that saves. -/
theorem fileDone_of_saves {cmd : Cmd} {ks : List Read} {s t : Vi W} (oks : List Bool)
    (htext : t.text = s.text) (hsaves : savesOf t.trace = savesOf s.trace ++ oks)
    (hoks : SaveSucceeds sys s → oks = [true]) (hcmd : Saves cmd ks) : FileDone sys cmd ks s t where
  text := htext
  saves := ⟨oks, hsaves, fun h => absurd hcmd h, fun _ => hoks⟩
  flag := .inr hcmd
  quit _ _ _ := .inl hcmd

/-- The commands of the prompt `:`. -/
theorem colonCommand_fileDone (sys : Sys W) {ks : List Read} {s t : Vi W} (h : Prompted s t) :
    Ensures (colonCommand sys (colonOrder ks) t) fun u => FileDone sys .colon ks s u := by
  obtain ⟨d, acts, rfl, hacts⟩ := h
  have hsaves : savesOf (s.trace ++ acts) = savesOf s.trace := by simp [hacts]
  have hmsg : ∀ {msg : List UInt8}, RowFits msg (24 * 80) → ¬Saves .colon ks →
      Ensures (printOnStatusLine msg { s with cga := d, trace := s.trace ++ acts })
        fun u => FileDone sys .colon ks s u := fun hfits hcmd => by
    refine (printOnStatusLine_ensures _ _ hfits).mono ?_
    rintro _ ⟨c, rfl, -⟩
    exact fileDone_of_not_saves rfl hsaves rfl hcmd
      fun h1 h2 _ => absurd (h1.symm.trans h2) Bool.false_ne_true
  unfold colonCommand
  split_ifs with h1 h2 h3 h4 h5 h6 h7
  · refine (ensures_ok _ _).mpr (fileDone_of_not_saves rfl hsaves rfl ?_ fun _ _ hq => ?_)
    · rintro (h | h) <;> rw [h] at h1 <;> exact absurd h1 (by decide)
    · rcases hq with h | h <;> rw [h] at h1 <;> exact absurd h1 (by decide)
  · refine hmsg (by decide) ?_
    rintro (h | h) <;> rw [h] at h2 <;> exact absurd h2 (by decide)
  · refine (ensures_ok _ _).mpr (fileDone_of_not_saves rfl hsaves rfl ?_
      fun _ _ _ => Bool.not_eq_true _ ▸ h3)
    rintro (h | h) <;> rw [h] at h2 <;> exact absurd h2 (by decide)
  · refine Ensures.bind (fileSave_ensures sys _) ?_
    rintro r ⟨c, w, oks, hr, hoks⟩
    rw [ensures_ok, hr]
    exact fileDone_of_saves oks rfl (by simp [hacts]) hoks (.inr h4)
  · refine Ensures.bind (fileSave_ensures sys _) ?_
    rintro r ⟨c, w, oks, hr, hoks⟩
    rw [ensures_ok, hr]
    exact fileDone_of_saves oks rfl (by simp [hacts]) hoks (.inl h5)
  · refine hmsg (by decide) ?_
    rintro (h | h) <;> rw [h] at h6 <;> exact absurd h6 (by decide)
  · refine hmsg (by decide) ?_
    rintro (h | h) <;> rw [h] at h7 <;> exact absurd h7 (by decide)
  · exact hmsg (by decide) (fun h => h.elim h5 h4)

/-- The commands `:` and `Z`. -/
theorem execCmd_fileDone (sys : Sys W) (fuel : ℕ) {cmd : Cmd} {ks : List Read} {s : Vi W}
    (hcmd : cmd = .colon ∨ cmd = .quit) :
    Ensures (execCmd sys fuel cmd ks s) fun r => FileDone sys cmd ks s r.2 := by
  rcases hcmd with rfl | rfl
  · simp only [execCmd, colon]
    refine Ensures.bind (printOnStatusLine_ensures [] s (by decide)) ?_
    rintro _ ⟨c₁, rfl, -⟩
    refine Ensures.bind (writeAt_ensures (y := 0) _ (by decide) (by decide)) ?_
    rintro _ ⟨c₂, rfl, -⟩
    have hprompt : Prompted s { s with cga := c₂ } := ⟨c₂, [], by simp, rfl⟩
    refine Ensures.bind (colonLoop_ensures hprompt ks (by decide)) ?_
    rintro ⟨order, ks', t⟩ ⟨rfl, ht⟩
    refine Ensures.bind (colonCommand_fileDone sys ht) fun u hu => ?_
    refine Ensures.bind (moveCursor_ensures _ u) ?_
    rintro _ ⟨c, rfl, -⟩
    exact (ensures_ok _ _).mpr ⟨hu.text, hu.saves, hu.flag, hu.quit⟩
  · simp only [execCmd]
    cases ks with
    | nil => exact (ensures_error _ _).mpr trivial
    | cons r ks =>
      simp only [readArg, ok_bind]
      split_ifs with hz
      · refine Ensures.bind (fileSave_ensures sys _) ?_
        rintro x ⟨c, w, oks, hx, hoks⟩
        rw [ensures_ok]
        dsimp only
        rw [hx]
        refine fileDone_of_saves oks rfl ?_ hoks ⟨r, rfl, hz⟩
        simp [Vi.act, savesOf]
      · refine (ensures_ok _ _).mpr (fileDone_of_not_saves rfl ?_ rfl ?_ ?_)
        · simp [Vi.act, savesOf]
        · rintro ⟨r', h, hz'⟩
          obtain rfl := Option.some.inj h
          exact hz hz'
        · exact fun h1 h2 _ => absurd (h1.symm.trans h2) Bool.false_ne_true

/-! ## Watched runs -/

/-- The main loop between two passes, and what the observer knows. -/
structure Watched (W : Type) where
  config : Config W
  seen : Observer

/-- A pass of the main loop under observation. -/
def WatchedStep (sys : Sys W) (p q : Watched W) : Prop :=
  Step sys p.config q.config ∧ q.seen = p.seen.see p.config.vi q.config.vi

/-- If the next command saves, and the text has changed since it was loaded, the save succeeds. -/
def Watched.SaveSucceeds (sys : Sys W) (p : Watched W) : Prop :=
  ∀ r ks, p.config.keys = r :: ks → Saves (keyCmd (r.into p.config.c)) ks →
    p.seen.changed = true → HgXv6.SaveSucceeds sys p.config.vi

/-- The next command is `:q`, `:wq` or `ZZ`. -/
def Watched.Quits (p : Watched W) : Prop :=
  ∃ r ks, p.config.keys = r :: ks ∧ HgXv6.Quits (keyCmd (r.into p.config.c)) ks

/-- A run in which every save of a changed text succeeds. -/
abbrev SavedRun (sys : Sys W) : Watched W → Watched W → Prop :=
  Relation.ReflTransGen fun p q => WatchedStep sys p q ∧ p.SaveSucceeds sys

/-- What the flag says: while it is clear, either the text has not changed, or it has been
saved. -/
def FlagTells (p : Watched W) : Prop :=
  p.seen.changed = true → p.config.vi.hasChanged = true ∨ p.seen.saved = some true

/-- Clearing the status line and recording the key change neither text nor flag. -/
theorem Pass.marks {x y : Config W} {fuel : ℕ} {r : Read} {ks : List Read} {u v : Vi W}
    (h : Pass sys x y fuel r ks u v) : Marks x.vi u := by
  obtain ⟨c, rfl, -⟩ := h.start
  refine ⟨?_, rfl, .inr ⟨rfl, rfl⟩⟩
  simp [Vi.act, savesOf]

/-- A pass with a command that does not save keeps the flag telling. -/
theorem flagTells_of_marks {p q : Watched W} (hm : Marks p.config.vi q.config.vi)
    (hq : q.seen = p.seen.see p.config.vi q.config.vi) (hp : FlagTells p) : FlagTells q := by
  intro hchanged
  by_cases htext : q.config.vi.text = p.config.vi.text
  · rw [Observer.see_of_eq _ htext hm.saves] at hq
    rw [hq] at hchanged ⊢
    rcases hm.flag with h | ⟨-, h⟩
    · exact .inl h
    · rw [h]
      exact hp hchanged
  · rcases hm.flag with h | ⟨h, -⟩
    · exact .inl h
    · exact absurd h htext

/-- A pass with `:` or `Z` keeps the flag telling, and if it ends the editing, no edit is lost. -/
theorem flagTells_of_fileDone {p q : Watched W} {cmd : Cmd} {ks : List Read}
    (hf : FileDone sys cmd ks p.config.vi q.config.vi)
    (hq : q.seen = p.seen.see p.config.vi q.config.vi)
    (hsave : Saves cmd ks → p.seen.changed = true → HgXv6.SaveSucceeds sys p.config.vi)
    (hp : FlagTells p) : FlagTells q ∧
      (q.config.vi.editing = false → p.config.vi.editing = true → HgXv6.Quits cmd ks →
        q.seen.NotLost) := by
  obtain ⟨oks, hoks, hnone, hsome⟩ := hf.saves
  rw [Observer.see_of_saves _ hf.text hoks] at hq
  by_cases hcmd : Saves cmd ks
  · -- a save that matters succeeds
    have hsaved : p.seen.changed = true → q.seen.saved = some true := fun hchanged => by
      rw [hq, hsome hcmd (hsave hcmd hchanged)]
      rfl
    have hchanged : q.seen.changed = p.seen.changed := by rw [hq]
    refine ⟨fun h => .inr (hsaved (hchanged ▸ h)), fun _ _ _ => ?_⟩
    rcases hc : p.seen.changed with _ | _
    · exact .inl (hchanged.trans hc)
    · exact .inr (hsaved hc)
  · have hsame : q.seen = p.seen := by
      rw [hq, hnone hcmd]
      rfl
    have hflag : q.config.vi.hasChanged = p.config.vi.hasChanged :=
      hf.flag.resolve_right hcmd
    refine ⟨fun h => ?_, fun h1 h2 h3 => ?_⟩
    · rw [hsame] at h ⊢
      rw [hflag]
      exact hp h
    · have hclear := (hf.quit h1 h2 h3).resolve_left hcmd
      rw [hsame]
      rcases hc : p.seen.changed with _ | _
      · exact .inl hc
      · exact .inr ((hp hc).resolve_left (by simp [hclear]))

/-- A pass with `:` or `Z` does what the command does. -/
theorem Pass.fileDone {x y : Config W} {fuel : ℕ} {r : Read} {ks : List Read} {u v : Vi W}
    {cmd : Cmd} (h : Pass sys x y fuel r ks u v) (hf : FileDone sys cmd ks u v) :
    FileDone sys cmd ks x.vi y.vi := by
  have hsaves := h.marks.saves
  obtain ⟨c, rfl, -⟩ := h.start
  obtain ⟨b, d, z, hy⟩ := synchronize_viewed h.sync
  obtain ⟨htext, ⟨oks, hoks, hnone, hsome⟩, hflag, hquit⟩ := hf
  rw [hy]
  refine ⟨htext, ⟨oks, ?_, hnone, hsome⟩, hflag, hquit⟩
  rw [← hsaves]
  exact hoks

/-- A pass whose save succeeds keeps the flag telling, and if it quits, no edit is lost. -/
theorem watchedStep_flagTells {p q : Watched W} (h : WatchedStep sys p q)
    (hsave : p.SaveSucceeds sys) (hpaused : Paused p.config.vi) (hp : FlagTells p) :
    FlagTells q ∧ (p.Quits → q.config.vi.editing = false → q.seen.NotLost) := by
  obtain ⟨fuel, r, ks, u, v, hpass⟩ := step_cases h.1
  have hsync := (synchronize_viewed hpass.sync).marks
  by_cases hcmd : keyCmd (r.into p.config.c) = .colon ∨ keyCmd (r.into p.config.c) = .quit
  · have hdone := hpass.fileDone (execCmd_fileDone sys fuel hcmd _ hpass.exec)
    obtain ⟨hq, hlost⟩ := flagTells_of_fileDone hdone h.2 (hsave r ks hpass.keys) hp
    refine ⟨hq, fun hquit hed => ?_⟩
    obtain ⟨r', ks', hkeys, hquit⟩ := hquit
    rw [hpass.keys] at hkeys
    obtain ⟨rfl, rfl⟩ := List.cons.inj hkeys
    exact hlost hed hpass.editing hquit
  · have hmarks := (hpass.marks.trans (execCmd_marks sys fuel (hpass.paused hpaused)
      (not_or.mp hcmd) _ hpass.exec)).trans hsync
    refine ⟨flagTells_of_marks hmarks h.2 hp, ?_⟩
    rintro ⟨r', ks', hkeys, hquit⟩
    rw [hpass.keys] at hkeys
    obtain ⟨rfl, rfl⟩ := List.cons.inj hkeys
    cases hk : keyCmd (r.into p.config.c) <;> rw [hk] at hquit hcmd <;>
      first | exact hquit.elim | exact absurd (by simp) hcmd

/-- The flag tells in every run in which every save of a changed text succeeds. -/
theorem SavedRun.flagTells {p q : Watched W} (h : SavedRun sys p q)
    (hp : FlagTells p ∧ Paused p.config.vi) : FlagTells q ∧ Paused q.config.vi := by
  induction h with
  | refl => exact hp
  | tail _ hstep ih =>
    exact ⟨(watchedStep_flagTells hstep.1 hstep.2 ih.2 ih.1).1, step_paused hstep.1.1 ih.2⟩

/-- No edit is lost on quitting: in a run from an opened file in which every save of a changed text
succeeds, whenever `:q`, `:wq` or `ZZ` ends the editing, the text has not changed since it was
loaded, or the last save after the last change succeeded.

**Proof sketch.** Along the run the flag `hasChanged` is set if the text has changed since the last
save (`SavedRun.flagTells`), as each change sets it and only a save takes it back, which succeeds.
The commands that quit look at the flag, or save themselves. -/
theorem notLost_run {fn : List UInt8} {s : Vi W} {ks : List Read} {p q : Watched W}
    (hs : Opens sys fn s) (hp : SavedRun sys ⟨⟨none, ks, s⟩, .start⟩ p)
    (hstep : WatchedStep sys p q) (hsave : p.SaveSucceeds sys) (hquit : p.Quits)
    (hed : q.config.vi.editing = false) : q.seen.NotLost := by
  obtain ⟨hflag, hpaused⟩ := SavedRun.flagTells hp
    ⟨fun h => absurd h Bool.false_ne_true, hs.paused⟩
  exact (watchedStep_flagTells hstep hsave hpaused hflag).2 hquit hed

/-! ## Computed runs -/

/-- A computed pass under observation. -/
def watchPass (sys : Sys W) (fuel : ℕ) (p : Watched W) : Except Stop (Watched W) :=
  mainRun sys fuel 1 p.config >>= fun y => .ok ⟨y, p.seen.see p.config.vi y.vi⟩

/-- A computed pass is a pass. -/
theorem watchPass_step {fuel : ℕ} {p q : Watched W} (hp : p.config.vi.editing = true)
    (h : watchPass sys fuel p = .ok q) : WatchedStep sys p q := by
  obtain ⟨y, hy, h⟩ := bind_eq_ok.mp h
  cases h
  exact ⟨mainRun_step hp hy, rfl⟩

/-- `notLost_run` for `x` and `:wq` on a file that can be written. -/
theorem notLost_run_wq : ∃ (s : Vi Unit) (p q : Watched Unit),
    Opens (writable (str "ab")) (str "f") s ∧
    SavedRun (writable (str "ab")) ⟨⟨none, (str "x:wq\n").map .byte, s⟩, .start⟩ p ∧
    WatchedStep (writable (str "ab")) p q ∧ q.config.vi.editing = false ∧
    q.seen.changed = true ∧ q.seen.NotLost := by
  obtain ⟨s, y, hs, hy, hP⟩ := session_run (writable (str "ab")) 20 0 (str "f")
    ((str "x:wq\n").map .byte) ()
    (P := fun s y => (watchPass (writable (str "ab")) 20 ⟨y, .start⟩ >>= fun p =>
      watchPass (writable (str "ab")) 20 p >>= fun q => .ok (decide (s.editing = true ∧
        p.config.vi.editing = true ∧ p.config.keys = (str ":wq\n").map .byte ∧
        p.config.vi.cfn = some (str "f") ∧ p.config.vi.endp = 1 ∧
        q.config.vi.editing = false ∧ q.seen.changed = true))) = .ok true) (by decide +kernel)
  cases hy
  obtain ⟨p, hp, hP⟩ := bind_eq_ok.mp hP
  obtain ⟨q, hq, hP⟩ := bind_eq_ok.mp hP
  simp only [Except.ok.injEq, decide_eq_true_eq] at hP
  obtain ⟨hed, hedp, hkeys, hcfn, hend, hedq, hchanged⟩ := hP
  have hstep := watchPass_step hedp hq
  have hrun : SavedRun (writable (str "ab")) ⟨⟨none, (str "x:wq\n").map .byte, s⟩, .start⟩ p :=
    .single ⟨watchPass_step hed hp, fun r ks h _ hc => absurd hc Bool.false_ne_true⟩
  have hsave : p.SaveSucceeds (writable (str "ab")) := fun _ _ _ _ _ =>
    ⟨_, hcfn, by simp [writable], by simp [writable, saveBytes, hend]⟩
  have hquit : p.Quits := ⟨.byte (chr ':'), (str "wq\n").map .byte, hkeys, .inr (by decide)⟩
  exact ⟨s, p, q, hs, hrun, hstep, hedq, hchanged, notLost_run hs hrun hstep hsave hquit hedq⟩

/-- On a file that cannot be written the keys `x`, `:w` and `:q` end the editing, and the edit is
lost. -/
theorem not_forall_notLost : ¬∀ (fn content : List UInt8) (s : Vi Unit) (ks : List Read)
    (p q : Watched Unit), Opens (readOnly content) fn s →
    Relation.ReflTransGen (WatchedStep (readOnly content)) ⟨⟨none, ks, s⟩, .start⟩ p →
    WatchedStep (readOnly content) p q → p.Quits → q.config.vi.editing = false →
    q.seen.NotLost := by
  intro hall
  obtain ⟨s, y, hs, hy, hP⟩ := session_run (readOnly (str "ab")) 20 0 (str "f")
    ((str "x:w\n:q\n").map .byte) ()
    (P := fun s y => (watchPass (readOnly (str "ab")) 20 ⟨y, .start⟩ >>= fun o =>
      watchPass (readOnly (str "ab")) 20 o >>= fun p =>
      watchPass (readOnly (str "ab")) 20 p >>= fun q => .ok (decide (s.editing = true ∧
        o.config.vi.editing = true ∧ p.config.vi.editing = true ∧
        p.config.keys = (str ":q\n").map .byte ∧ q.config.vi.editing = false ∧
        q.seen = ⟨true, some false⟩))) = .ok true) (by decide +kernel)
  cases hy
  obtain ⟨o, ho, hP⟩ := bind_eq_ok.mp hP
  obtain ⟨p, hp, hP⟩ := bind_eq_ok.mp hP
  obtain ⟨q, hq, hP⟩ := bind_eq_ok.mp hP
  simp only [Except.ok.injEq, decide_eq_true_eq] at hP
  obtain ⟨hed, hedo, hedp, hkeys, hedq, hseen⟩ := hP
  have hrun := (Relation.ReflTransGen.single (watchPass_step hed ho)).tail (watchPass_step hedo hp)
  have hquit : p.Quits := ⟨.byte (chr ':'), (str "q\n").map .byte, hkeys, .inl (by decide)⟩
  have hlost := hall _ _ s _ p q hs hrun (watchPass_step hedp hq) hquit hedq
  rw [hseen] at hlost
  rcases hlost with h | h
  · exact absurd h (by decide)
  · exact absurd h (by decide)

end HgXv6
