import HgXv6.Editor.Command

set_option relaxedAutoImplicit false
set_option autoImplicit false

/-!
# What a command can do

Every command of `doCmd` is a sequence of a few kinds of steps: moves, drawing, edits followed by
a redraw, changes of the remembered search strings, and, for some commands, file operations. Each
key it reads is a step of its own. A property that each kind of step preserves is therefore
preserved by every command, and is proved once for each kind.

Some steps are open to some commands only, or only with certain keys; `May` says which. The
commands `~ J D > <` and `x`, which edit the text and leave it at that, are single functions of
the state and are not taken apart.

## Main definitions

* `HgXv6.May`, `HgXv6.may` — what a command may do, from its keys and the state it starts in.
* `HgXv6.Effect` — one step on the state.
* `HgXv6.Path` — a sequence of steps and reads of keys.
* `HgXv6.Cmd.edit` — the commands that are an edit and nothing else.

## Main results

* `HgXv6.execCmd_path` — every other command is such a sequence.
-/

namespace HgXv6

open Prog

variable {W : Type}

/-! ## Steps -/

/-- A pattern the prompt `/` accepts: visible characters, and no more than its array holds. -/
def ShortPattern (pat : List UInt8) : Prop :=
  pat.length ≤ findStringLength - 1 ∧ ∀ c ∈ pat, 33 ≤ c ∧ c ≤ 126

/-- Visible characters take one cell each. -/
theorem rowWidth_visible {pat : List UInt8} (h : ∀ c ∈ pat, 33 ≤ c ∧ c ≤ 126) :
    rowWidth pat = pat.length := by
  induction pat with
  | nil => rfl
  | cons b pat ih =>
    have hb : b ≠ TAB := by
      rintro rfl
      exact absurd (h TAB List.mem_cons_self) (by decide)
    have := ih fun c hc => h c (List.mem_cons_of_mem b hc)
    simp only [rowWidth, List.map_cons, List.sum_cons, cellWidth, if_neg hb,
      List.length_cons] at this ⊢
    omega

/-- The report of a search fits in the last row. -/
theorem ShortPattern.rowFits {pat : List UInt8} (h : ShortPattern pat) :
    RowFits (chr '/' :: pat) (24 * 80) := by
  obtain ⟨hlen, hvis⟩ := h
  have hall : ∀ c ∈ chr '/' :: pat, 33 ≤ c ∧ c ≤ 126 := by
    intro c hc
    rcases List.mem_cons.mp hc with rfl | hc
    · decide
    · exact hvis c hc
  refine ⟨fun hnl => absurd (hall NL hnl) (by decide), ?_⟩
  rw [rowWidth_visible hall, List.length_cons]
  unfold findStringLength at hlen
  omega

/-- What a command may do beyond moving, drawing and inserting. -/
structure May where
  /-- move the cursor other than by typing -/
  move : Prop
  /-- replace the character under the cursor by this one -/
  overtype : UInt8 → Prop
  /-- search for a string -/
  search : Prop
  /-- draw outside the last row -/
  spill : Prop
  /-- save, or end the editing -/
  file : Prop

/-- One step of a command. -/
inductive Effect (m : May) : Vi W → Vi W → Prop
  | move {s t : Vi W} (hm : m.move) (h : Moves s t) : Effect m s t
  /-- something is drawn in the last row -/
  | lastRow {s : Vi W} {c : Cga} (h : SameRows c s.cga) : Effect m s { s with cga := c }
  /-- something is drawn that may not fit in the last row -/
  | spill {s : Vi W} {c : Cga} (h : m.spill) : Effect m s { s with cga := c }
  | redraw {s t : Vi W} {fuel : ℕ} (hs : Settled s) (h : HgXv6.redraw fuel s = .ok t) :
      Effect m s t
  | synchronize {s t : Vi W} {fuel : ℕ} (h : HgXv6.synchronize fuel s = .ok t) : Effect m s t
  | findChar {s : Vi W} {c : UInt8} : Effect m s { s with lastFindChar := c }
  | pattern {s : Vi W} {pat : List UInt8} (h : ShortPattern pat) :
      Effect m s { s with lastFindString := pat }
  /-- the cursor goes where a search has ended -/
  | jump {s : Vi W} {p : ℤ} (h : m.search)
      (hp : 2 ≤ s.endp → InText s.endp s.dot → InText s.endp p) : Effect m s { s with dot := p }
  | change {s : Vi W} : Effect m s { s with hasChanged := true }
  /-- a character is inserted -/
  | typed {s t : Vi W} {fuel : ℕ} {c : UInt8} (hs : s.hasChanged = true) (hc : isPrintChar c)
      (h : typeChar fuel c s = .ok t) : Effect m s t
  /-- a character is replaced -/
  | overtyped {s t : Vi W} {fuel : ℕ} {c : UInt8} (hm : m.overtype c) (hc : isPrintChar c)
      (h : overtype fuel c s = .ok t) : Effect m s t
  /-- a line is opened below or above -/
  | opened {s t : Vi W} {fuel : ℕ} {line : Vi W → Vi W} (hl : line = openBelow ∨ line = openAbove)
      (h : (HgXv6.redraw fuel (line s) >>= HgXv6.synchronize fuel) = .ok t) :
      Effect m s { t with hasChanged := true }
  /-- the text is saved, or the editing ends -/
  | file {s : Vi W} {editing hasChanged : Bool} {w : W} (oks : List Bool) (h : m.file) :
      Effect m s { s with
        editing := editing, hasChanged := hasChanged, world := w,
        trace := s.trace ++ oks.map .save }

/-- The key an action is about. -/
def Act.key : Act → Option UInt8
  | .exec c | .insert c | .replace c | .arg c => some c
  | .save _ => none

/-- One step of a command, or a key it reads and acts on. -/
inductive Small (m : May) : List Read × Vi W → List Read × Vi W → Prop
  | effect {ks : List Read} {s t : Vi W} (h : Effect m s t) : Small m (ks, s) (ks, t)
  | read {ks : List Read} {s : Vi W} {r : Read} {c : Option UInt8} {a : Act}
      (h : a.key = some (r.into c)) : Small m (r :: ks, s) (ks, s.act a)

/-- A sequence of such steps. -/
abbrev Path (m : May) : List Read × Vi W → List Read × Vi W → Prop :=
  Relation.ReflTransGen (Small m)

variable {m : May} {ks : List Read}

/-- A step is a sequence of one. -/
theorem Effect.path {s t : Vi W} (h : Effect m s t) : Path m (ks, s) (ks, t) :=
  .single (.effect h)

/-- A sequence followed by a step. -/
theorem path_effect {x : List Read × Vi W} {s t : Vi W} (h : Path m x (ks, s))
    (h' : Effect m s t) : Path m x (ks, t) :=
  h.tail (.effect h')

/-- A sequence followed by a key that is read and acted on. -/
theorem path_read {x : List Read × Vi W} {s : Vi W} {r : Read} {a : Act} {c : Option UInt8}
    (h : Path m x (r :: ks, s)) (ha : a.key = some (r.into c)) : Path m x (ks, s.act a) :=
  h.tail (.read ha)

/-! ## The steps of each function -/

/-- A message that fits in the last row. -/
theorem printOnStatusLine_effect {msg : List UInt8} (hmsg : RowFits msg (24 * 80)) (s : Vi W) :
    Ensures (printOnStatusLine msg s) (Effect m s) := by
  refine (printOnStatusLine_ensures msg s hmsg).mono ?_
  rintro _ ⟨c, rfl, hc⟩
  exact .lastRow hc

/-- The hardware cursor is moved. -/
theorem moveCursor_effect (pos : ℕ) (s : Vi W) : Ensures (moveCursor pos s) (Effect m s) := by
  refine (moveCursor_ensures pos s).mono ?_
  rintro _ ⟨c, rfl, hc, -⟩
  exact .lastRow hc

/-- A character is drawn in the last row. -/
theorem writeAt_effect {y : ℕ} {b : UInt8} (hb : b ≠ NL) (hy : y < 76) (s : Vi W) :
    Ensures (s.draw (writeAt rows y b)) (Effect m s) := by
  refine (writeAt_ensures s hb hy).mono ?_
  rintro _ ⟨c, rfl, hc⟩
  exact .lastRow hc

/-- A report that fits in the last row. -/
theorem printReport_effect (m : May) {msg : List UInt8} (hmsg : RowFits msg (24 * 80) ∨ m.spill)
    (s : Vi W) : Ensures (printReport msg s) (Effect m s) := by
  refine (printReport_ensures msg s).mono ?_
  rintro _ ⟨c, rfl, hc⟩
  rcases hmsg with h | h
  · exact .lastRow (hc h)
  · exact .spill h

/-- A step before a computation that is a sequence of steps. -/
theorem ensures_effect_bind {x : List Read × Vi W} {α : Type} {s : Vi W}
    {c : Except Stop (Vi W)} {f : Vi W → Except Stop α} {Q : α → Prop}
    (hx : Path m x (ks, s)) (hc : Ensures c (Effect m s))
    (hf : ∀ t, Path m x (ks, t) → Ensures (f t) Q) : Ensures (c >>= f) Q :=
  Ensures.bind hc fun t ht => hf t (path_effect hx ht)

/-- From `s` to `t` only the window and the screen have changed. -/
def Viewed (s t : Vi W) : Prop :=
  ∃ b c y, t = { s with screenbegin := b, cga := c, synScreenbegin := y }

theorem Viewed.refl (s : Vi W) : Viewed s s := ⟨_, _, _, rfl⟩

theorem Viewed.trans {s t u : Vi W} (h : Viewed s t) (h' : Viewed t u) : Viewed s u := by
  obtain ⟨_, _, _, rfl⟩ := h
  obtain ⟨_, _, _, rfl⟩ := h'
  exact ⟨_, _, _, rfl⟩

/-- A synchronisation changes the window and the screen only. -/
theorem synchronize_viewed {fuel : ℕ} {s t : Vi W} (h : synchronize fuel s = .ok t) :
    Viewed s t := by
  obtain ⟨b, c, rfl, -⟩ := synchronize_ensures fuel s t h
  exact ⟨_, _, _, rfl⟩

/-- A redraw changes the window and the screen only. -/
theorem redraw_viewed {fuel : ℕ} {s t : Vi W} (h : redraw fuel s = .ok t) : Viewed s t := by
  obtain ⟨b, c, rfl, -⟩ := redraw_ensures fuel s t h
  exact ⟨_, _, _, rfl⟩

/-- `findChar`, and the cursor at the pointer it returns. -/
theorem findChar_path (ks : List Read) (hm : m.move) (fuel : ℕ) (c : UInt8) (s : Vi W) :
    Ensures (findChar fuel c s) fun r => Path m (ks, s) (ks, { r.2 with dot := r.1 }) := by
  unfold findChar
  dsimp only
  -- the pointer stays between the cursor and the end of its line
  have hx := @iterWhile_inv (ℤ × Bool)
    (fun x => !x.2 && decide (x.1 < endLine s.mem s.endp s.dot))
    (fun x => (x.1 + 1, s.mem (x.1 + 1) == c))
    (fun x => s.dot ≤ x.1 ∧ x.1 ≤ endLine s.mem s.endp s.dot)
    (fun x hx hlt => by
      simp only [Bool.and_eq_true, decide_eq_true_eq] at hlt
      omega)
    (endLine s.mem s.endp s.dot - s.dot + 1).toNat (s.dot, false)
    ⟨le_rfl, le_endLine _ _ _⟩
  split_ifs
  · refine Ensures.bind (fun t ht => ht) fun t ht => ?_
    refine Ensures.bind (printOnStatusLine_ensures (str "last one same char") t (by decide)) ?_
    rintro _ ⟨d, rfl, hd⟩
    exact (ensures_ok _ _).mpr (path_effect (Effect.path (.synchronize ht)) (.lastRow hd))
  · rw [ensures_ok]
    refine (Effect.move hm (moves_dot fun hdot => ?_)).path
    refine ⟨hdot.1.trans hx.1, ?_⟩
    by_cases he : s.dot ≤ s.endp - 1
    · exact .inl (hx.2.trans (endLine_le _ he))
    · have := endLine_of_le s.mem (e := s.endp) (p := s.dot) (by omega)
      have := hdot.2
      omega

/-- What `findString` and `reverseFindString` have in common: in a text of at least two
characters, turning round and stepping on leads to a place of the text. -/
def Direction.Stays (dir : Direction) : Prop :=
  ∀ e p, 2 ≤ e → InText e p →
    InText e ((if p = dir.edge e then dir.restart e else p) + dir.step)

theorem forward_stays : forward.Stays := by
  intro e p he hp
  obtain ⟨h0, h1⟩ := hp
  simp only [forward]
  split_ifs
  · exact ⟨by omega, .inl (by omega)⟩
  · exact ⟨by omega, .inl (by omega)⟩

theorem backward_stays : backward.Stays := by
  intro e p he hp
  obtain ⟨h0, h1⟩ := hp
  simp only [backward]
  split_ifs
  · exact ⟨by omega, .inl (by omega)⟩
  · exact ⟨by omega, .inl (by omega)⟩

/-- What a search from `s` has done when it looks at the pointer `p` in the state `t`. -/
structure Searching (m : May) (ks : List Read) (s t : Vi W) (p : ℤ) : Prop where
  path : Path m (ks, s) (ks, t)
  viewed : Viewed s t
  inText : 2 ≤ s.endp → InText s.endp s.dot → InText s.endp p

/-- The turn of a search at the edge of the text. -/
theorem searchTurn_path {dir : Direction} (hmsg : RowFits dir.msg (24 * 80)) (fuel : ℕ)
    {s t : Vi W} (hpath : Path m (ks, s) (ks, t)) (hview : Viewed s t) (p : ℤ) (count : ℕ) :
    Ensures (if p = dir.edge t.endp then
        printOnStatusLine dir.msg t >>= synchronize fuel >>= redraw fuel >>= fun t =>
        .ok (t, dir.restart t.endp, count + 1)
      else .ok (t, p, count)) fun x => Path m (ks, s) (ks, x.1) ∧ Viewed s x.1 ∧
        x.2.1 = if p = dir.edge s.endp then dir.restart s.endp else p := by
  have he : t.endp = s.endp := by
    obtain ⟨_, _, _, rfl⟩ := hview
    rfl
  rw [he]
  split_ifs
  · -- the calls before the restart, innermost first
    have h1 : Ensures (printOnStatusLine dir.msg t) fun u =>
        Path m (ks, s) (ks, u) ∧ Viewed s u := by
      refine (printOnStatusLine_ensures dir.msg t hmsg).mono ?_
      rintro _ ⟨c, rfl, hc⟩
      exact ⟨path_effect hpath (.lastRow hc), hview.trans ⟨_, c, _, rfl⟩⟩
    have h2 : Ensures (printOnStatusLine dir.msg t >>= synchronize fuel) fun u =>
        (Path m (ks, s) (ks, u) ∧ Viewed s u) ∧ Settled u :=
      Ensures.bind h1 fun u hu v hv =>
        ⟨⟨path_effect hu.1 (.synchronize hv), hu.2.trans (synchronize_viewed hv)⟩,
          synchronize_settled hv⟩
    have h3 : Ensures (printOnStatusLine dir.msg t >>= synchronize fuel >>= redraw fuel) fun u =>
        Path m (ks, s) (ks, u) ∧ Viewed s u :=
      Ensures.bind h2 fun u hu v hv =>
        ⟨path_effect hu.1.1 (.redraw hu.2 hv), hu.1.2.trans (redraw_viewed hv)⟩
    refine Ensures.bind h3 ?_
    rintro u ⟨hu, hv⟩
    have : u.endp = s.endp := by
      obtain ⟨_, _, _, rfl⟩ := hv
      rfl
    rw [ensures_ok, this]
    exact ⟨hu, hv, rfl⟩
  · exact (ensures_ok _ _).mpr ⟨hpath, hview, rfl⟩

/-- One pass of a search. -/
theorem searchBody_path {dir : Direction} (hdir : dir.Stays)
    (hmsg : RowFits dir.msg (24 * 80)) (fuel : ℕ) (pat : List UInt8) {s t : Vi W} {p : ℤ}
    {count : ℕ} (h : Searching m ks s t p) :
    Ensures (searchBody fuel dir pat (t, p, count)) fun r =>
      Searching m ks s r.1.1 r.1.2.1 := by
  obtain ⟨hpath, hview, hp⟩ := h
  -- a search that fails returns the cursor
  have hback : ∀ {u : Vi W}, Path m (ks, s) (ks, u) → Viewed s u →
      Searching m ks s u u.dot := by
    rintro u hu ⟨_, _, _, rfl⟩
    exact ⟨hu, ⟨_, _, _, rfl⟩, fun _ hdot => hdot⟩
  unfold searchBody
  dsimp only
  by_cases hstop : p = dir.edge t.endp ∧ count = 1
  · rw [if_pos hstop]
    exact (ensures_ok _ _).mpr (hback hpath hview)
  · rw [if_neg hstop]
    refine Ensures.bind (searchTurn_path hmsg fuel hpath hview p count) ?_
    rintro ⟨u, q, k⟩ ⟨h1, h2, h3⟩
    dsimp only at h1 h2 h3 ⊢
    have hnext : 2 ≤ s.endp → InText s.endp s.dot → InText s.endp (q + dir.step) :=
      fun he hdot => h3 ▸ hdir _ _ he (hp he hdot)
    split_ifs
    · exact (ensures_ok _ _).mpr ⟨h1, h2, hnext⟩
    · refine Ensures.bind (printOnStatusLine_ensures
        (str "Pattern not found") u (by decide)) ?_
      rintro _ ⟨c, rfl, hc⟩
      exact (ensures_ok _ _).mpr (hback (path_effect h1 (.lastRow hc)) (h2.trans ⟨_, c, _, rfl⟩))
    · exact (ensures_ok _ _).mpr ⟨h1, h2, hnext⟩

/-- `findString` and `reverseFindString`. -/
theorem search_path (ks : List Read) {dir : Direction} (hdir : dir.Stays)
    (hmsg : RowFits dir.msg (24 * 80)) (fuel : ℕ) (pat : List UInt8) (s : Vi W) :
    Ensures (search fuel dir pat s) fun r => Searching m ks s r.2 r.1 := by
  refine Ensures.bind (P := fun x => Searching m ks s x.1 x.2.1) ?_
    fun x hx => (ensures_ok _ _).mpr hx
  refine loopFuel_ensures (fun x => Searching m ks s x.1 x.2.1) _ ?_ fuel _
    ⟨.refl, Viewed.refl s, fun _ h => h⟩
  rintro ⟨t, p, count⟩ h
  refine (searchBody_path hdir hmsg fuel pat h).mono fun r hr => ?_
  split_ifs <;> exact hr

/-- The commands `n` and `N`. -/
theorem searchAgain_path (ks : List Read) {dir : Direction} (hdir : dir.Stays)
    (hmsg : RowFits dir.msg (24 * 80)) (fuel : ℕ) {s : Vi W} (hm : s.lastFindString ≠ [] → m.search)
    (hpat : RowFits (chr '/' :: s.lastFindString) (24 * 80)) :
    Ensures (searchAgain fuel dir s) fun t => Path m (ks, s) (ks, t) := by
  unfold searchAgain
  split_ifs with hnil
  · exact (printOnStatusLine_effect (by decide) s).mono fun t ht => ht.path
  · refine Ensures.bind (search_path (m := m) ks hdir hmsg fuel s.lastFindString s) ?_
    rintro ⟨p, t⟩ ⟨hpath, ⟨b, c, y, rfl⟩, hp⟩
    dsimp only
    refine Ensures.bind (fun u hu => hu) fun u hu => ?_
    have hlast : u.lastFindString = s.lastFindString := by
      obtain ⟨_, _, _, rfl⟩ := synchronize_viewed hu
      rfl
    rw [← hlast] at hpat
    refine (printReport_effect m (.inl hpat) u).mono fun v hv => ?_
    exact path_effect (path_effect (path_effect hpath (.jump (hm hnil) hp)) (.synchronize hu)) hv

/-! ## Reading keys -/

/-- The pattern that the keys spell at the prompt `/`; no pattern if it is cancelled. -/
def patternKeys : List Read → Option UInt8 → List UInt8 → Option (List UInt8)
  | [], _, pat => some pat
  | r :: ks, tmp, pat =>
    if pat.length < findStringLength - 1 then
      let c := r.into tmp
      if c = VI_K_ESC then none
      else if c = NL then some pat
      else patternKeys ks (some c) (if 33 ≤ c ∧ c ≤ 126 then pat ++ [c] else pat)
    else some pat

/-- The loop of the prompt `/` reads the pattern the keys spell. -/
theorem patternLoop_path {x : List Read × Vi W} {ks : List Read} {tmp : Option UInt8}
    {pat : List UInt8} {s : Vi W} (hx : Path m x (ks, s)) (hpat : ShortPattern pat) :
    Ensures (patternLoop ks tmp pat s) fun r => Path m x r.2 ∧ r.1 = patternKeys ks tmp pat ∧
      (∀ q, r.1 = some q → ShortPattern q) ∧ r.2.2.lastFindString = s.lastFindString := by
  induction ks generalizing tmp pat s with
  | nil =>
    simp only [patternLoop, patternKeys]
    split_ifs
    · exact (ensures_error _ _).mpr trivial
    · exact (ensures_ok _ _).mpr ⟨hx, rfl, by rintro _ ⟨⟩; exact hpat, rfl⟩
  | cons r ks ih =>
    simp only [patternLoop, patternKeys]
    have hread := path_read (a := .arg (r.into tmp)) hx rfl
    split_ifs with hlen hesc hnl hvis
    · refine Ensures.bind (printOnStatusLine_ensures (str "--COMMAND--") _ (by decide)) ?_
      rintro _ ⟨c, rfl, hc⟩
      exact (ensures_ok _ _).mpr ⟨path_effect hread (.lastRow hc), rfl, by rintro _ ⟨⟩, rfl⟩
    · exact (ensures_ok _ _).mpr ⟨hread, rfl, by rintro _ ⟨⟩; exact hpat, rfl⟩
    · have hpat' : ShortPattern (pat ++ [r.into tmp]) := by
        refine ⟨by rw [List.length_append]; exact hlen, fun c hc => ?_⟩
        rcases List.mem_append.mp hc with hc | hc
        · exact hpat.2 c hc
        · rw [List.mem_singleton.mp hc]
          exact hvis
      unfold findStringLength at hlen
      refine Ensures.bind (writeAt_ensures (y := (pat ++ [r.into tmp]).length + 1)
        (s.act (.arg (r.into tmp))) hnl
        (by simp only [List.length_append, List.length_singleton]; omega)) ?_
      rintro _ ⟨c, rfl, hc⟩
      exact ih (path_effect hread (.lastRow hc)) hpat'
    · exact ih hread hpat
    · exact (ensures_ok _ _).mpr ⟨hx, rfl, by rintro _ ⟨⟩; exact hpat, rfl⟩

/-- The command `/`. -/
theorem slash_path (fuel : ℕ) (ks : List Read) {s : Vi W} (hs : ShortPattern s.lastFindString)
    (hm : ∀ pat, patternKeys ks none [] = some pat →
      pat ≠ [] ∨ s.lastFindString ≠ [] → m.search) :
    Ensures (slash fuel ks s) fun r => Path m (ks, s) r := by
  unfold slash
  dsimp only
  refine Ensures.bind (printOnStatusLine_ensures [] s (by decide)) ?_
  rintro _ ⟨c₁, rfl, h₁⟩
  refine Ensures.bind (writeAt_ensures (y := 0) _ (by decide) (by decide)) ?_
  rintro _ ⟨c₂, rfl, h₂⟩
  have hpath : Path m (ks, s) (ks, { s with cga := c₂ }) :=
    path_effect (Effect.path (.lastRow h₁)) (.lastRow h₂)
  refine Ensures.bind (patternLoop_path hpath ⟨by decide, by simp⟩) ?_
  rintro ⟨_ | pat, ks', s₃⟩ ⟨h₃, hkeys, hshort, hlast⟩
  · exact (ensures_ok _ _).mpr h₃
  · refine Ensures.bind (moveCursor_ensures _ s₃) ?_
    rintro _ ⟨c₄, rfl, h₄, -⟩
    have hpath₄ := path_effect h₃ (.lastRow h₄)
    dsimp only at hlast hkeys
    split_ifs with hne
    · refine Ensures.bind (searchAgain_path (m := m) ks' forward_stays (by decide) fuel
        (fun _ => hm pat hkeys.symm (.inl hne)) (hshort pat rfl).rowFits) fun t ht => ?_
      exact (ensures_ok _ _).mpr
        ((path_effect hpath₄ (.pattern (hshort pat rfl))).trans ht)
    · refine Ensures.bind (searchAgain_path (m := m) ks' forward_stays (by decide) fuel
        (fun h => hm pat hkeys.symm (.inr (hlast ▸ h)))
        (hlast.symm ▸ hs.rowFits)) fun t ht => ?_
      exact (ensures_ok _ _).mpr (hpath₄.trans ht)

/-- The loop of the prompt `:`. -/
theorem colonLoop_path {x : List Read × Vi W} {ks : List Read} {order : List UInt8} {s : Vi W}
    (hx : Path m x (ks, s)) (hlen : order.length < orderSize - 1) :
    Ensures (colonLoop ks order s) fun r => Path m x r.2 := by
  induction ks generalizing order s with
  | nil => exact (ensures_error _ _).mpr trivial
  | cons r ks ih =>
    simp only [colonLoop]
    have hread := path_read (a := .arg (r.into none)) hx rfl
    by_cases hnl : r.into none = NL
    · rw [if_pos hnl]
      exact (ensures_ok _ _).mpr hread
    · rw [if_neg hnl]
      unfold orderSize at hlen
      refine Ensures.bind (writeAt_ensures (y := order.length + 1)
        (s.act (.arg (r.into none))) hnl (by omega)) ?_
      rintro _ ⟨c, rfl, hc⟩
      have hwrite := path_effect hread (.lastRow hc)
      split_ifs with hfull
      · exact (ensures_ok _ _).mpr hwrite
      · refine ih hwrite ?_
        rw [List.length_append, List.length_singleton] at hfull ⊢
        unfold orderSize at hfull ⊢
        omega

/-- `file_save` changes the screen in the last row, the outside world, and the record of what
has been done. -/
theorem fileSave_path (ks : List Read) (hm : m.file) (sys : Sys W) (s : Vi W) :
    Ensures (fileSave sys s) fun r => Path m (ks, s) (ks, r.2) := by
  unfold fileSave
  split
  · refine Ensures.bind (printOnStatusLine_ensures
      (str "No current filename!!!") s (by decide)) ?_
    rintro _ ⟨c, rfl, hc⟩
    exact (ensures_ok _ _).mpr (Effect.path (.lastRow hc))
  · dsimp only
    split_ifs
    · exact (ensures_ok _ _).mpr (Effect.path (.file [false] hm))
    · refine Ensures.bind (printOnStatusLine_ensures (str "save error!!!") _ (by decide)) ?_
      rintro _ ⟨c, rfl, hc⟩
      exact (ensures_ok _ _).mpr
        (path_effect (Effect.path (.file [false] hm)) (.lastRow hc))
    · exact (ensures_ok _ _).mpr (Effect.path (.file [true] hm))

/-- The flags change. -/
theorem Effect.flags {s : Vi W} {e h : Bool} (hm : m.file) :
    Effect m s { s with editing := e, hasChanged := h } := by
  simpa using @Effect.file W m s e h s.world [] hm

/-- The commands of the prompt `:`. -/
theorem colonCommand_path (ks : List Read) (hm : m.file) (sys : Sys W) (order : List UInt8)
    (s : Vi W) : Ensures (colonCommand sys order s) fun t => Path m (ks, s) (ks, t) := by
  have hmsg : ∀ {msg : List UInt8}, RowFits msg (24 * 80) →
      Ensures (printOnStatusLine msg s) fun t => Path m (ks, s) (ks, t) :=
    fun h => (printOnStatusLine_effect h s).mono fun _ ht => ht.path
  unfold colonCommand
  split_ifs
  · exact (ensures_ok _ _).mpr (Effect.flags hm).path
  · exact hmsg (by decide)
  · exact (ensures_ok _ _).mpr (Effect.flags hm).path
  · refine Ensures.bind (fileSave_path ks hm sys s) fun r hr => ?_
    exact (ensures_ok _ _).mpr (path_effect hr (.flags hm))
  · refine Ensures.bind (fileSave_path ks hm sys _) fun r hr => ?_
    exact (ensures_ok _ _).mpr ((Effect.flags hm).path.trans hr)
  · exact hmsg (by decide)
  · exact hmsg (by decide)
  · exact hmsg (by decide)

/-- The prompt `:`. -/
theorem colon_path (hm : m.file) (sys : Sys W) (ks : List Read) (s : Vi W) :
    Ensures (colon sys ks s) fun r => Path m (ks, s) r := by
  unfold colon
  dsimp only
  refine ensures_effect_bind (.refl : Path m (ks, s) (ks, s))
    (printOnStatusLine_effect (by decide) s) fun s₁ h₁ => ?_
  refine ensures_effect_bind h₁ (writeAt_effect (y := 0) (by decide) (by decide) s₁)
    fun s₂ h₂ => ?_
  refine Ensures.bind (colonLoop_path h₂ (by decide)) ?_
  rintro ⟨order, ks', s₃⟩ h₃
  refine Ensures.bind (colonCommand_path ks' hm sys _ s₃) fun s₄ h₄ => ?_
  refine ensures_effect_bind (h₃.trans h₄) (moveCursor_effect _ s₄) fun s₅ h₅ => ?_
  exact (ensures_ok _ _).mpr h₅

/-- The cursor keys of insert mode move. -/
theorem insertKey_moves (c : UInt8) (s : Vi W) : Moves s (insertKey c s) := by
  unfold insertKey
  split
  · exact dotUp_moves s
  · exact dotDown_moves s
  · exact dotLeft_moves s
  · exact dotRight_moves s
  · exact (dotTail_moves s).trans (dotLeft_moves _)
  · exact Moves.refl s

/-- Inserting a character leaves the flag as it is. -/
theorem typeChar_hasChanged {fuel : ℕ} {c : UInt8} {s t : Vi W} (h : typeChar fuel c s = .ok t) :
    t.hasChanged = s.hasChanged := by
  obtain ⟨b, d, rfl, -⟩ := redraw_synchronize_ensures fuel _ t h
  simp only [typeText, store, makeHoleAdd, dotIncrease]
  split_ifs <;> rfl

/-- The loop of insert mode. -/
theorem insertLoop_path (hm : m.move) (fuel : ℕ) {x : List Read × Vi W} {ks : List Read}
    {c : Option UInt8} {s : Vi W} (hx : Path m x (ks, s)) (hs : s.hasChanged = true) :
    Ensures (insertLoop fuel ks c s) fun r => Path m x r := by
  induction ks generalizing c s with
  | nil =>
    rw [insertLoop_nil]
    exact Ensures.bind (fun _ h => h) fun _ _ => (ensures_error _ _).mpr trivial
  | cons r ks ih =>
    rw [insertLoop_cons]
    refine Ensures.bind (printOnStatusLine_ensures (str "--INSERT--") s (by decide)) ?_
    rintro _ ⟨d, rfl, hd⟩
    dsimp only
    have hread := path_read (a := .insert (r.into c)) (path_effect hx (.lastRow hd)) rfl
    split_ifs with hesc hprint
    · refine ensures_effect_bind hread (printOnStatusLine_effect (by decide) _) fun t ht => ?_
      exact (ensures_ok _ _).mpr ht
    · refine Ensures.bind (fun t ht => ht) fun t ht => ?_
      exact ih (path_effect hread (.typed hs hprint ht)) ((typeChar_hasChanged ht).trans hs)
    · refine Ensures.bind (fun t ht => ht) fun t ht => ?_
      have hmove := insertKey_moves (r.into c) (Vi.act (.insert (r.into c)) { s with cga := d })
      refine ih (path_effect (path_effect hread (.move hm hmove)) (.synchronize ht)) ?_
      obtain ⟨_, _, _, rfl⟩ := synchronize_viewed ht
      obtain ⟨_, _, heq, -⟩ := hmove
      rw [heq]
      exact hs

/-- Insert mode. -/
theorem insert_path (hm : m.move) (fuel : ℕ) {x : List Read × Vi W} {ks : List Read} {s : Vi W}
    (hx : Path m x (ks, { s with hasChanged := true })) :
    Ensures (insert fuel ks s) fun r => Path m x r := by
  refine Ensures.bind (insertLoop_path hm fuel hx rfl) ?_
  rintro ⟨ks', t⟩ ht
  refine ensures_effect_bind ht (printOnStatusLine_effect (by decide) t) fun u hu => ?_
  exact (ensures_ok _ _).mpr hu

/-- The characters replace mode acts on: those before the first ESC. -/
def replaceKeys : List Read → Option UInt8 → List UInt8
  | [], _ => []
  | r :: ks, tmp =>
    let c := r.into tmp
    if c = VI_K_ESC then [] else c :: replaceKeys ks (some c)

/-- The loop of replace mode. -/
theorem replaceLoop_path (fuel : ℕ) {x : List Read × Vi W} {ks : List Read}
    {tmp : Option UInt8} {s : Vi W} (hx : Path m x (ks, s))
    (hm : ∀ c ∈ replaceKeys ks tmp, m.overtype c) :
    Ensures (replaceLoop fuel ks tmp s) fun r => Path m x r := by
  induction ks generalizing tmp s with
  | nil =>
    rw [replaceLoop_nil]
    exact Ensures.bind (fun _ h => h) fun _ _ => (ensures_error _ _).mpr trivial
  | cons r ks ih =>
    rw [replaceLoop_cons]
    simp only [replaceKeys] at hm
    refine ensures_effect_bind hx (printOnStatusLine_effect (by decide) s) fun t ht => ?_
    dsimp only
    have hread := path_read (a := .replace (r.into tmp)) ht rfl
    by_cases hesc : r.into tmp = VI_K_ESC
    · rw [if_pos hesc]
      refine ensures_effect_bind hread (printOnStatusLine_effect (by decide) _) fun u hu => ?_
      exact (ensures_ok _ _).mpr hu
    · rw [if_neg hesc] at hm ⊢
      have hrest : ∀ c ∈ replaceKeys ks (some (r.into tmp)), m.overtype c :=
        fun c hc => hm c (List.mem_cons_of_mem _ hc)
      split_ifs with hprint
      · refine Ensures.bind (fun u hu => hu) fun u hu => ?_
        exact ih (path_effect hread (.overtyped (hm _ List.mem_cons_self) hprint hu)) hrest
      · exact ih hread hrest

/-- A command that reads one key. -/
theorem readArg_path (ks : List Read) (s : Vi W) :
    Ensures (readArg ks s) fun r => Path m (ks, s) r.2 ∧ ∃ a, ks.head? = some a ∧
      r.1 = a.into none ∧ r.2.2 = s.act (.arg (a.into none)) := by
  cases ks with
  | nil => exact (ensures_error _ _).mpr trivial
  | cons r ks => exact (ensures_ok _ _).mpr ⟨path_read .refl rfl, r, rfl, rfl, rfl⟩

/-! ## Commands -/

/-- The commands that edit the text at the cursor and do nothing else. -/
def Cmd.edit : Cmd → Option (Vi W → Vi W)
  | .toggle => some toggleCase
  | .join => some joinLine
  | .deleteTail => some HgXv6.deleteTail
  | .indent => some HgXv6.indent
  | .unindent => some HgXv6.unindent
  | _ => none

/-- Such a command is its edit. -/
theorem execCmd_edit {cmd : Cmd} {f : Vi W → Vi W} (h : cmd.edit = some f) (sys : Sys W)
    (fuel : ℕ) (ks : List Read) (s : Vi W) : execCmd sys fuel cmd ks s = .ok (ks, f s) := by
  cases cmd <;> simp only [Cmd.edit, reduceCtorEq, Option.some.injEq] at h <;> subst h <;> rfl

/-- What a command may do, with the keys `ks` to read, from the state `s` on. -/
def may (cmd : Cmd) (ks : List Read) (s : Vi W) : May where
  move := cmd ≠ .replace ∧ cmd ≠ .replaceMode
  overtype c :=
    match cmd with
    | .replace => ∃ r, ks.head? = some r ∧ c = r.into none
    | .replaceMode => c ∈ replaceKeys ks none
    | _ => False
  search :=
    match cmd with
    | .next | .prev => s.lastFindString ≠ []
    | .slash => ∃ pat, patternKeys ks none [] = some pat ∧ (pat ≠ [] ∨ s.lastFindString ≠ [])
    | _ => False
  spill := cmd = .status ∧ ¬RowFits (statusReport s) (24 * 80)
  file := cmd = .colon ∨ cmd = .quit

/-- A command that ends in insert mode. -/
theorem bind_insert_path (hm : m.move) (fuel : ℕ) {s : Vi W} {c : Except Stop (Vi W)}
    (hc : Ensures c fun t => Path m (ks, s) (ks, { t with hasChanged := true })) :
    Ensures (c >>= insert fuel ks) fun r => Path m (ks, s) r :=
  Ensures.bind hc fun _ ht => insert_path hm fuel ht

/-- Every command but those that edit at the cursor is a sequence of steps.

**Proof sketch.** One case for each command, each of which is the sequence of the steps that its
functions make: a move, a read of a key, a synchronisation, a redraw, a message in the last row.
What a command may do beside that is collected in `may`, so that a command that does not search,
say, has no `jump` on its path. The edits at the cursor that draw nothing, and `x`, are dealt with
by `execCmd_cases`. -/
theorem execCmd_path (sys : Sys W) (fuel : ℕ) {cmd : Cmd} (ks : List Read) {s : Vi W}
    (hs : ShortPattern s.lastFindString) (hset : Settled s) (hcmd : cmd.edit (W := W) = none)
    (hx : cmd ≠ .deleteChar) :
    Ensures (execCmd sys fuel cmd ks s) fun r => Path (may cmd ks s) (ks, s) r := by
  have hmove : cmd ≠ .replace → cmd ≠ .replaceMode → (may cmd ks s).move := And.intro
  cases cmd with
  | move mv =>
    exact Ensures.bind (doMove_moves fuel mv s) fun t ht =>
      (ensures_ok _ _).mpr (Effect.move (hmove nofun nofun) ht).path
  | find =>
    refine Ensures.bind (readArg_path (m := may .find ks s) ks s) ?_
    rintro ⟨c, ks', t⟩ ⟨ht, -⟩
    dsimp only
    split_ifs
    · refine Ensures.bind (findChar_path (m := may .find ks s) ks' (hmove nofun nofun) fuel c _)
        fun r hr => ?_
      exact (ensures_ok _ _).mpr ((path_effect ht .findChar).trans hr)
    · exact (ensures_ok _ _).mpr ht
  | findAgain =>
    simp only [execCmd]
    split_ifs
    · exact Ensures.bind (findChar_path ks (hmove nofun nofun) fuel _ s) fun r hr =>
        (ensures_ok _ _).mpr hr
    · exact (ensures_ok _ _).mpr .refl
  | slash => exact slash_path fuel ks hs fun pat h1 h2 => ⟨pat, h1, h2⟩
  | next =>
    exact Ensures.bind (searchAgain_path ks forward_stays (by decide) fuel (fun h => h)
      hs.rowFits) fun t ht => (ensures_ok _ _).mpr ht
  | prev =>
    exact Ensures.bind (searchAgain_path ks backward_stays (by decide) fuel (fun h => h)
      hs.rowFits) fun t ht => (ensures_ok _ _).mpr ht
  | replace =>
    refine Ensures.bind (readArg_path (m := may .replace ks s) ks s) ?_
    rintro ⟨c, ks', t⟩ ⟨ht, r, hr, hc, -⟩
    dsimp only
    split_ifs with hprint
    · refine Ensures.bind (fun u hu => hu) fun u hu => (ensures_ok _ _).mpr ?_
      exact path_effect ht (.overtyped ⟨r, hr, hc⟩ hprint hu)
    · exact (ensures_ok _ _).mpr ht
  | replaceMode => exact replaceLoop_path fuel (Effect.path .change) fun c hc => hc
  | del => exact (ensures_ok _ _).mpr (Effect.path .change)
  | openBelow =>
    exact bind_insert_path (hmove nofun nofun) fuel fun t ht => (Effect.opened (.inl rfl) ht).path
  | openAbove =>
    exact bind_insert_path (hmove nofun nofun) fuel fun t ht => (Effect.opened (.inr rfl) ht).path
  | insert => exact insert_path (hmove nofun nofun) fuel (Effect.path .change)
  | insertHead =>
    refine bind_insert_path (hmove nofun nofun) fuel fun t ht => ?_
    exact path_effect (path_effect (Effect.path (.move (hmove nofun nofun) (dotHead_moves s)))
      (.synchronize ht)) .change
  | append =>
    exact insert_path (hmove nofun nofun) fuel
      (path_effect (Effect.path (.move (hmove nofun nofun) (dotRight_moves s))) .change)
  | appendTail =>
    refine bind_insert_path (hmove nofun nofun) fuel fun t ht => ?_
    have htail := (dotTail_moves s).trans (dotDecrease_moves _)
    exact path_effect (path_effect (Effect.path (.move (hmove nofun nofun) htail))
      (.synchronize ht)) .change
  | colon => exact colon_path (m := may .colon ks s) (Or.inl rfl) sys ks s
  | refresh =>
    refine Ensures.bind (P := fun t => Path (may .refresh ks s) (ks, s) (ks, t)) ?_
      fun t ht => (ensures_ok _ _).mpr ht
    refine Ensures.bind (fun t ht => ht) fun t ht => ?_
    exact (printOnStatusLine_effect (by decide) t).mono fun u hu =>
      path_effect (Effect.path (.redraw hset ht)) hu
  | status =>
    simp only [execCmd, showStatus]
    split_ifs
    · exact (ensures_error _ _).mpr trivial
    · refine Ensures.bind (printReport_effect (may .status ks s) ?_ s) fun t ht =>
        (ensures_ok _ _).mpr ht.path
      by_cases h : RowFits (statusReport s) (24 * 80)
      · exact .inl h
      · exact .inr ⟨rfl, h⟩
  | quit =>
    have hfile : (may .quit ks s).file := Or.inr rfl
    refine Ensures.bind (readArg_path (m := may .quit ks s) ks s) ?_
    rintro ⟨c, ks', t⟩ ⟨ht, -⟩
    dsimp only
    split_ifs
    · refine Ensures.bind (fileSave_path ks' hfile sys t) fun r hr => ?_
      exact (ensures_ok _ _).mpr (path_effect (ht.trans hr) (.flags hfile))
    · exact (ensures_ok _ _).mpr ht
  | other =>
    exact Ensures.bind (printOnStatusLine_effect (by decide) s) fun t ht =>
      (ensures_ok _ _).mpr ht.path
  | toggle | join | deleteTail | indent | unindent => cases hcmd
  | deleteChar => exact absurd rfl hx

/-! ## What steps leave alone -/

/-- From `s` to `t` nothing but the text, the cursor, the window, the screen and the flag
`hasChanged` has changed. -/
def Edited (s t : Vi W) : Prop :=
  ∃ mem e d b c y h, t = { s with
    mem := mem, endp := e, dot := d, screenbegin := b, cga := c, synScreenbegin := y,
    hasChanged := h }

theorem Edited.refl (s : Vi W) : Edited s s := ⟨_, _, _, _, _, _, _, rfl⟩

theorem Edited.trans {s t u : Vi W} (h : Edited s t) (h' : Edited t u) : Edited s u := by
  obtain ⟨_, _, _, _, _, _, _, rfl⟩ := h
  obtain ⟨_, _, _, _, _, _, _, rfl⟩ := h'
  exact ⟨_, _, _, _, _, _, _, rfl⟩

theorem Moves.edited {s t : Vi W} (h : Moves s t) : Edited s t := by
  obtain ⟨_, _, rfl, -⟩ := h
  exact ⟨_, _, _, _, _, _, _, rfl⟩

theorem Viewed.edited {s t : Vi W} (h : Viewed s t) : Edited s t := by
  obtain ⟨_, _, _, rfl⟩ := h
  exact ⟨_, _, _, _, _, _, _, rfl⟩

theorem makeHoleAdd_edited (p : ℤ) (n : ℕ) (s : Vi W) : Edited s (makeHoleAdd p n s) := by
  unfold makeHoleAdd
  split_ifs
  · exact Edited.refl s
  · exact ⟨_, _, _, _, _, _, _, rfl⟩

theorem makeHoleDelete_edited (a b : ℤ) (s : Vi W) : Edited s (makeHoleDelete a b s) :=
  ⟨_, _, _, _, _, _, _, rfl⟩

theorem store_edited (p : ℤ) (c : UInt8) (s : Vi W) : Edited s (store p c s) :=
  ⟨_, _, _, _, _, _, _, rfl⟩

theorem change_edited (s : Vi W) : Edited s { s with hasChanged := true } :=
  ⟨_, _, _, _, _, _, _, rfl⟩

theorem typeText_edited (c : UInt8) (s : Vi W) : Edited s (typeText c s) :=
  ((makeHoleAdd_edited _ _ s).trans (store_edited _ _ _)).trans (dotIncrease_moves _).edited

theorem overText_edited (c : UInt8) (s : Vi W) : Edited s (overText c s) :=
  ((change_edited s).trans (store_edited _ _ _)).trans (dotIncrease_moves _).edited

theorem openBelow_edited (s : Vi W) : Edited s (openBelow s) :=
  ((makeHoleAdd_edited _ _ s).trans (store_edited _ _ _)).trans (dotNextLine_moves _).edited

theorem openAbove_edited (s : Vi W) : Edited s (openAbove s) := by
  refine ((makeHoleAdd_edited (beginLine s.mem s.dot) 1 s).trans
    (store_edited (beginLine s.mem s.dot) NL _)).trans ?_
  exact ⟨_, _, _, _, _, _, _, rfl⟩

/-- A redraw and a synchronisation after an edit. -/
theorem redraw_synchronize_edited {fuel : ℕ} {s t : Vi W}
    (h : (redraw fuel s >>= synchronize fuel) = .ok t) : Edited s t := by
  obtain ⟨_, _, rfl, -⟩ := redraw_synchronize_ensures fuel s t h
  exact ⟨_, _, _, _, _, _, _, rfl⟩

/-- The edit of a command is one. -/
theorem Cmd.edit_edited {cmd : Cmd} {f : Vi W → Vi W} (h : cmd.edit = some f) (s : Vi W) :
    Edited s (f s) := by
  cases cmd with
  | toggle =>
    cases h
    exact ((change_edited s).trans (store_edited _ _ _)).trans (dotIncrease_moves _).edited
  | join =>
    cases h
    exact (change_edited s).trans (makeHoleDelete_edited _ _ _)
  | deleteTail =>
    cases h
    unfold HgXv6.deleteTail
    dsimp only
    split_ifs
    · exact (change_edited s).trans (makeHoleDelete_edited _ _ _)
    · exact Edited.refl s
  | indent =>
    cases h
    exact ((change_edited s).trans (makeHoleAdd_edited _ _ _)).trans (store_edited _ _ _)
  | unindent =>
    cases h
    unfold HgXv6.unindent
    dsimp only
    split_ifs
    · exact (change_edited s).trans (makeHoleDelete_edited _ _ _)
    · exact Edited.refl s
  | _ => cases h

/-- The steps, by what they may change. -/
theorem Effect.frame {s t : Vi W} (h : Effect m s t) :
    Edited s t ∨ (∃ c, t = { s with lastFindChar := c }) ∨
    (∃ pat, ShortPattern pat ∧ t = { s with lastFindString := pat }) ∨
    (m.file ∧ ∃ (e h : Bool) (w : W) (oks : List Bool), t = { s with
      editing := e, hasChanged := h, world := w, trace := s.trace ++ oks.map .save }) := by
  cases h with
  | move hm h => exact .inl h.edited
  | lastRow h => exact .inl ⟨_, _, _, _, _, _, _, rfl⟩
  | spill h => exact .inl ⟨_, _, _, _, _, _, _, rfl⟩
  | redraw hs h => exact .inl (redraw_viewed h).edited
  | synchronize h => exact .inl (synchronize_viewed h).edited
  | findChar => exact .inr (.inl ⟨_, rfl⟩)
  | pattern h => exact .inr (.inr (.inl ⟨_, h, rfl⟩))
  | jump h hp => exact .inl ⟨_, _, _, _, _, _, _, rfl⟩
  | change => exact .inl (change_edited s)
  | typed hs hc h => exact .inl ((typeText_edited _ s).trans (redraw_synchronize_edited h))
  | overtyped hm hc h => exact .inl ((overText_edited _ s).trans (redraw_viewed h).edited)
  | opened hl h =>
    refine .inl ((Edited.trans ?_ (redraw_synchronize_edited h)).trans (change_edited _))
    rcases hl with rfl | rfl
    · exact openBelow_edited s
    · exact openAbove_edited s
  | file _ h => exact .inr (.inr (.inr ⟨h, _, _, _, _, rfl⟩))

/-- What every step and every read preserves, a sequence of them preserves. -/
theorem Path.preserves {P : Vi W → Prop} {x y : List Read × Vi W} (h : Path m x y)
    (heffect : ∀ s t, Effect m s t → P s → P t)
    (hact : ∀ (a : Act) (s : Vi W), a.key ≠ none → P s → P (s.act a))
    (hx : P x.2) : P y.2 := by
  induction h with
  | refl => exact hx
  | tail _ hsmall ih =>
    cases hsmall with
    | effect h => exact heffect _ _ h ih
    | read h => exact hact _ _ (fun hn => nomatch hn.symm.trans h) ih

end HgXv6
