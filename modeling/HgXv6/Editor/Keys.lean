import HgXv6.Console.Input
import HgXv6.Editor.Run
import Mathlib.Data.List.Forall2

set_option relaxedAutoImplicit false
set_option autoImplicit false

/-!
# One key, one action

The editor reads its keys one byte at a time and never looks at the result of `read`. The console
treats Ctrl-D as the end of the file: the read returns 0 and stores nothing, so that the editor
acts a second time on the byte of the key before, or on whatever the variable held. Every read is
followed by exactly one action, and the actions are on the delivered bytes as long as no Ctrl-D
is typed.

## Main definitions

* `HgXv6.Reading` — a read of one byte from the console, and what the editor sees of it.
* `HgXv6.acted`, `HgXv6.delivered` — the bytes acted on, and the bytes the reads delivered.

## Main results

* `HgXv6.consoleread_one` — a read of one byte from the console.
* `HgXv6.Path.consumes`, `HgXv6.step_consumes` — as many actions as reads.
* `HgXv6.acted_iff_run` — the actions are on the delivered bytes exactly while none is Ctrl-D.
-/

namespace HgXv6

open Prog

variable {W : Type} {sys : Sys W}

/-! ## Reads from the console -/

/-- A call of `read(0,&c,1)` by the editor, from the moment it gets the lock and finds a byte in
the ring. What the console did in between is in its state. -/
structure Reading where
  console : Console
  ready : console.input.r ≠ console.input.w
  junk : UInt8

/-- The byte that was typed. -/
def Reading.typed (q : Reading) : UInt8 :=
  q.console.input.buf (q.console.input.r.toNat % INPUT_BUF)

/-- What the editor sees of the call. -/
def Reading.key (q : Reading) : Read :=
  match (consoleread false 1 q.console).1 with
  | .returned (b :: _) _ => .byte b
  | _ => .zero q.junk

/-- The bytes a read has stored. -/
def Read.stored : Read → List UInt8
  | .byte b => [b]
  | .zero _ => []

/-- The call takes the typed byte from the ring. It stores it and returns 1, unless it is Ctrl-D:
then it stores nothing and returns 0. -/
theorem consoleread_one (q : Reading) :
    consoleread false 1 q.console =
      (.returned q.key.stored q.key.stored.length,
        { q.console with input := { q.console.input with r := q.console.input.r + 1 } },
        [.take q.typed]) ∧
      q.key = if q.typed = ctrl 'D' then .zero q.junk else .byte q.typed := by
  have hready := q.ready
  have hNL : NL ≠ ctrl 'D' := by decide
  unfold Reading.key Reading.typed
  by_cases hb : q.console.input.buf (q.console.input.r.toNat % INPUT_BUF) = ctrl 'D'
  · simp [consoleread, consolereadLoop, Reader.start, Reader.finish, hready, hb, Read.stored]
  · by_cases hnl : q.console.input.buf (q.console.input.r.toNat % INPUT_BUF) = NL
    · simp [consoleread, consolereadLoop, Reader.start, Reader.finish, hready, hNL, hnl,
        Read.stored]
    · simp [consoleread, consolereadLoop, Reader.start, Reader.finish, hready, hb, hnl,
        Read.stored]

/-- A read stores nothing exactly if Ctrl-D was typed. -/
theorem Reading.stored_eq_nil (q : Reading) : q.key.stored = [] ↔ q.typed = ctrl 'D' := by
  rw [(consoleread_one q).2]
  split_ifs with h <;> simp [Read.stored, h]

/-! ## Actions -/

/-- The bytes that have been acted on. -/
def acted (trace : List Act) : List UInt8 := trace.filterMap Act.key

/-- The bytes that the reads have delivered. -/
def delivered (rs : List Read) : List UInt8 := rs.flatMap Read.stored

@[simp] theorem acted_append (l l' : List Act) : acted (l ++ l') = acted l ++ acted l' :=
  List.filterMap_append

/-- Each read is acted on once, in order: `bs` are the bytes in `c` after the reads `rs`. -/
abbrev ActedOn (rs : List Read) (bs : List UInt8) : Prop :=
  List.Forall₂ (fun r b => ∃ c, b = r.into c) rs bs

/-- As many bytes as reads are delivered only if every read delivers one. -/
theorem stored_ne_nil_of_length : ∀ {l : List Read}, l.length ≤ (delivered l).length →
    ∀ r ∈ l, r.stored ≠ [] := by
  have hle : ∀ l : List Read, (delivered l).length ≤ l.length := by
    intro l
    induction l with
    | nil => exact Nat.le_refl 0
    | cons r l ih => cases r <;> simp [delivered, Read.stored] at ih ⊢ <;> omega
  intro l hl
  induction l with
  | nil => simp
  | cons r l ih =>
    have hl' := hle l
    cases r with
    | byte b =>
      have hrest := ih (by simpa [delivered, Read.stored] using hl)
      simpa [Read.stored] using hrest
    | zero junk =>
      -- the other reads would have to deliver more bytes than there are reads
      have : l.length + 1 ≤ (delivered l).length := by simpa [delivered, Read.stored] using hl
      omega

/-- The actions are on the delivered bytes exactly if every read delivered one. -/
theorem ActedOn.eq_delivered_iff {rs : List Read} {bs : List UInt8} (h : ActedOn rs bs) :
    bs = delivered rs ↔ ∀ r ∈ rs, r.stored ≠ [] := by
  constructor
  · intro heq
    -- there are as many actions as reads
    have hlen : rs.length = bs.length := List.Forall₂.length_eq h
    exact stored_ne_nil_of_length (by rw [← heq, hlen])
  · intro hall
    induction h with
    | nil => rfl
    | @cons r b rs bs hb _ ih =>
      obtain ⟨c, rfl⟩ := hb
      have hrest := ih fun q hq => hall q (List.mem_cons_of_mem r hq)
      cases r with
      | byte b => simpa [delivered, Read.stored, Read.into] using hrest
      | zero junk => exact absurd rfl (hall _ List.mem_cons_self)

/-- From `x` to `y` keys have been read, and each acted on once. -/
def Consumes (x y : List Read × Vi W) : Prop :=
  ∃ rs bs, x.1 = rs ++ y.1 ∧ acted y.2.trace = acted x.2.trace ++ bs ∧ ActedOn rs bs

theorem Consumes.refl (x : List Read × Vi W) : Consumes x x := ⟨[], [], rfl, by simp, .nil⟩

theorem Consumes.trans {x y z : List Read × Vi W} (h : Consumes x y) (h' : Consumes y z) :
    Consumes x z := by
  obtain ⟨rs, bs, h1, h2, h3⟩ := h
  obtain ⟨rs', bs', h1', h2', h3'⟩ := h'
  refine ⟨rs ++ rs', bs ++ bs', ?_, ?_, List.rel_append h3 h3'⟩
  · rw [h1, h1', List.append_assoc]
  · rw [h2', h2, List.append_assoc]

/-- What leaves keys and actions alone. -/
theorem consumes_of_eq {ks : List Read} {s t : Vi W} (h : acted t.trace = acted s.trace) :
    Consumes (ks, s) (ks, t) := ⟨[], [], rfl, by simp [h], .nil⟩

/-- A read and the action on it. -/
theorem consumes_read {ks : List Read} {s : Vi W} {r : Read} {c : Option UInt8} {a : Act}
    (ha : a.key = some (r.into c)) : Consumes (r :: ks, s) (ks, s.act a) := by
  refine ⟨[r], [r.into c], rfl, ?_, .cons ⟨c, rfl⟩ .nil⟩
  simp only [Vi.act, acted_append]
  simp [acted, ha]

/-- An edit does not act on a key. -/
theorem Edited.trace {s t : Vi W} (h : Edited s t) : t.trace = s.trace := by
  obtain ⟨_, _, _, _, _, _, _, rfl⟩ := h
  rfl

/-- A step does not act on a key. -/
theorem Effect.acted {m : May} {s t : Vi W} (h : Effect m s t) :
    acted t.trace = acted s.trace := by
  rcases h.frame with h | ⟨_, rfl⟩ | ⟨_, -, rfl⟩ | ⟨-, _, _, _, oks, rfl⟩
  · rw [h.trace]
  · rfl
  · rfl
  · have hsaves : HgXv6.acted (oks.map .save) = [] := by
      simp [HgXv6.acted, List.filterMap_map, Act.key]
    rw [acted_append, hsaves, List.append_nil]

/-- A sequence of steps acts once on each key it reads. -/
theorem Path.consumes {m : May} {x y : List Read × Vi W} (h : Path m x y) : Consumes x y := by
  induction h with
  | refl => exact Consumes.refl x
  | tail _ hsmall ih =>
    cases hsmall with
    | effect h => exact ih.trans (consumes_of_eq h.acted)
    | read h => exact ih.trans (consumes_read h)

/-- A command acts once on each key it reads. -/
theorem execCmd_consumes (sys : Sys W) (fuel : ℕ) {cmd : Cmd} {ks : List Read} {s : Vi W}
    (hp : Paused s) : Ensures (execCmd sys fuel cmd ks s) fun r => Consumes (ks, s) r := by
  intro r hr
  rcases execCmd_cases sys fuel cmd ks hp r hr with hpath | ⟨f, hf, rfl⟩ | ⟨rfl, hks, hx⟩
  · exact hpath.consumes
  · exact consumes_of_eq (by rw [(Cmd.edit_edited hf s).trace])
  · obtain ⟨_, _, heq, -⟩ := dotDelete_ensures fuel _ _ hx
    obtain ⟨ks', t⟩ := r
    obtain rfl : ks' = ks := hks
    rw [show t = _ from heq]
    exact consumes_of_eq rfl

/-- A pass of the main loop acts once on each key it reads. -/
theorem step_consumes {x y : Config W} (h : Step sys x y) (hp : Paused x.vi) :
    Consumes (x.keys, x.vi) (y.keys, y.vi) := by
  obtain ⟨fuel, r, ks, u, v, hpass⟩ := step_cases h
  have hexec := execCmd_consumes sys fuel (hpass.paused hp) _ hpass.exec
  have hsync : acted y.vi.trace = acted v.trace := by
    rw [(synchronize_viewed hpass.sync).edited.trace]
  obtain ⟨c, rfl, -⟩ := hpass.start
  rw [hpass.keys]
  have hread : Consumes (r :: ks, x.vi) (ks, x.vi.act (.exec (r.into x.c))) :=
    consumes_read (c := x.c) rfl
  exact (hread.trans (consumes_of_eq rfl)).trans (hexec.trans (consumes_of_eq hsync))

/-- A run acts once on each key it reads. -/
theorem run_consumes {x y : Config W} (h : Run sys x y) (hp : Paused x.vi) :
    Consumes (x.keys, x.vi) (y.keys, y.vi) := by
  have hrun := h.preserves (P := fun y => Consumes (x.keys, x.vi) (y.keys, y.vi) ∧ Paused y.vi)
    (fun y z hstep hy => ⟨hy.1.trans (step_consumes hstep hy.2), step_paused hstep hy.2⟩)
    ⟨Consumes.refl _, hp⟩
  exact hrun.1

/-! ## Keys and actions -/

/-- **One key, one action.** In every run from an opened file the editor acts as often as it reads,
and it has acted on the bytes that were delivered, each once and in order, exactly if no byte read
so far was Ctrl-D.

**Proof sketch.** `run_consumes` says what has happened in the run: the editor has read the keys
`rs`, and has acted once for each of them, on the byte that `read` stored or, if it stored none, on
what was in the variable before. So it has acted on the delivered bytes exactly if each read stored
its byte (`ActedOn.eq_delivered_iff`), and a read stores none exactly on Ctrl-D (`consoleread_one`).
-/
theorem acted_iff_run {fn : List UInt8} {s : Vi W} {y : Config W} (typed : List Reading)
    (hs : Opens sys fn s) (hrun : Run sys ⟨none, typed.map Reading.key, s⟩ y) :
    ∃ n, y.keys = (typed.drop n).map Reading.key ∧
      (acted y.vi.trace = delivered ((typed.take n).map Reading.key) ↔
        ∀ q ∈ typed.take n, q.typed ≠ ctrl 'D') := by
  obtain ⟨rs, bs, hkeys, hacted, hon⟩ := run_consumes hrun hs.paused
  dsimp only at hkeys hacted
  have hnil : acted s.trace = [] := by
    obtain ⟨_, _, _, _, _, -, _, _, rfl, -⟩ := hs.cases
    rfl
  have htake : (typed.take rs.length).map Reading.key = rs := by
    rw [List.map_take, hkeys, List.take_left]
  have hstored : (∀ r ∈ rs, r.stored ≠ []) ↔
      ∀ q ∈ typed.take rs.length, q.typed ≠ ctrl 'D' := by
    conv_lhs => rw [← htake]
    simp only [List.forall_mem_map, ne_eq, Reading.stored_eq_nil]
  refine ⟨rs.length, ?_, ?_⟩
  · rw [List.map_drop, hkeys, List.drop_left]
  · rw [hacted, hnil, List.nil_append, htake, hon.eq_delivered_iff, hstored]

/-! ## Computed runs -/

/-- A read that finds the byte `b`, with nothing in the variable before. -/
def Reading.ofByte (b : UInt8) : Reading where
  console :=
    { input := ⟨fun _ => b, 0, 1, 1⟩, bufferFlag := 0, showAtonce := 0, cga := clearedScreen }
  ready := show (0 : UInt32) ≠ 1 by decide
  junk := 0

/-- `acted_iff_run` for the keys `i`, `b`, ESC and `l` on the file `a`. -/
theorem acted_iff_run_insert : ∃ s y,
    Opens (readOnly (str "a")) (str "f") s ∧
    Run (readOnly (str "a")) ⟨none, [105, 98, 27, 108].map (Reading.key ∘ Reading.ofByte), s⟩ y ∧
    y.keys = [] ∧ acted y.vi.trace = [105, 98, 27, 108] := by
  obtain ⟨s, y, hs, hy, hkeys⟩ := session_run (readOnly (str "a")) 20 2 (str "f")
    ([105, 98, 27, 108].map (Reading.key ∘ Reading.ofByte)) ()
    (P := fun _ y => y.keys = []) (by decide +kernel)
  have hrun := mainRun_run hy
  rw [← List.map_map] at hrun
  obtain ⟨n, hn, hiff⟩ := acted_iff_run ([105, 98, 27, 108].map Reading.ofByte) hs hrun
  have hall : ([105, 98, 27, 108].map Reading.ofByte).take n =
      [105, 98, 27, 108].map Reading.ofByte := by
    rw [hkeys, eq_comm, List.map_eq_nil_iff, List.drop_eq_nil_iff] at hn
    exact List.take_of_length_le hn
  rw [hall] at hiff
  refine ⟨s, y, hs, by rwa [List.map_map] at hrun, hkeys, hiff.mpr (by decide)⟩

/-- On the file `abc` the keys `x` and Ctrl-D delete two characters: the second read delivers
nothing, and the editor executes `x` again. -/
theorem not_forall_acted : ¬∀ (fn content : List UInt8) (s : Vi Unit) (typed : List Reading)
    (y : Config Unit), Opens (readOnly content) fn s →
    Run (readOnly content) ⟨none, typed.map Reading.key, s⟩ y → y.keys = [] →
    acted y.vi.trace = delivered (typed.map Reading.key) := by
  intro hall
  obtain ⟨s, y, hs, hy, hkeys, hx, -⟩ := session_run (readOnly (str "abc")) 20 2 (str "f")
    (([chr 'x', ctrl 'D'].map Reading.ofByte).map Reading.key) ()
    (P := fun _ y => y.keys = [] ∧ acted y.vi.trace = [chr 'x', chr 'x'] ∧
      y.vi.text = str "c") (by decide +kernel)
  have := hall _ _ s ([chr 'x', ctrl 'D'].map Reading.ofByte) y hs (mainRun_run hy) hkeys
  rw [hx] at this
  exact absurd this (by decide +kernel)

end HgXv6
