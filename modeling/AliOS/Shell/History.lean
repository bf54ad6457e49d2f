import AliOS.Shell.Editor

/-!
# AliOS.Shell.History

The history of the prompt (`kernel/shell.c`), over runs of keys: what `hist_load` and
`cmd_history` find in the ring, what browsing with Up and Down shows, and what becomes of the
line that was being edited.

When browsing starts the line is saved as if `line` was a string.  It is not while it is
edited: behind the text may stand what is left of an earlier one, and this comes back with
the text when browsing ends.  `browse_restores_iff` says when it does not.
-/

namespace AliOS

open Lib List Option

/-! ## cmd_history -/

/-- The digits of a number, the last one first. -/
def decDigits (n : Nat) : List UInt8 :=
  if _h : n = 0 then [] else UInt8.ofNat (48 + n % 10) :: decDigits (n / 10)

/-- `vga_printdec`. -/
def printDec (n : Nat) : List UInt8 := if n = 0 then [48] else (decDigits n).reverse

/-- A line of `cmd_history`: a number, two spaces and the line. -/
def historyLine (n : Nat) (s : CStr) : List UInt8 :=
  printDec n ++ [space, space] ++ s.chars ++ [newline]

/-- What `cmd_history` prints. -/
def Prompt.cmdHistory (e : Prompt) : List UInt8 :=
  if e.histCount = 0 then (CStr.ascii "(no history)").chars ++ [newline]
  else (List.range e.histCount).flatMap fun (i : Nat) => historyLine (i + 1)
    (e.hist (e.histSlot i).toNat)

/-! ## browsing -/

section

variable {e : Prompt} {t : Cursor UInt8} {log : List CStr} {p : Prop}

theorem Prompt.keys_append (e : Prompt) (ks ks' : List (World × UInt8)) :
    e.keys (ks ++ ks') = (e.keys ks).bind fun e => e.keys ks' := by
  induction ks generalizing e with
  | nil => rfl
  | cons k ks ih =>
    rw [cons_append, Prompt.keys, Prompt.keys, bind_assoc]
    simp only [ih]

/-- The entry at the browse index is in the line and on the screen, given `p`. -/
structure Prompt.Browses (e : Prompt) (log : List CStr) (p : Prop) : Prop where
  holds : ∃ t, e.Holds t log
  entry : p → 0 ≤ e.histBidx → e.toLine.Holds (cursorAt (historyEntry log e.histBidx))

theorem Prompt.Browses.up (h : e.Browses log p) : ∃ e', e.histUp = some e' ∧ e'.Browses log p := by
  obtain ⟨t, ht⟩ := h.holds
  obtain ⟨-, hstay⟩ | ⟨b, sv, l, hb, hlt, hl, hup, hcase⟩ := ht.histUp_cases
  · exact ⟨e, hstay, h⟩
  · have hsv : sv.length ≤ lineMax := by
      rcases hcase with ⟨-, -, rfl⟩ | ⟨-, -, rfl⟩
      · exact e.length_lineSaved
      · exact ht.saved
    exact ⟨_, hup, ⟨_, ht.recall hl hsv (by omega) hlt⟩, fun _ _ => hl⟩

theorem Prompt.Browses.down (h : e.Browses log p) :
    ∃ e', e.histDown = some e' ∧ e'.Browses log p := by
  obtain ⟨t, ht⟩ := h.holds
  obtain ⟨-, hstay⟩ | ⟨b, s, l, hl, hdown, hcase⟩ := ht.histDown_cases
  · exact ⟨e, hstay, h⟩
  · refine ⟨_, hdown, ⟨_, ht.recall hl ht.saved (by omega) (by omega)⟩, fun _ hb => ?_⟩
    rcases hcase with ⟨-, -, -, rfl⟩ | ⟨-, -, rfl, -⟩
    · exact hl
    · exact absurd hb (by dsimp only; omega)

/-- Any keys Up and Down. -/
theorem Prompt.Browses.keys (h : e.Browses log p) {ks : List (World × UInt8)}
    (hks : ∀ k ∈ ks, k.2 = keyUp ∨ k.2 = keyDown) : ∃ e', e.keys ks = some e' ∧
      e'.Browses log p := by
  induction ks generalizing e with
  | nil => exact ⟨e, rfl, h⟩
  | cons k ks ih =>
    obtain ⟨hk, hrest⟩ := forall_mem_cons.mp hks
    obtain ⟨w, c⟩ := k
    obtain ⟨e1, hkey, he1⟩ : ∃ e1, e.key w c = some e1 ∧ e1.Browses log p := by
      rcases hk with rfl | rfl
      · exact h.up
      · exact h.down
    obtain ⟨e', hkeys, he'⟩ := ih he1 hrest
    refine ⟨e', ?_, he'⟩
    rw [Prompt.keys, hkey]
    exact hkeys

/-! ## the last sixteen lines -/

theorem Prompt.Remembers.histLoad (h : e.Remembers log) (hsize : e.line.length = lineMax + 1)
    {b : Int} (hb : 0 ≤ b)
    (hlt : b < e.histCount) : ∃ e', e.histLoad b = some e' ∧
      e'.toLine.Reads (cursorAt (historyEntry log b)) := by
  rw [Prompt.histLoad, (h.historyEntry_eq hb hlt).1]
  obtain ⟨l, hset, hl⟩ := Prompt.setText_reads hsize (h.length_historyEntry b)
  exact ⟨_, hset, hl⟩

theorem Prompt.Remembers.cmdHistory (h : e.Remembers log) : e.cmdHistory =
    if log = [] then (CStr.ascii "(no history)").chars ++ [newline]
    else ((log.rtake histMax).zipIdx 1).flatMap fun l => historyLine l.2 l.1 := by
  have hcount := h.count_eq
  unfold Prompt.cmdHistory
  by_cases hlog : log = []
  · rw [if_pos hlog, if_pos (by simp [hcount, hlog])]
  · have hpos := length_pos_of_ne_nil hlog
    have hnumbered : (log.rtake histMax).zipIdx 1 =
        (List.range e.histCount).map fun (i : Nat) => (e.hist (e.histSlot i).toNat, i + 1) := by
      apply ext_getElem?
      intro i
      rw [List.getElem?_zipIdx, List.getElem?_map]
      by_cases hi : i < e.histCount
      · rw [(h.entry hi).2.2, List.getElem?_range hi, map_some, map_some, Nat.add_comm]
      · have hlen : (log.rtake histMax).length = e.histCount := by rw [← h.entries, length_window]
        rw [List.getElem?_eq_none (by omega), List.getElem?_eq_none (by simpa using hi)]
        rfl
    have hne : e.histCount ≠ 0 := by
      unfold histMax at hcount
      omega
    rw [if_neg hlog, if_neg hne, hnumbered, flatMap_map]

theorem Prompt.Remembers.getElem?_eq (h : e.Remembers log) {b : Int} (hb : 0 ≤ b)
    (hlt : b < e.histCount) :
    log[log.length - min log.length 16 + b.toNat]? = some (historyEntry log b) := by
  have hentry := (h.historyEntry_eq hb hlt).2
  rw [List.rtake, List.getElem?_drop] at hentry
  rw [← hentry]
  congr 1
  unfold histMax
  omega

end

/-- **The history holds the last 16 submitted lines.**  `hist_load(b)` loads the line at index
`b` of them, `cmd_history` prints them one after the other, and Up and Down show the line at
the browse index. -/
theorem history_recent (ks : List (World × UInt8)) : ∃ e, Prompt.boot.keys ks = some e ∧
    let log := Prompt.boot.submissions ks
    e.histCount = min log.length 16 ∧
    (∀ b < min log.length 16, ∃ s e', log[log.length - min log.length 16 + b]? = some s ∧
      e.histLoad b = some e' ∧ e'.line.take e'.len.toNat = s.chars ∧ e'.len = s.length ∧
        e'.pos = s.length) ∧
    (e.cmdHistory = if log = [] then (CStr.ascii "(no history)").chars ++ [newline]
      else ((log.drop (log.length - min log.length 16)).zipIdx 1).flatMap fun l =>
        historyLine l.2 l.1) ∧
    ∀ ks', (∀ k ∈ ks', k.2 = keyUp ∨ k.2 = keyDown) → ∃ e', e.keys ks' = some e' ∧
      -1 ≤ e'.histBidx ∧ e'.histBidx < e'.histCount ∧ e'.histCount = e.histCount ∧
      (e.histBidx = -1 → 0 ≤ e'.histBidx →
        ∃ s, log[log.length - min log.length 16 + e'.histBidx.toNat]? = some s ∧
        e'.line.take e'.len.toNat = s.chars ∧ e'.shown = s.chars) := by
  obtain ⟨e, t, hkeys, he⟩ := Prompt.boot_holds.keys ks
  rw [nil_append] at he
  refine ⟨e, hkeys, ?_⟩
  set log := Prompt.boot.submissions ks
  have hcount : e.histCount = min log.length 16 := he.ring.count_eq
  refine ⟨hcount, fun b hb => ?_, ?_, fun ks' hks' => ?_⟩
  · have hlt : (b : Int) < e.histCount := by omega
    obtain ⟨e', hload, he'⟩ := he.ring.histLoad he.line.size (Int.natCast_nonneg b) hlt
    exact ⟨_, e', he.ring.getElem?_eq (Int.natCast_nonneg b) hlt, hload, he'.take_len,
      he'.len, he'.pos⟩
  · have hlast : log.drop (log.length - min log.length 16) = log.rtake histMax := by
      rw [List.rtake, show log.length - min log.length 16 =
        log.length - histMax by unfold histMax; omega]
    rw [hlast]
    exact he.ring.cmdHistory
  · have hbrowses : e.Browses log (e.histBidx = -1) := ⟨⟨t, he⟩, fun hidle hb => by omega⟩
    obtain ⟨e', hrun, he'⟩ := hbrowses.keys hks'
    obtain ⟨t', ht'⟩ := he'.holds
    have hcount' : e'.histCount = e.histCount := by rw [ht'.ring.count_eq, he.ring.count_eq]
    refine ⟨e', hrun, ht'.browsing.1, ht'.browsing.2, hcount', fun hidle hb => ?_⟩
    have hentry := he'.entry hidle hb
    exact ⟨_, ht'.ring.getElem?_eq hb ht'.browsing.2, hentry.toReads.take_len, hentry.shown⟩

/-! ## the line that was being edited -/

section

variable {e : Prompt} {t : Cursor UInt8} {log : List CStr} {sv : CStr}

/-- What comes back when browsing ends. -/
def Prompt.comesBack (e : Prompt) : CStr := if e.histBidx = -1 then e.lineSaved else e.saved

/-- Somebody browses, and `sv` is saved. -/
structure Prompt.Saves (e : Prompt) (log : List CStr) (sv : CStr) : Prop where
  holds : ∃ t, e.Holds t log
  browsing : 0 ≤ e.histBidx
  saved : e.saved = sv

/-- Browsing has ended with the line `sv`. -/
structure Prompt.Ended (e : Prompt) (log : List CStr) (sv : CStr) : Prop where
  holds : e.Holds (cursorAt sv) log
  idle : e.histBidx = -1

/-- Up starts to browse, or goes on. -/
theorem Prompt.Holds.saves (h : e.Holds t log) (hcount : e.histCount ≠ 0) :
    ∃ e', e.histUp = some e' ∧ e'.Saves log e.comesBack := by
  obtain ⟨hno, hstay⟩ | ⟨b, sv, l, hb, hlt, hl, hup, hcase⟩ := h.histUp_cases
  · refine ⟨e, hstay, ⟨t, h⟩, by omega, ?_⟩
    rw [Prompt.comesBack, if_neg (by omega)]
  · obtain ⟨hsv, hback⟩ : sv.length ≤ lineMax ∧ sv = e.comesBack := by
      unfold Prompt.comesBack
      rcases hcase with ⟨hfirst, -, rfl⟩ | ⟨hnext, -, rfl⟩
      · rw [if_pos hfirst]
        exact ⟨e.length_lineSaved, rfl⟩
      · rw [if_neg (by omega)]
        exact ⟨h.saved, rfl⟩
    exact ⟨_, hup, ⟨_, h.recall hl hsv (by omega) hlt⟩, hb, hback⟩

theorem Prompt.Saves.up (h : e.Saves log sv) : ∃ e', e.histUp = some e' ∧ e'.Saves log sv := by
  obtain ⟨t, ht⟩ := h.holds
  have hhi := ht.browsing.2
  have hlo := h.browsing
  obtain ⟨e', hup, he'⟩ := ht.saves (by omega)
  rw [Prompt.comesBack, if_neg (by omega), h.saved] at he'
  exact ⟨e', hup, he'⟩

/-- Down goes on, or browsing ends. -/
theorem Prompt.Saves.down (h : e.Saves log sv) : ∃ e', e.histDown = some e' ∧
    (e'.Saves log sv ∧ e'.histBidx = e.histBidx + 1 ∧ e'.histCount = e.histCount ∨
      e'.Ended log sv) := by
  obtain ⟨t, ht⟩ := h.holds
  have hlo := h.browsing
  obtain ⟨hidle, -⟩ | ⟨b, s, l, hl, hdown, hcase⟩ := ht.histDown_cases
  · omega
  · have hrecall := ht.recall hl ht.saved (b := b) (by omega) (by omega)
    refine ⟨_, hdown, ?_⟩
    rcases hcase with ⟨-, rfl, -, -⟩ | ⟨-, -, rfl, rfl⟩
    · exact .inl ⟨⟨⟨_, hrecall⟩, by dsimp only; omega, h.saved⟩, rfl, rfl⟩
    · obtain rfl := h.saved
      exact .inr ⟨hrecall, rfl⟩

theorem Prompt.key_up (e : Prompt) (w : World) : e.key w keyUp = e.histUp := rfl

theorem Prompt.key_down (e : Prompt) (w : World) : e.key w keyDown = e.histDown := rfl

theorem Prompt.key_down_idle (h : e.histBidx = -1) (w : World) : e.key w keyDown = some e := by
  rw [Prompt.key_down, Prompt.histDown, if_pos h]

/-- The same key, several times. -/
def pressed (c : UInt8) (ws : List World) : List (World × UInt8) := ws.map (·, c)

theorem Prompt.keys_pressed (e : Prompt) (c : UInt8) (w : World) (ws : List World) :
    e.keys (pressed c (w :: ws)) = (e.key w c).bind fun e => e.keys (pressed c ws) := rfl

theorem Prompt.Saves.ups (h : e.Saves log sv) (ws : List World) :
    ∃ e', e.keys (pressed keyUp ws) = some e' ∧ e'.Saves log sv := by
  induction ws generalizing e with
  | nil => exact ⟨e, rfl, h⟩
  | cons w ws ih =>
    obtain ⟨e1, hup, he1⟩ := h.up
    rw [Prompt.keys_pressed, Prompt.key_up, hup]
    exact ih he1

theorem Prompt.keys_stay {c : UInt8} (h : ∀ w, e.key w c = some e) (ws : List World) :
    e.keys (pressed c ws) = some e := by
  induction ws with
  | nil => rfl
  | cons w ws ih =>
    rw [Prompt.keys_pressed, h w]
    exact ih

/-- Downs after each other: browsing ends when there were enough of them. -/
theorem Prompt.Saves.downs (h : e.Saves log sv) (ws : List World) :
    ∃ e', e.keys (pressed keyDown ws) = some e' ∧
    (e'.Saves log sv ∧ ws.length < e.histCount - e.histBidx ∨ e'.Ended log sv) := by
  induction ws generalizing e with
  | nil =>
    obtain ⟨t, ht⟩ := h.holds
    have hhi := ht.browsing.2
    exact ⟨e, rfl, .inl ⟨h, by simp; omega⟩⟩
  | cons w ws ih =>
    obtain ⟨e1, hdown, hnext | hended⟩ := h.down
    · obtain ⟨he1, hbidx, hcount⟩ := hnext
      obtain ⟨e', hrun, hcase⟩ := ih he1
      rw [Prompt.keys_pressed, Prompt.key_down, hdown]
      refine ⟨e', hrun, hcase.imp (fun hgo => ⟨hgo.1, ?_⟩) id⟩
      rw [length_cons]
      omega
    · rw [Prompt.keys_pressed, Prompt.key_down, hdown]
      exact ⟨e1, Prompt.keys_stay (Prompt.key_down_idle hended.idle) ws, .inr hended⟩

/-- Up some times, and Down some times. -/
theorem Prompt.Holds.browse (h : e.Holds t log) (hcount : e.histCount ≠ 0) {ups : List World}
    (hups : ups ≠ [])
    (downs : List World) : ∃ e', e.keys (pressed keyUp ups ++ pressed keyDown downs) = some e' ∧
      (0 ≤ e'.histBidx ∧ downs.length < e.histCount ∨ e'.Ended log e.comesBack) := by
  obtain ⟨w, ws, rfl⟩ := exists_cons_of_ne_nil hups
  obtain ⟨e1, hup, he1⟩ := h.saves hcount
  obtain ⟨e2, hrun, he2⟩ := he1.ups ws
  obtain ⟨e', hdowns, hcase⟩ := he2.downs downs
  have hlo := he2.browsing
  have hcount2 : e2.histCount = e.histCount := by
    obtain ⟨t2, ht2⟩ := he2.holds
    rw [ht2.ring.count_eq, h.ring.count_eq]
  rw [Prompt.keys_append, Prompt.keys_pressed, Prompt.key_up, hup, bind_some, hrun, bind_some]
  refine ⟨e', hdowns, hcase.imp (fun hgo => ⟨hgo.1.browsing, ?_⟩) id⟩
  omega

/-- Nothing is remembered: Up and Down do nothing. -/
theorem Prompt.Holds.browse_empty (h : e.Holds t log) (hcount : e.histCount = 0)
    (ups downs : List World) :
    e.keys (pressed keyUp ups ++ pressed keyDown downs) = some e ∧ e.histBidx = -1 := by
  have hidle : e.histBidx = -1 := by
    have hlo := h.browsing.1
    have hhi := h.browsing.2
    omega
  have hup : ∀ w, e.key w keyUp = some e := fun _ => if_pos hcount
  rw [Prompt.keys_append, Prompt.keys_stay hup, bind_some]
  exact ⟨Prompt.keys_stay (Prompt.key_down_idle hidle) downs, hidle⟩

/-- What is saved of the line is its text when the text ends where the string does. -/
theorem Prompt.Holds.lineSaved_iff (h : e.Holds t log) :
    e.lineSaved.chars = t.text ↔ e.len = lineMax ∨ e.line[e.len.toNat]? = some 0 := by
  obtain ⟨rest, hline⟩ := h.line.text
  have hsize := h.line.size
  have hroom := h.line.room
  have hlen := h.line.len
  rw [← hline, length_append] at hsize
  obtain ⟨c, rest, rfl⟩ := exists_cons_of_length_pos (l := rest) (by omega)
  have hnul : ∀ b ∈ (e.line.takeWhile (· != 0)).take lineMax, b ≠ 0 := by
    intro b hb
    simpa using mem_takeWhile_imp (mem_of_mem_take hb)
  have hchars : e.lineSaved.chars =
      t.text ++ ((c :: rest).takeWhile (· != 0)).take (lineMax - t.text.length) := by
    rw [Prompt.lineSaved, CStr.chars_ofBytes hnul, ← hline,
      takeWhile_append_of_pos fun b hb => by simpa using h.noNul b hb, take_append,
      List.take_of_length_le hroom]
  have hnext : e.line[e.len.toNat]? = some c := by
    rw [hlen, Int.toNat_natCast, ← hline, List.getElem?_append_right le_rfl]
    simp
  rw [hchars, append_right_eq_self, take_eq_nil_iff, hnext, hlen]
  refine or_congr (by omega) ?_
  by_cases hc : c = 0
  · simp [hc]
  · simp [hc]

/-- What browsing leaves in the line, against what was there. -/
theorem Prompt.Ended.restores_iff (h : e.Holds t log) {e' : Prompt} (h' : e'.Ended log sv) :
    e'.line.take e'.len.toNat = e.line.take e.len.toNat ∧ e'.len = e.len ↔ sv.chars = t.text := by
  rw [h'.holds.line.toReads.take_len, h.line.toReads.take_len, h'.holds.line.len, h.line.len]
  constructor
  · exact fun hsame => hsame.1
  · intro hsame
    exact ⟨hsame, congrArg (fun cs => (cs.length : Int)) hsame⟩

theorem Prompt.Holds.comesBack_iff (h : e.Holds t log) : e.comesBack.chars = t.text ↔
    (e.histBidx = -1 → e.len = lineMax ∨ e.line[e.len.toNat]? = some 0) ∧
    (e.histBidx ≠ -1 → e.saved.chars = e.line.take e.len.toNat) := by
  rw [Prompt.comesBack, h.line.toReads.take_len, ← h.lineSaved_iff]
  split <;> simp_all

end

/-- **When the edited line comes back.**  After Up at least once, enough Downs end browsing.
Then the text is as it was iff there is no history, or the text fills the line, or a NUL
stands behind it.  Who was browsing already gets the line back that was saved then. -/
theorem browse_restores_iff (ks : List (World × UInt8)) : ∃ e, Prompt.boot.keys ks = some e ∧
    ∀ ups : List World, ups ≠ [] →
      (∀ downs : List World, e.histCount ≤ downs.length →
        ∃ e', e.keys (pressed keyUp ups ++ pressed keyDown downs) = some e' ∧ e'.histBidx = -1) ∧
      ∀ (downs : List World) (e' : Prompt),
      e.keys (pressed keyUp ups ++ pressed keyDown downs) = some e' →
        e'.histBidx = -1 →
        ((e'.line.take e'.len.toNat = e.line.take e.len.toNat ∧ e'.len = e.len) ↔
          (e.histBidx = -1 → e.histCount = 0 ∨ e.len = lineMax ∨ e.line[e.len.toNat]? = some 0) ∧
          (e.histBidx ≠ -1 → e.saved.chars = e.line.take e.len.toNat)) := by
  obtain ⟨e, t, hkeys, he⟩ := Prompt.boot_holds.keys ks
  refine ⟨e, hkeys, fun ups hups => ?_⟩
  by_cases hcount : e.histCount = 0
  · have hstay := he.browse_empty hcount ups
    refine ⟨fun downs _ => ⟨e, hstay downs⟩, fun downs e' hrun _ => ?_⟩
    obtain ⟨hstay, hidle⟩ := hstay downs
    obtain rfl : e = e' := some.inj (hstay.symm.trans hrun)
    simp [hcount, hidle]
  · have hbrowse := he.browse hcount hups
    refine ⟨fun downs henough => ?_, fun downs e' hrun hidle => ?_⟩
    · obtain ⟨e', hrun, hgo | hended⟩ := hbrowse downs
      · omega
      · exact ⟨e', hrun, hended.idle⟩
    · obtain ⟨e'', hrun', hcase⟩ := hbrowse downs
      obtain rfl : e'' = e' := some.inj (hrun'.symm.trans hrun)
      have hended : e''.Ended _ e.comesBack := hcase.resolve_left (by omega)
      rw [hended.restores_iff he, he.comesBack_iff]
      simp only [hcount, false_or]

/-- A world without files, where a command leaves its line as it is. -/
def quietWorld : World :=
  ⟨blankFs fun _ => 0, rootPath, fun s => s.chars ++ [0], by simp [CStr.length]⟩

/-- `x` is in the history.  Then `ab`, Backspace, Up and Down: `ab` is back, where `a` was. -/
theorem browse_keeps_erased :
    let typed : List UInt8 := [120, newline, 97, 98, keyBackspace]
    let seen (cs : List UInt8) := (Prompt.boot.keys (cs.map (quietWorld, ·))).map fun e =>
      (e.line.take e.len.toNat, e.len, e.histBidx)
    seen typed = some ([97], 1, -1) ∧
      seen (typed ++ [keyUp, keyDown]) = some ([97, 98], 2, -1) := by
  decide +kernel

end AliOS
