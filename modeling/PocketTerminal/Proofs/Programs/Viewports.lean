import PocketTerminal.Programs.Program
import Mathlib.Algebra.Ring.Nat
import Mathlib.Data.List.Induction
import Mathlib.Data.Option.Basic

/-! # The window over a document

The window of the editor follows the cursor. Keys and new heights move it by no more than is
needed to show the cursor's row, and a frame shows that row also where the last frame had
another height. Rows are counted in machine words: a height that the host sets fails where the
row behind the window fits none, and nothing else fails. -/
namespace PocketTerminal.Editor

def InWindow (top rows row : Nat) : Prop := top ≤ row ∧ row < top + rows

inductive Act where
  | press (key : Key)
  | setRows (rows : Nat)
  | render (w h : UInt32) (theme : Theme) (failing : Option Nat)

/-- The editor after an act that does not fail. A frame whose first stroke is refused tells it
nothing; any other looks for its top row. -/
def perform? (e : Editor) : Act → Option Editor
  | .press key => (e.edit key).scrollIntoView?
  | .setRows rows => e.setRows? rows
  | .render _ h _ failing =>
    if failing = some 1 then some e
    else (visibleTop? e.scroll e.row (rowsIn h)).map fun _ => e.seen h

def after? (e : Editor) (acts : List Act) : Option Editor := acts.foldlM perform? e

/-- The row behind the window fits no word at the height that the host asks for. -/
def Overruns (e : Editor) : Act → Prop
  | .setRows rows => 2 ^ 64 ≤ e.scroll + max rows 1
  | _ => False

/-- The window has followed the cursor from one editor to another: it shows the cursor's row, and
where it had shown that row it has not moved. -/
structure Scrolled (e e' : Editor) : Prop where
  shown : InWindow e'.scroll e'.visible e'.row
  still : InWindow e.scroll e'.visible e'.row → e'.scroll = e.scroll

def frameTop (e : Editor) (h : UInt32) : Nat := visibleTop e.scroll e.row (rowsIn h)

/-- A frame shows the cursor: its row is not above the top row and not below the last one, and its
line is drawn as many lines below the header as its row is below the top row. -/
structure ShowsCursor (e : Editor) (w h : UInt32) (theme : Theme) : Prop where
  inWindow : InWindow (e.frameTop h) (rowsIn h) e.row
  drawn : .text (String.ofList (e.line e.row)) 4
    ((((e.row - e.frameTop h).toUInt32 + 1) * lineHeight h).toInt32 + 2) (fontSize h) theme.text ∈
      e.draw w h theme

def Follows (e : Editor) : Act → Editor → Prop
  | .press key, e' => e' = e.press key ∧ e.Scrolled e'
  | .setRows rows, e' =>
    e' = { e with visible := max rows 1, scroll := e'.scroll } ∧ e.Scrolled e'
  | .render w h theme failing, e' => e.ShowsCursor w h theme ∧
      (Program.nano e).render w h theme failing = ((e.draw w h theme).paint failing, .nano e')

variable {e : Editor} {scroll row rows : Nat} {key : Key}

theorem inWindow_visibleTop (scroll row rows : Nat) :
    InWindow (visibleTop scroll row rows) (max rows 1) row := by
  unfold InWindow visibleTop
  dsimp only
  split
  · omega
  · split <;> omega

theorem visibleTop_of_inWindow (h : InWindow scroll (max rows 1) row) :
    visibleTop scroll row rows = scroll := by
  obtain ⟨habove, hbelow⟩ := h
  unfold visibleTop
  dsimp only
  rw [if_neg (by omega), if_neg (by omega)]

theorem visibleTop?_eq_some (h : scroll + max rows 1 < 2 ^ 64) :
    visibleTop? scroll row rows = some (visibleTop scroll row rows) := by
  unfold visibleTop?
  exact if_neg fun hend => absurd hend.2 (Nat.not_le_of_lt h)

theorem visibleTop?_eq_none (hrow : scroll ≤ row) (h : 2 ^ 64 ≤ scroll + max rows 1) :
    visibleTop? scroll row rows = none := by
  unfold visibleTop?
  exact if_pos ⟨hrow, h⟩

/-- A window that ends within a word still does after it has moved to a row that fits one. -/
theorem visibleTop_add_lt (h : scroll + max rows 1 < 2 ^ 64) (hrow : row + 1 < 2 ^ 64) :
    visibleTop scroll row rows + max rows 1 < 2 ^ 64 := by
  unfold visibleTop
  dsimp only
  split
  · omega
  · split <;> omega

/-- A key keeps the cursor in a line of the document, which gets one line more at most. -/
theorem edit_rows (h : e.row < e.lines.length) (key : Key) :
    (e.edit key).row < (e.edit key).lines.length ∧
      (e.edit key).lines.length ≤ e.lines.length + 1 := by
  cases key with
  | char c => simp [edit, insert, h]
  | tab => simp [edit, insert, h]
  | enter =>
    simp only [edit, splitLine, List.length_append, List.length_take, List.length_drop, List.length_cons,
      List.length_nil]
    omega
  | backspace =>
    unfold edit backspace
    dsimp only
    split
    · simp [h]
    · split
      · simp only [joinLine, List.length_append, List.length_take, List.length_drop, List.length_cons,
          List.length_nil]
        omega
      · exact ⟨h, Nat.le_succ _⟩
  | arrowLeft =>
    unfold edit left
    dsimp only
    split
    · exact ⟨h, Nat.le_succ _⟩
    · split
      · exact ⟨Nat.lt_of_le_of_lt (Nat.sub_le ..) h, Nat.le_succ _⟩
      · exact ⟨h, Nat.le_succ _⟩
  | arrowRight =>
    unfold edit right
    dsimp only
    split
    · exact ⟨h, Nat.le_succ _⟩
    · split
      · next hnext => exact ⟨hnext, Nat.le_succ _⟩
      · exact ⟨h, Nat.le_succ _⟩
  | arrowUp => exact ⟨Nat.lt_of_le_of_lt (Nat.sub_le ..) h, Nat.le_succ _⟩
  | arrowDown =>
    simp only [edit, toRow]
    omega
  | escape => exact ⟨h, Nat.le_succ _⟩

/-- Editing leaves the window where it is. -/
theorem edit_window (e : Editor) (key : Key) :
    (e.edit key).scroll = e.scroll ∧ (e.edit key).visible = e.visible := by
  cases key with
  | backspace =>
    unfold edit backspace
    dsimp only
    split
    · exact ⟨rfl, rfl⟩
    · split <;> exact ⟨rfl, rfl⟩
  | arrowLeft =>
    unfold edit left
    dsimp only
    split
    · exact ⟨rfl, rfl⟩
    · split <;> exact ⟨rfl, rfl⟩
  | arrowRight =>
    unfold edit right
    dsimp only
    split
    · exact ⟨rfl, rfl⟩
    · split <;> exact ⟨rfl, rfl⟩
  | _ => exact ⟨rfl, rfl⟩

theorem length_splitOn_le (separator : Char) (chars : List Char) :
    (chars.splitOn separator).length ≤ chars.length + 1 := by
  induction chars with
  | nil => simp
  | cons c chars ih =>
    rw [List.splitOn_cons_eq_if_modifyHead]
    split
    · simpa using ih
    · rw [List.length_modifyHead]
      exact Nat.le_succ_of_le ih

theorem rowsIn_bounds (h : UInt32) : 0 < rowsIn h ∧ rowsIn h < 2 ^ 32 := by
  constructor
  · unfold rowsIn
    generalize Drawing.less h (lineHeight h * 2) / lineHeight h = rows
    change 0 < (if rows ≤ 1 then (1 : UInt32) else rows).toNat
    split
    · decide
    · next hrows =>
      rw [UInt32.le_iff_toNat_le] at hrows
      exact Nat.zero_lt_of_lt (Nat.lt_of_not_le hrows)
  · exact UInt32.toNat_lt _

/-- The editor of a document, some acts after it was opened: the cursor is in one of its lines, of
which there are no more than the content and the acts can have made, and not above the window,
which ends within a word. -/
structure Placed (content : String) (acts : Nat) (e : Editor) : Prop where
  row_lt : e.row < e.lines.length
  lines_le : e.lines.length ≤ content.length + 1 + acts
  visible_pos : 0 < e.visible
  scroll_le : e.scroll ≤ e.row
  end_lt : e.scroll + e.visible < 2 ^ 64

namespace Placed

variable {content : String} {n : Nat}

theorem create (title content : String) : Placed content 0 (create title content) where
  row_lt := List.length_pos_iff.mpr (List.splitOn_ne_nil '\n' content.toList)
  lines_le := by
    have hlines := length_splitOn_le '\n' content.toList
    rwa [String.length_toList] at hlines
  visible_pos := Nat.zero_lt_succ 19
  scroll_le := Nat.le_refl 0
  end_lt := by
    change 0 + 20 < 2 ^ 64
    decide

theorem row_le (h : e.Placed content n) : e.row ≤ content.length + n := by
  have hrow := h.row_lt
  have hlines := h.lines_le
  omega

/-- An editor with its cursor in a line scrolls without fail if its window ends within a word, and
the window follows the cursor. -/
theorem scrolls (hrow : e.row < e.lines.length) (hlines : e.lines.length ≤ content.length + 1 + n)
    (hvisible : 0 < e.visible) (hend : e.scroll + e.visible < 2 ^ 64)
    (hsize : content.length + n + 1 < 2 ^ 64) :
    e.scrollIntoView? = some e.scrollIntoView ∧ e.Scrolled e.scrollIntoView ∧
      e.scrollIntoView.Placed content n := by
  have hmax : max e.visible 1 = e.visible := Nat.max_eq_left hvisible
  have hshown : InWindow e.scrollIntoView.scroll e.visible e.row :=
    hmax ▸ inWindow_visibleTop e.scroll e.row e.visible
  refine ⟨?_, ⟨hshown, ?_⟩, ⟨hrow, hlines, hvisible, hshown.1, ?_⟩⟩
  · unfold scrollIntoView?
    rw [visibleTop?_eq_some (hmax.symm ▸ hend)]
    rfl
  · intro hin
    exact visibleTop_of_inWindow (hmax.symm ▸ hin)
  · have hnext : visibleTop e.scroll e.row e.visible + max e.visible 1 < 2 ^ 64 :=
      visibleTop_add_lt (hmax.symm ▸ hend) (by omega)
    rwa [hmax] at hnext

/-- The frame's row is drawn, and so far down as the window says. -/
theorem showsCursor (h : e.Placed content n) (w height : UInt32) (theme : Theme) :
    e.ShowsCursor w height theme := by
  have hin : InWindow (e.frameTop height) (rowsIn height) e.row := by
    have hin := inWindow_visibleTop e.scroll e.row (rowsIn height)
    rwa [Nat.max_eq_left (rowsIn_bounds height).1] at hin
  refine ⟨hin, ?_⟩
  have hline : e.lines[e.row]? = some (e.line e.row) := by simp [line, h.row_lt]
  have hshown : ((e.lines.drop (e.frameTop height)).take (rowsIn height))[e.row - e.frameTop height]? =
      some (e.line e.row) := by
    obtain ⟨habove, hbelow⟩ := hin
    rw [List.getElem?_take_of_lt (by omega), List.getElem?_drop, ← hline]
    congr 1
    omega
  have hmem : (e.line e.row, e.row - e.frameTop height) ∈
      ((e.lines.drop (e.frameTop height)).take (rowsIn height)).zipIdx :=
    List.mem_zipIdx_iff_getElem?.mpr hshown
  unfold draw
  simp only [List.mem_append, List.mem_map]
  exact .inl (.inr ⟨_, hmem, rfl⟩)

/-- An act that does not overrun the words is performed and follows the cursor. -/
theorem perform (h : e.Placed content n) (hsize : content.length + n + 1 + 2 ^ 32 < 2 ^ 64) (act : Act)
    (hact : ¬ e.Overruns act) :
    ∃ e', e.perform? act = some e' ∧ e.Follows act e' ∧ e'.Placed content (n + 1) := by
  have hrow := h.row_le
  have hlines : e.lines.length ≤ content.length + 1 + (n + 1) := Nat.le_succ_of_le h.lines_le
  cases act with
  | press key =>
    obtain ⟨hscroll, hvisible⟩ := edit_window e key
    obtain ⟨hrow, hmore⟩ := edit_rows h.row_lt key
    have hlines : (e.edit key).lines.length ≤ content.length + 1 + (n + 1) :=
      Nat.le_trans hmore (Nat.succ_le_succ h.lines_le)
    obtain ⟨hsome, hscrolled, hplaced⟩ := scrolls hrow hlines (hvisible.symm ▸ h.visible_pos)
      (hscroll.symm ▸ hvisible.symm ▸ h.end_lt) (by omega)
    refine ⟨e.press key, hsome, ⟨rfl, hscrolled.shown, ?_⟩, hplaced⟩
    intro hin
    exact (hscrolled.still (hscroll.symm ▸ hin)).trans hscroll
  | setRows rows =>
    obtain ⟨hsome, hscrolled, hplaced⟩ :=
      scrolls (e := { e with visible := max rows 1 }) h.row_lt hlines
        (Nat.lt_of_lt_of_le Nat.one_pos (Nat.le_max_right ..)) (Nat.lt_of_not_le hact) (by omega)
    exact ⟨_, hsome, ⟨rfl, hscrolled.shown, hscrolled.still⟩, hplaced⟩
  | render w height theme failing =>
    obtain ⟨hrows, hbound⟩ := rowsIn_bounds height
    have hscroll := h.scroll_le
    have hshows := h.showsCursor w height theme
    by_cases hfirst : failing = some 1
    · refine ⟨e, if_pos hfirst, ⟨hshows, ?_⟩, ⟨h.row_lt, hlines, h.visible_pos, hscroll, h.end_lt⟩⟩
      simp [Program.render, Program.draw, hfirst]
    · have hframe : e.scroll + max (rowsIn height) 1 < 2 ^ 64 := by omega
      refine ⟨e.seen height, ?_, ⟨hshows, ?_⟩, ⟨h.row_lt, hlines, hrows, hscroll, ?_⟩⟩
      · simp only [perform?, if_neg hfirst, visibleTop?_eq_some hframe, Option.map_some]
      · simp [Program.render, Program.draw, Program.seen, hfirst]
      · change e.scroll + rowsIn height < 2 ^ 64
        omega

/-- An act that overruns the words fails: the cursor is not above the window, so the row behind
the window is asked for. -/
theorem perform_of_overruns (h : e.Placed content n) {act : Act} (hact : e.Overruns act) :
    e.perform? act = none := by
  cases act with
  | setRows rows =>
    have hmax : max (max rows 1) 1 = max rows 1 := Nat.max_eq_left (Nat.le_max_right ..)
    have hnone : visibleTop? e.scroll e.row (max rows 1) = none :=
      visibleTop?_eq_none h.scroll_le (hmax.symm ▸ hact)
    simp only [perform?, setRows?, scrollIntoView?, hnone, Option.map_none]
  | press key => exact hact.elim
  | render w height theme failing => exact hact.elim

theorem after (h : e.Placed content n) {acts : List Act} {e' : Editor}
    (hsize : content.length + n + acts.length + 2 ^ 32 < 2 ^ 64) (hrun : e.after? acts = some e') :
    e'.Placed content (n + acts.length) := by
  induction acts generalizing e n with
  | nil =>
    cases hrun
    exact h
  | cons act acts ih =>
    rw [List.length_cons] at hsize
    obtain ⟨next, hnext, hrest⟩ := Option.bind_eq_some_iff.mp hrun
    have hact : ¬ e.Overruns act := by
      intro hact
      rw [h.perform_of_overruns hact] at hnext
      cases hnext
    obtain ⟨made, hmade, -, hplaced⟩ := h.perform (by omega) act hact
    obtain rfl : made = next := Option.some_inj.mp (hmade.symm.trans hnext)
    have hlast := ih hplaced (by omega) hrest
    rwa [Nat.add_assoc, Nat.add_comm 1] at hlast

/-- No act of a run fails whose heights leave room in a word for the lines of the document. -/
theorem exists_after (h : e.Placed content n) {acts : List Act}
    (hsize : content.length + n + acts.length + 2 ^ 32 < 2 ^ 64)
    (hrows : ∀ rows, .setRows rows ∈ acts → content.length + n + acts.length + rows < 2 ^ 64) :
    ∃ e', e.after? acts = some e' := by
  induction acts generalizing e n with
  | nil => exact ⟨e, rfl⟩
  | cons act acts ih =>
    rw [List.length_cons] at hsize hrows
    have hact : ¬ e.Overruns act := by
      intro hover
      cases act with
      | setRows rows =>
        have hroom := hrows rows List.mem_cons_self
        have hrow := h.row_le
        have hscroll := h.scroll_le
        change 2 ^ 64 ≤ e.scroll + max rows 1 at hover
        omega
      | press key => exact hover
      | render w height theme failing => exact hover
    obtain ⟨next, hnext, -, hplaced⟩ := h.perform (by omega) act hact
    obtain ⟨last, hlast⟩ := ih hplaced (by omega) fun rows hmem => by
      have hroom := hrows rows (List.mem_cons_of_mem act hmem)
      omega
    exact ⟨last, Option.bind_eq_some_iff.mpr ⟨next, hnext, hlast⟩⟩

end Placed

end PocketTerminal.Editor
