import ShrinklerGba.Tables.Ragged
import Mathlib.Algebra.BigOperators.Group.Finset.Basic
import Mathlib.Data.List.GetD

/-!
# The table printer

`table_printer` collects rows of any lengths and prints them with their columns aligned.

* `TablePrinter.addRow` and `TablePrinter.print` are the two operations. Where the code would index
  past the end of a vector or count an `int` down past the least one, `print` gives `none`.
* `Call`, `run`: what may be called before a `print`, in any order.
* `run_columnWidths`: the widths are the joined lengths of the rows.
* `Aligned`: where the cells of a line are.
* **`print_aligned`**: every table is printed, and aligned.
-/

namespace ShrinklerGba

/-- A container of the standard library: its `size()` fits into a `size_t`. -/
abbrev Sized (α : Type) : Type := {xs : List α // xs.length < 2 ^ 64}

/-- `size()` -/
def Sized.size {α : Type} (xs : Sized α) : ℕ := xs.val.length

/-- The subtraction of the type `size_t`, which wraps around. -/
def sizeSub (a b : ℕ) : ℕ := (a + 2 ^ 64 - b) % 2 ^ 64

/-- A `std::string`. -/
abbrev Text : Type := Sized Char

/-- A row of the table, a `std::vector<std::string>`. -/
abbrev Row : Type := Sized Text

/-- The part of a `console` that a table is printed to: what its verbose stream has received, if it
has one. Source: `console.cppm`, `console`. -/
structure Console where
  /-- `m_verbose_stream` -/
  verboseStream : Option (List Char)

/-- Source: `console.cpp`, `console::verbose(const std::string&)`. -/
def Console.verbose (c : Console) (s : List Char) : Console :=
  { c with verboseStream := c.verboseStream.map fun stream => stream ++ s ++ ['\n'] }

/-! ## Padding and columns -/

/-- The loop `while (n--)`, on an `n` that is not negative.
Source: `table_printer.cpp`, `print_nchars`. -/
def printNchars (os : List Char) (c : Char) : ℕ → List Char
  | 0 => os
  | n + 1 => printNchars (os ++ [c]) c n

/-- Source: `table_printer.cpp`, `indent_table`. -/
def indentTable (os : List Char) : ℤ → Option (List Char)
  | .ofNat n => some (printNchars os ' ' n)
  -- `n--` goes past the least `int`.
  | .negSucc _ => none

/-- Source: `table_printer.cpp`, `pad_column`. -/
def padColumn (os : List Char) (columnText : Text) (columnWidth : ℕ) : List Char :=
  printNchars os ' ' (sizeSub columnWidth columnText.size)

/-- Source: `table_printer.cpp`, `print_column_separator`. -/
def printColumnSeparator (os : List Char) : List Char := os ++ [' ']

/-- Source: `table_printer.cpp`, `is_new_column`. -/
def isNewColumn (column : ℕ) (columnWidths : List ℕ) : Bool := column ≥ columnWidths.length

/-- Source: `table_printer.cpp`, `is_last_column`. -/
def isLastColumn (column : ℕ) (row : Row) : Bool := column ≥ sizeSub row.size 1

/-! ## The printer -/

/-- Source: `table_printer.cppm`, `table_printer`. -/
structure TablePrinter where
  /-- `m_table_indent` -/
  tableIndent : ℤ := 0
  /-- `m_rows` -/
  rows : List Row := []
  /-- `m_column_widths` -/
  columnWidths : List ℕ := []

namespace TablePrinter

/-- The body of the loop in `add_row`, for one cell and its column. -/
def widen (columnWidths : List ℕ) : Text × ℕ → List ℕ
  | (cell, column) =>
      if isNewColumn column columnWidths then columnWidths ++ [cell.size]
      else columnWidths.set column (max cell.size (columnWidths.getD column 0))

/-- Source: `table_printer.cpp`, `table_printer::add_row`. -/
def addRow (p : TablePrinter) (row : Row) : TablePrinter :=
  { p with
    columnWidths := row.val.zipIdx.foldl widen p.columnWidths
    rows := p.rows ++ [row] }

/-- The body of the inner loop in `print`, for one cell and its column. -/
def printCell (columnWidths : List ℕ) (row : Row) (os : List Char) :
    Text × ℕ → Option (List Char)
  | (cell, column) => do
      let os := os ++ cell.val
      if isLastColumn column row then
        return os
      let columnWidth ← columnWidths[column]?
      return printColumnSeparator (padColumn os cell columnWidth)

/-- The body of the outer loop in `print`: what is assembled for one row. -/
def printRow (p : TablePrinter) (row : Row) : Option (List Char) := do
  let os ← indentTable [] p.tableIndent
  row.val.zipIdx.foldlM (printCell p.columnWidths row) os

/-- Source: `table_printer.cpp`, `table_printer::print`. -/
def print (p : TablePrinter) (c : Console) : Option Console :=
  p.rows.foldlM (fun c row => do return c.verbose (← p.printRow row)) c

/-- What may be called on a printer before it prints. -/
inductive Call
  /-- `add_row(row)` -/
  | addRow (row : Row)
  /-- `table_indent(table_indent)` -/
  | tableIndent (tableIndent : ℤ)

/-- The printer after a call. -/
def call (p : TablePrinter) : Call → TablePrinter
  | .addRow row => p.addRow row
  | .tableIndent tableIndent => { p with tableIndent }

/-- The printer after a sequence of calls, from a new one. -/
def run (calls : List Call) : TablePrinter := calls.foldl call {}

/-- The rows that the calls of a sequence add. -/
def addedRows (calls : List Call) : List Row :=
  calls.filterMap fun
    | .addRow row => some row
    | .tableIndent _ => none

/-! ## The column widths -/

/-- The lengths of the cells of a row. -/
def sizes (row : Row) : List ℕ := row.val.map Sized.size

/-- The column widths of a table: as many as the longest row has cells, and each the greatest length
of a cell of its column. -/
structure Widest (rows : List Row) (columnWidths : List ℕ) : Prop where
  /-- There is a width for every cell of the longest row, and no other. -/
  length : IsLUB {n | ∃ row ∈ rows, row.size = n} columnWidths.length
  /-- A width is the greatest length of a cell in a row that has the column. -/
  column : ∀ (c width : ℕ), columnWidths[c]? = some width →
    IsGreatest {n | ∃ row ∈ rows, ∃ cell : Text, row.val[c]? = some cell ∧ cell.size = n} width

/-- The loop over the cells of a row from some column on. -/
theorem foldl_widen (cells : List Text) {column : ℕ} {columnWidths : List ℕ}
    (h : column ≤ columnWidths.length) :
    (cells.zipIdx column).foldl widen columnWidths =
      columnWidths.take column ++
        Ragged.sup (columnWidths.drop column) (cells.map Sized.size) := by
  induction cells generalizing column columnWidths with
  | nil => simp
  | cons cell cells ih =>
      rw [List.zipIdx_cons, List.foldl_cons, List.map_cons]
      rcases h.eq_or_lt with rfl | hlt
      · -- A new column, behind all others.
        rw [widen, if_pos (by simp [isNewColumn]), ih (by simp), List.take_of_length_le (by simp)]
        simp
      · -- A column that has a width already.
        have hset : ∀ width, (columnWidths.set column width).take (column + 1) =
            columnWidths.take column ++ [width] := by
          intro width
          rw [List.take_succ_eq_append_getElem (by simpa using hlt), List.take_set_of_le le_rfl,
            List.getElem_set_self]
        rw [widen, if_neg (by simpa [isNewColumn] using hlt),
          ih (by simpa using Nat.succ_le_iff.mpr hlt), hset,
          List.drop_set_of_lt (Nat.lt_succ_self _), List.drop_eq_getElem_cons hlt, Ragged.sup,
          List.getD_eq_getElem _ _ hlt, max_comm, List.append_assoc, List.singleton_append]

@[simp] theorem addRow_columnWidths (p : TablePrinter) (row : Row) :
    (p.addRow row).columnWidths = Ragged.sup p.columnWidths (sizes row) := by
  simpa [addRow, sizes] using foldl_widen row.val (Nat.zero_le p.columnWidths.length)

theorem run_concat (calls : List Call) (c : Call) : run (calls ++ [c]) = (run calls).call c := by
  simp [run]

theorem run_rows (calls : List Call) : (run calls).rows = addedRows calls := by
  induction calls using List.reverseRecOn with
  | nil => rfl
  | append_singleton calls c ih =>
      cases c with
      | addRow row => simp [run_concat, call, addRow, addedRows, ih]
      | tableIndent n => simp [run_concat, call, addedRows, ih]

/-- The widths are the joined lengths of the rows. -/
theorem run_columnWidths (calls : List Call) :
    (run calls).columnWidths = Ragged.sups ((addedRows calls).map sizes) := by
  induction calls using List.reverseRecOn with
  | nil => rfl
  | append_singleton calls c ih =>
      cases c with
      | addRow row =>
          have hadded : addedRows (calls ++ [.addRow row]) = addedRows calls ++ [row] := by
            simp [addedRows]
          rw [run_concat, call, addRow_columnWidths, ih, hadded, List.map_append,
            List.map_singleton, Ragged.sups_concat]
      | tableIndent n => simp [run_concat, call, addedRows, ih]

/-- **The widths are those of the rows added so far.** -/
theorem run_widest (calls : List Call) : Widest (addedRows calls) (run calls).columnWidths := by
  rw [run_columnWidths]
  constructor
  · simpa [sizes, Sized.size] using Ragged.isLUB_length_sups ((addedRows calls).map sizes)
  · intro c width h
    simpa [sizes] using Ragged.isGreatest_sups h

/-! ## The lines -/

/-- No subtraction of `print` wraps: `row.size() - 1` for every cell, and `column_width -
column_text.size()` for every cell that is padded. -/
def NoWrap (p : TablePrinter) : Prop :=
  ∀ row ∈ p.rows, ∀ (column : ℕ) (cell : Text), row.val[column]? = some cell →
    1 ≤ row.size ∧ (isLastColumn column row = false →
      ∃ columnWidth, p.columnWidths[column]? = some columnWidth ∧ cell.size ≤ columnWidth)

/-- The character of a line at which the cell of a column starts. -/
def cellStart (tableIndent : ℤ) (columnWidths : List ℕ) (column : ℕ) : ℕ :=
  tableIndent.toNat + ∑ j ∈ Finset.range column, (columnWidths.getD j 0 + 1)

/-- In the line of a row, every cell starts at the start of its column, and nothing follows the last
cell. -/
def Aligned (tableIndent : ℤ) (columnWidths : List ℕ) (row : Row) (line : List Char) : Prop :=
  ∀ (column : ℕ) (cell : Text), row.val[column]? = some cell →
    ∃ before after, line = before ++ cell.val ++ after ∧
      before.length = cellStart tableIndent columnWidths column ∧
      (column + 1 = row.size → after = [])

/-- The widths are large enough for some cells, and fit into a `size_t`. -/
def Covers (columnWidths : List ℕ) (cells : List Text) : Prop :=
  ∀ (column : ℕ) (cell : Text), cells[column]? = some cell →
    ∃ columnWidth, columnWidths[column]? = some columnWidth ∧ cell.size ≤ columnWidth ∧
      columnWidth < 2 ^ 64

/-- What is printed for the cells of a row from some column on. -/
def cellsText : List Text → List ℕ → List Char
  | [], _ => []
  | [cell], _ => cell.val
  | cell :: next :: cells, columnWidths =>
      cell.val ++ List.replicate (columnWidths.headD 0 - cell.size) ' ' ++ [' '] ++
        cellsText (next :: cells) columnWidths.tail

theorem printNchars_eq (os : List Char) (c : Char) (n : ℕ) :
    printNchars os c n = os ++ List.replicate n c := by
  induction n generalizing os with
  | zero => simp [printNchars]
  | succ n ih => rw [printNchars, ih, List.append_assoc, List.singleton_append, List.replicate_succ]

theorem sizeSub_eq {a b : ℕ} (ha : a < 2 ^ 64) (h : b ≤ a) : sizeSub a b = a - b := by
  unfold sizeSub
  omega

theorem indentTable_eq {tableIndent : ℤ} (h : 0 ≤ tableIndent) (os : List Char) :
    indentTable os tableIndent = some (os ++ List.replicate tableIndent.toNat ' ') := by
  cases tableIndent with
  | ofNat n => rw [indentTable, printNchars_eq]; rfl
  | negSucc n => exact absurd h (Int.negSucc_not_nonneg n).mp

/-- A row with a cell in some column: the column is the last one when no cell is behind it. -/
theorem isLastColumn_iff {row : Row} {column : ℕ} (h : column < row.size) :
    isLastColumn column row = true ↔ column + 1 = row.size := by
  have hsub : sizeSub row.size 1 = row.size - 1 := sizeSub_eq row.property (by omega)
  simp only [isLastColumn, hsub, decide_eq_true_iff]
  omega

/-- The loop over the cells of a row from some column on. -/
theorem foldlM_printCell {row : Row} {columnWidths : List ℕ} (hcovers : Covers columnWidths row.val)
    {cells : List Text} {column : ℕ} (h : row.val.drop column = cells) (os : List Char) :
    (cells.zipIdx column).foldlM (printCell columnWidths row) os =
      some (os ++ cellsText cells (columnWidths.drop column)) := by
  induction cells generalizing column os with
  | nil => simp [cellsText]
  | cons cell cells ih =>
      have hcell : row.val[column]? = some cell := by
        rw [← Nat.add_zero column, ← List.getElem?_drop, h, List.getElem?_cons_zero]
      have htail : row.val.drop (column + 1) = cells := by
        rw [← List.tail_drop, h, List.tail_cons]
      have hlt : column < row.size := (List.getElem?_eq_some_iff.mp hcell).1
      have hlen : row.size - (column + 1) = cells.length := by
        rw [← htail, List.length_drop, Sized.size]
      obtain ⟨columnWidth, hwidth, hle, hsize⟩ := hcovers column cell hcell
      rw [List.zipIdx_cons, List.foldlM_cons]
      cases cells with
      | nil =>
          have hlast : column + 1 = row.size := by
            rw [List.length_nil] at hlen
            omega
          simp [printCell, (isLastColumn_iff hlt).mpr hlast, cellsText]
      | cons next cells =>
          have hnot : ¬isLastColumn column row = true := by
            rw [isLastColumn_iff hlt]
            rw [List.length_cons] at hlen
            omega
          have hbody : printCell columnWidths row os (cell, column) =
              some (os ++ cell.val ++ List.replicate (columnWidth - cell.size) ' ' ++ [' ']) := by
            simp only [printCell, if_neg hnot, hwidth, padColumn, printColumnSeparator,
              printNchars_eq, Option.bind_eq_bind, Option.bind_some, Option.pure_def,
              sizeSub_eq hsize hle]
          have hhead : (columnWidths.drop column).headD 0 = columnWidth := by
            rw [List.headD_eq_head?_getD, List.head?_drop, hwidth, Option.getD_some]
          rw [hbody, Option.bind_eq_bind, Option.bind_some, ih htail, cellsText, hhead,
            List.tail_drop]
          simp only [List.append_assoc]

theorem Covers.tail {cell : Text} {cells : List Text} {columnWidths : List ℕ}
    (h : Covers columnWidths (cell :: cells)) : Covers columnWidths.tail cells := by
  intro column next hnext
  rw [List.getElem?_tail]
  exact h (column + 1) next (by rwa [List.getElem?_cons_succ])

/-- What is printed before the cell of a column fills the columns before it. -/
theorem cellsText_split {cells : List Text} {columnWidths : List ℕ}
    (hcovers : Covers columnWidths cells) {column : ℕ} (h : column < cells.length) :
    ∃ before, before.length = ∑ j ∈ Finset.range column, (columnWidths.getD j 0 + 1) ∧
      cellsText cells columnWidths =
        before ++ cellsText (cells.drop column) (columnWidths.drop column) := by
  induction column generalizing cells columnWidths with
  | zero => exact ⟨[], by simp, by simp⟩
  | succ column ih =>
      match cells, h with
      | cell :: next :: cells, h =>
          obtain ⟨columnWidth, hwidth, hle, -⟩ := hcovers 0 cell rfl
          obtain ⟨before, hlength, htext⟩ := ih hcovers.tail (Nat.lt_of_succ_lt_succ h)
          refine ⟨cell.val ++ List.replicate (columnWidth - cell.size) ' ' ++ [' '] ++ before,
            ?_, ?_⟩
          · have hfirst : columnWidths.getD 0 0 = columnWidth := by
              rw [List.getD_eq_getElem?_getD, hwidth, Option.getD_some]
            have hcell : cell.val.length = cell.size := rfl
            rw [Finset.sum_range_succ', hfirst, List.length_append, hlength]
            simp only [List.length_append, List.length_replicate, List.length_singleton, hcell]
            have hshift : ∀ j, columnWidths.tail.getD j 0 = columnWidths.getD (j + 1) 0 := by
              intro j
              rw [List.getD_eq_getElem?_getD, List.getElem?_tail, List.getD_eq_getElem?_getD]
            simp only [hshift]
            omega
          · have hhead : columnWidths.headD 0 = columnWidth := by
              rw [List.headD_eq_head?_getD, List.head?_eq_getElem?, hwidth, Option.getD_some]
            rw [cellsText, hhead, htext, List.drop_succ_cons, List.drop_tail]
            simp only [List.append_assoc]

/-- What is printed from a cell on begins with the cell, and ends with it if it is the last one. -/
theorem cellsText_cons (cell : Text) (cells : List Text) (columnWidths : List ℕ) :
    ∃ after, cellsText (cell :: cells) columnWidths = cell.val ++ after ∧
      (cells = [] → after = []) := by
  cases cells with
  | nil => exact ⟨[], by simp [cellsText], fun _ => rfl⟩
  | cons next cells =>
      rw [cellsText, List.append_assoc, List.append_assoc]
      exact ⟨_, rfl, fun h => absurd h (List.cons_ne_nil next cells)⟩

variable {p : TablePrinter}

/-- **A row is printed, and aligned**, if the widths cover it. -/
theorem printRow_aligned {row : Row} (hindent : 0 ≤ p.tableIndent)
    (hcovers : Covers p.columnWidths row.val) :
    ∃ line, p.printRow row = some line ∧ Aligned p.tableIndent p.columnWidths row line := by
  have hprint : p.printRow row = some (List.replicate p.tableIndent.toNat ' ' ++
      cellsText row.val p.columnWidths) := by
    rw [printRow, indentTable_eq hindent, List.nil_append, Option.bind_eq_bind, Option.bind_some,
      foldlM_printCell hcovers List.drop_zero, List.drop_zero]
  refine ⟨_, hprint, fun column cell hcell => ?_⟩
  obtain ⟨hlt, hget⟩ := List.getElem?_eq_some_iff.mp hcell
  obtain ⟨before, hlength, htext⟩ := cellsText_split hcovers hlt
  rw [List.drop_eq_getElem_cons hlt, hget] at htext
  obtain ⟨after, hcons, hlast⟩ :=
    cellsText_cons cell (row.val.drop (column + 1)) (p.columnWidths.drop column)
  refine ⟨List.replicate p.tableIndent.toNat ' ' ++ before, after, ?_, ?_, fun h => ?_⟩
  · rw [htext, hcons]
    simp only [List.append_assoc]
  · rw [List.length_append, List.length_replicate, hlength, cellStart]
  · exact hlast (List.drop_eq_nil_of_le h.ge)

/-- The widths of a table cover each of its rows. -/
theorem Widest.covers {rows : List Row} {columnWidths : List ℕ} (h : Widest rows columnWidths)
    {row : Row} (hrow : row ∈ rows) : Covers columnWidths row.val := by
  intro column cell hcell
  have hlt : column < columnWidths.length :=
    (List.getElem?_eq_some_iff.mp hcell).1.trans_le (h.length.1 ⟨row, hrow, rfl⟩)
  have hwidth := List.getElem?_eq_getElem hlt
  have hgreatest := h.column column _ hwidth
  refine ⟨_, hwidth, hgreatest.2 ⟨row, hrow, cell, hcell, rfl⟩, ?_⟩
  -- The width is the length of some cell.
  obtain ⟨-, -, widest, -, hsize⟩ := hgreatest.1
  rw [← hsize]
  exact widest.property

/-- No subtraction wraps where the widths are those of the rows. -/
theorem Widest.noWrap (h : Widest p.rows p.columnWidths) : p.NoWrap := by
  intro row hrow column cell hcell
  have hlt : column < row.size := (List.getElem?_eq_some_iff.mp hcell).1
  refine ⟨Nat.one_le_of_lt hlt, fun _ => ?_⟩
  obtain ⟨columnWidth, hwidth, hle, -⟩ := h.covers hrow column cell hcell
  exact ⟨columnWidth, hwidth, hle⟩

/-- The lines of a table, one after the other. -/
theorem foldlM_verbose {rows : List Row} {lines : List (List Char)}
    (h : List.Forall₂ (fun row line => p.printRow row = some line) rows lines) (c : Console) :
    rows.foldlM (fun c row => do return c.verbose (← p.printRow row)) c =
      some (lines.foldl Console.verbose c) := by
  induction h generalizing c with
  | nil => rfl
  | cons hrow _ ih => rw [List.foldlM_cons, hrow, List.foldl_cons, ← ih]; rfl

/-- Every row has a line. -/
theorem forall₂_printRow {rows : List Row}
    (h : ∀ row ∈ rows, ∃ line, p.printRow row = some line ∧
      Aligned p.tableIndent p.columnWidths row line) :
    ∃ lines, List.Forall₂ (fun row line => p.printRow row = some line) rows lines ∧
      List.Forall₂ (Aligned p.tableIndent p.columnWidths) rows lines := by
  induction rows with
  | nil => exact ⟨[], .nil, .nil⟩
  | cons row rows ih =>
      obtain ⟨line, hprint, haligned⟩ := h row List.mem_cons_self
      obtain ⟨lines, hprints, haligneds⟩ := ih fun r hr => h r (List.mem_cons_of_mem row hr)
      exact ⟨line :: lines, .cons hprint hprints, .cons haligned haligneds⟩

/-- **Every table is printed, and aligned.** After any calls the widths are those of the rows added
so far, no subtraction wraps, and with an indent that is not negative one line is printed for every
row, in which the cells start where their columns do. -/
theorem print_aligned (calls : List Call) :
    (run calls).rows = addedRows calls ∧
      Widest (addedRows calls) (run calls).columnWidths ∧ (run calls).NoWrap ∧
      (0 ≤ (run calls).tableIndent → ∃ lines,
        List.Forall₂ (Aligned (run calls).tableIndent (run calls).columnWidths)
          (addedRows calls) lines ∧
        ∀ c, (run calls).print c = some (lines.foldl Console.verbose c)) := by
  have hwidest := run_widest calls
  refine ⟨run_rows calls, hwidest, Widest.noWrap (by rwa [run_rows]), fun hindent => ?_⟩
  obtain ⟨lines, hprints, haligned⟩ := forall₂_printRow fun row hrow =>
    printRow_aligned hindent (hwidest.covers hrow)
  refine ⟨lines, haligned, fun c => ?_⟩
  rw [print, run_rows, foldlM_verbose hprints]

/-- Two rows under an indent. -/
def sampleCalls : List Call := [
  .tableIndent 5,
  .addRow ⟨[⟨['a', 'b'], by decide⟩, ⟨['c'], by decide⟩], by decide⟩,
  .addRow ⟨[⟨['1'], by decide⟩, ⟨['2', '3'], by decide⟩], by decide⟩]

/-- The theorem for two rows under an indent. -/
theorem print_aligned_sample :
    ∃ lines, List.Forall₂ (Aligned 5 [2, 2]) (addedRows sampleCalls) lines ∧
      ∀ c, (run sampleCalls).print c = some (lines.foldl Console.verbose c) :=
  (print_aligned sampleCalls).2.2.2 (by decide)

example : (run sampleCalls).print ⟨some []⟩ =
    some ⟨some "     ab c\n     1  23\n".toList⟩ := by
  rfl

-- A row that is longer than the one before, and one without cells.
example :
    let short : Row :=
      ⟨[⟨['a'], by decide⟩, ⟨['b', 'c', 'd'], by decide⟩, ⟨['e', 'f'], by decide⟩], by decide⟩
    let long : Row :=
      ⟨[⟨['1', '2'], by decide⟩, ⟨['2'], by decide⟩, ⟨['4', '5', '6'], by decide⟩,
        ⟨['7'], by decide⟩], by decide⟩
    (run [.addRow short, .addRow long, .addRow ⟨[], by decide⟩]).print ⟨some []⟩ =
      some ⟨some "a  bcd ef\n12 2   456 7\n\n".toList⟩ := by
  rfl

end TablePrinter

end ShrinklerGba
