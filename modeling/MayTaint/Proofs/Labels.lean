import MayTaint.Dot
import MayTaint.Proofs.WellFormed
import MayTaint.Taint.Analysis

/-!
Labels that can be read back. A reader of the DOT language goes through a quoted text from left to
right: a backslash announces a backslash, a quote or the end of a row, and a quote that is not
announced ends the text. Whatever characters the rows of a label have, such a reader finds exactly
these rows and stops at the quote that was put there to end the label. So it does with the title of
a graph, and with the box of every block that was reached: its rows are the number of the block, its
states and the texts of its instructions.
-/

namespace MayTaint

namespace Dot

/-- What a reader finds in a quoted text: the rows that were ended, the characters after them, and
what follows the closing quote. -/
structure Quotation where
  rows : List String
  last : String
  rest : List Char

/-- Reads the inside of a quoted text and its closing quote, with the row so far. A text that is not
closed and a backslash before anything else cannot be read. -/
def read (row : String) : List Char → Option Quotation
  | [] => none
  | c :: cs =>
    if c = Text.doubleQuote then some ⟨[], row, cs⟩
    else if c = Text.backslash then
      match cs with
      | [] => none
      | e :: cs =>
        if e = Text.backslash ∨ e = Text.doubleQuote then read (row.push e) cs
        else if e = 'l' then (read "" cs).map fun q => { q with rows := row :: q.rows }
        else none
    else read (row.push c) cs

theorem read_doubleQuote (row : String) (cs : List Char) :
    read row (Text.doubleQuote :: cs) = some ⟨[], row, cs⟩ := by
  rw [read.eq_def]
  exact if_pos rfl

theorem read_escaped {c : Char} (hc : c = Text.backslash ∨ c = Text.doubleQuote) (row : String)
    (cs : List Char) : read row (Text.backslash :: c :: cs) = read (row.push c) cs := by
  have hne : Text.backslash ≠ Text.doubleQuote := by decide
  simp [read, hne, hc]

theorem read_plain {c : Char} (hc : ¬(c = Text.backslash ∨ c = Text.doubleQuote)) (row : String)
    (cs : List Char) : read row (c :: cs) = read (row.push c) cs := by
  obtain ⟨hbackslash, hquote⟩ := not_or.1 hc
  rw [read.eq_def]
  exact (if_neg hquote).trans (if_neg hbackslash)

theorem read_rowEnd (row : String) (cs : List Char) :
    read row (rowEnd.toList ++ cs) =
      (read "" cs).map fun q => { q with rows := row :: q.rows } := by
  have hchars : rowEnd.toList = [Text.backslash, 'l'] := by decide
  have hne : Text.backslash ≠ Text.doubleQuote := by decide
  have hl : ¬('l' = Text.backslash ∨ 'l' = Text.doubleQuote) := by decide
  simp [hchars, read, hne, hl]

/-- An escaped text is read as the text, whatever stands before and after it. -/
theorem read_escape (row text : String) (cs : List Char) :
    read row ((escape text).toList ++ cs) = read (row ++ text) cs := by
  rw [escape, String.toList_ofList]
  obtain ⟨chars, rfl⟩ : ∃ chars, text = String.ofList chars := ⟨_, String.ofList_toList.symm⟩
  rw [String.toList_ofList]
  induction chars generalizing row with
  | nil => simp
  | cons c chars ih =>
    have hrow : row ++ String.ofList (c :: chars) = row.push c ++ String.ofList chars := by
      rw [String.ofList_cons, String.push_eq_append, String.append_assoc]
    rw [List.flatMap_cons, List.append_assoc, hrow, ← ih]
    by_cases hc : c = Text.backslash ∨ c = Text.doubleQuote
    · have htest : (c == Text.backslash || c == Text.doubleQuote) = true := by simpa using hc
      rw [if_pos htest]
      exact read_escaped hc row _
    · have htest : ¬(c == Text.backslash || c == Text.doubleQuote) = true := by simpa using hc
      rw [if_neg htest]
      exact read_plain hc row _

/-- Escaping is replacing all backslashes first and all quotes then. -/
theorem toList_escape (text : String) : (escape text).toList =
    (text.toList.flatMap fun c =>
      if c == Text.backslash then [Text.backslash, Text.backslash] else [c]).flatMap fun c =>
        if c == Text.doubleQuote then [Text.backslash, Text.doubleQuote] else [c] := by
  have hne : Text.backslash ≠ Text.doubleQuote := by decide
  rw [escape, String.toList_ofList, List.flatMap_assoc]
  refine List.flatMap_congr fun c _ => ?_
  by_cases hc : c = Text.backslash
  · simp [hc, hne]
  · by_cases hq : c = Text.doubleQuote
    · simp [hq, hne.symm]
    · simp [hc, hq]

/-- The label of a box, which has a row at least, is its rows with the ends between them and one
more behind the last. -/
theorem label_eq_intercalate {rows : List String} (h : rows ≠ []) :
    label rows = rowEnd.intercalate (rows.map escape) ++ rowEnd := by
  induction rows with
  | nil => exact absurd rfl h
  | cons row rows ih =>
    by_cases hnil : rows = []
    · simp [hnil, label]
    · rw [List.map_cons, String.intercalate_cons_of_ne_nil (by simpa using hnil),
        String.append_assoc, ← ih hnil]
      simp [label, String.append_assoc]

theorem label_cons (row : String) (rows : List String) :
    (label (row :: rows)).toList =
      (escape row).toList ++ (rowEnd.toList ++ (label rows).toList) := by
  simp [label, String.toList_join]

/-- A label is read as its rows, up to the quote that ends it. -/
theorem read_label (rows : List String) (rest : List Char) :
    read "" ((label rows).toList ++ Text.doubleQuote :: rest) = some ⟨rows, "", rest⟩ := by
  induction rows with
  | nil => exact read_doubleQuote "" rest
  | cons row rows ih =>
    rw [label_cons, List.append_assoc, List.append_assoc, read_escape, read_rowEnd, ih,
      String.empty_append]
    rfl

/-- An escaped text is read as one row that has not ended. -/
theorem read_title (title : String) (rest : List Char) :
    read "" ((escape title).toList ++ Text.doubleQuote :: rest) = some ⟨[], title, rest⟩ := by
  rw [read_escape, String.empty_append, read_doubleQuote]

/-- Every line stands somewhere in the text that is made of the lines. -/
theorem exists_intercalate_of_mem {line : String} {lines : List String} (sep : String)
    (h : line ∈ lines) : ∃ before after, sep.intercalate lines = before ++ (line ++ after) := by
  induction lines with
  | nil => cases h
  | cons first lines ih =>
    by_cases hnil : lines = []
    · subst hnil
      refine ⟨"", "", ?_⟩
      rw [String.intercalate_singleton, List.mem_singleton.1 h, String.append_empty,
        String.empty_append]
    · rw [String.intercalate_cons_of_ne_nil hnil]
      rcases List.mem_cons.1 h with rfl | h
      · exact ⟨"", sep ++ sep.intercalate lines, by rw [String.empty_append, String.append_assoc]⟩
      · obtain ⟨before, after, hrest⟩ := ih h
        exact ⟨first ++ sep ++ before, after, by simp only [hrest, String.append_assoc]⟩

/-- Somewhere in a graph the mark stands, and a reader that starts behind it finds the rows and the
characters after them. -/
def Quotes (graph mark : String) (rows : List String) (last : String) : Prop :=
  ∃ before inside rest, graph.toList = before ++ (mark.toList ++ inside) ∧
    read "" inside = some ⟨rows, last, rest⟩

theorem quotes_of_eq {graph mark inside last : String} {rows : List String} (before tail : String)
    (h : graph = before ++ (mark ++ (inside ++ ("\"" ++ tail))))
    (hread : ∀ rest,
      read "" (inside.toList ++ Text.doubleQuote :: rest) = some ⟨rows, last, rest⟩) :
    Quotes graph mark rows last := by
  have hquote : "\"".toList = [Text.doubleQuote] := by decide
  refine ⟨before.toList, inside.toList ++ Text.doubleQuote :: tail.toList, tail.toList, ?_,
    hread tail.toList⟩
  rw [h]
  simp only [String.toList_append, hquote, List.singleton_append]

end Dot

/-! ### The boxes of a graph -/

section

variable [Machine] {σ : Type} {r : Results σ} {bb : BlockId} {s s' : Session σ}

namespace Results

theorem texts_of_statementRequests {index : Int} {statements : List Statement} {S T : LocalSet}
    {found : List (String × Batch)}
    (h : r.statementRequests bb index statements S s = .ok (found, T) s') :
    found.map Prod.fst = statements.map Statement.text := by
  induction statements generalizing index S s found with
  | nil =>
    cases h
    rfl
  | cons st statements ih =>
    obtain ⟨batch, s₁, _, h⟩ := estate_bind_eq_ok.1 h
    obtain ⟨U, s₂, _, h⟩ := estate_bind_eq_ok.1 h
    obtain ⟨text, s₃, htext, h⟩ := estate_bind_eq_ok.1 h
    obtain ⟨⟨others, V⟩, s₄, hothers, h⟩ := estate_bind_eq_ok.1 h
    cases h
    rw [List.map_cons, ih hothers, (Spelling.written_eq_ok_iff.1 (Run.ofExcept_eq_ok.1 htext).1).2]
    rfl

/-- The requests of a block are listed with the texts of its instructions. -/
theorem texts_of_instructionRequests {requests : List (String × Batch)}
    (h : r.instructionRequests bb s = .ok requests s') :
    ∃ b, r.body.block bb = .ok b ∧ requests.map Prod.fst = b.instructions.map Instruction.text := by
  obtain ⟨b, s₁, hblock, h₁⟩ := estate_bind_eq_ok.1 h
  obtain ⟨entry, s₂, _, h₂⟩ := estate_bind_eq_ok.1 h₁
  obtain ⟨⟨found, T⟩, s₃, hfound, h₃⟩ := estate_bind_eq_ok.1 h₂
  obtain ⟨last, s₄, _, h₄⟩ := estate_bind_eq_ok.1 h₃
  obtain ⟨text, s₅, htext, h₅⟩ := estate_bind_eq_ok.1 h₄
  cases h₅
  obtain ⟨hb, _⟩ := Run.ofExcept_eq_ok.1 hblock
  have hlast : text = b.terminator.text :=
    (Spelling.written_eq_ok_iff.1 (Run.ofExcept_eq_ok.1 htext).1).2
  refine ⟨b, hb, ?_⟩
  rw [Block.instructions, List.map_append, List.map_append, List.map_map,
    texts_of_statementRequests hfound]
  exact congrArg (fun text => b.statements.map Statement.text ++ [text]) hlast

end Results

namespace Dot

def boxRows (bb : BlockId) (b : Block) (entry exit : LocalSet) : List String :=
  ["bb" ++ toString bb, "in:  " ++ entry.text] ++ b.instructions.map Instruction.text
    ++ ["out: " ++ exit.text]

def boxMark (bb : BlockId) : String :=
  "  BB" ++ toString bb ++ " [label=\""

/-- The line of a block that was reached quotes the rows of its box. -/
theorem exists_rows_of_blockLine {line : String} (hreached : r.wasReached bb = true)
    (h : blockLine r bb s = .ok line s') :
    ∃ b entry exit tail, r.body.block bb = .ok b ∧ r.entrySet bb = .ok entry ∧
      r.exitSet bb = .ok exit ∧
      line = boxMark bb ++ (label (boxRows bb b entry exit) ++ ("\"" ++ tail)) := by
  unfold blockLine at h
  simp only [hreached, if_true] at h
  obtain ⟨entry, s₁, hentry, h₁⟩ := estate_bind_eq_ok.1 h
  obtain ⟨requests, s₂, hrequests, h₂⟩ := estate_bind_eq_ok.1 h₁
  obtain ⟨exit, s₃, hexit, h₃⟩ := estate_bind_eq_ok.1 h₂
  cases h₃
  obtain ⟨b, hb, htexts⟩ := Results.texts_of_instructionRequests hrequests
  change requests.map (·.1) = _ at htexts
  refine ⟨b, entry, exit,
    (if !exit.isEmpty then fill "#ffcccc"
      else if bb = Body.entry then fill "#ccffcc" else "") ++ "];",
    hb, (Run.ofExcept_eq_ok.1 hentry).1, (Run.ofExcept_eq_ok.1 hexit).1, ?_⟩
  have hmark : " [label=\"" = " [label=" ++ "\"" := by decide
  simp only [htexts, boxMark, boxRows, quoted, hmark, String.append_assoc]

def titleMark : String :=
  "digraph TaintFlow \x7b\n  label=\""

/-- A graph begins with its title, and has a line for every block. -/
theorem exists_lines_of_text {title : Datum} {graph : String} (h : text r title s = .ok graph s') :
    ∃ name lines, titleOf r title = .ok name ∧ lines ≠ [] ∧
      graph = "\n".intercalate
        ("digraph TaintFlow \x7b" :: ("  label=" ++ quoted (escape name) ++ ";") :: lines) ∧
      ∀ bb, r.body.hasBlock bb = true → ∃ line ∈ lines, ∃ t t', blockLine r bb t = .ok line t' := by
  obtain ⟨name, s₁, hname, h₁⟩ := estate_bind_eq_ok.1 h
  obtain ⟨boxes, s₂, hboxes, h₂⟩ := estate_bind_eq_ok.1 h₁
  obtain ⟨edges, s₃, _, h₃⟩ := estate_bind_eq_ok.1 h₂
  cases h₃
  refine ⟨name, _, (Run.ofExcept_eq_ok.1 hname).1, ?_, rfl, fun bb hbb => ?_⟩
  · simp
  · obtain ⟨line, hline, hrun⟩ :=
      exists_of_forall₂ (Run.forall₂_of_mapM hboxes) (Body.mem_blockIds.2 hbb)
    refine ⟨line, ?_, hrun⟩
    simp [hline]

end Dot

end

namespace Dot

/-- Labels and titles can be read back, whatever characters they have: a reader finds exactly the
rows of a label, and exactly the title, and stops at the quote that ends them. In a graph it finds
the title and, for every block that was reached, its number, its states and the texts of its
instructions. -/
theorem text_reads_back :
    (∀ (rows : List String) (rest : List Char),
      read "" ((label rows).toList ++ Text.doubleQuote :: rest) = some ⟨rows, "", rest⟩) ∧
    (∀ (title : String) (rest : List Char),
      read "" ((escape title).toList ++ Text.doubleQuote :: rest) = some ⟨[], title, rest⟩) ∧
    ∀ [Machine] {σ : Type} (r : Results σ) (title : Datum) (s s' : Session σ) (graph : String),
      text r title s = .ok graph s' →
      (∃ name, titleOf r title = .ok name ∧ Quotes graph titleMark [] name) ∧
      ∀ bb, r.body.hasBlock bb = true → r.wasReached bb = true →
        ∃ b entry exit, r.body.block bb = .ok b ∧ r.entrySet bb = .ok entry ∧
          r.exitSet bb = .ok exit ∧ Quotes graph (boxMark bb) (boxRows bb b entry exit) "" := by
  refine ⟨read_label, read_title, fun {_ _} r title s s' graph h => ?_⟩
  obtain ⟨name, lines, hname, hlines, rfl, hboxes⟩ := exists_lines_of_text h
  constructor
  · refine ⟨name, hname, quotes_of_eq "" (";\n" ++ "\n".intercalate lines) ?_
      (read_title name)⟩
    have hmark : titleMark = "digraph TaintFlow \x7b" ++ ("\n" ++ ("  label=" ++ "\"")) := by decide
    have hend : ";\n" = ";" ++ "\n" := by decide
    simp only [String.intercalate_cons_cons, String.intercalate_cons_of_ne_nil hlines, hmark, hend,
      quoted, String.append_assoc, String.empty_append]
  · intro bb hbb hreached
    obtain ⟨line, hline, t, t', hrun⟩ := hboxes bb hbb
    obtain ⟨b, entry, exit, tail, hb, hentry, hexit, hrows⟩ :=
      exists_rows_of_blockLine hreached hrun
    obtain ⟨before, after, hgraph⟩ := exists_intercalate_of_mem "\n"
      (List.mem_cons_of_mem _ (List.mem_cons_of_mem _ hline))
    refine ⟨b, entry, exit, hb, hentry, hexit,
      quotes_of_eq before (tail ++ after) ?_ (read_label _)⟩
    rw [hgraph, hrows]
    simp only [String.append_assoc]

def quoting : Body :=
  ⟨1, [⟨[.assign (.int 0) (.unary (.text "\"\\l\\") (.copy (.int 0)))], .ret⟩], "\\\"l"⟩

attribute [local instance] Machine.ample

theorem text_reads_back_quoting :
    ∃ r s s' graph, analyze (η := Unit) quoting [] {} ⟨⟨{}, ()⟩, []⟩ = .ok r s ∧
      text r .null s = .ok graph s' ∧ Quotes graph titleMark [] "\\\"l" ∧
      Quotes graph (boxMark 0)
        ["bb0", "in:  \x7b\x7d", "_0 = \"\\l\\(copy _0)", "return", "out: \x7b\x7d"] "" := by
  obtain ⟨r, s, hr, hname, hhas, hreached, hblock, hentry, hexit⟩ :
      ∃ r s, analyze (η := Unit) quoting [] {} ⟨⟨{}, ()⟩, []⟩ = .ok r s ∧
        titleOf r .null = .ok quoting.name ∧ r.body.hasBlock 0 = true ∧ r.wasReached 0 = true ∧
        r.body.block 0 = quoting.block 0 ∧ r.entrySet 0 = .ok (.empty 1) ∧
        r.exitSet 0 = .ok (.empty 1) :=
    ⟨_, _, by cbv, by cbv, by cbv, by cbv, by cbv, by cbv, by cbv⟩
  have hreturns : (Run.answer (analyze (η := Unit) quoting [] {} >>= fun r => text r .null)
      ⟨⟨{}, ()⟩, []⟩).isOk = true := by decide +kernel
  obtain ⟨graph, s', hgraph⟩ : ∃ graph s', text r .null s = .ok graph s' := by
    rw [Run.answer, estate_bind_of_ok hr] at hreturns
    cases h : text r .null s with
    | ok graph s' => exact ⟨graph, s', rfl⟩
    | error f s' =>
      rw [h] at hreturns
      cases hreturns
  obtain ⟨⟨name, hname', htitle⟩, hboxes⟩ := text_reads_back.2.2 r .null s s' graph hgraph
  obtain ⟨b, entry, exit, hb, hentry', hexit', hbox⟩ := hboxes 0 hhas hreached
  cases hname.symm.trans hname'
  cases hblock.symm.trans hb
  cases hentry.symm.trans hentry'
  cases hexit.symm.trans hexit'
  have hrows : boxRows 0 ⟨[.assign (.int 0) (.unary (.text "\"\\l\\") (.copy (.int 0)))], .ret⟩
      (.empty 1) (.empty 1) =
      ["bb0", "in:  \x7b\x7d", "_0 = \"\\l\\(copy _0)", "return", "out: \x7b\x7d"] := by
    decide +kernel
  exact ⟨r, s, s', graph, hr, hgraph, htitle, hrows ▸ hbox⟩

end Dot

end MayTaint
