import Mathlib.Data.List.Induction
import Lox.Shell

/-!
# The journal of a shell

A shell divides the lines it is fed into source texts and runs one after another. How it divides
them does not depend on what the sources do, so it is told here apart from any session: a journal
has the batches of lines that were run as one source each, and the lines that still wait. A batch
ends with the first line that leaves no block open, or with the end of the input.

A shell does what its journal says: it has run the sources of the batches in their order, and holds
back the lines that wait (`Journal.Describes`). The journal in turn has every line that was taken,
once and in order, and its batches end no earlier and no later than they should (`Journal.Sound`).
-/

namespace Lox

/-! ## Feeding many lines -/

namespace Shell

/-- Whether a line is taken as source text: it is not the end of the input, and unless lines are
held back it is neither blank nor a word that ends the shell. -/
def takes (shell : Shell) (line : String) : Bool :=
  line != endMark && !(shell.pending.isEmpty && (isLeave line || (Text.strip line).isEmpty))

/-- The lines that are taken as source text when a shell is fed some lines. -/
def taken (shell : Shell) : List String → List String
  | [] => []
  | line :: lines =>
    let rest := (shell.feed line).shell.taken lines
    if shell.takes line then line :: rest else rest

/-- The events of a line that is fed, apart from the line that is ended at the end of the input. -/
def answer (shell : Shell) (line : String) : List Event :=
  (shell.feed line).events.drop (if line = endMark then 1 else 0)

/-- Feeds lines to a shell, also past a line that ends it; returns the shell and its answers. -/
def feedAll (shell : Shell) : List String → Shell × List Event
  | [] => (shell, [])
  | line :: lines =>
    let rest := (shell.feed line).shell.feedAll lines
    (rest.1, shell.answer line ++ rest.2)

theorem taken_concat (shell : Shell) (lines : List String) (line : String) :
    shell.taken (lines ++ [line]) =
      shell.taken lines ++ if (shell.feedAll lines).1.takes line then [line] else [] := by
  induction lines generalizing shell with
  | nil => rfl
  | cons first lines ih =>
    simp only [List.cons_append, taken, feedAll, ih]
    split <;> rfl

theorem feedAll_concat (shell : Shell) (lines : List String) (line : String) :
    shell.feedAll (lines ++ [line]) =
      (((shell.feedAll lines).1.feed line).shell,
        (shell.feedAll lines).2 ++ (shell.feedAll lines).1.answer line) := by
  induction lines generalizing shell with
  | nil => simp [feedAll]
  | cons first lines ih => simp only [List.cons_append, feedAll, ih, List.append_assoc]

end Shell

/-- Runs source texts one after another, each with the errors of the earlier ones forgotten;
returns the session and the events of all runs. -/
def Session.runAll (session : Session) : List String → Session × List Event
  | [] => (session, [])
  | source :: sources =>
    let step := session.reset.run source
    let rest := step.session.runAll sources
    (rest.1, step.events ++ rest.2)

theorem Session.runAll_concat (session : Session) (sources : List String) (source : String) :
    session.runAll (sources ++ [source]) =
      let step := (session.runAll sources).1.reset.run source
      (step.session, (session.runAll sources).2 ++ step.events) := by
  induction sources generalizing session with
  | nil => simp [runAll]
  | cons first sources ih => simp only [List.cons_append, runAll, ih, List.append_assoc]

/-- After a run, a session that held no errors holds those of the run. -/
theorem Session.held_reset_run (session : Session) (source : String) :
    (session.reset.run source).session.held = reportsOf (session.reset.run source).events := by
  simp [run, runWithin, runUnder, after, reset]

/-! ## Journals -/

/-- Lines that were run as one source, and whether the end of the input made them run. -/
structure Batch where
  lines : List String
  atEnd : Bool

def Batch.source (batch : Batch) : String :=
  linesOf batch.lines

/-- The batches that were run, and the lines that wait to be run. -/
structure Journal where
  batches : List Batch
  waiting : List String

namespace Journal

def sources (journal : Journal) : List String :=
  journal.batches.map Batch.source

def lines (journal : Journal) : List String :=
  journal.batches.flatMap Batch.lines ++ journal.waiting

def run (journal : Journal) (more : List String) (atEnd : Bool) : Journal :=
  ⟨journal.batches ++ [⟨journal.waiting ++ more, atEnd⟩], []⟩

def take (journal : Journal) (line : String) : Journal :=
  if 0 < Shell.openBlocks (linesOf (journal.waiting ++ [line])) then
    { journal with waiting := journal.waiting ++ [line] }
  else journal.run [line] false

def add (journal : Journal) (line : String) : Journal :=
  if line = Shell.endMark then
    if journal.waiting.isEmpty then journal else journal.run [] true
  else if journal.waiting.isEmpty && (Shell.isLeave line || (Text.strip line).isEmpty) then journal
  else journal.take line

def ofLines (lines : List String) : Journal :=
  lines.foldl add ⟨[], []⟩

theorem ofLines_concat (lines : List String) (line : String) :
    ofLines (lines ++ [line]) = (ofLines lines).add line := by
  simp [ofLines]

@[simp] theorem sources_run (journal : Journal) (more : List String) (atEnd : Bool) :
    (journal.run more atEnd).sources = journal.sources ++ [linesOf (journal.waiting ++ more)] := by
  simp [sources, run, Batch.source]

@[simp] theorem lines_run (journal : Journal) (more : List String) (atEnd : Bool) :
    (journal.run more atEnd).lines = journal.lines ++ more := by
  simp [lines, run]

theorem lines_take (journal : Journal) (line : String) :
    (journal.take line).lines = journal.lines ++ [line] := by
  rw [take]
  split
  · simp [lines]
  · exact lines_run journal [line] false

/-- A line makes at most one batch run, which says whether the line was the end of the input. -/
theorem batches_add (journal : Journal) (line : String) :
    (journal.add line).batches = journal.batches ∨
      ∃ lines, (journal.add line).batches =
        journal.batches ++ [⟨lines, decide (line = Shell.endMark)⟩] := by
  rw [add]
  split
  · rename_i hend
    split
    · exact Or.inl rfl
    · exact Or.inr ⟨journal.waiting ++ [], by rw [decide_eq_true hend]; rfl⟩
  · rename_i hend
    split
    · exact Or.inl rfl
    · rw [take]
      split
      · exact Or.inl rfl
      · exact Or.inr ⟨journal.waiting ++ [line], by rw [decide_eq_false hend]; rfl⟩

end Journal

/-! ## Lines as text -/

theorem linesOf_append (texts more : List String) :
    linesOf (texts ++ more) = linesOf texts ++ linesOf more := by
  simp [linesOf]

theorem linesOf_concat (texts : List String) (text : String) :
    linesOf (texts ++ [text]) = linesOf texts ++ text ++ "\n" := by
  simp [linesOf, String.append_assoc]

/-- No line is without text, because of its end. -/
theorem isEmpty_linesOf (texts : List String) : (linesOf texts).isEmpty = texts.isEmpty := by
  cases texts with
  | nil => rfl
  | cons text texts => simp [linesOf]

/-- The sources of a journal, followed by the lines that wait, are its lines. -/
theorem Journal.join_sources (journal : Journal) :
    String.join journal.sources ++ linesOf journal.waiting = linesOf journal.lines := by
  have hbatches : ∀ batches : List Batch,
      String.join (batches.map Batch.source) = linesOf (batches.flatMap Batch.lines) := by
    intro batches
    induction batches with
    | nil => rfl
    | cons batch batches ih => simp [linesOf_append, ← ih, Batch.source]
  rw [Journal.lines, linesOf_append, ← hbatches, Journal.sources]

/-! ## A shell does what its journal says -/

/-- A journal describes a shell that was started with a session, and the answers it gave: the
sources have been run, and the lines that wait are held back. -/
structure Journal.Describes (session : Session) (journal : Journal) (shell : Shell)
    (answers : List Event) : Prop where
  run : (shell.session, answers) = session.runAll journal.sources
  pending : shell.pending = linesOf journal.waiting

namespace Journal.Describes

variable {session : Session} {journal : Journal} {shell : Shell} {answers : List Event}

theorem isEmpty_pending (h : journal.Describes session shell answers) :
    shell.pending.isEmpty = journal.waiting.isEmpty := by
  rw [h.pending, isEmpty_linesOf]

/-- Running what waits, with some more lines, is one more source. -/
theorem runSource (h : journal.Describes session shell answers) (more : List String) (atEnd : Bool)
    {source : String} (hsource : source = linesOf (journal.waiting ++ more)) (prompt : Prompt) :
    (journal.run more atEnd).Describes session ⟨(shell.runSource source).session, "", prompt⟩
      (answers ++ (shell.runSource source).events) := by
  refine ⟨?_, rfl⟩
  rw [sources_run, Session.runAll_concat, ← h.run, ← hsource, Shell.runSource]

theorem finish (h : journal.Describes session shell answers) :
    (journal.add Shell.endMark).Describes session shell.finish.shell
      (answers ++ shell.finish.events.drop 1) := by
  rw [Journal.add, if_pos rfl, Shell.finish, h.isEmpty_pending]
  split
  · simpa using h
  · exact h.runSource [] true (by rw [List.append_nil, h.pending]) shell.prompt

theorem accept (h : journal.Describes session shell answers) (line : String) :
    (journal.take line).Describes session (shell.accept line).shell
      (answers ++ (shell.accept line).events) := by
  have hsource : shell.pending ++ line ++ "\n" = linesOf (journal.waiting ++ [line]) := by
    rw [linesOf_concat, h.pending]
  simp only [Journal.take, Shell.accept, hsource]
  split
  · rw [List.append_nil]
    exact ⟨h.run, rfl⟩
  · exact h.runSource [line] false rfl .main

/-- The step: a line does to the shell what it does to the journal. -/
theorem feed (h : journal.Describes session shell answers) (line : String) :
    (journal.add line).Describes session (shell.feed line).shell
      (answers ++ shell.answer line) := by
  by_cases hend : line = Shell.endMark
  · subst hend
    simpa [Shell.answer, Shell.feed] using h.finish
  · simp only [Journal.add, Shell.answer, Shell.feed, hend, if_false, h.isEmpty_pending,
      List.drop_zero]
    cases hempty : journal.waiting.isEmpty
    · exact h.accept line
    · cases Shell.isLeave line <;> cases (Text.strip line).isEmpty
      · exact h.accept line
      all_goals simpa using h

end Journal.Describes

/-- The run: after any lines, the journal of these lines describes the shell. -/
theorem Journal.describes_ofLines (session : Session) (lines : List String) :
    (ofLines lines).Describes session ((Shell.start session).feedAll lines).1
      ((Shell.start session).feedAll lines).2 := by
  induction lines using List.reverseRecOn with
  | nil => exact ⟨rfl, rfl⟩
  | append_singleton lines line ih =>
    rw [ofLines_concat, Shell.feedAll_concat]
    exact ih.feed line

/-- A journal has the lines that were taken as source text. -/
theorem Journal.lines_ofLines (session : Session) (lines : List String) :
    (ofLines lines).lines = (Shell.start session).taken lines := by
  induction lines using List.reverseRecOn with
  | nil => rfl
  | append_singleton lines line ih =>
    have hempty := (describes_ofLines session lines).isEmpty_pending
    rw [ofLines_concat, Shell.taken_concat, ← ih, Journal.add, Shell.takes, hempty]
    by_cases hend : line = Shell.endMark
    · cases hwaiting : (ofLines lines).waiting.isEmpty <;> simp [hend]
    · cases (ofLines lines).waiting.isEmpty <;>
        cases Shell.isLeave line || (Text.strip line).isEmpty <;> simp [hend, lines_take]

/-! ## Where a batch ends -/

/-- Lines are held back one after another: the first few of them leave a block open, however many
these are. -/
def AreOpen (lines : List String) : Prop :=
  ∀ first, first ≠ [] → first <+: lines → 0 < Shell.openBlocks (linesOf first)

theorem AreOpen.concat {lines : List String} {line : String} (hopen : AreOpen lines)
    (hlast : 0 < Shell.openBlocks (linesOf (lines ++ [line]))) : AreOpen (lines ++ [line]) := by
  intro first hfirst hprefix
  rcases List.prefix_concat_iff.1 hprefix with rfl | hprefix
  · exact hlast
  · exact hopen first hfirst hprefix

/-- A batch ends where it should: it leaves a block open just if it was run at the end of the input,
and the first few of its lines leave one open if they are not all. -/
structure Batch.Sound (batch : Batch) : Prop where
  open_iff : 0 < Shell.openBlocks batch.source ↔ batch.atEnd = true
  held_back : ∀ first, first ≠ [] → first <+: batch.lines → first ≠ batch.lines →
    0 < Shell.openBlocks (linesOf first)

/-- The batches of a journal end where they should, and the lines that wait are held back. -/
structure Journal.Sound (journal : Journal) : Prop where
  batches : ∀ batch ∈ journal.batches, batch.Sound
  waiting : AreOpen journal.waiting

namespace Journal.Sound

variable {journal : Journal}

theorem run (h : journal.Sound) {more : List String} {atEnd : Bool}
    (hbatch : Batch.Sound ⟨journal.waiting ++ more, atEnd⟩) : (journal.run more atEnd).Sound := by
  refine ⟨?_, ?_⟩
  · intro batch hmem
    rcases List.mem_append.1 hmem with hmem | hmem
    · exact h.batches batch hmem
    · rw [List.mem_singleton.1 hmem]
      exact hbatch
  · intro first hfirst hprefix
    exact absurd (List.prefix_nil.1 hprefix) hfirst

theorem take (h : journal.Sound) (line : String) : (journal.take line).Sound := by
  rw [Journal.take]
  split
  · rename_i hopen
    exact ⟨h.batches, h.waiting.concat hopen⟩
  · rename_i hclosed
    refine h.run ⟨?_, ?_⟩
    · simpa [Batch.source] using hclosed
    · intro first hfirst hprefix hproper
      rcases List.prefix_concat_iff.1 hprefix with hall | hprefix
      · exact absurd hall hproper
      · exact h.waiting first hfirst hprefix

/-- At the end of the input all lines that wait are run, though they leave a block open. -/
theorem finish (h : journal.Sound) (hwaiting : journal.waiting ≠ []) :
    (journal.run [] true).Sound := by
  refine h.run ⟨?_, ?_⟩
  · simpa [Batch.source] using h.waiting journal.waiting hwaiting (List.prefix_refl _)
  · intro first hfirst hprefix _
    exact h.waiting first hfirst (by simpa using hprefix)

/-- The step: a line keeps a journal sound. -/
theorem add (h : journal.Sound) (line : String) : (journal.add line).Sound := by
  rw [Journal.add]
  split
  · split
    · exact h
    · rename_i hwaiting
      exact h.finish (by simpa using hwaiting)
  · split
    · exact h
    · exact h.take line

end Journal.Sound

/-- The run: the journal of any lines is sound. -/
theorem Journal.sound_ofLines (lines : List String) : (ofLines lines).Sound := by
  induction lines using List.reverseRecOn with
  | nil =>
    refine ⟨by simp [ofLines], ?_⟩
    intro first hfirst hprefix
    exact absurd (List.prefix_nil.1 hprefix) hfirst
  | append_singleton lines line ih =>
    rw [ofLines_concat]
    exact ih.add line

/-! ## The main statement -/

/-- A shell neither loses nor repeats a line, and keeps their order. Whatever lines it is fed, the
sources of their journal are those that it has run, and with what is held back they are the lines
that were taken. A line makes at most one source run. A source that was run by another line than the
end of the input leaves no block open, though the first few of its lines do; what is held back
leaves one open; and the errors held are those of the source run last. -/
theorem shell_keeps_lines (session : Session) (lines : List String) :
    let fed := (Shell.start session).feedAll lines
    let journal := Journal.ofLines lines
    (fed.1.session, fed.2) = session.runAll journal.sources ∧
      String.join journal.sources ++ fed.1.pending =
        linesOf ((Shell.start session).taken lines) ∧
      (∀ line, (Journal.ofLines (lines ++ [line])).batches = journal.batches ∨
        ∃ batchLines, (Journal.ofLines (lines ++ [line])).batches =
          journal.batches ++ [⟨batchLines, decide (line = Shell.endMark)⟩]) ∧
      (∀ batch ∈ journal.batches,
        (batch.atEnd = false → Shell.openBlocks batch.source ≤ 0) ∧
        ∀ first, first ≠ [] → first <+: batch.lines → first ≠ batch.lines →
          0 < Shell.openBlocks (linesOf first)) ∧
      (fed.1.pending = "" ∨ 0 < Shell.openBlocks fed.1.pending) ∧
      (journal.sources = [] → fed.1.session.held = session.held) ∧
      ∀ earlier source, journal.sources = earlier ++ [source] →
        fed.1.session.held =
          reportsOf ((session.runAll earlier).1.reset.run source).events := by
  intro fed journal
  have hshell : journal.Describes session fed.1 fed.2 := Journal.describes_ofLines session lines
  have hsound : journal.Sound := Journal.sound_ofLines lines
  refine ⟨hshell.run, ?_, ?_, ?_, ?_, ?_, ?_⟩
  · rw [hshell.pending, journal.join_sources, Journal.lines_ofLines session lines]
  · intro line
    rw [Journal.ofLines_concat]
    exact journal.batches_add line
  · intro batch hbatch
    refine ⟨fun hnormal => ?_, (hsound.batches batch hbatch).held_back⟩
    have hclosed : ¬ 0 < Shell.openBlocks batch.source := by
      rw [(hsound.batches batch hbatch).open_iff, hnormal]
      exact Bool.false_ne_true
    exact Int.not_lt.1 hclosed
  · rw [hshell.pending]
    by_cases hwaiting : journal.waiting = []
    · exact Or.inl (by rw [hwaiting]; rfl)
    · exact Or.inr (hsound.waiting journal.waiting hwaiting (List.prefix_refl _))
  · intro hnone
    have hrun := hshell.run
    rw [hnone, Session.runAll] at hrun
    rw [(Prod.mk.inj hrun).1]
  · intro earlier source hlast
    have hrun := hshell.run
    rw [hlast, Session.runAll_concat] at hrun
    rw [(Prod.mk.inj hrun).1, Session.held_reset_run]

end Lox
