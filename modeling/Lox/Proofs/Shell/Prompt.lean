import Lox.Proofs.Shell.Journal

/-!
# What the prompt tells

The prompt that asks for more of an unfinished statement is shown while lines are held back. It is
also shown after an end of the input that found lines held back: they are run and wait no longer, but
the prompt stays as it was until the next source is run. What is shown is thus told by the journal of
the shell, and `prompt_tells_of_waiting_lines` says that there is no other case.
-/

namespace Lox

/-- Whether the source run last was cut off by the end of the input. -/
def Journal.endsCutOff (journal : Journal) : Bool :=
  journal.batches.getLast?.any Batch.atEnd

def Journal.prompt (journal : Journal) : Prompt :=
  if journal.waiting.isEmpty && !journal.endsCutOff then .main else .more

namespace Journal

variable {journal : Journal}

theorem prompt_of_waiting (hwaiting : journal.waiting.isEmpty = false) : journal.prompt = .more := by
  rw [prompt, hwaiting]
  rfl

/-- After a run, the prompt tells whether the end of the input made it. -/
theorem prompt_run (more : List String) (atEnd : Bool) :
    (journal.run more atEnd).prompt = if atEnd then .more else .main := by
  have hlast : (journal.run more atEnd).endsCutOff = atEnd := by
    rw [endsCutOff, run, List.getLast?_concat]
    rfl
  rw [prompt, hlast]
  cases atEnd <;> rfl

namespace Describes

variable {session : Session} {shell : Shell} {answers : List Event}

theorem prompt_finish (h : journal.Describes session shell answers)
    (hprompt : shell.prompt = journal.prompt) :
    shell.finish.shell.prompt = (journal.add Shell.endMark).prompt := by
  rw [Journal.add, if_pos rfl, Shell.finish, h.isEmpty_pending]
  cases hwaiting : journal.waiting.isEmpty with
  | true => exact hprompt
  | false =>
    -- The lines that waited are run, and the prompt is left alone.
    change shell.prompt = (journal.run [] true).prompt
    rw [hprompt, prompt_of_waiting hwaiting, prompt_run]
    rfl

theorem prompt_accept (h : journal.Describes session shell answers) (line : String) :
    (shell.accept line).shell.prompt = (journal.take line).prompt := by
  have hsource : shell.pending ++ line ++ "\n" = linesOf (journal.waiting ++ [line]) := by
    rw [linesOf_concat, h.pending]
  simp only [Journal.take, Shell.accept, hsource]
  split
  · rw [prompt_of_waiting]
    simp
  · rw [prompt_run]
    rfl

/-- The step: a line does to the prompt what it does to that of the journal. -/
theorem prompt_feed (h : journal.Describes session shell answers)
    (hprompt : shell.prompt = journal.prompt) (line : String) :
    (shell.feed line).shell.prompt = (journal.add line).prompt := by
  by_cases hend : line = Shell.endMark
  · subst hend
    exact h.prompt_finish hprompt
  · simp only [Journal.add, Shell.feed, hend, if_false, h.isEmpty_pending]
    cases hwaiting : journal.waiting.isEmpty with
    | false => exact h.prompt_accept line
    | true =>
      cases Shell.isLeave line
      · cases (Text.strip line).isEmpty
        · exact h.prompt_accept line
        · exact hprompt
      · exact hprompt

end Describes

/-- The run: after any lines, the prompt is that of their journal. -/
theorem prompt_ofLines (session : Session) (lines : List String) :
    ((Shell.start session).feedAll lines).1.prompt = (ofLines lines).prompt := by
  induction lines using List.reverseRecOn with
  | nil => rfl
  | append_singleton lines line ih =>
    rw [ofLines_concat, Shell.feedAll_concat]
    exact (describes_ofLines session lines).prompt_feed ih line

end Journal

/-- Whatever lines a shell is fed, it shows the continuation prompt just if lines are held back or
the source that was run last was cut off by the end of the input. -/
theorem prompt_tells_of_waiting_lines (session : Session) (lines : List String) :
    let shell := ((Shell.start session).feedAll lines).1
    shell.prompt.text = ". " ↔
      shell.pending ≠ "" ∨
        ∃ batch, (Journal.ofLines lines).batches.getLast? = some batch ∧ batch.atEnd = true := by
  intro shell
  have hshell : (Journal.ofLines lines).Describes session shell _ :=
    Journal.describes_ofLines session lines
  have hprompt : shell.prompt = (Journal.ofLines lines).prompt :=
    Journal.prompt_ofLines session lines
  have htext : shell.prompt.text = ". " ↔ shell.prompt = .more := by
    cases shell.prompt <;> decide
  have hpending : shell.pending ≠ "" ↔ (Journal.ofLines lines).waiting.isEmpty = false := by
    rw [← hshell.isEmpty_pending, ← Bool.not_eq_true, String.isEmpty_iff]
  have hcut : (∃ batch, (Journal.ofLines lines).batches.getLast? = some batch ∧
      batch.atEnd = true) ↔ (Journal.ofLines lines).endsCutOff = true := by
    rw [Journal.endsCutOff, Option.any_eq_true]
  rw [htext, hpending, hcut, hprompt, Journal.prompt]
  cases (Journal.ofLines lines).waiting.isEmpty <;>
    cases (Journal.ofLines lines).endsCutOff <;> decide

/-- After the end of the input the continuation prompt is shown though nothing is held back. -/
theorem prompt_lingers_after_end :
    ¬∀ session lines, ((Shell.start session).feedAll lines).1.prompt.text = ". " ↔
      ((Shell.start session).feedAll lines).1.pending ≠ "" := by
  intro hclaim
  have hshown : ((Shell.start (Session.fresh 0)).feedAll ["\x7b", "EOF"]).1.prompt.text = ". " := by
    decide +kernel
  have hpending : ((Shell.start (Session.fresh 0)).feedAll ["\x7b", "EOF"]).1.pending = "" := by
    decide +kernel
  exact (hclaim _ _).1 hshown hpending

end Lox
