import Lox.Session
import Lox.Proofs.Relocation.Parser
import Lox.Proofs.Relocation.Run
import Lox.Proofs.Relocation.Scan

/-!
# Sessions compose

Running two source texts one after the other in a session is running the one text in which they are
joined by a newline. The newline ends every token of the first text, the statements of the second one
cannot begin with an `else`, so that the trees are those of both texts, and what the first run leaves
for the second are the global variables alone.
-/

namespace Lox

open Lox.Parser

/-- Two texts without errors, joined by a newline: the statements of the first, and those of the
second further down. -/
theorem Program.ofSource_join {first second : String} (hfirst : (ofSource first).errors = [])
    (hsecond : (ofSource second).errors = []) :
    ofSource (first ++ "\n" ++ second) =
      ⟨(ofSource first).statements ++
        (ofSource second).statements.map (Node.moved (linesAbove first)), []⟩ := by
  obtain ⟨hscan, hparse⟩ := List.append_eq_nil_iff.1 hfirst
  obtain ⟨hscan', hparse'⟩ := List.append_eq_nil_iff.1 hsecond
  rw [List.map_eq_nil_iff] at hscan hparse hscan' hparse'
  have hlast : (Token.endAt (Piece.lineAfter first.toList)).kind = .eof := rfl
  rw [scan_tokens] at hparse
  have hjoined := parse_join (linesAbove first) (fun _ => kind_ne_eof_of_mem_sourceTokens) hlast
    hparse hparse'
  rw [← scan_tokens] at hjoined
  rw [ofSource, under, scan_join hscan, hscan', hjoined]
  rfl

/-! ## The machine behind a run -/

namespace Session

def machineAfter (session : Session) (source : String) : Machine :=
  (interpret session.setting nestingLimit (Program.ofSource source).statements
    ⟨[session.globals], []⟩).2

section

variable (session : Session) (source : String)

/-- A run leaves the global scope and no other one. -/
theorem scopes_machineAfter :
    (session.machineAfter source).scopes = [(session.run source).session.globals] := by
  have hlength : (session.machineAfter source).scopes.length = 1 :=
    (interpret_extends session.setting nestingLimit _ (List.cons_ne_nil _ [])).depth
  obtain ⟨globals, hscopes⟩ := List.length_eq_one_iff.1 hlength
  have hglobals : (session.run source).session.globals =
      (session.machineAfter source).scopes.getLastD session.globals := rfl
  rw [hglobals, hscopes]
  rfl

variable {source} in
theorem shown_run (herrors : (Program.ofSource source).errors = []) :
    shown (session.run source).events = (shown (session.machineAfter source).log).reverse := by
  rw [run, runWithin, runUnder, herrors]
  exact shown_reverse _

end

end Session

/-- Take any session and any two source texts without errors, whose runs come to an end, the second
one without nesting that is too deep. The run of both texts joined by a newline prints what the two
runs print one after the other, leaves the same global variables, and reports the same errors in the
same order, those of the second text as many lines further down as the first text and the newline
take. -/
theorem session_composes (session : Session) (first second : String)
    (hfirst : (Program.ofSource first).errors = []) (hsecond : (Program.ofSource second).errors = [])
    (hends : (session.run first).ending = .finished)
    (hends' : ((session.run first).session.run second).ending = .finished)
    (hdeep : ∀ line, .runtime (.nestingTooDeep line) ∉
      reportsOf ((session.run first).session.run second).events) :
    (session.run (first ++ "\n" ++ second)).ending = .finished ∧
    outputOf (session.run (first ++ "\n" ++ second)).events =
      outputOf (session.run first).events ++
        outputOf ((session.run first).session.run second).events ∧
    (session.run (first ++ "\n" ++ second)).session.globals =
      ((session.run first).session.run second).session.globals ∧
    reportsOf (session.run (first ++ "\n" ++ second)).events =
      reportsOf (session.run first).events ++
        (reportsOf ((session.run first).session.run second).events).map
          (Diagnostic.moved (first.toList.count '\n' + 1)) := by
  have hprogram := Program.ofSource_join hfirst hsecond
  have hjoined : (Program.ofSource (first ++ "\n" ++ second)).errors = [] := by rw [hprogram]
  have hscopes := session.scopes_machineAfter first
  have hrun : interpret session.setting nestingLimit
      (Program.ofSource (first ++ "\n" ++ second)).statements ⟨[session.globals], []⟩ =
        interpret session.setting nestingLimit
          ((Program.ofSource second).statements.map (Node.moved (linesAbove first)))
          (session.machineAfter first) := by
    rw [hprogram]
    exact interpret_append _ _ hends
  have hshallow : ∀ line, .reported (.runtime (.nestingTooDeep line)) ∉
      shown ((session.run first).session.machineAfter second).log := by
    intro line hmem
    apply hdeep line
    rw [← reportsOf_shown, Session.shown_run _ hsecond]
    exact List.mem_filterMap.2 ⟨_, List.mem_reverse.2 hmem, rfl⟩
  obtain ⟨hending, halike⟩ := interpret_moved session.setting nestingLimit (linesAbove first)
    (List.cons_ne_nil _ []) hscopes hshallow
  -- the machine of the joined run, by what it shares with those of the two runs
  rw [← hrun] at hending halike
  have hevents : shown (session.run (first ++ "\n" ++ second)).events =
      shown (session.run first).events ++
        (shown ((session.run first).session.run second).events).map
          (Event.moved (linesAbove first)) := by
    obtain ⟨events, hlog, hlog'⟩ := halike.log
    rw [Session.shown_run _ hjoined, Session.shown_run _ hfirst, Session.shown_run _ hsecond]
    rw [show shown (session.machineAfter _).log = _ from hlog',
      show shown ((session.run first).session.machineAfter second).log = _ from hlog]
    simp [shown]
  refine ⟨hending.trans hends', ?_, ?_, ?_⟩
  · rw [← outputOf_shown, hevents, outputOf_append, outputOf_moved, outputOf_shown, outputOf_shown]
  · have hglobals : (session.machineAfter (first ++ "\n" ++ second)).scopes =
        ((session.run first).session.machineAfter second).scopes := halike.scopes
    rw [Session.scopes_machineAfter, Session.scopes_machineAfter] at hglobals
    exact List.singleton_inj.1 hglobals
  · rw [← reportsOf_shown, hevents, reportsOf_append, reportsOf_moved, reportsOf_shown,
      reportsOf_shown]
    rfl

theorem not_tooDeep_of_messages {errors : List Diagnostic}
    (hmessages : Complaint.nesting.message ∉ errors.map Diagnostic.message) :
    ∀ line, .runtime (.nestingTooDeep line) ∉ errors :=
  fun _ hmem => hmessages (List.mem_map_of_mem hmem)

/-- A session that traces its runs and has one variable. -/
def tracedSession : Session := ⟨4, [("b", .string "kept")], []⟩

/-- Two lines, the second of which fails. -/
def failingLast : String := "var a = nil;\nprint b; a = -a;"

/-- Three lines that use a variable of the session; one fails. -/
def failingMiddle : String := "b = a;\nprint c;\nprint b;"

theorem session_composes_failing :
    (tracedSession.run (failingLast ++ "\n" ++ failingMiddle)).ending = .finished ∧
    outputOf (tracedSession.run (failingLast ++ "\n" ++ failingMiddle)).events =
      outputOf (tracedSession.run failingLast).events ++
        outputOf ((tracedSession.run failingLast).session.run failingMiddle).events ∧
    (reportsOf (tracedSession.run (failingLast ++ "\n" ++ failingMiddle)).events).map
      Diagnostic.line = [2, 4] := by
  have hfirst : (Program.ofSource failingLast).errors = [] :=
    List.isEmpty_iff.1 (by decide +kernel)
  have hsecond : (Program.ofSource failingMiddle).errors = [] :=
    List.isEmpty_iff.1 (by decide +kernel)
  obtain ⟨hending, houtput, -, hreports⟩ := session_composes tracedSession failingLast failingMiddle
    hfirst hsecond (by decide +kernel) (by decide +kernel) (not_tooDeep_of_messages (by decide +kernel))
  refine ⟨hending, houtput, ?_⟩
  rw [hreports]
  decide +kernel

end Lox
