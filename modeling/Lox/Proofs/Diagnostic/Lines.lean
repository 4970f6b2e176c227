import Mathlib.Algebra.GroupWithZero.Nat
import Lox.Proofs.Json.Lines
import Lox.Proofs.Parser.Found
import Lox.Proofs.Parser.Recovery
import Lox.Proofs.Run.Blame
import Lox.Proofs.Scope.Names

/-!
# The lines of reported errors

Every error is written under its heading and ended by a newline. What a message shows of a program
has no newline in it: a rejected character is quoted, and names and operators are single words and
marks. Only a complaint of the parser may show a string, and a string may span several lines. So a
run reports its errors on one line each, except that the newlines of such a string are written out
(`reports_break_at_strings`).
-/

namespace Lox

/-! ## Texts on one line -/

def OneLine (text : String) : Prop :=
  '\n' ∉ text.toList

instance (text : String) : Decidable (OneLine text) :=
  inferInstanceAs (Decidable ('\n' ∉ text.toList))

theorem OneLine.append {s t : String} (hs : OneLine s) (ht : OneLine t) : OneLine (s ++ t) := by
  rw [OneLine, String.toList_append, List.mem_append, not_or]
  exact ⟨hs, ht⟩

theorem Text.newline_not_mem_quotedChar {quote : Char} (hquote : quote ≠ '\n') (c : Char) :
    '\n' ∉ quotedChar quote c := by
  have hhex (width : Nat) : '\n' ∉ hexDigits width c.toNat :=
    not_mem_hexDigits (by decide) width c.toNat
  unfold quotedChar
  split
  · next hc =>
    simp only [Bool.or_eq_true, decide_eq_true_eq] at hc
    rcases hc with rfl | rfl
    · simpa using Ne.symm hquote
    · decide
  · split
    · decide
    · split
      · decide
      · next hnewline =>
        split
        · decide
        · split
          · simpa using Ne.symm hnewline
          · split
            · simpa using hhex 2
            · split
              · simpa using hhex 4
              · simpa using hhex 8

/-- A quoted text is on one line, whatever its characters are. -/
theorem Text.oneLine_quoted (s : String) : OneLine (quoted s) := by
  have hquote : enclosingQuote s.toList ≠ '\n' := by
    unfold enclosingQuote
    split <;> decide
  rw [OneLine, quoted, String.toList_ofList, quotedChars]
  simp only [List.cons_append, List.mem_cons, List.mem_append, List.mem_flatMap, List.not_mem_nil,
    or_false, not_or, not_exists, not_and]
  exact ⟨hquote.symm, fun c _ => newline_not_mem_quotedChar hquote c, hquote.symm⟩

theorem oneLine_int (n : Int) : OneLine (toString n) :=
  not_mem_int (by decide) (by decide) n

theorem Value.oneLine_typeName (value : Value) : OneLine value.typeName := by
  cases value <;> simp only [typeName, toJson, Json.typeName] <;> decide

theorem Complaint.oneLine_message (complaint : Complaint) : OneLine complaint.message := by
  cases complaint <;> decide

theorem ScanComplaint.oneLine_message (complaint : ScanComplaint) : OneLine complaint.message := by
  cases complaint with
  | character c =>
    have hfront : OneLine "Unexpected character " := by decide
    exact (hfront.append (Text.oneLine_quoted _)).append (by decide)
  | openString => decide

/-! ## Lexemes -/

/-- Only strings span lines. -/
theorem Piece.Spelled.newline_not_mem {kind : Kind} {text : List Char}
    (hspelled : (lexeme kind text).Spelled) (hkind : kind ≠ .string) : '\n' ∉ text := by
  have hmark {c : Char} {kind : Kind} (hmark : mark? c = some kind) : '\n' ≠ c := by
    rintro rfl
    cases (of_mark? hmark).1
  cases hspelled with
  | reserved hword | identifier hword => exact not_mem_of_isWord (by decide) hword
  | integer _ hall => exact fun hmem => absurd (hall _ hmem) (by decide)
  | fraction _ hall _ hall' =>
    intro hmem
    rcases List.mem_append.1 hmem with hmem | hmem
    · exact absurd (hall _ hmem) (by decide)
    · rcases List.mem_cons.1 hmem with hpoint | hmem
      · exact absurd hpoint (by decide)
      · exact absurd (hall' _ hmem) (by decide)
  | string => exact absurd rfl hkind
  | mark hkind => simpa using hmark hkind
  | markWithEqual hkind =>
    obtain ⟨single, hsingle⟩ := mark?_of_markWithEqual? hkind
    simpa using hmark hsingle

/-- A token that is written on one line, unless it is a string. -/
def Token.Unbroken (t : Token) : Prop :=
  t.kind ≠ .string → OneLine t.text

theorem unbroken_of_mem_sourceTokens {source : String} {t : Token}
    (hmem : t ∈ sourceTokens source) : t.Unbroken := by
  obtain ⟨text, hlexeme, hspelled⟩ := exists_lexeme_of_mem_sourceTokens hmem
  intro hkind
  rw [OneLine, Token.text, hlexeme, Json.display, String.toList_ofList]
  exact hspelled.newline_not_mem hkind

theorem unbroken_of_mem_scan {source : String} {t : Token} (hmem : t ∈ (scan source).tokens) :
    t.Unbroken := by
  rw [scan_tokens] at hmem
  rcases List.mem_append.1 hmem with hmem | hmem
  · exact unbroken_of_mem_sourceTokens hmem
  · rw [List.mem_singleton.1 hmem]
    exact fun _ => (by decide : OneLine "")

/-! ## Errors of a run -/

theorem Mismatch.Found.oneLine_message {mismatch : Mismatch} (hfound : mismatch.Found) :
    OneLine mismatch.message := by
  have hgot : OneLine "Operand must be a number, got " := by decide
  have hgotBoth : OneLine "Operands must be numbers, got " := by decide
  cases hfound with
  | notAddable | unknownUnary | unknownBinary => decide
  | operand value => exact (hgot.append value.oneLine_typeName).append (by decide)
  | operands left right =>
    have hleft := (hgotBoth.append left.oneLine_typeName).append (by decide : OneLine " and ")
    exact (hleft.append right.oneLine_typeName).append (by decide)

theorem oneLine_undefinedVariable {name : Token} (hname : OneLine name.text) :
    OneLine (RuntimeError.undefinedVariable name).message := by
  have hfront : OneLine "Undefined variable '" := by decide
  exact (hfront.append hname).append (by decide)

theorem oneLine_typeMismatch {operator : Token} {mismatch : Mismatch}
    (hoperator : OneLine operator.text) (hfound : mismatch.Found) :
    OneLine (RuntimeError.typeMismatch operator mismatch).message := by
  have hmessage := hfound.oneLine_message.append (by decide : OneLine " (operator '")
  exact (hmessage.append hoperator).append (by decide)

/-- A name or an operator of a tree from a source text. -/
theorem Token.Unbroken.oneLine_of_mem {t : Token} (ht : t.Unbroken) {kinds : List Kind}
    (hkind : t.kind ∈ kinds) (hkinds : .string ∉ kinds) : OneLine t.text :=
  ht fun hstring => hkinds (hstring ▸ hkind)

/-- In a tree whose names and operators are unbroken, every error that arises is told on one line. -/
theorem attributes_oneLine : Attributes fun node error =>
    node.IsPart Token.Unbroken (fun _ => True) → OneLine error.message where
  child hchild herror hnode := herror (hnode.of_child hchild)
  read t hnode := by
    cases hnode with
    | stmt hnode => nomatch hnode
    | expr hnode =>
      cases hnode with
      | varRef hkind ht => exact oneLine_undefinedVariable (ht (by simp [hkind]))
  assigned t value hnode := by
    cases hnode with
    | stmt hnode => nomatch hnode
    | expr hnode =>
      cases hnode with
      | assign hkind ht => exact oneLine_undefinedVariable (ht (by simp [hkind]))
  unary right herror hnode := by
    cases hnode with
    | stmt hnode => nomatch hnode
    | expr hnode =>
      cases hnode with
      | unary hkind ht =>
        obtain ⟨mismatch, hfound, rfl⟩ := applyUnary_blames herror
        exact oneLine_typeMismatch (ht.oneLine_of_mem hkind (by decide)) hfound
  binary left right herror hnode := by
    cases hnode with
    | stmt hnode => nomatch hnode
    | expr hnode =>
      cases hnode with
      | binary hkind ht =>
        rcases applyBinary_blames herror with ⟨mismatch, hfound, rfl⟩ | ⟨rfl, -⟩
        · exact oneLine_typeMismatch (ht.oneLine_of_mem hkind (by decide)) hfound
        · exact (by decide : OneLine "Division by zero.")

theorem RuntimeError.oneLine_name (error : RuntimeError) : OneLine error.name := by
  cases error <;> simp only [name] <;> decide

/-! ## Descriptions -/

def newlines (text : String) : Nat :=
  text.toList.count '\n'

@[simp] theorem newlines_append (s t : String) : newlines (s ++ t) = newlines s + newlines t := by
  simp [newlines]

theorem newlines_eq_zero {text : String} : newlines text = 0 ↔ OneLine text :=
  List.count_eq_zero

namespace Diagnostic

/-- The number of newlines that a description shows: those of the string that the parser complains
about. -/
def breaks : Diagnostic → Nat
  | parse fault => if fault.token.kind = .string then newlines fault.token.text else 0
  | _ => 0

theorem oneLine_lineTag (error : Diagnostic) : OneLine error.lineTag := by
  have hfront : OneLine "[line " := by decide
  exact (hfront.append (oneLine_int _)).append (by decide)

theorem newlines_describe_scan (error : ScanError) : newlines (scan error).describe = 0 :=
  newlines_eq_zero.2 ((oneLine_lineTag _).append error.complaint.oneLine_message)

theorem newlines_describe_runtime {error : RuntimeError} (hmessage : OneLine error.message) :
    newlines (runtime error).describe = 0 := by
  have htag := (oneLine_lineTag (runtime error)).append error.oneLine_name
  exact newlines_eq_zero.2 ((htag.append (by decide : OneLine ": ")).append hmessage)

/-- The description of a parse error shows the newlines of its token. -/
theorem newlines_describe_parse {fault : ParseError} (htoken : fault.token.Unbroken) :
    newlines (parse fault).describe = (parse fault).breaks := by
  have htag := newlines_eq_zero.2 (oneLine_lineTag (parse fault))
  have hmessage := newlines_eq_zero.2 fault.complaint.oneLine_message
  have hplace : newlines (if fault.token.kind = .eof then "at end"
      else "at '" ++ fault.token.text ++ "'") = (parse fault).breaks := by
    by_cases hend : fault.token.kind = .eof
    · rw [if_pos hend, breaks, if_neg (by rw [hend]; decide)]
      decide
    · have hquotes : newlines ("at '" ++ fault.token.text ++ "'") = newlines fault.token.text := by
        have hopens : newlines "at '" = 0 := by decide
        have hcloses : newlines "'" = 0 := by decide
        rw [newlines_append, newlines_append, hopens, hcloses, Nat.zero_add, Nat.add_zero]
      rw [if_neg hend, hquotes, breaks]
      split
      · rfl
      · next hkind => exact newlines_eq_zero.2 (htoken hkind)
  have herror : newlines "Error " = 0 := by decide
  have hcolon : newlines ": " = 0 := by decide
  simp only [describe, newlines_append, htag, hplace, herror, hcolon, Nat.zero_add, Nat.add_zero]
  exact Nat.add_left_cancel_iff.2 hmessage

/-- The heading of an error is written in front of its description. -/
theorem newlines_report (error : Diagnostic) :
    newlines (error.report false) = newlines error.describe := by
  have hheading : newlines (error.heading ++ " ") = 0 := by
    cases error <;> simp only [heading] <;> decide
  change newlines (error.heading ++ " " ++ error.describe) = _
  rw [newlines_append, hheading, Nat.zero_add]

end Diagnostic

/-! ## Lines -/

theorem toList_linesOf_cons (text : String) (texts : List String) :
    (linesOf (text :: texts)).toList = text.toList ++ '\n' :: (linesOf texts).toList := by
  simp [linesOf, String.toList_join]

theorem newlines_linesOf (texts : List String) :
    newlines (linesOf texts) = texts.length + (texts.map newlines).sum := by
  induction texts with
  | nil => decide
  | cons text texts ih =>
    have hcount : newlines (linesOf (text :: texts)) =
        newlines text + (newlines (linesOf texts) + 1) := by
      rw [newlines, toList_linesOf_cons, List.count_append, List.count_cons_self]
      rfl
    rw [hcount, ih, List.length_cons, List.map_cons, List.sum_cons]
    omega

theorem length_splitOn (c : Char) (cs : List Char) : (cs.splitOn c).length = cs.count c + 1 := by
  induction cs with
  | nil => rfl
  | cons d ds ih =>
    rw [List.splitOn_cons_eq_if_modifyHead, List.count_cons]
    split
    · rw [List.length_cons, ih]
    · rw [List.length_modifyHead, ih]

/-- Texts that are written as lines are these lines exactly if each of them is on one line. -/
theorem splitOn_linesOf {texts : List String} :
    (linesOf texts).toList.splitOn '\n' = texts.map String.toList ++ [[]] ↔
      ∀ text ∈ texts, newlines text = 0 := by
  refine ⟨fun hlines => ?_, fun hall => ?_⟩
  · have hlength := congrArg List.length hlines
    have hcount := newlines_linesOf texts
    rw [length_splitOn, ← newlines] at hlength
    rw [List.length_append, List.length_map, List.length_singleton] at hlength
    have hsum : (texts.map newlines).sum = 0 := by omega
    simpa using List.sum_eq_zero_iff_forall_eq_nat.1 hsum
  · induction texts with
    | nil => rfl
    | cons text texts ih =>
      obtain ⟨htext, hrest⟩ := List.forall_mem_cons.1 hall
      rw [toList_linesOf_cons, List.splitOn_append_cons_self_of_not_mem (newlines_eq_zero.1 htext),
        ih hrest]
      rfl

/-! ## Reports of a run -/

/-- The errors found while reading a source text show the newlines of the strings complained about. -/
theorem newlines_describe_source {source : String} {error : Diagnostic}
    (herror : error ∈ (Program.ofSource source).errors) :
    newlines error.describe = error.breaks := by
  rcases List.mem_append.1 herror with hscan | hparse
  · obtain ⟨error, -, rfl⟩ := List.mem_map.1 hscan
    exact Diagnostic.newlines_describe_scan error
  · obtain ⟨fault, hfault, rfl⟩ := List.mem_map.1 hparse
    apply Diagnostic.newlines_describe_parse
    have hlast : (beforeEnd (scan source).tokens).2 ∈ (scan source).tokens := by
      rw [scan_tokens, Parser.beforeEnd_append_last (fun _ => kind_ne_eof_of_mem_sourceTokens)
        (List.cons_ne_nil _ _)]
      exact List.mem_append_right _ List.mem_cons_self
    apply @unbroken_of_mem_scan source
    rcases token_of_mem_errors hfault with hmem | hend
    · rw [beforeEnd_fst] at hmem
      exact (List.takeWhile_prefix _).subset hmem
    · rwa [hend]

/-- The errors of running a source text show no newline. -/
theorem newlines_describe_run (setting : Setting) {source : String} {machine : Machine}
    {error : Diagnostic}
    (hmachine : machine.reports = [])
    (herror : error ∈
      (interpret setting nestingLimit (Program.ofSource source).statements machine).2.reports) :
    newlines error.describe = error.breaks := by
  obtain ⟨causes, hreports, hcauses⟩ := attributes_oneLine.reports_interpret setting nestingLimit
    (Program.ofSource source).statements machine
  rw [hreports, hmachine, List.nil_append] at herror
  obtain ⟨cause, hcause, rfl⟩ := List.mem_map.1 herror
  apply Diagnostic.newlines_describe_runtime
  obtain ⟨node, hnode, htold | rfl⟩ := hcauses cause hcause
  · have hliterals : Literals Token.Unbroken fun _ => True :=
      ⟨fun _ _ _ => trivial, fun _ => trivial, trivial⟩
    refine htold (.stmt ?_)
    exact parse_wellFormed hliterals nestingLimit (fun _ => unbroken_of_mem_scan) node hnode
  · exact Complaint.oneLine_message .nesting

/-- The errors that a run of a source text reports are written one after the other, each under its
heading and with its description. A description holds no newline but those of a string that the
parser complains about. So there is one line for each error exactly if no such string spans lines. -/
theorem reports_break_at_strings (session : Session) (inner : Scopes) (source : String) :
    let run := (session.runWithin inner (Program.ofSource source)).1
    let errors := reportsOf run.events
    errorsOf false run.events =
        linesOf (errors.map fun error => error.heading ++ " " ++ error.describe) ∧
      (∀ error ∈ errors, newlines error.describe = error.breaks) ∧
      newlines (errorsOf false run.events) = errors.length + (errors.map Diagnostic.breaks).sum ∧
      ((errorsOf false run.events).toList.splitOn '\n' =
          errors.map (fun error => (error.heading ++ " " ++ error.describe).toList) ++ [[]] ↔
        ∀ error ∈ errors, error.breaks = 0) := by
  intro run errors
  have hdescribe : ∀ error ∈ errors, newlines error.describe = error.breaks := by
    have hsplit : errors = (Program.ofSource source).errors ++
        (interpret session.setting nestingLimit (Program.ofSource source).statements
          ⟨inner ++ [session.globals], []⟩).2.reports := by
      change reportsOf ((Program.ofSource source).errors.map .reported ++ _) = _
      rw [reportsOf_append, reportsOf_map_reported]
      rfl
    intro error herror
    rw [hsplit] at herror
    exact (List.mem_append.1 herror).elim newlines_describe_source
      (newlines_describe_run session.setting rfl)
  have hreports : (errors.map (·.report false)).map newlines = errors.map Diagnostic.breaks := by
    rw [List.map_map]
    apply List.map_congr_left
    intro error herror
    exact error.newlines_report.trans (hdescribe error herror)
  refine ⟨rfl, hdescribe, ?_, ?_⟩
  · rw [errorsOf, newlines_linesOf, List.length_map, hreports]
  · have hlines := @splitOn_linesOf (errors.map (·.report false))
    rw [List.map_map, List.forall_mem_map] at hlines
    refine hlines.trans (forall₂_congr fun error herror => ?_)
    rw [error.newlines_report, hdescribe error herror]

/-- A string that spans two lines stands where a semicolon is missing: the one error that is reported
takes two lines. -/
theorem string_breaks_report : ¬ ∀ source : String,
    let events := ((Session.fresh 0).run source).events
    (errorsOf false events).toList.splitOn '\n' =
      (reportsOf events).map (fun error => (error.heading ++ " " ++ error.describe).toList) ++
        [[]] := by
  intro hall
  have hlines := hall "1 \"a\nb\";"
  revert hlines
  decide +kernel

end Lox
