import Lox.Proofs.Decimal.Sign
import Lox.Proofs.Decimal.Spelling
import Lox.Proofs.Expression.Session
import Lox.Proofs.Lookahead.Expression
import Lox.Proofs.Scan.Rendering

/-!
# Displayed values read back

What is printed of a number, a boolean or `nil` is an expression: a single lexeme, or a minus in front
of the lexeme of a number. It is worth the value that was printed, bit for bit. A number is printed
without an exponent, and its text denotes the same decimal as the shortest one in data does.
-/

namespace Lox

open Lox.Parser Piece Lox.Computation Lox.Action

/-! ## Texts of one operand -/

/-- A text is scanned and parsed as an expression without errors. -/
structure ParsesTo (text : List Char) (node : Node) : Prop where
  errors : (scan (String.ofList text)).errors = []
  parsed : parseExpression nestingLimit (scan (String.ofList text)).tokens = .ok node

/-- The token of a minus at the front of a text. -/
def signToken : Token :=
  ⟨.minus, .str "-", .null, 1⟩

/-- A minus in front of a digit is a mark of its own. -/
theorem pieces_minus {digit : Char} (hdigit : digit.isDigit = true) (rest : List Char) :
    pieces ('-' :: digit :: rest) = lexeme .minus ['-'] :: pieces (digit :: rest) := by
  have hequal : digit ≠ '=' := by
    rintro rfl
    cases hdigit
  have hcut : cutMark '-' (digit :: rest) = (lexeme .minus ['-'], digit :: rest) := by
    simp [cutMark, hequal, mark?]
  have hminus : mark? '-' = some .minus := rfl
  rw [pieces_cons, cut_mark _ hminus, hcut]

section Operand

variable {tokens : List Token} {node : Node} {text : List Char}

theorem chain_of_end {isOperator : Kind → Bool} {operand : ExprParser Node}
    (hoperand : operand tokens = .ok node []) : chain isOperator operand tokens = .ok node [] := by
  rw [chain_eq_bind, bind_of_ok hoperand]
  rfl

/-- An operand that nothing follows is an expression. -/
theorem parsesTo_of_unary (herrors : gather error? [] (pieces text) = [])
    (htokens : gather token? [] (pieces text) = tokens)
    (hunary : unary (998 + 1) tokens = .ok node []) : ParsesTo text node := by
  have hsource : sourceTokens (String.ofList text) = tokens := by
    rw [sourceTokens, String.toList_ofList, htokens]
  have hequality : equality (unary (998 + 1)) tokens = .ok node [] :=
    chain_of_end (chain_of_end (chain_of_end (chain_of_end hunary)))
  have hexpression : expression nestingLimit tokens = .ok node [] := by
    have hlimit : nestingLimit = 998 + 1 + 1 := rfl
    rw [expression, hlimit, assignment_eq_bind, bind_of_ok hequality]
    exact assignmentTail_of_stop node rfl
  refine ⟨?_, ?_⟩
  · rw [scan_errors, String.toList_ofList, herrors]
  · have hinput : expression nestingLimit (beforeEnd (scan (String.ofList text)).tokens).1 =
        .ok node [] := by
      rw [beforeEnd_fst, takeWhile_scan_tokens, hsource, hexpression]
    simp only [parseExpression, hinput]

/-- A lexeme that is a leaf is an expression. -/
theorem parsesTo_lexeme {l : Lexeme} (hleaf : leaf? (l.token 1) = some node) :
    ParsesTo l.text node := by
  have hpieces : pieces l.text = [lexeme l.kind l.text] := l.valid.spelled.pieces_text
  refine parsesTo_of_unary ?_ ?_ (unary_of_leaf hleaf [])
  · rw [hpieces]
    rfl
  · rw [hpieces, gather_cons, l.token?_eq]
    rfl

/-- So is a minus in front of one that begins with a digit. -/
theorem parsesTo_minus {l : Lexeme} {digit : Char} {rest : List Char}
    (htext : l.text = digit :: rest) (hdigit : digit.isDigit = true)
    (hleaf : leaf? (l.token 1) = some node) :
    ParsesTo ('-' :: l.text) (.unary (.token signToken) node) := by
  have hlexeme : pieces l.text = [lexeme l.kind l.text] := l.valid.spelled.pieces_text
  have hpieces : pieces ('-' :: l.text) = [lexeme .minus ['-'], lexeme l.kind l.text] := by
    rw [htext, pieces_minus hdigit, ← htext, hlexeme]
  have hunary : unary (998 + 1) [signToken, l.token 1] =
      .ok (.unary (.token signToken) node) [] := by
    rw [unary_of_operator rfl, bind_of_ok (unary_of_leaf hleaf [])]
    rfl
  refine parsesTo_of_unary ?_ ?_ hunary
  · rw [hpieces]
    rfl
  · rw [hpieces, gather_cons, gather_cons, l.token?_eq]
    rfl

end Operand

/-! ## Worth -/

/-- An expression is worth a value whatever the scopes are, and leaves them alone. -/
def IsWorth (node : Node) (value : Value) : Prop :=
  ∀ setting machine, ∃ after, evaluate setting nestingLimit node machine = .ok value after ∧
    after.scopes = machine.scopes ∧ shown after.log = shown machine.log

theorem traced_of_ok {setting : Setting} {node : Node} {evaluation : Action Value} {value : Value}
    {machine after : Machine} (hrun : evaluation machine = .ok value after) :
    ∃ after', traced setting node evaluation machine = .ok value after' ∧
      after'.scopes = after.scopes ∧ shown after'.log = shown after.log := by
  rw [traced, bind_of_ok hrun]
  exact ⟨_, rfl, Machine.trace_scopes .., Machine.shown_trace ..⟩

theorem isWorth_literal (value : Value) : IsWorth (.literal value) value := fun setting machine =>
  @traced_of_ok setting (.literal value) (pure value) value machine machine rfl

theorem isWorth_minus (x : Float) :
    IsWorth (.unary (.token signToken) (.literal (.number x))) (.number (-x)) := by
  intro setting machine
  obtain ⟨inner, hinner, hscopes, hshown⟩ :=
    @traced_of_ok setting (.literal (.number x)) (pure (.number x)) _ machine machine rfl
  have hliteral : evaluate setting (998 + 1) (.literal (.number x)) machine =
      .ok (.number x) inner := hinner
  have hlimit : nestingLimit = 998 + 1 + 1 := rfl
  have hnegated : (evaluate setting (998 + 1) (.literal (.number x)) >>= fun operand =>
      tokenIn "kind" (.token signToken) >>= fun operator =>
        ofExcept (applyUnary operator operand)) machine = .ok (.number (-x)) inner := by
    rw [bind_of_ok hliteral]
    rfl
  obtain ⟨after, hafter, hscopes', hshown'⟩ :=
    @traced_of_ok setting (.unary (.token signToken) (.literal (.number x))) _ _ _ _ hnegated
  rw [hlimit, evaluate_unary]
  exact ⟨after, hafter, hscopes'.trans hscopes, hshown'.trans hshown⟩

/-- A session evaluates a text to a value, and does nothing else. -/
structure Session.ReadsAs (session : Session) (source : String) (value : Value) : Prop where
  value_eq : (session.evaluate source).2 = some value
  ending_eq : (session.evaluate source).1.ending = .finished
  reports_eq : reportsOf (session.evaluate source).1.events = []
  session_eq : (session.evaluate source).1.session = session

theorem ParsesTo.readsAs {text : List Char} {node : Node} {value : Value}
    (hparses : ParsesTo text node) (hworth : IsWorth node value) (session : Session) :
    session.ReadsAs (String.ofList text) value := by
  obtain ⟨after, hrun, hscopes, hshown⟩ := hworth session.setting ⟨[session.globals], []⟩
  have hevaluate : session.evaluate (String.ofList text) =
      (⟨session.after after after.log.reverse, after.log.reverse, .finished⟩, some value) := by
    rw [evaluate_of_parsed hparses.errors hparses.parsed, Session.evaluateNode,
      Session.evaluateNodeUnder, hrun]
  have hreports : reportsOf after.log.reverse = [] := by
    rw [reportsOf_reverse, hshown]
    rfl
  refine ⟨by rw [hevaluate], by rw [hevaluate], by rw [hevaluate, hreports], ?_⟩
  rw [hevaluate, Session.after, hscopes, hreports, List.append_nil]
  rfl

/-! ## Numbers -/

/-- A spelling without an exponent is a lexeme, the literal of its value. -/
theorem Spelling.exists_lexeme {s : Spelling} (hexponent : s.exponent = none) :
    ∃ l : Lexeme, l.text = s.text ∧
      leaf? (l.token 1) = some (.literal (.number s.decimal.toFloat)) := by
  rw [s.text_of_exponent hexponent, s.decimal_of_exponent hexponent, fractionText]
  by_cases hfraction : s.fraction = []
  · refine ⟨⟨_, _, _, .integer s.whole_ne s.whole_isDigit⟩, ?_, ?_⟩
    · rw [if_pos hfraction, List.append_nil]
    · rw [hfraction]
      rfl
  · refine ⟨⟨_, _, _, .fraction s.whole_ne s.whole_isDigit hfraction s.fraction_isDigit⟩, ?_, rfl⟩
    rw [if_neg hfraction]

/-- A text of digits, behind a minus if there is one, reads as the number that it spells. -/
theorem readsAs_spelling (session : Session) {s : Spelling} (hexponent : s.exponent = none) :
    session.ReadsAs (String.ofList s.text) (.number s.decimal.toFloat) ∧
      session.ReadsAs (String.ofList ('-' :: s.text)) (.number (-s.decimal.toFloat)) := by
  obtain ⟨l, htext, hleaf⟩ := s.exists_lexeme hexponent
  obtain ⟨digit, digits, hwhole⟩ := List.exists_cons_of_ne_nil s.whole_ne
  have hdigit : digit.isDigit = true := s.whole_isDigit digit (hwhole ▸ List.mem_cons_self)
  have hstarts : l.text = digit :: (digits ++ s.fractionText) := by
    rw [htext, s.text_of_exponent hexponent, hwhole, List.cons_append]
  rw [← htext]
  exact ⟨(parsesTo_lexeme hleaf).readsAs (isWorth_literal _) session,
    (parsesTo_minus hstarts hdigit hleaf).readsAs (isWorth_minus _) session⟩

/-! ## Reading back -/

/-- The values that are displayed as expressions: finite numbers, booleans and `nil`. -/
inductive Value.IsPlain : Value → Prop where
  | number {x : Float} (hx : x.isFinite = true) : IsPlain (.number x)
  | boolean (b : Bool) : IsPlain (.boolean b)
  | nil : IsPlain .nil

/-- A reserved word that is a leaf reads as the value of this leaf. -/
theorem readsAs_reserved (session : Session) {kind : Kind} {value : Value}
    (hkind : kind ∈ Kind.marks ++ Kind.reserved)
    (hleaf : leaf? ⟨kind, .str (String.ofList kind.text.toList), .null, 1⟩ = some (.literal value)) :
    session.ReadsAs kind.text value := by
  have hparses := @parsesTo_lexeme _ ⟨kind, _, _, .fixed hkind⟩ hleaf
  have hreads := hparses.readsAs (isWorth_literal value) session
  rwa [String.ofList_toList] at hreads

/-- What is displayed of a finite number: its sign and a spelling without an exponent, of the value of
the shortest decimal of its size. -/
theorem exists_displayed {x : Float} {n : Nat} (hx : x.isFinite = true) (hsize : IsSize x n) :
    ∃ s : Spelling, s.exponent = none ∧ s.fraction.getLast? ≠ some '0' ∧
      (Value.number x).display.toList = signText x ++ s.text ∧
      s.decimal.value = (Decimal.shortest (Float.ofBits n.toUInt64)).value := by
  obtain ⟨s, hexponent, hlast, htext, hvalue⟩ :=
    @NumberLayout.exists_positional_spelling Value.printLayout n (fun _ => rfl) rfl hsize.lt
  refine ⟨s, hexponent, hlast, ?_, hvalue⟩
  rw [htext, ← hsize.magnitudeText, ← Value.printLayout.toList_write hx, Value.display]

theorem readsAs_display (session : Session) {v : Value} (hv : v.IsPlain) :
    session.ReadsAs v.display v := by
  cases hv with
  | boolean b =>
    cases b
    · exact readsAs_reserved session (by decide : Kind.falseWord ∈ _) rfl
    · exact readsAs_reserved session (by decide : Kind.trueWord ∈ _) rfl
  | nil => exact readsAs_reserved session (by decide : Kind.nilWord ∈ _) rfl
  | @number x hx =>
    obtain ⟨n, hsize⟩ := exists_size hx
    obtain ⟨s, hexponent, -, htext, hvalue⟩ := exists_displayed hx hsize
    obtain ⟨hplain, hminus⟩ := readsAs_spelling session hexponent
    rw [NumberLayout.toFloat_of_value hsize.lt hvalue] at hplain hminus
    have hdisplay : (Value.number x).display = String.ofList (signText x ++ s.text) := by
      rw [← htext, String.ofList_toList]
    rcases hsize.sign with ⟨hsign, hfloat⟩ | ⟨hsign, hfloat⟩
    · rw [hdisplay, hsign, hfloat]
      exact hplain
    · rw [hdisplay, hsign, hfloat]
      exact hminus

/-- Displayed values read back. What is displayed of a finite number, of a boolean or of `nil` is
evaluated to this value by every session, without an error and without a change to the session. For
a number it is a minus if the sign bit is set and digits with or without a point, never with an
exponent and never with a point zero at the end, and denotes exactly the decimal that the number is
written with in data. -/
theorem display_reads_back (session : Session) {v : Value} (hv : v.IsPlain) :
    session.ReadsAs v.display v ∧
    ∀ x, v = .number x → ∃ s r : Spelling,
      v.display.toList = signText x ++ s.text ∧ s.exponent = none ∧
      ¬ ['.', '0'] <:+ v.display.toList ∧
      (Json.float x).inspect.toList = signText x ++ r.text ∧ r.IsFloat ∧
      s.decimal.value = r.decimal.value := by
  refine ⟨readsAs_display session hv, ?_⟩
  rintro x rfl
  cases hv with
  | number hx =>
    obtain ⟨n, hsize⟩ := exists_size hx
    obtain ⟨s, hexponent, hlast, htext, hvalue⟩ := exists_displayed hx hsize
    obtain ⟨r, hfloat, htext', hvalue'⟩ :=
      @NumberLayout.spells_magnitudeText Json.dataLayout n rfl hsize.lt
    refine ⟨s, r, htext, hexponent, ?_, ?_, hfloat, hvalue.trans hvalue'.symm⟩
    · rw [htext]
      exact s.not_pointZero_suffix hexponent hlast (point_not_mem_signText x)
    · rw [htext', ← hsize.magnitudeText, ← Json.dataLayout.toList_write hx, Json.inspect]

/-- The number `-1e22`, which is displayed with all its zeros. -/
theorem display_reads_back_manyZeros :
    let v := Value.number (Float.ofBits 0xC480F0CF064DD592)
    v.display = "-10000000000000000000000" ∧
      (Session.fresh 0).ReadsAs "-10000000000000000000000" v ∧
      ∃ s r : Spelling, "-10000000000000000000000".toList = '-' :: s.text ∧ s.exponent = none ∧
        "-1e+22".toList = '-' :: r.text ∧ r.IsFloat ∧ s.decimal.value = r.decimal.value := by
  have hplain : (Value.number (Float.ofBits 0xC480F0CF064DD592)).IsPlain :=
    .number (by decide +kernel)
  have hdisplay : (Value.number (Float.ofBits 0xC480F0CF064DD592)).display =
      "-10000000000000000000000" := by decide +kernel
  have hinspect : (Json.float (Float.ofBits 0xC480F0CF064DD592)).inspect = "-1e+22" := by
    decide +kernel
  have hsign : signText (Float.ofBits 0xC480F0CF064DD592) = ['-'] := by decide +kernel
  obtain ⟨hreads, hspelled⟩ := display_reads_back (Session.fresh 0) hplain
  obtain ⟨s, r, htext, hexponent, -, htext', hfloat, hvalue⟩ := hspelled _ rfl
  rw [hdisplay] at hreads htext
  rw [hsign] at htext htext'
  rw [hinspect] at htext'
  exact ⟨hdisplay, hreads, s, r, htext, hexponent, htext', hfloat, hvalue⟩

end Lox
