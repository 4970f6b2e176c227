import Lox.Proofs.Parser.Composition
import Lox.Proofs.Parser.Loops

/-!
# Errors come in the order of the tokens

As long as no nesting is too deep, the parser reports each fault behind the one before it. A fault
need not be found where the parser stands: the equals sign of an invalid assignment lies behind the
value that was parsed after it. But the parser never stands in front of a fault that it has found,
and every recovery takes at least one token, so that it stands strictly behind all reports whenever
it goes on (`Ahead`). At the end of the tokens nothing is left to be taken, and what is reported
there again is that a block is not closed, at most once for each brace that opens one.
-/

namespace Lox

open Lox.Computation Grammar

namespace Parser

/-! ## Where an expression finds its faults -/

/-- A fault was found among the tokens given, the parser did not stop in front of it, and no closing
brace was missed. -/
def Blamed (base : List Token) (halt : Halt) (rest : List Token) : Prop :=
  ∀ fault, halt = .fault fault →
    rest <:+ fault.found ∧ fault.found <:+ base ∧ fault.complaint ≠ .braceAfterBlock

theorem blamed_next {base tokens : List Token} {complaint : Complaint} (htokens : tokens <:+ base)
    (hcomplaint : complaint ≠ .braceAfterBlock) :
    Blamed base (.fault ⟨tokens, complaint⟩) tokens := by
  rintro _ ⟨⟩
  exact ⟨List.suffix_rfl, htokens, hcomplaint⟩

/-- A parser takes tokens from the front, and finds its faults among them. -/
def Blames {α : Type} (base : List Token) (parser : ExprParser α) : Prop :=
  Triple (· <:+ base) parser (fun _ => (· <:+ base)) (Blamed base)

section Blames

variable {α β : Type} {base : List Token}

theorem Blames.bind {parser : ExprParser α} {next : α → ExprParser β}
    (hparser : Blames base parser) (hnext : ∀ a, Blames base (next a)) :
    Blames base (parser >>= next) :=
  Triple.bind hparser hnext

theorem blames_pure (a : α) : Blames base (pure a) :=
  fun _ hsuffix => hsuffix

theorem blames_tooDeep : Blames base (throw .tooDeep : ExprParser α) :=
  fun _ _ => nofun

theorem blames_expect (kind : Kind) {complaint : Complaint}
    (hcomplaint : complaint ≠ .braceAfterBlock) : Blames base (expect kind complaint) := by
  intro tokens htokens
  cases tokens with
  | nil => exact blamed_next htokens hcomplaint
  | cons t rest =>
    rw [expect]
    split
    · exact (List.suffix_cons t rest).trans htokens
    · exact blamed_next htokens hcomplaint

theorem blames_chainFrom {isOperator : Kind → Bool} {operand : ExprParser Node}
    (hoperand : Blames base operand) (count : Nat) (left : Node) :
    Blames base (chainFrom isOperator operand count left) := by
  induction count generalizing left with
  | zero => exact blames_pure left
  | succ count ih =>
    intro tokens htokens
    rw [chainFrom, get_bind]
    cases tokens with
    | nil => exact htokens
    | cons t rest =>
      dsimp only
      split
      · rw [set_bind]
        exact hoperand.bind (fun _ => ih _) rest ((List.suffix_cons t rest).trans htokens)
      · exact htokens

theorem blames_chain (isOperator : Kind → Bool) {operand : ExprParser Node}
    (hoperand : Blames base operand) : Blames base (chain isOperator operand) := by
  refine hoperand.bind fun left tokens htokens => ?_
  rw [get_bind]
  split
  · exact blames_chainFrom hoperand _ _ tokens htokens
  · exact htokens

theorem blames_equality {operand : ExprParser Node} (hoperand : Blames base operand) :
    Blames base (equality operand) :=
  blames_chain _ (blames_chain _ (blames_chain _ (blames_chain _ hoperand)))

/-- The value of an assignment comes after its equals sign, so that the parser stands behind the
equals sign when the target turns out to be invalid. -/
theorem blames_assigned {value : ExprParser Node} {found : List Token}
    (hvalue : Blames found.tail value) (hfound : found <:+ base) (target : Node) :
    Ends (fun _ => (· <:+ base)) (Blamed base)
      ((value >>= fun value => assignTo target value found) found.tail) := by
  have htail := List.tail_suffix found
  have hend := hvalue found.tail List.suffix_rfl
  cases hrun : value found.tail with
  | ok tree rest =>
    rw [hrun] at hend
    rw [bind_of_ok hrun]
    have hrest : rest <:+ found := hend.trans htail
    unfold assignTo
    split
    · exact hrest.trans hfound
    · rintro _ ⟨⟩
      exact ⟨hrest, hfound, nofun⟩
  | error halt rest =>
    rw [hrun] at hend
    rw [bind_of_error hrun]
    intro fault hfault
    obtain ⟨hrest, hmem, hcomplaint⟩ := hend fault hfault
    exact ⟨hrest, hmem.trans (htail.trans hfound), hcomplaint⟩

theorem blames_assignment_unary (limit : Nat) :
    (∀ base, Blames base (assignment limit)) ∧ ∀ base, Blames base (unary limit) := by
  -- For all bases at once: the value of an assignment is only looked at from its equals sign on.
  induction limit with
  | zero => exact ⟨fun _ => blames_tooDeep, fun _ => blames_tooDeep⟩
  | succ limit ih =>
    refine ⟨fun base => ?_, fun base tokens htokens => ?_⟩
    · rw [assignment]
      refine (blames_equality (ih.2 base)).bind fun target found hfound => ?_
      rw [get_bind]
      split
      · rw [set_bind]
        exact blames_assigned (ih.1 found.tail) hfound target
      · exact hfound
    · rw [unary, get_bind]
      cases tokens with
      | nil => exact blamed_next htokens (by decide)
      | cons t rest =>
        have hrest := (List.suffix_cons t rest).trans htokens
        dsimp only
        split
        · rw [set_bind]
          exact (ih.2 base).bind (fun _ => blames_pure _) rest hrest
        · split
          · rw [set_bind]
            refine (ih.1 base).bind (fun _ => ?_) rest hrest
            exact (blames_expect _ (by decide)).bind fun _ => blames_pure _
          · cases leaf? t with
            | none => exact blamed_next htokens (by decide)
            | some leaf => exact hrest

end Blames

/-! ## Reports in their order -/

/-- One fault comes before another: it was found in front of it, or both were found at the end and
the second one is that a block is not closed. -/
def Fault.Precedes (earlier later : Fault) : Prop :=
  later.found.length < earlier.found.length ∨
    earlier.found = [] ∧ later.found = [] ∧ later.complaint = .braceAfterBlock

def unclosedBlocks (reports : List Fault) : Nat :=
  reports.countP (·.complaint = .braceAfterBlock)

def openingBraces (tokens : List Token) : Nat :=
  tokens.countP (·.kind = .leftBrace)

/-- Reports, the last one first, that come in the order of the tokens. Together with the tokens that
are left they account for at most `braces` opening braces. -/
structure InOrder (body : List Token) (braces : Nat) (reports : List Fault) (rest : List Token) :
    Prop where
  suffix : rest <:+ body
  found : ∀ fault ∈ reports, fault.found <:+ body
  order : reports.Pairwise fun later earlier => earlier.Precedes later
  count : unclosedBlocks reports + openingBraces rest ≤ braces

/-- A parser that stands strictly behind all that it has reported. -/
structure Ahead (body : List Token) (braces : Nat) (s : Progress) : Prop extends
    InOrder body braces s.reports s.rest where
  ahead : ∀ fault ∈ s.reports, s.rest.length < fault.found.length

/-- A parser that stands strictly behind all that it has reported, or at the end. -/
structure AheadOrDone (body : List Token) (braces : Nat) (s : Progress) : Prop extends
    InOrder body braces s.reports s.rest where
  ahead : ∀ fault ∈ s.reports,
    s.rest.length < fault.found.length ∨ s.rest = [] ∧ fault.found = []

/-- A parser that has stopped at a fault, behind which it stands, and that comes after all that was
reported. -/
structure StoppedAt (body : List Token) (braces : Nat) (fault : Fault) (s : Progress) : Prop extends
    InOrder body braces (fault :: s.reports) s.rest where
  left : s.rest <:+ fault.found

section Order

variable {body : List Token} {braces : Nat} {s : Progress}

theorem openingBraces_le {tokens rest : List Token} (hsuffix : rest <:+ tokens) :
    openingBraces rest ≤ openingBraces tokens :=
  hsuffix.sublist.countP_le

theorem InOrder.shorten {reports : List Fault} {tokens rest : List Token}
    (h : InOrder body braces reports tokens) (hrest : rest <:+ tokens) :
    InOrder body braces reports rest where
  suffix := hrest.trans h.suffix
  found := h.found
  order := h.order
  count := by
    have hle := openingBraces_le hrest
    have hcount := h.count
    omega

theorem Ahead.shorten (h : Ahead body braces s) {rest : List Token} (hrest : rest <:+ s.rest) :
    Ahead body braces { s with rest } where
  toInOrder := h.toInOrder.shorten hrest
  ahead fault hfault := Nat.lt_of_le_of_lt hrest.length_le (h.ahead fault hfault)

/-- A fault among the tokens that are left comes after all reports. -/
theorem Ahead.stoppedAt (h : Ahead body braces s) {fault : Fault} {rest : List Token}
    (hfound : fault.found <:+ s.rest) (hrest : rest <:+ fault.found)
    (hcomplaint : fault.complaint ≠ .braceAfterBlock) :
    StoppedAt body braces fault { s with rest } where
  suffix := (hrest.trans hfound).trans h.suffix
  found := List.forall_mem_cons.2 ⟨hfound.trans h.suffix, h.found⟩
  order := by
    refine List.pairwise_cons.2 ⟨fun earlier hearlier => .inl ?_, h.order⟩
    exact Nat.lt_of_le_of_lt hfound.length_le (h.ahead earlier hearlier)
  count := by
    have hle := openingBraces_le (hrest.trans hfound)
    have hcount := h.count
    rw [unclosedBlocks, List.countP_cons_of_neg (by simpa using hcomplaint), ← unclosedBlocks]
    exact Nat.le_trans (Nat.add_le_add_left hle _) hcount
  left := hrest

/-- Recovery takes a token, so that the parser is ahead again, unless it stands at the end. -/
theorem StoppedAt.recovered {fault : Fault} (h : StoppedAt body braces fault s) :
    AheadOrDone body braces ⟨synchronize s.rest, fault :: s.reports⟩ where
  toInOrder := h.toInOrder.shorten (synchronize_suffix s.rest)
  ahead := by
    have hfault : (synchronize s.rest).length < fault.found.length ∨
        synchronize s.rest = [] ∧ fault.found = [] := by
      by_cases hrest : s.rest = []
      · rw [hrest]
        by_cases hfound : fault.found = []
        · exact .inr ⟨rfl, hfound⟩
        · exact .inl (List.length_pos_iff.2 hfound)
      · exact .inl (Nat.lt_of_lt_of_le (synchronize_shorter hrest) h.left.length_le)
    refine List.forall_mem_cons.2 ⟨hfault, fun earlier hearlier => ?_⟩
    rcases (List.pairwise_cons.1 h.order).1 earlier hearlier with hlt | ⟨hend, hfound, -⟩
    · have hle := ((synchronize_suffix s.rest).trans h.left).length_le
      exact .inl (Nat.lt_of_le_of_lt hle hlt)
    · rcases hfault with hlt | ⟨hrest, -⟩
      · rw [hfound] at hlt
        cases hlt
      · exact .inr ⟨hrest, hend⟩

theorem Ahead.aheadOrDone (h : Ahead body braces s) : AheadOrDone body braces s where
  toInOrder := h.toInOrder
  ahead fault hfault := .inl (h.ahead fault hfault)

theorem AheadOrDone.ahead_of_ne_nil (h : AheadOrDone body braces s) (hrest : s.rest ≠ []) :
    Ahead body braces s where
  toInOrder := h.toInOrder
  ahead fault hfault := (h.ahead fault hfault).resolve_right fun hend => hrest hend.1

/-- A block that is not closed is reported in the place of the brace that opened it. -/
theorem AheadOrDone.stoppedAt_brace (h : AheadOrDone body braces s) :
    StoppedAt body (braces + 1) ⟨s.rest, .braceAfterBlock⟩ s where
  suffix := h.suffix
  found := List.forall_mem_cons.2 ⟨h.suffix, h.found⟩
  order := by
    refine List.pairwise_cons.2 ⟨fun earlier hearlier => ?_, h.order⟩
    rcases h.ahead earlier hearlier with hlt | ⟨hrest, hend⟩
    · exact .inl hlt
    · exact .inr ⟨hend, hrest, rfl⟩
  count := by
    have hcount := h.count
    rw [unclosedBlocks, List.countP_cons_of_pos (by simp), ← unclosedBlocks]
    omega
  left := List.suffix_rfl

theorem Ahead.weaken (h : Ahead body braces s) : Ahead body (braces + 1) s where
  suffix := h.suffix
  found := h.found
  order := h.order
  count := Nat.le_succ_of_le h.count
  ahead := h.ahead

/-- A brace that is taken is one brace less that is left. -/
theorem Ahead.opened {opening : Token} {rest : List Token} (h : Ahead body braces s)
    (hrest : s.rest = opening :: rest) (hopening : opening.kind = .leftBrace) :
    ∃ fewer, braces = fewer + 1 ∧ Ahead body fewer { s with rest } := by
  have hcount := h.count
  rw [hrest, openingBraces, List.countP_cons_of_pos (by simp [hopening]), ← openingBraces]
    at hcount
  have hshort : Ahead body braces { s with rest } := by
    apply h.shorten
    rw [hrest]
    exact List.suffix_cons opening rest
  refine ⟨braces - 1, by omega, ?_⟩
  exact { hshort with count := by dsimp only; omega }

end Order

/-! ## Parsers that report in order -/

/-- A parser that starts behind all reports ends behind them, or stops at a fault that comes after
them. -/
def Orderly (body : List Token) {α : Type} (parser : StmtParser α) : Prop :=
  ∀ braces, Triple (Ahead body braces) parser (fun _ => Ahead body braces) fun halt s =>
    ∀ fault, halt = .fault fault → StoppedAt body braces fault s

section Orderly

variable {body : List Token} {braces limit : Nat}

theorem orderly_quietly {α : Type} {parser : ExprParser α}
    (hparser : ∀ base, Blames base parser) : Orderly body (quietly parser) := by
  intro braces s hs
  have hend := hparser s.rest s.rest List.suffix_rfl
  rw [quietly]
  cases hrun : parser s.rest with
  | ok a rest =>
    rw [hrun] at hend
    exact hs.shorten hend
  | error halt rest =>
    rw [hrun] at hend
    intro fault hfault
    obtain ⟨hrest, hfound, hcomplaint⟩ := hend fault hfault
    exact hs.stoppedAt hfound hrest hcomplaint

theorem handedOn_orderly (body : List Token) : HandedOn fun _ parser => Orderly body parser where
  pure _ := fun _ _ hs => hs
  bind hparser hnext := fun braces => Triple.bind (hparser braces) fun a => hnext a braces
  nextKind := fun _ _ hs => hs
  advance := fun _ s hs => hs.shorten (List.tail_suffix s.rest)
  expect kind _ hcomplaint := orderly_quietly fun _ => blames_expect kind hcomplaint

theorem orderly_expression (limit : Nat) : Orderly body (quietly (expression limit)) :=
  orderly_quietly (blames_assignment_unary limit).1

/-- A fault that is recovered from is the last report. -/
theorem orderly_recovering {parser : StmtParser Node} (hparser : Orderly body parser) :
    Triple (Ahead body braces) (recovering parser) (fun _ => AheadOrDone body braces)
      fun halt _ => halt = .tooDeep := by
  intro s hs
  have hend := hparser braces s hs
  rw [recovering]
  cases hrun : parser s with
  | ok node after =>
    rw [hrun] at hend
    exact hend.aheadOrDone
  | error halt after =>
    rw [hrun] at hend
    cases halt with
    | fault fault => exact (hend fault rfl).recovered
    | tooDeep => rfl

theorem orderly_clause (hstatement : Orderly body (statement limit)) :
    Orderly body (clauseParser limit .declaration) := by
  refine (handedOn_orderly body).bind (handedOn_orderly body).nextKind fun next => ?_
  split
  · exact (handedOn_orderly body).varDeclaration (orderly_expression limit)
  · exact hstatement

theorem orderly_declarations (hstatement : Orderly body (statement limit)) (count : Nat) :
    Triple (AheadOrDone body braces)
      (declarations (declaration (expression limit) (statement limit)) count)
      (fun _ => AheadOrDone body braces) fun halt _ => halt = .tooDeep := by
  induction count with
  | zero => exact fun _ hs => hs
  | succ count ih =>
    intro s hs
    rw [declarations_succ]
    split
    · exact hs
    · exact hs
    · next hnext =>
      have hrest : s.rest ≠ [] := by
        intro hnil
        rw [hnil] at hnext
        cases hnext
      refine (orderly_recovering (orderly_clause hstatement)).bind (fun _ => ?_) s
        (hs.ahead_of_ne_nil hrest)
      exact ih.bind fun _ _ hs => hs

theorem orderly_closing :
    Triple (AheadOrDone body braces) (quietly (expect .rightBrace .braceAfterBlock))
      (fun _ => Ahead body (braces + 1))
      fun halt s => ∀ fault, halt = .fault fault → StoppedAt body (braces + 1) fault s := by
  intro s hs
  obtain ⟨rest, reports⟩ := s
  cases rest with
  | nil =>
    rintro _ ⟨⟩
    exact hs.stoppedAt_brace
  | cons t rest =>
    rw [quietly, expect]
    split
    · next hrun =>
      split at hrun <;> cases hrun
      exact ((hs.ahead_of_ne_nil (List.cons_ne_nil _ _)).shorten (List.suffix_cons _ _)).weaken
    · next hrun =>
      split at hrun <;> cases hrun
      rintro _ ⟨⟩
      exact hs.stoppedAt_brace

theorem orderly_block (hstatement : Orderly body (statement limit)) {s : Progress}
    (hs : Ahead body braces s) {opening : Token} {rest : List Token}
    (hrest : s.rest = opening :: rest) (hopening : opening.kind = .leftBrace) :
    Ends (fun _ => Ahead body braces)
      (fun halt s => ∀ fault, halt = .fault fault → StoppedAt body braces fault s)
      (blockStatement (declaration (expression limit) (statement limit)) s) := by
  -- The opening brace is kept in reserve for a report that this block is not closed.
  obtain ⟨fewer, rfl, hopened⟩ := hs.opened hrest hopening
  rw [blockStatement, advance_bind, get_bind, hrest, List.tail_cons]
  have hloop : Triple (AheadOrDone body fewer)
      (declarations (declaration (expression limit) (statement limit)) rest.length)
      (fun _ => AheadOrDone body fewer)
      fun halt s => ∀ fault, halt = .fault fault → StoppedAt body (fewer + 1) fault s := by
    refine (orderly_declarations hstatement _).mono (fun _ h => h) (fun _ _ h => h) ?_
    intro _ _ hdeep _ hfault
    cases hdeep.symm.trans hfault
  refine hloop.bind (fun _ => ?_) _ hopened.aheadOrDone
  exact orderly_closing.bind fun _ _ hs => hs

theorem orderly_statement (limit : Nat) : Orderly body (statement limit) := by
  induction limit with
  | zero => exact fun _ _ _ => nofun
  | succ limit ih =>
    intro braces s hs
    have hexpression : Orderly body (quietly (expression limit)) := orderly_expression limit
    have hparts := handedOn_orderly body
    rw [statement_succ]
    split
    · exact hparts.printStatement hexpression braces s hs
    · next hkind =>
      obtain ⟨opening, rest, hrest, hopening⟩ := head?_kind_eq_some.1 hkind
      exact orderly_block ih hs hrest hopening
    · exact hparts.ifStatement hexpression ih braces s hs
    · exact hparts.whileStatement hexpression ih braces s hs
    · exact hparts.expressionStatement hexpression braces s hs

end Orderly

/-- Without nesting that is too deep, a program reports its faults in the order of the tokens. -/
theorem topLevel_inOrder (limit count : Nat) {braces : Nat} {body : List Token} {s : Progress}
    (hs : AheadOrDone body braces s)
    (hnesting : ∀ fault ∈ (topLevel limit count s).2, fault.complaint ≠ .nesting) :
    InOrder body braces (topLevel limit count s).2 [] := by
  induction count generalizing s with
  | zero => exact hs.toInOrder.shorten List.nil_suffix
  | succ count ih =>
    by_cases hrest : s.rest = []
    · rw [topLevel, if_pos (by simp [hrest])]
      exact hs.toInOrder.shorten List.nil_suffix
    have hdeclaration : Triple (Ahead body braces)
        (declaration (expression limit) (statement limit)) (fun _ => AheadOrDone body braces)
        fun halt _ => halt = .tooDeep :=
      orderly_recovering (orderly_clause (orderly_statement limit))
    cases hrun : declaration (expression limit) (statement limit) s with
    | ok result after =>
      rw [topLevel_of_ok hrest hrun] at hnesting ⊢
      exact ih (hdeclaration.ok (hs.ahead_of_ne_nil hrest) hrun) hnesting
    | error halt after =>
      obtain rfl := hdeclaration.error (hs.ahead_of_ne_nil hrest) hrun
      rw [topLevel_of_tooDeep hrest hrun] at hnesting
      have hmem := (reports_suffix_topLevel limit count
        ⟨skipStatement 0 s.rest, ⟨after.rest, .nesting⟩ :: after.reports⟩).subset List.mem_cons_self
      exact absurd rfl (hnesting _ hmem)

/-! ## Positions -/

/-- The error that a fault is, with the number of tokens in front of its own. -/
def Fault.located (fault : Fault) (body : List Token) (last : Token) : ParseError × Nat :=
  (fault.toError last, body.length - fault.found.length)

section Located

variable {body : List Token} {last : Token}

/-- The token of an error is the one at its position; the end comes right behind all others. -/
theorem Fault.getElem?_located {fault : Fault} (hfound : fault.found <:+ body) :
    (body ++ [last])[(fault.located body last).2]? = some (fault.located body last).1.token := by
  obtain ⟨taken, rfl⟩ := hfound
  have hposition : (fault.located (taken ++ fault.found) last).2 = taken.length := by
    simp [Fault.located]
  rw [hposition, List.append_assoc, List.getElem?_append_right (Nat.le_refl _), Nat.sub_self]
  simp only [Fault.located, Fault.toError]
  cases fault.found <;> rfl

theorem Fault.Precedes.located {earlier later : Fault} (h : earlier.Precedes later)
    (hfound : earlier.found <:+ body) :
    (earlier.located body last).2 < (later.located body last).2 ∨
      (earlier.located body last).2 = body.length ∧ (later.located body last).2 = body.length ∧
        (later.located body last).1.complaint = .braceAfterBlock := by
  have hle := hfound.length_le
  rcases h with hlt | ⟨hearlier, hlater, hcomplaint⟩
  · refine .inl ?_
    simp only [Fault.located]
    omega
  · refine .inr ⟨?_, ?_, hcomplaint⟩
    · simp [Fault.located, hearlier]
    · simp [Fault.located, hlater]

/-- Reports in order, told from the first one on, are errors in order. -/
theorem InOrder.pairwise_located {braces : Nat} {reports : List Fault} {rest : List Token}
    (h : InOrder body braces reports rest) (last : Token) :
    (reports.reverse.map (·.located body last)).Pairwise fun earlier later =>
      earlier.2 < later.2 ∨ earlier.2 = body.length ∧ later.2 = body.length ∧
        later.1.complaint = .braceAfterBlock := by
  rw [List.pairwise_map, List.pairwise_reverse]
  apply List.Pairwise.imp_of_mem _ h.order
  intro later earlier _ hearlier hprecedes
  exact hprecedes.located (h.found earlier hearlier)

end Located

end Parser

open Lox.Parser

/-- If no nesting is too deep, the errors come in the order of their tokens. Their positions
increase strictly up to the end; behind an error at the end there are only errors at the end, and
these are about blocks that are not closed, of which there are no more than tokens that open one. So
no token before the end is complained about twice. -/
theorem parse_errors_move_forward (limit : Nat) (tokens : List Token)
    (hnesting : ∀ error ∈ (parse limit tokens).errors, error.complaint ≠ .nesting) :
    ∃ located : List (ParseError × Nat), located.map Prod.fst = (parse limit tokens).errors ∧
      (∀ entry ∈ located,
        ((beforeEnd tokens).1 ++ [(beforeEnd tokens).2])[entry.2]? = some entry.1.token) ∧
      located.Pairwise (fun earlier later => earlier.2 < later.2 ∨
        earlier.2 = (beforeEnd tokens).1.length ∧ later.2 = (beforeEnd tokens).1.length ∧
          later.1.complaint = .braceAfterBlock) ∧
      ((located.map Prod.snd).filter (· < (beforeEnd tokens).1.length)).Nodup ∧
      (parse limit tokens).errors.countP (·.complaint = .braceAfterBlock) ≤
        (beforeEnd tokens).1.countP (·.kind = .leftBrace) := by
  have hstart : AheadOrDone (beforeEnd tokens).1 (openingBraces (beforeEnd tokens).1)
      ⟨(beforeEnd tokens).1, []⟩ :=
    ⟨⟨List.suffix_rfl, nofun, .nil, by simp [unclosedBlocks]⟩, nofun⟩
  have hreports := topLevel_inOrder limit (beforeEnd tokens).1.length hstart fun fault hfault =>
    hnesting (fault.toError (beforeEnd tokens).2) (List.mem_map_of_mem (List.mem_reverse.2 hfault))
  have hpairwise := hreports.pairwise_located (beforeEnd tokens).2
  refine ⟨_, ?_, ?_, hpairwise, ?_, ?_⟩
  · rw [List.map_map]
    rfl
  · rw [List.forall_mem_map]
    intro fault hfault
    exact Fault.getElem?_located (hreports.found fault (List.mem_reverse.1 hfault))
  · rw [List.Nodup, List.pairwise_filter, List.pairwise_map]
    refine hpairwise.imp fun {earlier later} horder hbefore _ => ?_
    have hbefore := of_decide_eq_true hbefore
    omega
  · have hcount := hreports.count
    simp only [parse, List.countP_map, List.countP_reverse]
    exact Nat.le_trans (Nat.le_add_right _ _) hcount

/-- The tokens of `a + a = a; print ; { { var`. -/
def brokenBlocks : List Token :=
  [⟨.identifier, .str "a", .null, 1⟩, ⟨.plus, .str "+", .null, 1⟩,
    ⟨.identifier, .str "a", .null, 1⟩, ⟨.equal, .str "=", .null, 1⟩,
    ⟨.identifier, .str "a", .null, 1⟩, ⟨.semicolon, .str ";", .null, 1⟩,
    ⟨.printWord, .str "print", .null, 2⟩, ⟨.semicolon, .str ";", .null, 2⟩,
    ⟨.leftBrace, .str "\x7b", .null, 3⟩, ⟨.leftBrace, .str "\x7b", .null, 3⟩,
    ⟨.varWord, .str "var", .null, 3⟩, Token.endAt 3]

theorem brokenBlocks_errors_move_forward :
    (∀ error ∈ (parse 20 brokenBlocks).errors, error.complaint ≠ .nesting) ∧
      ∃ located : List (ParseError × Nat), located.map Prod.fst = (parse 20 brokenBlocks).errors ∧
        located.length = 5 ∧ located.Pairwise fun earlier later => earlier.2 < later.2 ∨
          earlier.2 = 11 ∧ later.2 = 11 ∧ later.1.complaint = .braceAfterBlock := by
  have hnesting : ∀ error ∈ (parse 20 brokenBlocks).errors, error.complaint ≠ .nesting := by
    decide +kernel
  obtain ⟨located, herrors, -, horder, -, -⟩ := parse_errors_move_forward 20 brokenBlocks hnesting
  have hlength : (located.map Prod.fst).length = 5 := by
    rw [herrors]
    decide +kernel
  rw [List.length_map] at hlength
  exact ⟨hnesting, located, herrors, hlength, horder⟩

end Lox
