import Mathlib.Computability.Language
import Mathlib.Order.CompletePartialOrder
import Lox.Proofs.Parser.Loops

/-!
# One token ahead

How a parser finds its first fault. What it has taken by then is the beginning of something in the
language that it parses, and nothing behind the next token has any influence: with the same tokens
taken and the same token next, the first fault is the same. Likewise a parser that comes to its end
without a fault has taken something in its language, and would have taken it in front of any other
tokens that look the same to it.

The rules here are for any parser. Parsers of expressions are looked at among statements, so that
one set of rules is enough.
-/

namespace Lox

open Lox.Computation Grammar

namespace Parser

/-! ## First faults -/

/-- The faults that were met up to the end of a parser, the last one first. -/
def faults {α : Type} : EStateM.Result Halt Progress α → List Fault
  | .ok _ s => s.reports
  | .error (.fault fault) s => fault :: s.reports
  | .error .tooDeep s => s.reports

/-- The fault that was met first. -/
def firstFault? {α : Type} (result : EStateM.Result Halt Progress α) : Option Fault :=
  (faults result).getLast?

section FirstFault

variable {α β : Type}

theorem reports_suffix_faults {parser : StmtParser α} (hkeeps : ∀ start, Keeps (Forward start) parser)
    (s : Progress) : s.reports <:+ faults (parser s) := by
  have hend := hkeeps s s (Forward.refl s)
  cases hrun : parser s with
  | ok a s' =>
    rw [hrun] at hend
    exact hend.reports
  | error halt s' =>
    rw [hrun] at hend
    cases halt with
    | fault fault => exact hend.reports.trans (List.suffix_cons fault s'.reports)
    | tooDeep => exact hend.reports

theorem getLast?_of_suffix {reports more : List Fault} {fault : Fault} (h : reports <:+ more)
    (hfirst : reports.getLast? = some fault) : more.getLast? = some fault := by
  obtain ⟨front, rfl⟩ := h
  rw [List.getLast?_append, hfirst, Option.some_or]

/-- What was reported before a parser is reported first. -/
theorem firstFault?_of_reports {parser : StmtParser α}
    (hkeeps : ∀ start, Keeps (Forward start) parser) {s : Progress} {fault : Fault}
    (hfirst : s.reports.getLast? = some fault) : firstFault? (parser s) = some fault :=
  getLast?_of_suffix (reports_suffix_faults hkeeps s) hfirst

theorem firstFault?_bind {parser : StmtParser α} {next : α → StmtParser β}
    (hkeeps : ∀ a start, Keeps (Forward start) (next a)) {s : Progress} {fault : Fault}
    (hfirst : firstFault? (parser s) = some fault) :
    firstFault? ((parser >>= next) s) = some fault := by
  cases hrun : parser s with
  | ok a s' =>
    rw [hrun] at hfirst
    rw [bind_of_ok hrun]
    exact firstFault?_of_reports (hkeeps a) hfirst
  | error halt s' =>
    rw [hrun] at hfirst
    rw [bind_of_error hrun]
    cases halt <;> exact hfirst

@[simp] theorem firstFault?_recovering (parser : StmtParser Node) (s : Progress) :
    firstFault? (recovering parser s) = firstFault? (parser s) := by
  rw [recovering]
  cases parser s with
  | ok node after => rfl
  | error halt after => cases halt <;> rfl

end FirstFault

/-! ## Looking ahead -/

def SameNext (rest other : List Token) : Prop :=
  rest.head? = other.head?

def SameElse (rest other : List Token) : Prop :=
  beginsWith (· = .elseWord) rest = beginsWith (· = .elseWord) other

theorem SameNext.sameElse {rest other : List Token} (h : SameNext rest other) :
    SameElse rest other := by
  cases rest <;> cases other <;> simp_all [SameNext, SameElse, beginsWith]

theorem SameNext.append (front : List Token) {rest other : List Token} (h : SameNext rest other) :
    SameNext (front ++ rest) (front ++ other) := by
  cases front with
  | nil => exact h
  | cons t front => rfl

theorem sameNext_append_of_ne_nil {front : List Token} (hfront : front ≠ [])
    (rest other : List Token) : SameNext (front ++ rest) (front ++ other) := by
  cases front with
  | nil => exact absurd rfl hfront
  | cons t front => rfl

/-- What a parser sees of the tokens behind those that it takes, which is the next token at most. -/
structure Look where
  same : List Token → List Token → Prop
  of_next : ∀ {rest other}, SameNext rest other → same rest other

/-- The next token is seen. -/
def Look.next : Look :=
  ⟨SameNext, id⟩

/-- All that is seen of the next token is whether it is an `else`. -/
def Look.elseWord : Look :=
  ⟨SameElse, SameNext.sameElse⟩

/-- How a parser without earlier reports comes out at some tokens. -/
structure PredictsAt {α : Type} (look : Look) (language : Language Token)
    (parser : StmtParser α) (tokens : List Token) : Prop where
  ok : ∀ {a rest}, parser ⟨tokens, []⟩ = .ok a ⟨rest, []⟩ →
    ∃ taken ∈ language, tokens = taken ++ rest ∧
      ∀ other, look.same rest other → parser ⟨taken ++ other, []⟩ = .ok a ⟨other, []⟩
  fault : ∀ {fault}, firstFault? (parser ⟨tokens, []⟩) = some fault →
    fault.complaint ≠ .assignmentTarget →
      ∃ taken, tokens = taken ++ fault.found ∧ (∃ more, taken ++ more ∈ language) ∧
        ∀ other, SameNext fault.found other →
          firstFault? (parser ⟨taken ++ other, []⟩) = some ⟨other, fault.complaint⟩

/-- How a parser comes out everywhere. -/
structure Predicts {α : Type} (look : Look) (language : Language Token)
    (parser : StmtParser α) : Prop where
  keeps : ∀ start, Keeps (Forward start) parser
  everywhere : ∀ tokens, PredictsAt look language parser tokens

section Rules

variable {α β : Type} {look look' : Look}
  {language language' : Language Token} {parser other : StmtParser α} {tokens : List Token}

theorem PredictsAt.mono (h : PredictsAt look language parser tokens) (hle : language ≤ language') :
    PredictsAt look language' parser tokens where
  ok hok := by
    obtain ⟨taken, htaken, hlocal⟩ := h.ok hok
    exact ⟨taken, hle htaken, hlocal⟩
  fault hfault hcomplaint := by
    obtain ⟨taken, htokens, ⟨more, hmore⟩, hlocal⟩ := h.fault hfault hcomplaint
    exact ⟨taken, htokens, ⟨more, hle hmore⟩, hlocal⟩

/-- A parser that does the same as another one wherever the next token is the same. -/
theorem PredictsAt.of_same (h : PredictsAt look language other tokens)
    (hsame : ∀ tokens', SameNext tokens tokens' → parser ⟨tokens', []⟩ = other ⟨tokens', []⟩)
    (hempty : [] ∈ language → ∀ tokens', look.same tokens tokens' →
      parser ⟨tokens', []⟩ = other ⟨tokens', []⟩) :
    PredictsAt look language parser tokens where
  ok {a rest} hok := by
    rw [hsame tokens rfl] at hok
    obtain ⟨taken, htaken, htokens, hlocal⟩ := h.ok hok
    refine ⟨taken, htaken, htokens, fun rest' hlook => ?_⟩
    rw [← hlocal rest' hlook]
    by_cases hnil : taken = []
    · subst hnil
      rw [List.nil_append] at htokens
      subst htokens
      exact hempty htaken rest' hlook
    · apply hsame
      rw [htokens]
      exact sameNext_append_of_ne_nil hnil rest rest'
  fault {fault} hfault hcomplaint := by
    rw [hsame tokens rfl] at hfault
    obtain ⟨taken, htokens, hviable, hlocal⟩ := h.fault hfault hcomplaint
    refine ⟨taken, htokens, hviable, fun rest' hnext => ?_⟩
    rw [hsame, hlocal rest' hnext]
    rw [htokens]
    exact hnext.append taken

theorem predicts_pure (look : Look) (a : α) : Predicts look 1 (pure a) where
  keeps _ := keeps_pure a
  everywhere tokens := {
    ok := by
      intro b rest hok
      cases hok
      exact ⟨[], Language.nil_mem_one, rfl, fun _ _ => rfl⟩
    fault := nofun }

theorem predicts_tooDeep (look : Look) (language : Language Token) :
    Predicts look language (throw .tooDeep : StmtParser α) where
  keeps _ := keeps_throw _
  everywhere _ := { ok := nofun, fault := nofun }

def complain (complaint : Complaint) : StmtParser α := fun s =>
  .error (.fault ⟨s.rest, complaint⟩) s

theorem predictsAt_complain (complaint : Complaint) (hlanguage : ∃ word, word ∈ language) :
    PredictsAt look language (complain complaint : StmtParser α) tokens where
  ok := nofun
  fault {fault} hfault _ := by
    cases hfault
    exact ⟨[], rfl, hlanguage, fun _ _ => rfl⟩

/-- Two parsers one after the other. What the first one looks at is in what the second one takes, or
looks the same if the rest looks the same to the second one. -/
theorem PredictsAt.bind {next : α → StmtParser β} (hfirst : PredictsAt look language parser tokens)
    (hkeeps : ∀ a start, Keeps (Forward start) (next a))
    (hnext : ∀ a rest, parser ⟨tokens, []⟩ = .ok a ⟨rest, []⟩ →
      PredictsAt look' language' (next a) rest)
    (hword : ∃ word, word ∈ language')
    (hlook : [] ∈ language' → ∀ rest rest', look'.same rest rest' → look.same rest rest') :
    PredictsAt look' (language * language') (parser >>= next) tokens where
  ok {b rest} hok := by
    obtain ⟨a, ⟨middle, reports⟩, hparser, hrun⟩ := bind_eq_ok.1 hok
    have hreports : reports <:+ [] := ((hkeeps a ⟨middle, reports⟩).ok (Forward.refl _) hrun).reports
    obtain rfl := List.suffix_nil.1 hreports
    obtain ⟨taken, htaken, htokens, hlocal⟩ := hfirst.ok hparser
    obtain ⟨taken', htaken', hmiddle, hlocal'⟩ := (hnext a middle hparser).ok hrun
    refine ⟨taken ++ taken', Language.append_mem_mul htaken htaken', ?_, fun rest' hrest => ?_⟩
    · rw [htokens, hmiddle, List.append_assoc]
    · have hlooks : look.same middle (taken' ++ rest') := by
        rw [hmiddle]
        by_cases hnil : taken' = []
        · subst hnil
          exact hlook htaken' rest rest' hrest
        · exact look.of_next (sameNext_append_of_ne_nil hnil rest rest')
      rw [List.append_assoc, bind_of_ok (hlocal _ hlooks)]
      exact hlocal' rest' hrest
  fault {fault} hfault hcomplaint := by
    have hearly (hearly : firstFault? (parser ⟨tokens, []⟩) = some fault) :
        ∃ taken, tokens = taken ++ fault.found ∧ (∃ more, taken ++ more ∈ language * language') ∧
          ∀ rest, SameNext fault.found rest →
            firstFault? ((parser >>= next) ⟨taken ++ rest, []⟩) = some ⟨rest, fault.complaint⟩ := by
      obtain ⟨taken, htokens, ⟨more, hmore⟩, hlocal⟩ := hfirst.fault hearly hcomplaint
      obtain ⟨word, hword⟩ := hword
      refine ⟨taken, htokens, ⟨more ++ word, ?_⟩, fun rest hrest => ?_⟩
      · rw [← List.append_assoc]
        exact Language.append_mem_mul hmore hword
      · exact firstFault?_bind hkeeps (hlocal rest hrest)
    cases hparser : parser ⟨tokens, []⟩ with
    | error halt s =>
      rw [bind_of_error hparser] at hfault
      apply hearly
      rw [hparser]
      cases halt <;> exact hfault
    | ok a s =>
      obtain ⟨middle, reports⟩ := s
      rw [bind_of_ok hparser] at hfault
      cases hreports : reports.getLast? with
      | some first =>
        rw [firstFault?_of_reports (hkeeps a) hreports] at hfault
        apply hearly
        rw [hparser, ← hfault]
        exact hreports
      | none =>
        obtain rfl := List.getLast?_eq_none_iff.1 hreports
        obtain ⟨taken, htaken, htokens, hlocal⟩ := hfirst.ok hparser
        obtain ⟨taken', hmiddle, ⟨more, hmore⟩, hlocal'⟩ :=
          (hnext a middle hparser).fault hfault hcomplaint
        refine ⟨taken ++ taken', ?_, ⟨more, ?_⟩, fun rest hrest => ?_⟩
        · rw [htokens, hmiddle, List.append_assoc]
        · rw [List.append_assoc]
          exact Language.append_mem_mul htaken hmore
        · have hlooks : look.same middle (taken' ++ rest) := by
            rw [hmiddle]
            exact look.of_next (hrest.append taken')
          rw [List.append_assoc, bind_of_ok (hlocal _ hlooks)]
          exact hlocal' rest hrest

theorem Predicts.mono (h : Predicts look language parser) (hle : language ≤ language') :
    Predicts look language' parser :=
  ⟨h.keeps, fun tokens => (h.everywhere tokens).mono hle⟩

theorem Predicts.bind {next : α → StmtParser β} (hfirst : Predicts look language parser)
    (hnext : ∀ a, Predicts look' language' (next a)) (hword : ∃ word, word ∈ language')
    (hlook : [] ∈ language' → ∀ rest rest', look'.same rest rest' → look.same rest rest') :
    Predicts look' (language * language') (parser >>= next) where
  keeps start := (hfirst.keeps start).bind fun a => (hnext a).keeps start
  everywhere tokens := (hfirst.everywhere tokens).bind (fun a => (hnext a).keeps)
    (fun a rest _ => (hnext a).everywhere rest) hword hlook

theorem PredictsAt.map (hfirst : PredictsAt look language parser tokens) (f : α → β) :
    PredictsAt look language (parser >>= fun a => pure (f a)) tokens := by
  have hbind := hfirst.bind (fun _ _ => keeps_pure _)
    (fun a rest _ => (predicts_pure look (f a)).everywhere rest) ⟨[], Language.nil_mem_one⟩
    fun _ _ _ h => h
  rwa [mul_one] at hbind

theorem Predicts.map (hfirst : Predicts look language parser) (f : α → β) :
    Predicts look language (parser >>= fun a => pure (f a)) where
  keeps start := (hfirst.keeps start).bind fun _ => keeps_pure _
  everywhere tokens := (hfirst.everywhere tokens).map f

theorem PredictsAt.recovering {parser : StmtParser Node}
    (h : PredictsAt look language parser tokens) :
    PredictsAt look language (recovering parser) tokens where
  ok {result rest} hok := by
    rcases recovering_eq_ok.1 hok with ⟨node, hnode, rfl⟩ | ⟨fault, after, -, -, hafter⟩
    · obtain ⟨taken, htaken, htokens, hlocal⟩ := h.ok hnode
      refine ⟨taken, htaken, htokens, fun other hlook => ?_⟩
      exact recovering_eq_ok.2 (.inl ⟨node, hlocal other hlook, rfl⟩)
    · cases hafter
  fault hfault hcomplaint := by
    rw [firstFault?_recovering] at hfault
    obtain ⟨taken, htokens, hviable, hlocal⟩ := h.fault hfault hcomplaint
    refine ⟨taken, htokens, hviable, fun other hnext => ?_⟩
    rw [firstFault?_recovering, hlocal other hnext]

theorem Predicts.recovering {parser : StmtParser Node} (h : Predicts look language parser) :
    Predicts look language (recovering parser) :=
  ⟨fun start => keeps_forward_recovering (h.keeps start), fun tokens => (h.everywhere tokens).recovering⟩

def kindWord (kind : Kind) : Language Token :=
  {word | ∃ t : Token, t.kind = kind ∧ word = [t]}

theorem kindWord_nonempty (kind : Kind) : ∃ word, word ∈ kindWord kind :=
  ⟨[⟨kind, .null, .null, 0⟩], _, rfl, rfl⟩

theorem kindWord_mul_nonempty (kind : Kind) (hword : ∃ word, word ∈ language) :
    ∃ word, word ∈ kindWord kind * language := by
  obtain ⟨first, hfirst⟩ := kindWord_nonempty kind
  obtain ⟨word, hword⟩ := hword
  exact ⟨first ++ word, Language.append_mem_mul hfirst hword⟩

theorem nil_notMem_kindWord (kind : Kind) : [] ∉ kindWord kind := by
  rintro ⟨t, -, hnil⟩
  cases hnil

theorem nil_notMem_kindWord_mul (kind : Kind) (language : Language Token) :
    [] ∉ kindWord kind * language := by
  rintro ⟨_, ⟨t, -, rfl⟩, word, -, hnil⟩
  cases hnil

theorem predicts_expect (look : Look) (kind : Kind)
    (complaint : Complaint) :
    Predicts look (kindWord kind) (quietly (expect kind complaint)) where
  keeps _ := keeps_forward_expect kind complaint
  everywhere tokens := {
    ok := by
      intro t rest hok
      obtain ⟨htokens, hkind, -⟩ := quietly_expect_eq_ok.1 hok
      refine ⟨[t], ⟨t, hkind, rfl⟩, htokens, fun other _ => ?_⟩
      exact quietly_expect_eq_ok.2 ⟨rfl, hkind, rfl⟩
    fault := by
      have hfaults (tokens : List Token) : tokens.head?.map (·.kind) ≠ some kind →
          firstFault? (quietly (expect kind complaint) ⟨tokens, []⟩) =
            some ⟨tokens, complaint⟩ := by
        cases tokens with
        | nil => exact fun _ => rfl
        | cons t rest =>
          intro hkind
          have hkind : t.kind ≠ kind := by simpa using hkind
          simp [quietly, expect, hkind, firstFault?, faults]
      intro fault hfault _
      have hkind : tokens.head?.map (·.kind) ≠ some kind := by
        intro hnext
        obtain ⟨t, rest, rfl, hkind⟩ := head?_kind_eq_some.1 hnext
        simp [quietly, expect, hkind, firstFault?, faults] at hfault
      rw [hfaults tokens hkind] at hfault
      cases hfault
      refine ⟨[], rfl, kindWord_nonempty kind, fun other hnext => ?_⟩
      exact hfaults other (hnext ▸ hkind) }

/-- A parser that takes the first token and goes on as another one. -/
theorem PredictsAt.cons {next : StmtParser α} {t : Token}
    (hnext : PredictsAt look language next tokens)
    (hparser : ∀ rest, parser ⟨t :: rest, []⟩ = next ⟨rest, []⟩) :
    PredictsAt look (kindWord t.kind * language) parser (t :: tokens) where
  ok hok := by
    rw [hparser] at hok
    obtain ⟨taken, htaken, htokens, hlocal⟩ := hnext.ok hok
    refine ⟨[t] ++ taken, Language.append_mem_mul ⟨t, rfl, rfl⟩ htaken, ?_, fun other hlook => ?_⟩
    · rw [htokens]
      rfl
    · rw [← hlocal other hlook]
      exact hparser _
  fault hfault hcomplaint := by
    rw [hparser] at hfault
    obtain ⟨taken, htokens, ⟨more, hmore⟩, hlocal⟩ := hnext.fault hfault hcomplaint
    refine ⟨[t] ++ taken, ?_, ⟨more, ?_⟩, fun other hlook => ?_⟩
    · rw [htokens]
      rfl
    · rw [List.append_assoc]
      exact Language.append_mem_mul ⟨t, rfl, rfl⟩ hmore
    · rw [← hlocal other hlook]
      exact congrArg firstFault? (hparser _)

end Rules

end Parser

end Lox
