import Lox.Shell
import Lox.Proofs.Grammar.Blocks
import Lox.Proofs.Grammar.Statement
import Lox.Proofs.Scan.Front

/-!
# Lines are held back inside blocks

A shell counts the braces of the text that it has so far, without parsing it, and holds the text
back while more are opened than closed. If the text is the front of a program, cut off after any
character, then this number is the number of blocks of the program that are open at the cut
(`openBlocks_front`): the braces at the front are those of the program that lie there, and these are
the ends of its blocks.
-/

namespace Lox

open Piece Grammar

/-- The number of characters of a source before one of its tokens, given the number of tokens before
it. -/
def offsetOf (source : String) (index : Nat) : Nat :=
  ((located [] (pieces source.toList)).map Prod.fst).getD index source.toList.length

def blocksOf (source : String) : List BlockSpan :=
  Node.blocksFromAll 0 (Program.ofSource source).statements

/-- Whether a block of a program is open after the first characters of its source: its opening
brace is among them, and its closing one is not. -/
def BlockSpan.isOpenAt (source : String) (length : Nat) (block : BlockSpan) : Bool :=
  offsetOf source block.opening < length && length ≤ offsetOf source block.closing

/-! ## Valid sources -/

theorem encloses_of_errors {source : String} (hvalid : (Program.ofSource source).errors = []) :
    Encloses 0 (sourceTokens source) (blocksOf source) := by
  have hparse : (parse nestingLimit (scan source).tokens).errors = [] := by
    simpa [Program.ofSource, Program.under] using (List.append_eq_nil_iff.1 hvalid).2
  have hderives := derives_of_parse hparse
  rw [takeWhile_scan_tokens] at hderives
  exact hderives.encloses

/-! ## Places of tokens -/

section Places

variable {source : String} {index : Nat} {t : Token}

theorem located_of_getElem? (htoken : (sourceTokens source)[index]? = some t) :
    (located [] (pieces source.toList))[index]? = some (offsetOf source index, t) := by
  rw [sourceTokens, ← located_map_snd, List.getElem?_map, Option.map_eq_some_iff] at htoken
  obtain ⟨place, hplace, rfl⟩ := htoken
  simp [offsetOf, hplace]

theorem offsetOf_lt {later : Nat} {t' : Token} (htoken : (sourceTokens source)[index]? = some t)
    (htoken' : (sourceTokens source)[later]? = some t') (hless : index < later) :
    offsetOf source index < offsetOf source later := by
  have hpairs := pairwise_located (allStand_pieces source.toList) []
  obtain ⟨hindex, hplace⟩ := List.getElem?_eq_some_iff.1 (located_of_getElem? htoken)
  obtain ⟨hlater, hplace'⟩ := List.getElem?_eq_some_iff.1 (located_of_getElem? htoken')
  have hordered := List.pairwise_iff_getElem.1 hpairs index later hindex hlater hless
  rwa [hplace, hplace'] at hordered

/-- Where a brace is a token, it is a character. -/
theorem getElem?_offsetOf_brace {c : Char} (hbrace : (t.kind, c) ∈ braces)
    (htoken : (sourceTokens source)[index]? = some t) :
    source.toList[offsetOf source index]? = some c :=
  getElem?_of_located_brace hbrace (List.mem_of_getElem? (located_of_getElem? htoken)) rfl

end Places

/-! ## Counting braces -/

theorem countP_positions (kind : Kind) (source : String) (length : Nat) :
    (positions kind 0 (sourceTokens source)).countP (offsetOf source · < length) =
      (located [] (pieces source.toList)).countP fun place =>
        place.2.kind = kind && place.1 < length := by
  rw [sourceTokens, ← located_map_snd, positions, List.zipIdx_map, List.countP_map,
    List.countP_filter, List.countP_map]
  conv => rhs; rw [← List.zipIdx_map_fst 0 (located [] (pieces source.toList)), List.countP_map]
  refine List.countP_congr fun entry hentry => ?_
  have hplace := List.mem_zipIdx_iff_getElem?.1 hentry
  have hoffset : offsetOf source entry.2 = entry.1.1 := by simp [offsetOf, hplace]
  simp [hoffset, and_comm]

/-- The braces at the front of a source are the tokens of the source that are there. -/
theorem openBlocks_eq (source : String) {front : List Char} (hfront : front <+: source.toList) :
    Shell.openBlocks (String.ofList front) =
      ((positions .leftBrace 0 (sourceTokens source)).countP
        (offsetOf source · < front.length) : Int) -
      (positions .rightBrace 0 (sourceTokens source)).countP
        (offsetOf source · < front.length) := by
  have hcount {kind : Kind} {c : Char} (hbrace : (kind, c) ∈ braces) (hlast : Kind.eof ≠ kind) :
      (scan (String.ofList front)).tokens.countP (·.kind = kind) =
        (positions kind 0 (sourceTokens source)).countP (offsetOf source · < front.length) := by
    have hpieces := countP_front hbrace source.toList [] hfront
    rw [List.length_nil, Nat.zero_add] at hpieces
    rw [scan_tokens, List.countP_append, sourceTokens, countP_gather_token?, String.toList_ofList,
      hpieces, countP_positions, countP_located kind (· < front.length)]
    simp [Token.endAt, hlast]
  rw [Shell.openBlocks, openBraces, hcount List.mem_cons_self (by decide),
    hcount (List.mem_cons_of_mem _ List.mem_cons_self) (by decide)]

/-- What is in one of two sets of which one holds the other, but not in the smaller one. -/
theorem countP_sub_countP {α : Type} {p q : α → Bool} {list : List α}
    (hholds : ∀ a ∈ list, q a = true → p a = true) :
    (list.countP p : Int) - list.countP q = list.countP fun a => p a && !q a := by
  have hboth : list.countP (fun a => p a && q a) = list.countP q :=
    List.countP_congr fun a ha => by simpa using hholds a ha
  have hsplit := List.countP_eq_countP_filter_add list p q
  rw [List.countP_filter, List.countP_filter, hboth] at hsplit
  omega

/-! ## Open blocks -/

section Valid

variable {source : String} (hvalid : (Program.ofSource source).errors = [])

include hvalid

/-- The two ends of a block of a valid program: the tokens there. -/
theorem tokens_of_mem_blocksOf {block : BlockSpan} (hblock : block ∈ blocksOf source) :
    ∃ opening closing, (sourceTokens source)[block.opening]? = some opening ∧
      (sourceTokens source)[block.closing]? = some closing ∧ opening.kind = .leftBrace ∧
      closing.kind = .rightBrace ∧ block.opening < block.closing := by
  obtain ⟨before, opening, inner, closing, after, htokens, hopening, hclosing, hleft, hright, -⟩ :=
    (encloses_of_errors hvalid).blocks block hblock
  refine ⟨opening, closing, ?_, ?_, hleft, hright, by omega⟩
  · rw [htokens, hopening]
    simp
  · have hindex : block.closing = (before ++ opening :: inner).length := by
      rw [hclosing, hopening, List.length_append, List.length_cons]
      omega
    have hsplit : sourceTokens source = (before ++ opening :: inner) ++ closing :: after := by
      rw [htokens, List.append_assoc, List.cons_append]
    rw [hsplit, hindex]
    simp

/-- At the two ends of a block of a valid program stand braces. -/
theorem braces_of_mem_blocksOf {block : BlockSpan} (hblock : block ∈ blocksOf source) :
    source.toList[offsetOf source block.opening]? = some '\x7b' ∧
      source.toList[offsetOf source block.closing]? = some '\x7d' ∧
      offsetOf source block.opening < offsetOf source block.closing := by
  obtain ⟨opening, closing, htoken, htoken', hleft, hright, hless⟩ :=
    tokens_of_mem_blocksOf hvalid hblock
  refine ⟨getElem?_offsetOf_brace ?_ htoken, getElem?_offsetOf_brace ?_ htoken',
    offsetOf_lt htoken htoken' hless⟩
  · rw [hleft]
    exact List.mem_cons_self
  · rw [hright]
    exact List.mem_cons_of_mem _ List.mem_cons_self

/-- The number that the front of a valid program leaves open is that of its blocks open there. -/
theorem openBlocks_front {front : List Char} (hfront : front <+: source.toList) :
    Shell.openBlocks (String.ofList front) =
      (blocksOf source).countP (·.isOpenAt source front.length) := by
  have hblocks := encloses_of_errors hvalid
  rw [openBlocks_eq source hfront, hblocks.openings.countP_eq, hblocks.closings.countP_eq,
    List.countP_map, List.countP_map, countP_sub_countP]
  · refine congrArg _ (List.countP_congr fun block _ => ?_)
    simp [BlockSpan.isOpenAt]
  · intro block hblock hclosed
    have hordered := (braces_of_mem_blocksOf hvalid hblock).2.2
    simp only [Function.comp_apply, decide_eq_true_eq] at hclosed ⊢
    omega

/-- No block of a valid program is open at its end. -/
theorem not_isOpenAt_end {block : BlockSpan} (hblock : block ∈ blocksOf source) :
    block.isOpenAt source source.toList.length = false := by
  obtain ⟨-, hclosing, -⟩ := braces_of_mem_blocksOf hvalid hblock
  obtain ⟨hinside, -⟩ := List.getElem?_eq_some_iff.1 hclosing
  have hclosed : ¬ source.toList.length ≤ offsetOf source block.closing := by omega
  simp [BlockSpan.isOpenAt, hclosed]

end Valid

/-- A line is held back just if the text with it leaves a block open. -/
theorem Shell.pending_accept (shell : Shell) (line : String) :
    (shell.accept line).shell.pending = shell.pending ++ line ++ "\n" ↔
      0 < openBlocks (shell.pending ++ line ++ "\n") := by
  have hsome : shell.pending ++ line ++ "\n" ≠ "" := by simp
  rw [accept]
  split
  · rename_i hopen
    exact iff_of_true rfl hopen
  · rename_i hclosed
    exact iff_of_false hsome.symm hclosed

/-- The braces that a shell counts are the blocks that the parser finds. Each block of a valid
program begins and ends with a brace of the source and has its statements between them; the whole
source leaves none of them open; and a front of it, cut off anywhere, leaves as many braces open as
blocks of the program are open there. So a line is held back just if the program is inside a block
after it. -/
theorem openBlocks_counts_blocks (source : String)
    (hvalid : (Program.ofSource source).errors = []) :
    (∀ block ∈ blocksOf source, IsBlock 0 (sourceTokens source) block ∧
      source.toList[offsetOf source block.opening]? = some '\x7b' ∧
      source.toList[offsetOf source block.closing]? = some '\x7d') ∧
    Shell.openBlocks source = 0 ∧
    (∀ front, front <+: source.toList →
      0 ≤ Shell.openBlocks (String.ofList front) ∧
      Shell.openBlocks (String.ofList front) =
        (blocksOf source).countP (fun block =>
          offsetOf source block.opening < front.length &&
            front.length ≤ offsetOf source block.closing)) ∧
    ∀ (shell : Shell) (line : String),
      let text := shell.pending ++ line ++ "\n"
      text.toList <+: source.toList →
        ((shell.accept line).shell.pending = text ↔
          ∃ block ∈ blocksOf source, block.isOpenAt source text.toList.length = true) := by
  refine ⟨?_, ?_, ?_, ?_⟩
  · intro block hblock
    obtain ⟨hopening, hclosing, -⟩ := braces_of_mem_blocksOf hvalid hblock
    exact ⟨(encloses_of_errors hvalid).blocks block hblock, hopening, hclosing⟩
  · have hall := openBlocks_front hvalid (List.prefix_refl source.toList)
    rw [String.ofList_toList] at hall
    rw [hall, List.countP_eq_zero.2 fun block hblock => by simp [not_isOpenAt_end hvalid hblock]]
    rfl
  · intro front hfront
    have hcount := openBlocks_front hvalid hfront
    exact ⟨hcount ▸ Int.natCast_nonneg _, hcount⟩
  · intro shell line text hfront
    have hcount := openBlocks_front hvalid hfront
    rw [String.ofList_toList] at hcount
    rw [shell.pending_accept line, hcount, Int.natCast_pos, List.countP_pos_iff]

/-- A block in a block, with braces in a string and in a comment. -/
def nestedBlocks : String := "\x7b a = \"\x7d\";\n\x7b print a; \x7d \x7d // \x7b"

theorem openBlocks_counts_blocks_nested :
    (Program.ofSource nestedBlocks).errors = [] ∧ Shell.openBlocks nestedBlocks = 0 ∧
      (blocksOf nestedBlocks).map (fun block =>
        (offsetOf nestedBlocks block.opening, offsetOf nestedBlocks block.closing)) =
          [(0, 24), (11, 22)] ∧
      Shell.openBlocks (String.ofList (nestedBlocks.toList.take 16)) = 2 := by
  have hvalid : (Program.ofSource nestedBlocks).errors = [] :=
    List.isEmpty_iff.1 (by decide +kernel)
  obtain ⟨-, hwhole, hfront, -⟩ := openBlocks_counts_blocks nestedBlocks hvalid
  refine ⟨hvalid, hwhole, by decide +kernel, ?_⟩
  rw [(hfront _ (List.take_prefix 16 _)).2]
  decide +kernel

end Lox
