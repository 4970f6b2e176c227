import Lox.Proofs.Relocation.Scan

/-!
# The front of a text

A text that is cut off after some character keeps the pieces that end before the cut. The piece that
is cut through may leave other pieces behind, but never a brace: a brace is a piece of one
character, and what may hold the character of a brace inside is a string or a comment, of which a
string without an end or a comment is left. So the braces at the front of a text are those of the
text that begin there (`countP_front`).
-/

namespace Lox.Piece

def kind? : Piece → Option Kind
  | lexeme kind _ => some kind
  | _ => none

def braces : List (Kind × Char) :=
  [(.leftBrace, '\x7b'), (.rightBrace, '\x7d')]

/-! ## Pieces in front of less text -/

/-- Less text after a piece leaves less that could be longer. -/
theorem Stands.shorten {piece : Piece} {after front : List Char} (hstands : piece.Stands after)
    (hfront : front <+: after) : piece.Stands front := by
  have hfits {other : Piece} (hother : other.text <+: piece.text ++ front) :
      other.text <+: piece.text ++ after :=
    hother.trans ((List.prefix_append_right_inj piece.text).2 hfront)
  cases piece with
  | rejected c => exact fun other hspelled hother => hstands other hspelled (hfits hother)
  | _ => exact ⟨hstands.1, fun other hspelled hother => hstands.2 other hspelled (hfits hother)⟩

theorem Stands.pieces_append {piece : Piece} {after : List Char} (hstands : piece.Stands after) :
    pieces (piece.text ++ after) = piece :: pieces after := by
  obtain ⟨c, cs, htext⟩ := List.exists_cons_of_ne_nil hstands.text_ne_nil
  have hwhole : piece.text ++ after = c :: (cs ++ after) := by rw [htext, List.cons_append]
  rw [hwhole, pieces_cons, cut_of_stands hstands hwhole]

theorem Spelled.pieces_text {piece : Piece} (hspelled : piece.Spelled) :
    pieces piece.text = [piece] := by
  obtain ⟨c, cs, htext⟩ := List.exists_cons_of_ne_nil hspelled.text_ne_nil
  rw [htext, pieces_cons, cut_of_spelled hspelled htext, pieces]

theorem le_length_of_mem_placed {before : List Char} {list : List Piece}
    {entry : List Char × Piece} (hentry : entry ∈ placed before list) :
    before.length ≤ entry.1.length := by
  rw [placed_eq_map] at hentry
  obtain ⟨inner, -, rfl⟩ := List.mem_map.1 hentry
  simp

/-! ## Pieces with the character of a brace -/

theorem continuesWord_of_startsWord {c : Char} (hstart : startsWord c = true) :
    continuesWord c = true := by
  rw [startsWord, Bool.or_eq_true] at hstart
  rw [continuesWord, Char.isAlphanum, Bool.or_eq_true, Bool.or_eq_true]
  exact hstart.imp_left Or.inl

theorem not_mem_of_isWord {c : Char} (hcontinues : continuesWord c = false) {word : List Char}
    (hword : IsWord word) : c ∉ word := by
  cases word with
  | nil => exact List.not_mem_nil
  | cons d ds =>
    intro hmem
    have hword : continuesWord c = true := by
      rcases List.mem_cons.1 hmem with rfl | hmem
      · exact continuesWord_of_startsWord hword.1
      · exact hword.2 c hmem
    cases hcontinues.symm.trans hword

section Brace

variable {kind : Kind} {c : Char} (hbrace : (kind, c) ∈ braces)

include hbrace

theorem eq_brace : (kind = .leftBrace ∧ c = '\x7b') ∨ (kind = .rightBrace ∧ c = '\x7d') := by
  simpa [braces] using hbrace

/-- A brace is no part of a blank, a word, a number or another mark. -/
theorem brace_apart :
    isSeparator c = false ∧ continuesWord c = false ∧ c.isDigit = false ∧ c ≠ '.' ∧ c ≠ '=' ∧
      c ≠ '/' ∧ markWithEqual? c = none := by
  rcases eq_brace hbrace with ⟨-, rfl⟩ | ⟨-, rfl⟩ <;> decide

/-- If the front of a piece has the character of a brace in it and is not the whole piece, then it
is a string without an end or a comment. -/
theorem Spelled.front_of_mem_brace {piece : Piece} {front : List Char} (hspelled : piece.Spelled)
    (hfront : front <+: piece.text) (hless : front ≠ piece.text) (hmem : c ∈ front) :
    ∃ left : Piece, left.Spelled ∧ left.text = front ∧ left.kind? = none := by
  obtain ⟨hseparator, hcontinues, hdigit, hpoint, hequal, hslash, hpair⟩ := brace_apart hbrace
  have hinside : c ∈ piece.text := hfront.subset hmem
  obtain ⟨d, tail, rfl⟩ := List.exists_cons_of_ne_nil (List.ne_nil_of_mem hmem)
  cases hspelled with
  | blank _ hall => exact absurd (hall c hinside) (by simp [hseparator])
  | @comment body hbody =>
    obtain ⟨rfl, htail⟩ := List.cons_prefix_cons.1 hfront
    rcases List.prefix_cons_iff.1 htail with rfl | ⟨start, rfl, hstart⟩
    · exact absurd (List.mem_singleton.1 hmem) hslash
    · exact ⟨.comment ('/' :: '/' :: start), .comment fun hend => hbody (hstart.subset hend), rfl,
        rfl⟩
  | reserved hword | identifier hword =>
    exact absurd hinside (not_mem_of_isWord hcontinues hword)
  | integer _ hall => exact absurd (hall c hinside) (by simp [hdigit])
  | fraction _ hall _ hall' =>
    rcases List.mem_append.1 hinside with hinside | hinside
    · exact absurd (hall c hinside) (by simp [hdigit])
    · rcases List.mem_cons.1 hinside with hinside | hinside
      · exact absurd hinside hpoint
      · exact absurd (hall' c hinside) (by simp [hdigit])
  | @string body hbody =>
    obtain ⟨rfl, htail⟩ := List.cons_prefix_cons.1 hfront
    rcases List.prefix_concat_iff.1 htail with rfl | htail
    · exact absurd rfl hless
    · exact ⟨.openString ('"' :: tail), .openString fun hend => hbody (htail.subset hend), rfl, rfl⟩
  | @openString body hbody =>
    obtain ⟨rfl, htail⟩ := List.cons_prefix_cons.1 hfront
    exact ⟨.openString ('"' :: tail), .openString fun hend => hbody (htail.subset hend), rfl, rfl⟩
  | mark hmark =>
    obtain ⟨rfl, htail⟩ := List.cons_prefix_cons.1 hfront
    exact absurd (by rw [List.prefix_nil.1 htail]; rfl) hless
  | markWithEqual hmark =>
    rcases List.mem_cons.1 hinside with rfl | hinside
    · cases hpair.symm.trans hmark
    · exact absurd (List.mem_singleton.1 hinside) hequal

theorem eq_brace_of_mark? {d : Char} (hmark : mark? d = some kind) : d = c := by
  have hkind := eq_brace hbrace
  unfold mark? at hmark
  split at hmark <;> grind

theorem Spelled.text_brace {text : List Char} (hspelled : (lexeme kind text).Spelled) :
    text = [c] := by
  have hkind : kind = .leftBrace ∨ kind = .rightBrace := (eq_brace hbrace).imp And.left And.left
  cases hspelled with
  | mark hmark => rw [eq_brace_of_mark? hbrace hmark]
  | markWithEqual hmark =>
    unfold markWithEqual? at hmark
    split at hmark <;> grind
  | reserved _ hreserved =>
    rcases hkind with rfl | rfl <;> exact absurd hreserved (by decide)
  | identifier | integer | fraction | string => grind

/-- The character of a brace is in a text that has the brace as a piece. -/
theorem mem_of_brace_mem_pieces {cs : List Char} {piece : Piece} (hmem : piece ∈ pieces cs)
    (hkind : piece.kind? = some kind) : c ∈ cs := by
  obtain ⟨after, hstands⟩ := (allStand_pieces cs).stands hmem
  cases piece with
  | lexeme other text =>
    cases hkind
    obtain rfl := Spelled.text_brace hbrace hstands.1
    rw [← text_pieces cs]
    exact List.mem_flatMap.2 ⟨_, hmem, List.mem_singleton_self c⟩
  | _ => cases hkind

/-- What a piece leaves behind when it is cut through holds no brace. -/
theorem not_brace_of_front {piece : Piece} {after front : List Char} (hstands : piece.Stands after)
    (hfront : front <+: piece.text) (hless : front ≠ piece.text) :
    ∀ other ∈ pieces front, other.kind? ≠ some kind := by
  intro other hother hkind
  have hmem := mem_of_brace_mem_pieces hbrace hother hkind
  have hspelled : piece.Spelled := by
    cases piece with
    | rejected d =>
      -- of a single character only the whole is a front with something in it
      rcases List.prefix_cons_iff.1 hfront with rfl | ⟨tail, rfl, htail⟩
      · cases hmem
      · exact absurd (by rw [List.prefix_nil.1 htail]; rfl) hless
    | _ => exact hstands.1
  obtain ⟨left, hleft, rfl, hnone⟩ := hspelled.front_of_mem_brace hbrace hfront hless hmem
  rw [hleft.pieces_text, List.mem_singleton] at hother
  rw [hother, hnone] at hkind
  cases hkind

/-- No brace begins in a piece that is cut through, nor after it. -/
theorem not_brace_of_placed {piece : Piece} {after before front : List Char}
    (hstands : piece.Stands after) (hfront : front <+: piece.text) (hless : front ≠ piece.text)
    {rest : List Piece} {entry : List Char × Piece} (hentry : entry ∈ placed before (piece :: rest))
    (hinside : entry.1.length < before.length + front.length) : entry.2.kind? ≠ some kind := by
  have hshort : front.length < piece.text.length :=
    Nat.lt_of_le_of_ne hfront.length_le fun heq => hless (hfront.eq_of_length heq)
  rcases List.mem_cons.1 hentry with rfl | hentry
  · intro hkind
    cases piece with
    | lexeme other text =>
      cases hkind
      rw [text_lexeme, Spelled.text_brace hbrace hstands.1, List.length_singleton] at hshort
      change before.length < _ at hinside
      omega
    | _ => cases hkind
  · have hbehind := le_length_of_mem_placed hentry
    rw [List.length_append] at hbehind
    omega

/-! ## Braces at the front -/

/-- The braces at the front of a text are those of the text that begin there. -/
theorem countP_front (cs : List Char) (before : List Char) {front : List Char}
    (hfront : front <+: cs) :
    (pieces front).countP (·.kind? = some kind) =
      (placed before (pieces cs)).countP fun entry =>
        entry.2.kind? = some kind && entry.1.length < before.length + front.length := by
  fun_induction pieces cs generalizing before front with
  | case1 =>
    rw [List.prefix_nil.1 hfront, pieces]
    rfl
  | case2 d rest ih =>
    have hstands := stands_cut d rest
    rw [← text_cut d rest] at hfront
    generalize (cut d rest).1 = piece at *
    generalize (cut d rest).2 = after at *
    by_cases hwhole : piece.text <+: front
    · obtain ⟨more, rfl⟩ := hwhole
      have hmore : more <+: after := (List.prefix_append_right_inj _).1 hfront
      have hsome := List.length_pos_iff.2 hstands.text_ne_nil
      have hinside : before.length < before.length + (piece.text.length + more.length) := by
        omega
      rw [(hstands.shorten hmore).pieces_append, placed, List.countP_cons, List.countP_cons,
        ih (before ++ piece.text) hmore]
      simp only [hinside, decide_true, Bool.and_true, List.length_append, Nat.add_assoc]
    · have hcut : front <+: piece.text :=
        (List.prefix_or_prefix_of_prefix hfront (List.prefix_append _ _)).resolve_right hwhole
      have hless : front ≠ piece.text := fun heq => hwhole (heq ▸ List.prefix_refl _)
      rw [List.countP_eq_zero.2, List.countP_eq_zero.2]
      · intro entry hentry
        rw [Bool.and_eq_true, decide_eq_true_eq, decide_eq_true_eq]
        rintro ⟨hkind, hinside⟩
        exact not_brace_of_placed hbrace hstands hcut hless hentry hinside hkind
      · intro other hother
        simpa using not_brace_of_front hbrace hstands hcut hless other hother

end Brace

/-! ## Tokens in their places -/

/-- The tokens of some pieces that follow some text, each with the number of characters before
it. -/
def located (before : List Char) (list : List Piece) : List (Nat × Token) :=
  (placed before list).filterMap fun entry =>
    (entry.2.token? (lineAfter entry.1)).map (entry.1.length, ·)

theorem located_map_snd (before : List Char) (list : List Piece) :
    (located before list).map Prod.snd = gather token? before list := by
  rw [located, gather, List.map_filterMap]
  refine congrArg (List.filterMap · _) (funext fun entry => ?_)
  cases entry.2.token? (lineAfter entry.1) <;> rfl

/-- The token of a place is that of the piece there. -/
theorem mem_located {before : List Char} {list : List Piece} {offset : Nat} {t : Token}
    (hmem : (offset, t) ∈ located before list) :
    ∃ entry ∈ placed before list, entry.1.length = offset ∧ entry.2.kind? = some t.kind := by
  obtain ⟨⟨start, piece⟩, hentry, hpick⟩ := List.mem_filterMap.1 hmem
  cases piece with
  | lexeme kind text =>
    cases hpick
    exact ⟨_, hentry, rfl, rfl⟩
  | _ => cases hpick

theorem countP_located (kind : Kind) (within : Nat → Bool) (before : List Char)
    (list : List Piece) :
    (located before list).countP (fun entry => entry.2.kind = kind && within entry.1) =
      (placed before list).countP fun entry =>
        entry.2.kind? = some kind && within entry.1.length := by
  rw [located, List.countP_filterMap]
  refine congrArg (List.countP · _) (funext fun entry => ?_)
  cases entry.2 <;> simp [token?, kind?]

theorem countP_gather_token? (kind : Kind) (before : List Char) (list : List Piece) :
    (gather token? before list).countP (·.kind = kind) = list.countP (·.kind? = some kind) := by
  have hlocated := countP_located kind (fun _ => true) before list
  simp only [Bool.and_true] at hlocated
  conv => rhs; rw [← placed_map_snd before list]
  rw [← located_map_snd, List.countP_map, List.countP_map]
  exact hlocated

theorem pairwise_placed {list : List Piece} (hlist : AllStand list) (before : List Char) :
    (placed before list).Pairwise fun entry later => entry.1.length < later.1.length := by
  induction list generalizing before with
  | nil => exact .nil
  | cons piece rest ih =>
    refine .cons ?_ (ih hlist.2 _)
    intro later hlater
    have hbehind := le_length_of_mem_placed hlater
    have hsome := List.length_pos_iff.2 hlist.1.text_ne_nil
    rw [List.length_append] at hbehind
    change before.length < later.1.length
    omega

/-- Tokens are in their places from the left to the right. -/
theorem pairwise_located {list : List Piece} (hlist : AllStand list) (before : List Char) :
    (located before list).Pairwise fun entry later => entry.1 < later.1 := by
  refine (pairwise_placed hlist before).filterMap _ ?_
  intro entry later hless place hplace place' hplace'
  obtain ⟨t, -, rfl⟩ := Option.map_eq_some_iff.1 hplace
  obtain ⟨t', -, rfl⟩ := Option.map_eq_some_iff.1 hplace'
  exact hless

/-- A piece in its place is part of the text. -/
theorem text_of_mem_placed {before : List Char} {list : List Piece} {entry : List Char × Piece}
    (hentry : entry ∈ placed before list) :
    ∃ after, before ++ list.flatMap text = entry.1 ++ (entry.2.text ++ after) := by
  induction list generalizing before with
  | nil => cases hentry
  | cons piece rest ih =>
    rw [List.flatMap_cons]
    rcases List.mem_cons.1 hentry with rfl | hentry
    · exact ⟨_, rfl⟩
    · obtain ⟨after, hafter⟩ := ih hentry
      exact ⟨after, by rw [← hafter, List.append_assoc]⟩

/-- Where the token of a brace is, there is its character. -/
theorem getElem?_of_located_brace {kind : Kind} {c : Char} (hbrace : (kind, c) ∈ braces)
    {cs : List Char} {offset : Nat} {t : Token} (hmem : (offset, t) ∈ located [] (pieces cs))
    (hkind : t.kind = kind) : cs[offset]? = some c := by
  obtain ⟨⟨start, piece⟩, hentry, rfl, hpiece⟩ := mem_located hmem
  obtain ⟨after, hafter⟩ := text_of_mem_placed hentry
  have hpieces : piece ∈ pieces cs := by
    rw [← placed_map_snd [] (pieces cs)]
    exact List.mem_map_of_mem hentry
  obtain ⟨_, hstands⟩ := (allStand_pieces cs).stands hpieces
  cases piece with
  | lexeme other text =>
    cases hpiece
    subst hkind
    rw [List.nil_append, text_pieces, text_lexeme, Spelled.text_brace hbrace hstands.1] at hafter
    simp [hafter]
  | _ => cases hpiece

end Lox.Piece
