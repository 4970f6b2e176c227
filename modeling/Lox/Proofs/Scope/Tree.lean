import Lox.Proofs.Scope.Site
import Lox.Scope.Operation

/-!
# Scopes that share their surroundings

Several scopes may lie in the same scope, so that a binding which changes there is seen from all of
them, unless a nearer scope hides it. Every operation either leaves the bindings of a tree alone or
gives one name a value in one scope (`ScopeTree.Changes`), and what this does to the rest is told by
one question: whether the way outward from a scope comes to the changed one before it meets the name
(`ScopeTree.Reaches`).

In a tree that has been built by operations a scope is newer than its parent and binds no name twice
(`ScopeTree.Sound`), and this is all that the laws rest on. Seen from one scope, the operations on a
tree are those on the chain of scopes that a program runs in (`ScopeTree.chain_assign?`).
-/

namespace Lox

/-! ## Bindings -/

namespace Bindings

variable {bindings : Bindings} {name other : Name} {value : Value}

theorem get?_cons (entry : Name × Value) :
    get? (entry :: bindings) name =
      if entry.1.normal = name.normal then some entry.2 else bindings.get? name := by
  by_cases h : entry.1.normal = name.normal <;> simp [get?, h]

theorem get?_put : (bindings.put name value).get? other =
    if name.normal = other.normal then some value else bindings.get? other := by
  induction bindings with
  | nil => rw [put, get?_cons]
  | cons entry rest ih =>
    rw [put]
    split
    · next hentry =>
      rw [get?_cons, get?_cons, hentry]
      split <;> rfl
    · next hentry =>
      rw [get?_cons, get?_cons, ih]
      split
      · next hother => rw [if_neg fun hname => hentry (hother.trans hname.symm)]
      · rfl

def Distinct (bindings : Bindings) : Prop :=
  (bindings.map fun entry => entry.1.normal).Nodup

/-- The one binding of a name has a new value. It keeps its place and the name as it was written. -/
def Replaces (name : Name) (value : Value) (bindings after : Bindings) : Prop :=
  ∃ before written old rest, bindings = before ++ (written, old) :: rest ∧
    after = before ++ (written, value) :: rest ∧ written.normal = name.normal ∧
    ∀ entry ∈ before ++ rest, entry.1.normal ≠ name.normal

theorem binds_eq_false : bindings.binds name = false ↔
    ∀ entry ∈ bindings, entry.1.normal ≠ name.normal := by
  induction bindings with
  | nil => simp [binds, get?]
  | cons entry rest ih => simp [binds_cons, ih]

theorem put_of_not_binds (hbinds : bindings.binds name = false) :
    bindings.put name value = bindings ++ [(name, value)] := by
  induction bindings with
  | nil => rfl
  | cons entry rest ih =>
    obtain ⟨hentry, hrest⟩ := List.forall_mem_cons.1 (binds_eq_false.1 hbinds)
    rw [put, if_neg hentry, ih (binds_eq_false.2 hrest), List.cons_append]

theorem replaces_put (hdistinct : bindings.Distinct) (hbinds : bindings.binds name = true) :
    Replaces name value bindings (bindings.put name value) := by
  induction bindings with
  | nil => cases hbinds
  | cons entry rest ih =>
    obtain ⟨hnew, hrest⟩ := List.nodup_cons.1 hdistinct
    rw [put]
    split
    · next hentry =>
      refine ⟨[], entry.1, entry.2, rest, rfl, rfl, hentry, fun later hlater hsame => hnew ?_⟩
      exact List.mem_map.2 ⟨later, hlater, hsame.trans hentry.symm⟩
    · next hentry =>
      rw [binds_cons, decide_eq_false hentry, Bool.false_or] at hbinds
      obtain ⟨before, written, old, after, rfl, hput, hwritten, hothers⟩ := ih hrest hbinds
      exact ⟨entry :: before, written, old, after, rfl, congrArg (entry :: ·) hput, hwritten,
        List.forall_mem_cons.2 ⟨hentry, hothers⟩⟩

theorem Distinct.put (hdistinct : bindings.Distinct) : (bindings.put name value).Distinct := by
  cases hbinds : bindings.binds name with
  | true =>
    obtain ⟨before, written, old, rest, rfl, hput, -, -⟩ :=
      @replaces_put _ _ value hdistinct hbinds
    rw [hput]
    simpa [Distinct] using hdistinct
  | false =>
    rw [put_of_not_binds hbinds, Distinct, List.map_append, List.nodup_append]
    refine ⟨hdistinct, List.pairwise_singleton _ _, fun taken htaken new hnew => ?_⟩
    obtain ⟨entry, hentry, rfl⟩ := List.mem_map.1 htaken
    rw [List.mem_singleton.1 hnew]
    exact binds_eq_false.1 hbinds entry hentry

end Bindings

namespace ScopeTree

variable {tree : ScopeTree} {scope other viewer parent : Nat} {name : Name} {value : Value}
  {path : List Nat}

/-! ## Parents -/

/-- A scope is newer than its parent, and it binds no name twice. -/
structure Sound (tree : ScopeTree) : Prop where
  parent_lt : ∀ {scope parent : Nat} {bindings : Bindings},
    tree.scopes[scope]? = some ⟨some parent, bindings⟩ → parent < scope
  distinct : ∀ entry ∈ tree.scopes, entry.bindings.Distinct

/-- The scopes from one outward, from parent to parent. -/
inductive ParentPath (tree : ScopeTree) : Nat → List Nat → Prop where
  | outermost {scope : Nat} {bindings : Bindings}
    (hscope : tree.scopes[scope]? = some ⟨none, bindings⟩) : ParentPath tree scope [scope]
  | inner {scope parent : Nat} {bindings : Bindings} {path : List Nat}
    (hscope : tree.scopes[scope]? = some ⟨some parent, bindings⟩)
    (hparent : ParentPath tree parent path) : ParentPath tree scope (scope :: path)

theorem ParentPath.unique {path path' : List Nat} (h : tree.ParentPath scope path)
    (h' : tree.ParentPath scope path') : path = path' := by
  induction h generalizing path' with
  | outermost hscope =>
    cases h' with
    | outermost => rfl
    | inner hscope' =>
      rw [hscope] at hscope'
      cases hscope'
  | inner hscope _ ih =>
    cases h' with
    | outermost hscope' =>
      rw [hscope] at hscope'
      cases hscope'
    | inner hscope' hparent' =>
      rw [hscope] at hscope'
      cases hscope'
      exact congrArg (_ :: ·) (ih hparent')

theorem ParentPath.lt_length (h : tree.ParentPath scope path) : scope < tree.scopes.length := by
  cases h with
  | outermost hscope | inner hscope => exact (List.getElem?_eq_some_iff.1 hscope).1

theorem ParentPath.exists_cons (h : tree.ParentPath scope path) :
    ∃ outer, path = scope :: outer := by
  cases h with
  | outermost | inner => exact ⟨_, rfl⟩

theorem ParentPath.le_of_mem (hsound : tree.Sound) (h : tree.ParentPath scope path)
    (hmem : other ∈ path) : other ≤ scope := by
  induction h with
  | outermost => exact Nat.le_of_eq (List.mem_singleton.1 hmem)
  | inner hscope _ ih =>
    have hparent := hsound.parent_lt hscope
    rcases List.mem_cons.1 hmem with rfl | hmem
    · exact Nat.le_refl _
    · have hle := ih hmem
      omega

theorem ParentPath.nodup (hsound : tree.Sound) (h : tree.ParentPath scope path) : path.Nodup := by
  induction h with
  | outermost => exact List.pairwise_singleton _ _
  | inner hscope hparent ih =>
    have hlt := hsound.parent_lt hscope
    refine List.nodup_cons.2 ⟨fun hmem => ?_, ih⟩
    have hle := hparent.le_of_mem hsound hmem
    omega

theorem parentPath_pathUpTo (hsound : tree.Sound) {count : Nat} (hcount : scope < count)
    (hscope : scope < tree.scopes.length) : tree.ParentPath scope (tree.pathUpTo count scope) := by
  induction count generalizing scope with
  | zero => omega
  | succ count ih =>
    obtain ⟨entry, hentry⟩ : ∃ entry, tree.scopes[scope]? = some entry :=
      ⟨_, List.getElem?_eq_getElem hscope⟩
    obtain ⟨above, bindings⟩ := entry
    rw [pathUpTo, hentry]
    cases above with
    | none => exact .outermost hentry
    | some parent =>
      have hparent := hsound.parent_lt hentry
      exact .inner hentry (ih (by omega) (by omega))

theorem parentPath_path (hsound : tree.Sound) (hscope : scope < tree.scopes.length) :
    tree.ParentPath scope (tree.path scope) :=
  parentPath_pathUpTo hsound hscope hscope

/-- The way outward from a scope is the one from parent to parent. -/
theorem ParentPath.eq_path (hsound : tree.Sound) (h : tree.ParentPath scope path) :
    path = tree.path scope :=
  h.unique (parentPath_path hsound h.lt_length)

/-! ## What a scope sees -/

/-- The value of a name in the first of some scopes that binds it. -/
def along (tree : ScopeTree) (path : List Nat) (name : Name) : Option Value :=
  path.findSome? fun scope => (tree.bindings scope).get? name

theorem get?_eq_along (tree : ScopeTree) (scope : Nat) (name : Name) :
    tree.get? scope name = tree.along (tree.path scope) name := by
  rw [get?, chain, Scopes.get?, List.findSome?_map]
  rfl

theorem along_cons (tree : ScopeTree) (scope : Nat) (path : List Nat) (name : Name) :
    tree.along (scope :: path) name =
      ((tree.bindings scope).get? name).or (tree.along path name) := by
  rw [along, List.findSome?_cons]
  cases (tree.bindings scope).get? name <;> rfl

theorem along_append (tree : ScopeTree) (nearer outer : List Nat) (name : Name) :
    tree.along (nearer ++ outer) name = (tree.along nearer name).or (tree.along outer name) :=
  List.findSome?_append

theorem along_eq_none {tree : ScopeTree} {path : List Nat} {name : Name} :
    tree.along path name = none ↔ ∀ scope ∈ path, (tree.bindings scope).binds name = false := by
  simp [along, Bindings.binds]

theorem along_congr {after : ScopeTree}
    (hpath : ∀ scope ∈ path,
      (after.bindings scope).get? name = (tree.bindings scope).get? name) :
    after.along path name = tree.along path name := by
  induction path with
  | nil => rfl
  | cons scope path ih =>
    obtain ⟨hscope, hpath⟩ := List.forall_mem_cons.1 hpath
    rw [along_cons, along_cons, hscope, ih hpath]

/-- On the way outward from a scope, another one is reached without meeting a name before. -/
def Reaches (tree : ScopeTree) (viewer : Nat) (name : Name) (scope : Nat) : Prop :=
  ∃ nearer outer, tree.ParentPath viewer (nearer ++ scope :: outer) ∧
    ∀ inner ∈ nearer, (tree.bindings inner).binds name = false

theorem Reaches.lt_length (hsound : tree.Sound) (h : tree.Reaches viewer name scope) :
    scope < tree.scopes.length := by
  obtain ⟨nearer, outer, hpath, -⟩ := h
  have hle := hpath.le_of_mem hsound (List.mem_append_right nearer List.mem_cons_self)
  have hlt := hpath.lt_length
  omega

theorem Reaches.refl (hsound : tree.Sound) (hscope : scope < tree.scopes.length) (name : Name) :
    tree.Reaches scope name scope := by
  have hpath := parentPath_path hsound hscope
  obtain ⟨outer, houter⟩ := hpath.exists_cons
  rw [houter] at hpath
  exact ⟨[], outer, hpath, List.forall_mem_nil _⟩

/-- A name is met on the way outward, and then its nearest binding is what is seen, or it is not. -/
theorem met_or_not (hsound : tree.Sound) (hscope : scope < tree.scopes.length) (name : Name) :
    (∃ owner found, tree.Reaches scope name owner ∧
      (tree.bindings owner).get? name = some found ∧
      tree.owner? scope name = some owner ∧ tree.get? scope name = some found) ∨
    ((∀ outer ∈ tree.path scope, (tree.bindings outer).binds name = false) ∧
      tree.owner? scope name = none ∧ tree.get? scope name = none) := by
  cases howner : tree.owner? scope name with
  | none =>
    have hnone : ∀ outer ∈ tree.path scope, (tree.bindings outer).binds name = false := by
      simpa [owner?] using howner
    exact .inr ⟨hnone, rfl, (get?_eq_along tree scope name).trans (along_eq_none.2 hnone)⟩
  | some owner =>
    obtain ⟨hbinds, nearer, outer, hpath, hnearer⟩ := List.find?_eq_some_iff_append.1 howner
    obtain ⟨found, hfound⟩ := Option.isSome_iff_exists.1 hbinds
    have hnearer : ∀ inner ∈ nearer, (tree.bindings inner).binds name = false := by
      simpa using hnearer
    refine .inl ⟨owner, found, ⟨nearer, outer, ?_, hnearer⟩, hfound, rfl, ?_⟩
    · rw [← hpath]
      exact parentPath_path hsound hscope
    · rw [get?_eq_along, hpath, along_append, along_eq_none.2 hnearer, Option.none_or, along_cons,
        hfound, Option.some_or]

/-! ## New values -/

theorem getElem?_define (tree : ScopeTree) (scope : Nat) (name : Name) (value : Value)
    (other : Nat) :
    (tree.define scope name value).scopes[other]? = tree.scopes[other]?.map fun entry =>
      if scope = other then { entry with bindings := entry.bindings.put name value } else entry :=
  List.getElem?_modify _ _ _ _

theorem bindings_define_self (hscope : scope < tree.scopes.length) :
    (tree.define scope name value).bindings scope = (tree.bindings scope).put name value := by
  rw [bindings, bindings, getElem?_define, List.getElem?_eq_getElem hscope]
  simp

theorem bindings_define_of_ne (hother : other ≠ scope) :
    (tree.define scope name value).bindings other = tree.bindings other := by
  rw [bindings, bindings, getElem?_define]
  simp [hother.symm]

theorem pathUpTo_define (count : Nat) :
    (tree.define scope name value).pathUpTo count other = tree.pathUpTo count other := by
  induction count generalizing other with
  | zero => rfl
  | succ count ih =>
    rw [pathUpTo, pathUpTo, getElem?_define]
    cases tree.scopes[other]? with
    | none => rfl
    | some entry =>
      have hparent : (if scope = other then
          { entry with bindings := entry.bindings.put name value } else entry).parent =
          entry.parent := by split <;> rfl
      simp only [Option.map_some, hparent, ih]

theorem length_define : (tree.define scope name value).scopes.length = tree.scopes.length :=
  List.length_modify _ _ _

theorem path_define : (tree.define scope name value).path other = tree.path other := by
  rw [path, path, length_define, pathUpTo_define]

/-- From where the way outward comes to a scope before it meets a name, the new value is seen. -/
theorem get?_define_of_reaches (hsound : tree.Sound) (hreaches : tree.Reaches viewer name scope)
    (hscope : scope < tree.scopes.length) :
    (tree.define scope name value).get? viewer name = some value := by
  obtain ⟨nearer, outer, hpath, hnearer⟩ := hreaches
  have hnodup := hpath.nodup hsound
  have hapart : ∀ inner ∈ nearer, inner ≠ scope := by
    rintro inner hinner rfl
    exact (List.nodup_append.1 hnodup).2.2 inner hinner inner List.mem_cons_self rfl
  have hmissed : (tree.define scope name value).along nearer name = none := by
    apply along_eq_none.2
    intro inner hinner
    rw [bindings_define_of_ne (hapart inner hinner)]
    exact hnearer inner hinner
  rw [get?_eq_along, path_define, ← hpath.eq_path hsound, along_append, hmissed, Option.none_or,
    along_cons, bindings_define_self hscope, Bindings.get?_put, if_pos rfl, Option.some_or]

/-- Another name is seen as before, from everywhere. -/
theorem get?_define_of_ne (hscope : scope < tree.scopes.length) {other : Name}
    (hother : name.normal ≠ other.normal) :
    (tree.define scope name value).get? viewer other = tree.get? viewer other := by
  rw [get?_eq_along, get?_eq_along, path_define]
  apply along_congr
  intro outer _
  by_cases houter : outer = scope
  · rw [houter, bindings_define_self hscope, Bindings.get?_put, if_neg hother]
  · rw [bindings_define_of_ne houter]

/-- From where the changed scope is not reached, or the name is met before, all is seen as
before. -/
theorem get?_define_of_not_reaches (hsound : tree.Sound) (hviewer : viewer < tree.scopes.length)
    (hreaches : ¬ tree.Reaches viewer name scope) :
    (tree.define scope name value).get? viewer name = tree.get? viewer name := by
  rw [get?_eq_along, get?_eq_along, path_define]
  by_cases hmem : scope ∈ tree.path viewer
  · obtain ⟨nearer, outer, hpath, happart⟩ := List.eq_append_cons_of_mem hmem
    have hsame : (tree.define scope name value).along nearer name = tree.along nearer name := by
      apply along_congr
      intro inner hinner
      have hne : inner ≠ scope := by
        rintro rfl
        exact happart hinner
      rw [bindings_define_of_ne hne]
    -- the name is met before the changed scope, and what lies behind does not matter
    obtain ⟨found, hfound⟩ : ∃ found, tree.along nearer name = some found := by
      apply Option.ne_none_iff_exists'.1
      intro hnone
      apply hreaches
      refine ⟨nearer, outer, ?_, along_eq_none.1 hnone⟩
      rw [← hpath]
      exact parentPath_path hsound hviewer
    rw [hpath, along_append, along_append, hsame, hfound, Option.some_or, Option.some_or]
  · apply along_congr
    intro outer houter
    have hne : outer ≠ scope := by
      rintro rfl
      exact hmem houter
    rw [bindings_define_of_ne hne]

theorem Sound.define (hsound : tree.Sound) : (tree.define scope name value).Sound where
  parent_lt := by
    intro child parent bindings hchild
    rw [getElem?_define] at hchild
    obtain ⟨entry, hentry, hparent⟩ := Option.map_eq_some_iff.1 hchild
    obtain ⟨above, old⟩ := entry
    have habove : above = some parent := by
      split at hparent <;> cases hparent <;> rfl
    subst habove
    exact hsound.parent_lt hentry
  distinct := by
    intro entry hmem
    obtain ⟨child, hchild⟩ := List.mem_iff_getElem?.1 hmem
    rw [getElem?_define] at hchild
    obtain ⟨old, hold, rfl⟩ := Option.map_eq_some_iff.1 hchild
    have hdistinct := hsound.distinct old (List.mem_of_getElem? hold)
    split
    · exact hdistinct.put
    · exact hdistinct

/-! ## New scopes -/

theorem getElem?_push_of_lt (hscope : scope < tree.scopes.length) :
    (tree.push parent).scopes[scope]? = tree.scopes[scope]? :=
  List.getElem?_append_left hscope

theorem getElem?_push_self (tree : ScopeTree) (parent : Nat) :
    (tree.push parent).scopes[tree.scopes.length]? = some ⟨some parent, []⟩ :=
  List.getElem?_concat_length

theorem length_push : (tree.push parent).scopes.length = tree.scopes.length + 1 := by
  simp [push]

theorem Sound.push (hsound : tree.Sound) (hparent : parent < tree.scopes.length) :
    (tree.push parent).Sound where
  parent_lt := by
    intro child above bindings hchild
    have hlt : child < tree.scopes.length + 1 := by
      rw [← length_push]
      exact (List.getElem?_eq_some_iff.1 hchild).1
    by_cases hnew : child = tree.scopes.length
    · rw [hnew, getElem?_push_self] at hchild
      cases hchild
      omega
    · rw [getElem?_push_of_lt (by omega)] at hchild
      exact hsound.parent_lt hchild
  distinct := by
    intro entry hmem
    rcases List.mem_append.1 hmem with hmem | hmem
    · exact hsound.distinct entry hmem
    · rw [List.mem_singleton.1 hmem]
      exact List.nodup_nil

theorem ParentPath.push (h : tree.ParentPath scope path) (parent : Nat) :
    (tree.push parent).ParentPath scope path := by
  induction h with
  | outermost hscope =>
    have hlt := (List.getElem?_eq_some_iff.1 hscope).1
    exact .outermost ((getElem?_push_of_lt hlt).trans hscope)
  | inner hscope _ ih =>
    have hlt := (List.getElem?_eq_some_iff.1 hscope).1
    exact .inner ((getElem?_push_of_lt hlt).trans hscope) ih

/-- A scope that has just been made binds nothing, no more than one that is not there. -/
theorem bindings_push : (tree.push parent).bindings = tree.bindings := by
  funext scope
  rw [bindings, bindings, push, List.getElem?_append]
  split
  · rfl
  · next hscope =>
    rw [List.getElem?_eq_none (Nat.le_of_not_lt hscope), List.getElem?_singleton]
    split <;> rfl

theorem get?_push_of_lt (hsound : tree.Sound) (hparent : parent < tree.scopes.length)
    (hviewer : viewer < tree.scopes.length) :
    (tree.push parent).get? viewer name = tree.get? viewer name := by
  have hpath := (parentPath_path hsound hviewer).push parent
  rw [get?, get?, chain, chain, ← hpath.eq_path (hsound.push hparent), bindings_push]

theorem path_push_self (hsound : tree.Sound) (hparent : parent < tree.scopes.length) :
    (tree.push parent).path tree.scopes.length = tree.scopes.length :: tree.path parent := by
  have hpath := (parentPath_path hsound hparent).push parent
  exact ((ParentPath.inner (getElem?_push_self tree parent) hpath).eq_path
    (hsound.push hparent)).symm

/-- The chain of a new scope is that of its parent with an empty scope in front. -/
theorem chain_push (hsound : tree.Sound) (hparent : parent < tree.scopes.length) :
    (tree.push parent).chain tree.scopes.length = [] :: tree.chain parent := by
  have hnew : tree.bindings tree.scopes.length = [] := by
    rw [bindings, List.getElem?_eq_none (Nat.le_refl _)]
    rfl
  rw [chain, chain, path_push_self hsound hparent, bindings_push, List.map_cons, hnew]

/-- From a new scope all is seen as from its parent. -/
theorem get?_push_self (hsound : tree.Sound) (hparent : parent < tree.scopes.length) :
    (tree.push parent).get? tree.scopes.length name = tree.get? parent name := by
  rw [get?, get?, chain_push hsound hparent]
  rfl

/-! ## The chain of one scope -/

theorem map_bindings_define {path : List Nat} (hscope : scope ∉ path) :
    path.map (tree.define scope name value).bindings = path.map tree.bindings := by
  apply List.map_congr_left
  intro outer houter
  apply bindings_define_of_ne
  rintro rfl
  exact hscope houter

/-- A definition acts on the chain of its scope as one in the innermost scope. -/
theorem chain_define (hsound : tree.Sound) (hscope : scope < tree.scopes.length) :
    (tree.define scope name value).chain scope = (tree.chain scope).define name value := by
  have hpath := parentPath_path hsound hscope
  obtain ⟨outer, houter⟩ := hpath.exists_cons
  rw [houter] at hpath
  rw [chain, chain, path_define, houter, List.map_cons, List.map_cons, bindings_define_self hscope,
    map_bindings_define (List.nodup_cons.1 (hpath.nodup hsound)).1]
  rfl

theorem assign?_map_bindings {path : List Nat} (hpath : path.Nodup)
    (hlt : ∀ scope ∈ path, scope < tree.scopes.length) :
    Scopes.assign? name value (path.map tree.bindings) =
      (path.find? fun scope => (tree.bindings scope).binds name).map fun owner =>
        path.map (tree.define owner name value).bindings := by
  induction path with
  | nil => rfl
  | cons scope path ih =>
    obtain ⟨hnew, hpath⟩ := List.nodup_cons.1 hpath
    obtain ⟨hscope, hlt⟩ := List.forall_mem_cons.1 hlt
    rw [List.map_cons, Scopes.assign?_cons, List.find?_cons]
    cases hbinds : (tree.bindings scope).binds name with
    | true =>
      show some (_ :: _) = some (_ :: _)
      rw [bindings_define_self hscope, map_bindings_define hnew]
    | false =>
      show (Scopes.assign? name value _).map _ = _
      rw [ih hpath hlt, Option.map_map]
      apply Option.map_congr
      intro owner howner
      have hne : scope ≠ owner := by
        rintro rfl
        exact hnew (List.mem_of_find?_eq_some howner)
      show _ :: _ = _ :: _
      rw [bindings_define_of_ne hne]

/-- An assignment in a tree acts on the chain of its scope as one in a chain of scopes. -/
theorem chain_assign? (hsound : tree.Sound) (hscope : scope < tree.scopes.length) :
    (tree.assign? scope name value).map (·.chain scope) =
      (tree.chain scope).assign? name value := by
  have hpath := parentPath_path hsound hscope
  have hlt : ∀ outer ∈ tree.path scope, outer < tree.scopes.length := by
    intro outer houter
    have hle := hpath.le_of_mem hsound houter
    omega
  rw [chain, assign?_map_bindings (hpath.nodup hsound) hlt, assign?, owner?, Option.map_map]
  apply congrArg (Option.map · _)
  funext owner
  show (tree.define owner name value).chain scope = _
  rw [chain, path_define]

/-! ## Operations -/

/-- A name is given a value in one scope, and nothing else is done: the scopes have the parents that
they had, all other scopes bind what they bound, and in this one the value of the name is replaced,
or the name is added to those that are bound. The value is seen from where this scope is reached
before the name is met. From everywhere else, and whatever other variable is read, the answer is
what it was. -/
structure Changes (tree : ScopeTree) (scope : Nat) (name : Name) (value : Value)
    (after : ScopeTree) : Prop where
  parents : after.scopes.map (·.parent) = tree.scopes.map (·.parent)
  elsewhere : ∀ other, other ≠ scope → after.bindings other = tree.bindings other
  replaces : (tree.bindings scope).binds name = true →
    Bindings.Replaces name value (tree.bindings scope) (after.bindings scope)
  adds : (tree.bindings scope).binds name = false →
    after.bindings scope = tree.bindings scope ++ [(name, value)]
  seen : ∀ viewer (mention : Mention), mention.name.normal = name.normal →
    tree.Reaches viewer name scope →
    after.perform (.get viewer mention) = (.ok (.value value), after)
  unseen : ∀ viewer (mention : Mention), viewer < tree.scopes.length →
    mention.name.normal = name.normal → ¬ tree.Reaches viewer name scope →
    (after.perform (.get viewer mention)).1 = (tree.perform (.get viewer mention)).1
  others : ∀ viewer (mention : Mention), mention.name.normal ≠ name.normal →
    (after.perform (.get viewer mention)).1 = (tree.perform (.get viewer mention)).1

/-- A scope is made below another one, and nothing else is done: it binds nothing, from there
everything is seen as from its parent, and from the others as before. -/
structure Grows (tree : ScopeTree) (parent : Nat) (after : ScopeTree) : Prop where
  scopes : after.scopes = tree.scopes ++ [⟨some parent, []⟩]
  inner : ∀ mention : Mention, (after.perform (.get tree.scopes.length mention)).1 =
    (tree.perform (.get parent mention)).1
  others : ∀ viewer (mention : Mention), viewer < tree.scopes.length →
    (after.perform (.get viewer mention)).1 = (tree.perform (.get viewer mention)).1

section Operations

variable {mention : Mention} {after : ScopeTree}

theorem perform_get_of_some {found : Value} (hget : tree.get? scope mention.name = some found) :
    tree.perform (.get scope mention) = (.ok (.value found), tree) := by
  rw [perform, hget]

theorem perform_get_of_none (hget : tree.get? scope mention.name = none) :
    tree.perform (.get scope mention) = (.error (.undefinedVariable mention.token), tree) := by
  rw [perform, hget]

theorem perform_assign_of_owner {owner : Nat}
    (howner : tree.owner? scope mention.name = some owner) :
    tree.perform (.assign scope mention value) =
      (.ok (.value value), tree.define owner mention.name value) := by
  rw [perform, assign?, howner]
  rfl

theorem perform_assign_of_none (howner : tree.owner? scope mention.name = none) :
    tree.perform (.assign scope mention value) =
      (.error (.undefinedVariable mention.token), tree) := by
  rw [perform, assign?, howner]
  rfl

/-- A name is contained exactly if it can be read. -/
theorem perform_contains (tree : ScopeTree) (scope : Nat) (name : Name) :
    tree.perform (.contains scope name) =
      (.ok (.contained (tree.get? scope name).isSome), tree) := by
  rw [perform, binds, get?, Scopes.binds, Scopes.get?, List.isSome_findSome?]
  rfl

theorem answer_get_congr
    (hget : after.get? viewer mention.name = tree.get? scope mention.name) :
    (after.perform (.get viewer mention)).1 = (tree.perform (.get scope mention)).1 := by
  rw [perform, perform, hget]
  cases tree.get? scope mention.name <;> rfl

theorem get?_congr {other : Name} (hname : name.normal = other.normal) (tree : ScopeTree)
    (scope : Nat) : tree.get? scope name = tree.get? scope other := by
  have hbindings (bindings : Bindings) : bindings.get? name = bindings.get? other := by
    rw [Bindings.get?, Bindings.get?, hname]
  simp only [get?_eq_along, along, hbindings]

theorem map_parent_define :
    (tree.define scope name value).scopes.map (·.parent) = tree.scopes.map (·.parent) := by
  apply List.ext_getElem?
  intro other
  rw [List.getElem?_map, List.getElem?_map, getElem?_define, Option.map_map]
  apply congrArg (Option.map · _)
  funext entry
  show (if scope = other then _ else entry).parent = entry.parent
  split <;> rfl

theorem changes_define (hsound : tree.Sound) (hscope : scope < tree.scopes.length) :
    tree.Changes scope name value (tree.define scope name value) where
  parents := map_parent_define
  elsewhere other hother := bindings_define_of_ne hother
  replaces hbinds := by
    rw [bindings_define_self hscope]
    have hentry := List.getElem?_eq_getElem hscope
    have hdistinct : (tree.bindings scope).Distinct := by
      rw [bindings, hentry]
      exact hsound.distinct _ (List.getElem_mem hscope)
    exact Bindings.replaces_put hdistinct hbinds
  adds hbinds := by
    rw [bindings_define_self hscope]
    exact Bindings.put_of_not_binds hbinds
  seen viewer mention hname hreaches := by
    apply perform_get_of_some
    rw [get?_congr hname]
    exact get?_define_of_reaches hsound hreaches hscope
  unseen viewer mention hviewer hname hreaches := by
    apply answer_get_congr
    rw [get?_congr hname, get?_congr hname]
    exact get?_define_of_not_reaches hsound hviewer hreaches
  others viewer mention hname := answer_get_congr (get?_define_of_ne hscope hname.symm)

theorem grows_push (hsound : tree.Sound) (hscope : scope < tree.scopes.length) :
    tree.Grows scope (tree.push scope) where
  scopes := rfl
  inner _ := answer_get_congr (get?_push_self hsound hscope)
  others _ _ hviewer := answer_get_congr (get?_push_of_lt hsound hscope hviewer)

end Operations

/-! ## Runs of operations -/

/-- Whether each of some operations is about a scope that is there when its turn comes. -/
def admits (tree : ScopeTree) : List ScopeOperation → Bool
  | [] => true
  | operation :: rest =>
    operation.scope < tree.scopes.length && (tree.perform operation).2.admits rest

theorem sound_single : single.Sound where
  parent_lt := by
    intro scope parent bindings hscope
    rw [single, List.getElem?_singleton] at hscope
    split at hscope <;> cases hscope
  distinct := by
    intro entry hmem
    rw [List.mem_singleton.1 hmem]
    exact List.nodup_nil

theorem Sound.perform (hsound : tree.Sound) {operation : ScopeOperation}
    (hscope : operation.scope < tree.scopes.length) : (tree.perform operation).2.Sound := by
  cases operation with
  | push parent => exact hsound.push hscope
  | define scope name value => exact hsound.define
  | assign scope mention value =>
    rw [ScopeTree.perform, assign?]
    cases tree.owner? scope mention.name with
    | none => exact hsound
    | some owner => exact hsound.define
  | get scope mention =>
    rw [ScopeTree.perform]
    split <;> exact hsound
  | contains scope name => exact hsound

theorem Sound.performAll (hsound : tree.Sound) {operations : List ScopeOperation}
    (hadmits : tree.admits operations = true) : (tree.performAll operations).Sound := by
  induction operations generalizing tree with
  | nil => exact hsound
  | cons operation rest ih =>
    rw [admits, Bool.and_eq_true, decide_eq_true_eq] at hadmits
    exact ih (hsound.perform hadmits.1) hadmits.2

end ScopeTree

open ScopeTree

/-- The laws of scopes, in every tree that operations can make of one scope. A name that is met on
the way from parent to parent is contained, reading it gives its nearest binding, and assigning it
changes this binding and no other, so that reading it gives the new value. A name that is not met is
not contained, and reading and assigning it fail alike, with the token that named it, and leave the
tree as it is. A definition changes its own scope alone, and a new scope sees what its parent
sees. -/
theorem scopes_share_bindings (operations : List ScopeOperation)
    (hadmits : single.admits operations = true) :
    let tree := single.performAll operations
    ∀ scope < tree.scopes.length,
      (∀ (mention : Mention) (value : Value),
        (∃ owner found after, tree.Reaches scope mention.name owner ∧
          (tree.bindings owner).get? mention.name = some found ∧
          tree.perform (.contains scope mention.name) = (.ok (.contained true), tree) ∧
          tree.perform (.get scope mention) = (.ok (.value found), tree) ∧
          tree.perform (.assign scope mention value) = (.ok (.value value), after) ∧
          tree.Changes owner mention.name value after ∧
          Bindings.Replaces mention.name value (tree.bindings owner) (after.bindings owner) ∧
          after.perform (.get scope mention) = (.ok (.value value), after)) ∨
        (∃ path, tree.ParentPath scope path ∧
          (∀ outer ∈ path, (tree.bindings outer).binds mention.name = false) ∧
          tree.perform (.contains scope mention.name) = (.ok (.contained false), tree) ∧
          tree.perform (.get scope mention) =
            (.error (.undefinedVariable mention.token), tree) ∧
          tree.perform (.assign scope mention value) =
            (.error (.undefinedVariable mention.token), tree))) ∧
      (∀ (name : Name) (value : Value), ∃ after,
        tree.perform (.define scope name value) = (.ok .done, after) ∧
          tree.Changes scope name value after ∧
          ∀ mention : Mention, mention.name.normal = name.normal →
            after.perform (.get scope mention) = (.ok (.value value), after)) ∧
      ∃ after, tree.perform (.push scope) = (.ok (.made tree.scopes.length), after) ∧
        tree.Grows scope after := by
  intro tree scope hscope
  have hsound : tree.Sound := sound_single.performAll hadmits
  refine ⟨fun mention value => ?_, fun name value => ?_, _, rfl, grows_push hsound hscope⟩
  · rw [perform_contains]
    rcases met_or_not hsound hscope mention.name with
      ⟨owner, found, hreaches, hfound, howner, hget⟩ | ⟨hnone, howner, hget⟩
    · have hchanges : tree.Changes owner mention.name value
          (tree.define owner mention.name value) :=
        changes_define hsound (hreaches.lt_length hsound)
      have hbinds : (tree.bindings owner).binds mention.name = true := by
        rw [Bindings.binds, hfound]
        rfl
      rw [hget]
      exact .inl ⟨owner, found, _, hreaches, hfound, rfl, perform_get_of_some hget,
        perform_assign_of_owner howner, hchanges, hchanges.replaces hbinds,
        hchanges.seen scope mention rfl hreaches⟩
    · rw [hget]
      exact .inr ⟨tree.path scope, parentPath_path hsound hscope, hnone, rfl,
        perform_get_of_none hget, perform_assign_of_none howner⟩
  · have hchanges : tree.Changes scope name value (tree.define scope name value) :=
      changes_define hsound hscope
    exact ⟨_, rfl, hchanges, fun mention hname =>
      hchanges.seen scope mention hname (Reaches.refl hsound hscope name)⟩

/-- Two scopes in one, the first of which has a variable of the same name, and a scope in the
second. -/
def siblings : List ScopeOperation :=
  [.define 0 "x" (.string "a"), .push 0, .push 0, .define 1 "x" (.string "b"), .push 2]

/-- The name `x` on line 7. -/
def mentionOfX : Mention :=
  ⟨⟨.identifier, .str "x", .null, 7⟩, "x", rfl⟩

/-- What is assigned from the innermost scope is seen from the scope around it, but not from its
sibling. -/
theorem scopes_share_bindings_siblings :
    single.admits siblings = true ∧ ∃ owner after,
      (single.performAll siblings).Reaches 3 "x" owner ∧
      (single.performAll siblings).perform (.assign 3 mentionOfX (.string "c")) =
        (.ok (.value (.string "c")), after) ∧
      (single.performAll siblings).Changes owner "x" (.string "c") after ∧
      after.perform (.get 2 mentionOfX) = (.ok (.value (.string "c")), after) ∧
      after.perform (.get 1 mentionOfX) = (.ok (.value (.string "b")), after) := by
  have hadmits : single.admits siblings = true := by decide
  have hlaws := (scopes_share_bindings siblings hadmits 3 (by decide)).1 mentionOfX (.string "c")
  rcases hlaws with ⟨owner, _, after, hreaches, -, -, -, hassign, hchanges, -, -⟩ |
    ⟨_, -, -, -, hget, -⟩
  · obtain rfl : _ = after := congrArg Prod.snd hassign
    exact ⟨hadmits, owner, _, hreaches, hassign, hchanges, rfl, rfl⟩
  · cases congrArg Prod.fst hget

end Lox
