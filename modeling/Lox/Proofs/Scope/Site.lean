import Lox.Node.Basic
import Lox.Scope.Basic

/-!
# Sites in a program

Where a node of a program stands, as far as its variables are concerned: inside which blocks, and
after which statements of each of them. From the site alone one can tell in which scope a name is to
be found (`Site.block?`). That it is found there whenever the scopes fit the site is a fact about
chains of scopes (`Fits.resolves`) and says nothing yet about how a program runs.
-/

namespace Lox

/-- For each block around a node, the innermost first, the statements of that block that come before
the one that the node is part of. -/
abbrev Site := List (List Node)

def Site.after (node : Node) : Site → Site
  | [] => []
  | before :: site => (before ++ [node]) :: site

namespace Node

def isBlock : Node → Bool
  | block _ => true
  | _ => false

def declares (name : Name) : Node → Bool
  | varDecl (token t) _ => (Name.ofJson? t.lexeme).any fun declared => declared.normal = name.normal
  | _ => false

end Node

/-- Where the nodes of a program stand. What is below a node stands where the node does, except that
the statements of a block stand in that block. -/
inductive Occurs (program : List Node) : Site → Node → Prop where
  | top {node : Node} (hmem : node ∈ program) : Occurs program [] node
  | under {site : Site} {node child : Node} (hnode : Occurs program site node)
    (hblock : node.isBlock = false) (hchild : child ∈ node.children) :
    Occurs program site child
  | inBlock {site : Site} {before after : List Node} {node : Node}
    (hblock : Occurs program site (.block (before ++ node :: after))) :
    Occurs program (before :: site) node

namespace Site

/-- The innermost block around a site that declares a name before the site. -/
def block? (site : Site) (name : Name) : Option Nat :=
  site.findIdx? fun before => before.any (·.declares name)

/-- The value of a name, taken from the scope that the site tells; the scopes of blocks are not
searched. -/
def get? (site : Site) (name : Name) (scopes : Scopes) : Option Value :=
  match site.block? name with
  | some block => scopes[block]?.bind (·.get? name)
  | none => Scopes.get? (scopes.drop site.length) name

/-- Gives a name a new value in the scope that the site tells. -/
def assign? (site : Site) (name : Name) (value : Value) (scopes : Scopes) : Option Scopes :=
  match site.block? name with
  | some block => some (scopes.modify block (·.put name value))
  | none => (Scopes.assign? name value (scopes.drop site.length)).map (scopes.take site.length ++ ·)

end Site

/-- A name is found where a site says it is: bound in the scope of the innermost block that declares
it before the site, and if there is none, wherever it is found outside of all blocks. -/
structure Resolves (site : Site) (scopes : Scopes) (name : Name) : Prop where
  bound : ∀ block, site.block? name = some block →
    ∃ bindings, scopes[block]? = some bindings ∧ bindings.binds name = true
  get? : scopes.get? name = site.get? name scopes
  assign? : ∀ value, scopes.assign? name value = site.assign? name value scopes

/-- A chain of scopes fits a site: there is a scope for each block, which binds the names declared
before the site in that block, and `count` more outside of them. -/
def Fits (count : Nat) : Site → Scopes → Prop
  | [], scopes => scopes.length = count
  | before :: site, scopes => ∃ bindings outer, scopes = bindings :: outer ∧
      (∀ name, bindings.binds name = before.any (·.declares name)) ∧ Fits count site outer

/-! ## Bindings -/

namespace Bindings

variable {bindings : Bindings} {name other : Name} {value : Value}

theorem binds_congr (h : name.normal = other.normal) : bindings.binds name = bindings.binds other := by
  rw [binds, binds, get?, get?, h]

theorem binds_cons (entry : Name × Value) :
    binds (entry :: bindings) name = (decide (entry.1.normal = name.normal) || bindings.binds name) := by
  by_cases h : entry.1.normal = name.normal <;> simp [binds, get?, h]

theorem binds_put : (bindings.put name value).binds other =
    (bindings.binds other || decide (name.normal = other.normal)) := by
  induction bindings with
  | nil => rw [put, binds_cons, Bool.or_comm]
  | cons entry rest ih =>
    rw [put]
    split
    · next hsame =>
      rw [binds_cons, binds_cons, hsame]
      cases decide (name.normal = other.normal) <;> simp
    · rw [binds_cons, binds_cons, ih, Bool.or_assoc]

theorem eq_nil_of_binds (h : ∀ name, bindings.binds name = false) : bindings = [] := by
  cases bindings with
  | nil => rfl
  | cons entry rest => simpa [binds, get?] using h entry.1

end Bindings

namespace Scopes

variable {scopes after : Scopes} {name : Name} {value : Value}

theorem get?_cons (innermost : Bindings) (outer : Scopes) :
    get? (innermost :: outer) name =
      if innermost.binds name then innermost.get? name else get? outer name := by
  rw [get?, List.findSome?_cons, Bindings.binds]
  cases hget : innermost.get? name <;> rfl

theorem assign?_cons (innermost : Bindings) (outer : Scopes) :
    assign? name value (innermost :: outer) =
      if innermost.binds name then some (innermost.put name value :: outer)
      else (assign? name value outer).map (innermost :: ·) := rfl

/-- An assignment keeps of each scope what a new value for a name that is bound there keeps. -/
theorem map_assign? {γ : Type} {g : Bindings → γ}
    (hput : ∀ bindings : Bindings, bindings.binds name = true →
      g (bindings.put name value) = g bindings)
    (hassign : scopes.assign? name value = some after) : after.map g = scopes.map g := by
  induction scopes generalizing after with
  | nil => cases hassign
  | cons innermost outer ih =>
    rw [assign?_cons] at hassign
    split at hassign
    · next hbinds =>
      cases hassign
      rw [List.map_cons, List.map_cons, hput innermost hbinds]
    · obtain ⟨outer', houter, rfl⟩ := Option.map_eq_some_iff.1 hassign
      rw [List.map_cons, List.map_cons, ih houter]

theorem length_assign? (hassign : scopes.assign? name value = some after) :
    after.length = scopes.length := by
  have hscopes : after.map (fun _ => ()) = scopes.map fun _ => () :=
    map_assign? (fun _ _ => rfl) hassign
  simpa using congrArg List.length hscopes

end Scopes

/-! ## Fitting scopes -/

namespace Fits

variable {count : Nat} {site : Site} {scopes : Scopes}

theorem length (hfits : Fits count site scopes) : scopes.length = site.length + count := by
  induction site generalizing scopes with
  | nil =>
    rw [List.length_nil, Nat.zero_add]
    exact hfits
  | cons before site ih =>
    obtain ⟨bindings, outer, rfl, -, houter⟩ := hfits
    rw [List.length_cons, List.length_cons, ih houter]
    omega

/-- A block that is entered has an empty scope. -/
theorem enter (hfits : Fits count site scopes) : Fits count ([] :: site) ([] :: scopes) :=
  ⟨[], scopes, rfl, fun _ => rfl, hfits⟩

theorem leave {before : List Node} (hfits : Fits count (before :: site) scopes) :
    Fits count site scopes.tail := by
  obtain ⟨bindings, outer, rfl, -, houter⟩ := hfits
  exact houter

/-- An assignment changes no scope's names. -/
theorem assign? {name : Name} {value : Value} {after : Scopes} (hfits : Fits count site scopes)
    (hassign : scopes.assign? name value = some after) : Fits count site after := by
  induction site generalizing scopes after with
  | nil => exact (Scopes.length_assign? hassign).trans hfits
  | cons before site ih =>
    obtain ⟨bindings, outer, rfl, hbinds, houter⟩ := hfits
    rw [Scopes.assign?_cons] at hassign
    split at hassign
    · next hbound =>
      cases hassign
      refine ⟨_, outer, rfl, fun other => ?_, houter⟩
      rw [Bindings.binds_put, ← hbinds]
      by_cases h : name.normal = other.normal
      · rw [← Bindings.binds_congr h, hbound, Bool.true_or]
      · simp [h]
    · obtain ⟨outer', houter', rfl⟩ := Option.map_eq_some_iff.1 hassign
      exact ⟨bindings, outer', rfl, hbinds, ih houter houter'⟩

theorem after_of_not_declares {node : Node} (hfits : Fits count site scopes)
    (hnode : ∀ name, node.declares name = false) : Fits count (site.after node) scopes := by
  cases site with
  | nil => exact hfits
  | cons before site =>
    obtain ⟨bindings, outer, rfl, hbinds, houter⟩ := hfits
    refine ⟨bindings, outer, rfl, fun name => ?_, houter⟩
    simp [hbinds, hnode]

/-- A declaration adds its name to the innermost scope, wherever it stands. -/
theorem define {t : Token} {name : Name} (hname : Name.ofJson? t.lexeme = some name)
    (initializer : Node) (value : Value) (hfits : Fits (count + 1) site scopes) :
    Fits (count + 1) (site.after (.varDecl (.token t) initializer)) (scopes.define name value) := by
  cases site with
  | nil =>
    obtain ⟨innermost, outer, rfl⟩ := List.exists_cons_of_length_eq_add_one hfits
    exact hfits
  | cons before site =>
    obtain ⟨bindings, outer, rfl, hbinds, houter⟩ := hfits
    refine ⟨bindings.put name value, outer, rfl, fun other => ?_, houter⟩
    rw [Bindings.binds_put, hbinds, List.any_append]
    simp [Node.declares, hname]

/-- Scopes that fit a site bear out what it says about a name. -/
theorem resolves (hfits : Fits count site scopes) (name : Name) : Resolves site scopes name := by
  induction site generalizing scopes with
  | nil =>
    refine ⟨nofun, rfl, fun value => ?_⟩
    simp [Site.assign?, Site.block?]
  | cons before site ih =>
    obtain ⟨bindings, outer, rfl, hbinds, houter⟩ := hfits
    obtain ⟨hbound, hget, hassign⟩ := ih houter
    have hblock : Site.block? (before :: site) name =
        if bindings.binds name then some 0 else (Site.block? site name).map (· + 1) := by
      rw [Site.block?, List.findIdx?_cons, hbinds]
      rfl
    cases hfound : bindings.binds name with
    | true =>
      rw [hfound, if_pos rfl] at hblock
      refine ⟨?_, ?_, fun value => ?_⟩
      · rw [hblock]
        rintro _ ⟨⟩
        exact ⟨bindings, rfl, hfound⟩
      · rw [Scopes.get?_cons, hfound, if_pos rfl, Site.get?, hblock]
        rfl
      · rw [Scopes.assign?_cons, hfound, if_pos rfl, Site.assign?, hblock]
        rfl
    | false =>
      rw [hfound, if_neg nofun] at hblock
      refine ⟨?_, ?_, fun value => ?_⟩
      · rw [hblock]
        intro block hsome
        obtain ⟨inner, hinner, rfl⟩ := Option.map_eq_some_iff.1 hsome
        exact hbound inner hinner
      · rw [Scopes.get?_cons, hfound, if_neg nofun, hget, Site.get?, Site.get?, hblock]
        cases Site.block? site name <;> rfl
      · rw [Scopes.assign?_cons, hfound, if_neg nofun, hassign, Site.assign?, Site.assign?, hblock]
        cases Site.block? site name with
        | none =>
          rw [Option.map_map]
          rfl
        | some block => rfl

end Fits

end Lox
