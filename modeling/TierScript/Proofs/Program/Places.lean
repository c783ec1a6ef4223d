import Mathlib.Data.List.Nodup
import Mathlib.Data.List.Perm.Subperm
import TierScript.Proofs.Program.Extents
import TierScript.Proofs.Program.Scopes

/-!
# Where statements stand

Every statement of a program stands in a scope, which is known before the program runs: the
functions of the blocks around the statement, within the body of the same function.

* `Block.places`: the statements in a block, at any depth, each with its scope.
* `Spells.places_subperm`: every statement in a phrase starts with a token of its own.
* `place_unique`: so in a parsed program the start of a statement tells the statement and its scope.
-/

namespace TierScript

open Parse (Item)

/-! ## Places -/

/-- A statement in a program, with its scope. -/
structure Place where
  program : ProgramId
  scope : Scope
  stmt : Stmt

/-- Where the statement starts. -/
def Place.start (x : Place) : Position := x.stmt.span.start

mutual

/-- The statements in a block that stands in the given scope, at any depth. -/
def Block.places (program : ProgramId) (scope : Scope) : Block → List Place
  | ⟨stmts, functions, _⟩ =>
    Stmt.placesAll program (scope.push program functions) stmts ++
      FnDef.placesAll program functions

/-- The statements in an optional block. -/
def Block.placesOption (program : ProgramId) (scope : Scope) : Option Block → List Place
  | none => []
  | some b => Block.places program scope b

/-- The statements in the body of a function, which has no scope but its own. -/
def FnDef.places (program : ProgramId) : FnDef → List Place
  | ⟨_, _, _, body, _⟩ => Block.places program [] body

/-- The statements in the bodies of functions. -/
def FnDef.placesAll (program : ProgramId) : List FnDef → List Place
  | [] => []
  | f :: fs => FnDef.places program f ++ FnDef.placesAll program fs

/-- The statements within a statement, without itself. -/
def Stmt.inner (program : ProgramId) (scope : Scope) : Stmt → List Place
  | .block body => Block.places program scope body
  | .ifElse _ body otherwise _ =>
    Block.places program scope body ++ Block.placesOption program scope otherwise
  | .whileLoop _ body _ => Block.places program scope body
  | .forLoop _ _ body _ => Block.places program scope body
  | .assign .. | .breakLoop _ | .endCode _ | .call _ | .moduleCall .. => []

/-- Statements that follow each other, and the statements within them. -/
def Stmt.placesAll (program : ProgramId) (scope : Scope) : List Stmt → List Place
  | [] => []
  | s :: ss =>
    ⟨program, scope, s⟩ :: (Stmt.inner program scope s ++ Stmt.placesAll program scope ss)

end

/-- A statement, and the statements within it. -/
def Stmt.places (program : ProgramId) (scope : Scope) (s : Stmt) : List Place :=
  ⟨program, scope, s⟩ :: s.inner program scope

theorem Stmt.placesAll_cons (program : ProgramId) (scope : Scope) (s : Stmt) (ss : List Stmt) :
    placesAll program scope (s :: ss) = s.places program scope ++ placesAll program scope ss := by
  rw [placesAll, places, List.cons_append]

theorem FnDef.places_eq (program : ProgramId) (f : FnDef) :
    f.places program = f.body.places program [] := by
  obtain ⟨name, params, outs, body, span⟩ := f
  rw [places]

section Program

variable {program : ProgramId}

mutual

/-- A statement belongs to the program it was found in. -/
theorem Block.places_program (scope : Scope) :
    ∀ b : Block, ∀ x ∈ b.places program scope, x.program = program
  | ⟨stmts, functions, _⟩ => by
    rw [Block.places, List.forall_mem_append]
    exact ⟨Stmt.placesAll_program _ stmts, FnDef.placesAll_program functions⟩

theorem Block.placesOption_program (scope : Scope) :
    ∀ b : Option Block, ∀ x ∈ Block.placesOption program scope b, x.program = program
  | none => by rw [Block.placesOption]; exact List.forall_mem_nil _
  | some b => by rw [Block.placesOption]; exact Block.places_program scope b

theorem FnDef.places_program : ∀ f : FnDef, ∀ x ∈ f.places program, x.program = program
  | ⟨_, _, _, body, _⟩ => by rw [FnDef.places]; exact Block.places_program [] body

theorem FnDef.placesAll_program :
    ∀ fs : List FnDef, ∀ x ∈ FnDef.placesAll program fs, x.program = program
  | [] => by rw [FnDef.placesAll]; exact List.forall_mem_nil _
  | f :: fs => by
    rw [FnDef.placesAll, List.forall_mem_append]
    exact ⟨FnDef.places_program f, FnDef.placesAll_program fs⟩

theorem Stmt.inner_program (scope : Scope) :
    ∀ s : Stmt, ∀ x ∈ s.inner program scope, x.program = program
  | .block body | .whileLoop _ body _ | .forLoop _ _ body _ => by
    rw [Stmt.inner]
    exact Block.places_program scope body
  | .ifElse _ body otherwise _ => by
    rw [Stmt.inner, List.forall_mem_append]
    exact ⟨Block.places_program scope body, Block.placesOption_program scope otherwise⟩
  | .assign .. | .breakLoop _ | .endCode _ | .call _ | .moduleCall .. => by
    rw [Stmt.inner]
    exact List.forall_mem_nil _

theorem Stmt.placesAll_program (scope : Scope) :
    ∀ ss : List Stmt, ∀ x ∈ Stmt.placesAll program scope ss, x.program = program
  | [] => by rw [Stmt.placesAll]; exact List.forall_mem_nil _
  | s :: ss => by
    rw [Stmt.placesAll, List.forall_mem_cons, List.forall_mem_append]
    exact ⟨rfl, Stmt.inner_program scope s, Stmt.placesAll_program scope ss⟩

end

end Program

section Reads

variable {program : ProgramId}

mutual

/-- What a statement in a block reads, the block reads. -/
theorem Block.reads_places (scope : Scope) :
    ∀ b : Block, ∀ x ∈ b.places program scope, x.stmt.reads ⊆ b.reads
  | ⟨stmts, functions, _⟩ => by
    rw [Block.places, Block.reads, List.forall_mem_append]
    exact ⟨fun x hx => List.subset_append_of_subset_left _ (Stmt.reads_placesAll _ stmts x hx),
      fun x hx => List.subset_append_of_subset_right _ (FnDef.reads_placesAll functions x hx)⟩

theorem Block.reads_placesOption (scope : Scope) :
    ∀ b : Option Block, ∀ x ∈ Block.placesOption program scope b,
      x.stmt.reads ⊆ Block.readsOption b
  | none => by rw [Block.placesOption]; exact List.forall_mem_nil _
  | some b => by rw [Block.placesOption, Block.readsOption]; exact Block.reads_places scope b

theorem FnDef.reads_places : ∀ f : FnDef, ∀ x ∈ f.places program, x.stmt.reads ⊆ f.reads
  | ⟨_, _, _, body, _⟩ => by rw [FnDef.places, FnDef.reads]; exact Block.reads_places [] body

theorem FnDef.reads_placesAll :
    ∀ fs : List FnDef, ∀ x ∈ FnDef.placesAll program fs, x.stmt.reads ⊆ FnDef.readsAll fs
  | [] => by rw [FnDef.placesAll]; exact List.forall_mem_nil _
  | f :: fs => by
    rw [FnDef.placesAll, FnDef.readsAll, List.forall_mem_append]
    exact ⟨fun x hx => List.subset_append_of_subset_left _ (FnDef.reads_places f x hx),
      fun x hx => List.subset_append_of_subset_right _ (FnDef.reads_placesAll fs x hx)⟩

theorem Stmt.reads_inner (scope : Scope) :
    ∀ s : Stmt, ∀ x ∈ s.inner program scope, x.stmt.reads ⊆ s.reads
  | .block body => by rw [Stmt.inner, Stmt.reads]; exact Block.reads_places scope body
  | .whileLoop _ body _ => by
    rw [Stmt.inner, Stmt.reads]
    exact fun x hx => List.subset_append_of_subset_right _ (Block.reads_places scope body x hx)
  | .forLoop _ _ body _ => by
    rw [Stmt.inner, Stmt.reads, ← List.append_assoc]
    exact fun x hx => List.subset_append_of_subset_right _ (Block.reads_places scope body x hx)
  | .ifElse _ body otherwise _ => by
    have hbody := Block.reads_places scope body
    have hotherwise := Block.reads_placesOption scope otherwise
    rw [Stmt.inner, Stmt.reads, List.forall_mem_append]
    refine ⟨fun x hx v hv => ?_, fun x hx v hv => ?_⟩
    · exact List.mem_append_right _ (List.mem_append_left _ (hbody x hx hv))
    · exact List.mem_append_right _ (List.mem_append_right _ (hotherwise x hx hv))
  | .assign .. | .breakLoop _ | .endCode _ | .call _ | .moduleCall .. => by
    rw [Stmt.inner]
    exact List.forall_mem_nil _

theorem Stmt.reads_placesAll (scope : Scope) :
    ∀ ss : List Stmt, ∀ x ∈ Stmt.placesAll program scope ss, x.stmt.reads ⊆ Stmt.readsAll ss
  | [] => by rw [Stmt.placesAll]; exact List.forall_mem_nil _
  | s :: ss => by
    rw [Stmt.placesAll, Stmt.readsAll, List.forall_mem_cons, List.forall_mem_append]
    exact ⟨List.subset_append_left _ _,
      fun x hx => List.subset_append_of_subset_left _ (Stmt.reads_inner scope s x hx),
      fun x hx => List.subset_append_of_subset_right _ (Stmt.reads_placesAll scope ss x hx)⟩

end

end Reads

/-! ## Statements and tokens -/

/-- The statements in an item of a block. -/
def Parse.Item.places (program : ProgramId) (scope : Scope) : Item → List Place
  | .stmt s => s.places program scope
  | .fn f => f.places program

/-- The statements in a phrase. A block in braces counts as one itself. -/
def Phrase.places (program : ProgramId) (scope : Scope) : Phrase → List Place
  | .body b => Stmt.places program scope (.block b)
  | .ifStmt s _ => s.places program scope
  | .otherwise b => Block.placesOption program scope b
  | .item x _ => x.places program scope
  | .items l => l.flatMap (Item.places program scope)
  | _ => []

/-- The statements of a block are those of its items, if in another order. -/
theorem Block.places_ofItems (program : ProgramId) (scope : Scope) (l : List Item) (span : Span) :
    ((Block.ofItems l span).places program scope).Perm
      (l.flatMap (Item.places program (scope.push program (l.filterMap Item.fn?)))) := by
  rw [Block.ofItems, Block.places]
  generalize scope.push program (l.filterMap Item.fn?) = inside
  induction l with
  | nil => simp [Stmt.placesAll, FnDef.placesAll]
  | cons x l ih =>
    cases x with
    | stmt s =>
      simp only [List.filterMap_cons, Item.stmt?, Item.fn?, Stmt.placesAll_cons, List.flatMap_cons,
        Item.places, List.append_assoc]
      exact ih.append_left _
    | fn f =>
      simp only [List.filterMap_cons, Item.stmt?, Item.fn?, FnDef.placesAll, List.flatMap_cons,
        Item.places]
      exact .trans (List.perm_append_comm_assoc _ _ _) (ih.append_left _)

/-- The statements start with different ones of the tokens. -/
def StartsIn (ts : List Token) (xs : List Place) : Prop :=
  (xs.map Place.start).Subperm (ts.map fun t => t.span.start)

namespace StartsIn

variable {ts us : List Token} {xs ys : List Place} {x : Place}

theorem nil (ts : List Token) : StartsIn ts [] := List.nil_subperm

theorem mono (h : StartsIn us xs) (hts : us.Sublist ts) : StartsIn ts xs :=
  h.trans (hts.map _).subperm

theorem append (h : StartsIn ts xs) (h' : StartsIn us ys) : StartsIn (ts ++ us) (xs ++ ys) := by
  unfold StartsIn at *
  rw [List.map_append, List.map_append]
  exact h.append h'

theorem perm (h : StartsIn ts xs) (hys : ys.Perm xs) : StartsIn ts ys :=
  (hys.map _).subperm.trans h

/-- A statement starts with its first token, and those within it with later ones. -/
theorem cons {t : Token} (hx : x.stmt.span = Token.extent (t :: ts)) (h : StartsIn ts xs) :
    StartsIn (t :: ts) (x :: xs) := by
  have hstart : x.start = t.span.start := by rw [Place.start, hx, Token.extent, firstSpanOf]
  unfold StartsIn
  rw [List.map_cons, List.map_cons, hstart]
  exact (List.subperm_cons _).mpr h

theorem tail (h : StartsIn ts (x :: xs)) : StartsIn ts xs :=
  ((List.sublist_cons_self _ _).map Place.start).subperm.trans h

/-- The items of a block are in the scope of its functions. -/
theorem ofItems {program : ProgramId} {scope : Scope} {l : List Item}
    (h : StartsIn ts (l.flatMap
      (Item.places program (scope.push program (l.filterMap Item.fn?))))) (span : Span) :
    StartsIn ts ((Block.ofItems l span).places program scope) :=
  h.perm (Block.places_ofItems program scope l span)

end StartsIn

/-- A statement without others in it starts with its first token. -/
theorem Spells.leaf {ts : List Token} {s : Stmt} {bare : Bool}
    (h : Spells ts (.item (.stmt s) bare)) (hts : Laid ts) {program : ProgramId} {scope : Scope}
    (hinner : s.inner program scope = []) : StartsIn ts (s.places program scope) := by
  have hspan := h.extent hts _ rfl
  obtain ⟨t, us, rfl⟩ := List.exists_cons_of_ne_nil (h.ne_nil rfl)
  rw [Stmt.places, hinner]
  exact .cons hspan (.nil us)

/-- Every statement in a phrase starts with a token of its own. -/
theorem Spells.places_subperm {ts : List Token} {p : Phrase} (h : Spells ts p) (hts : Laid ts)
    (program : ProgramId) (scope : Scope) : StartsIn ts (p.places program scope) := by
  induction h generalizing scope with
  | assign hv hq he => exact (Spells.assign hv hq he).leaf hts (by rw [Stmt.inner])
  | call hn ho ha => exact (Spells.call hn ho ha).leaf hts (by rw [Stmt.inner])
  | moduleCall hm hd hn ho ha =>
    exact (Spells.moduleCall hm hd hn ho ha).leaf hts (by rw [Stmt.inner])
  | fnModuleCall hf hm hd hn ho ha =>
    exact (Spells.fnModuleCall hf hm hd hn ho ha).leaf hts (by rw [Stmt.inner])
  | breakLoop ht => exact (Spells.breakLoop ht).leaf hts (by rw [Stmt.inner])
  | endCode ht => exact (Spells.endCode ht).leaf hts (by rw [Stmt.inner])
  | block _ ih | ifItem _ ih => exact ih hts scope
  | @whileLoop w o c x p b body hw ho hc hp hb _ ih =>
    have hspan := (Spells.whileLoop hw ho hc hp hb).extent hts _ rfl
    have hsuffix : b <:+ o :: (c ++ p :: b) := ⟨o :: (c ++ [p]), by simp⟩
    have hbody := (ih (hts.sublist (hsuffix.sublist.cons w)) scope).tail.mono hsuffix.sublist
    simpa only [Phrase.places, Item.places, Stmt.places, Stmt.inner] using hbody.cons hspan
  | @forLoop w o d dest m s src p b body hw ho hd hm hs hp hb _ _ ih =>
    have hspan := (Spells.forLoop hw ho hd hm hs hp hb).extent hts _ rfl
    have hsuffix : b <:+ o :: (d ++ m :: (s ++ p :: b)) := ⟨o :: (d ++ m :: (s ++ [p])), by simp⟩
    have hbody := (ih (hts.sublist (hsuffix.sublist.cons w)) scope).tail.mono hsuffix.sublist
    simpa only [Phrase.places, Item.places, Stmt.places, Stmt.inner] using hbody.cons hspan
  | @ifStmt w o c x p b body r alternative hw ho hc hp hb hr _ ihb ihr =>
    have hspan : (Stmt.ifElse x body alternative (w.span.through (b ++ r))).span = _ :=
      (Spells.ifStmt hw ho hc hp hb hr).extent hts _ rfl
    have hsuffix : b ++ r <:+ o :: (c ++ p :: (b ++ r)) := ⟨o :: (c ++ [p]), by simp⟩
    have hlaid := hts.sublist (hsuffix.sublist.cons w)
    have hbody := (ihb (hlaid.sublist (List.sublist_append_left b r)) scope).tail
    have hboth := hbody.append (ihr (hlaid.sublist (List.sublist_append_right b r)) scope)
    simpa only [Phrase.places, Stmt.places, Stmt.inner] using
      (hboth.mono hsuffix.sublist).cons hspan
  | @elseIf e ts s span _ _ ih =>
    have hrest := ih (hts.sublist (List.sublist_cons_self e ts)) scope
    have hblock : Block.placesOption program scope (some ⟨[s], [], span⟩) =
        s.places program scope := by
      simp [Block.placesOption, Block.places, Scope.push, Stmt.placesAll, Stmt.places,
        FnDef.placesAll]
    rw [Phrase.places, hblock]
    exact hrest.mono (List.sublist_cons_self e ts)
  | @elseBody e ts b _ _ ih =>
    have hrest := (ih (hts.sublist (List.sublist_cons_self e ts)) scope).tail
    rw [Stmt.inner] at hrest
    rw [Phrase.places, Block.placesOption]
    exact hrest.mono (List.sublist_cons_self e ts)
  | @body o ts l c ho hl hc ih =>
    have hspan : (Stmt.block (.ofItems l (o.span.through (ts ++ [c])))).span = _ :=
      (Spells.body ho hl hc).extent hts _ rfl
    have hitems := ih (hts.sublist ((List.sublist_append_left ts [c]).cons o))
      (scope.push program (l.filterMap Item.fn?))
    have hblock := (StartsIn.ofItems hitems (o.span.through (ts ++ [c]))).mono
      (List.sublist_append_left ts [c])
    simpa only [Phrase.places, Stmt.places, Stmt.inner] using hblock.cons hspan
  | @fnEnd f n o ps params is l e _ _ _ _ _ _ _ ih =>
    have hinfix : is <:+: f :: n :: o :: (ps ++ (is ++ [e])) :=
      ⟨f :: n :: o :: ps, [e], by simp⟩
    have hitems := ih (hts.sublist hinfix.sublist) (Scope.push [] program (l.filterMap Item.fn?))
    have hbody := (StartsIn.ofItems hitems (f.span.through (ps ++ is))).mono hinfix.sublist
    simpa only [Phrase.places, Item.places, FnDef.places] using hbody
  | @fnEndFn f n o ps params is l e g _ _ _ _ _ _ _ _ ih =>
    have hinfix : is <:+: f :: n :: o :: (ps ++ (is ++ [e, g])) :=
      ⟨f :: n :: o :: ps, [e, g], by simp⟩
    have hitems := ih (hts.sublist hinfix.sublist) (Scope.push [] program (l.filterMap Item.fn?))
    have hbody := (StartsIn.ofItems hitems (f.span.through (ps ++ is))).mono hinfix.sublist
    simpa only [Phrase.places, Item.places, FnDef.places] using hbody
  | @semicolon s r l _ _ ih =>
    exact (ih (hts.sublist (List.sublist_cons_self s r)) scope).mono (List.sublist_cons_self s r)
  | @nextItem ts x bare r l _ _ _ ihx ihl =>
    have hfirst := ihx (hts.sublist (List.sublist_append_left ts r)) scope
    exact hfirst.append (ihl (hts.sublist (List.sublist_append_right ts r)) scope)
  | _ => exact .nil _

/-- No two statements of a parsed program start at the same position. -/
theorem places_nodup_of_parse {source : Source} {b : Block} (h : parse source = .ok b)
    (program : ProgramId) : ((b.places program []).map Place.start).Nodup := by
  obtain ⟨ts, hts⟩ := tokenize_of_parse h
  have hlexes := Reader.lexes_of_tokenize hts
  obtain ⟨us, e, l, hsolid, -, hspell, rfl⟩ := (parse_eq_ok_of_lexes source hlexes).mp h
  have hsublist : us.Sublist ts :=
    (List.sublist_append_left us [e]).trans (hsolid ▸ List.filter_sublist)
  have hnodup : (us.map fun t => t.span.start).Nodup :=
    List.pairwise_map.mpr ((hlexes.increasing.2.sublist hsublist).imp Position.Before.ne)
  have hitems := hspell.places_subperm (hlexes.laid.sublist hsublist) program
    (Scope.push [] program (l.filterMap Item.fn?))
  obtain ⟨starts, hperm, hstarts⟩ := StartsIn.ofItems hitems (Span.first.through us)
  exact hperm.nodup_iff.mp (hnodup.sublist hstarts)

/-- In a parsed program a statement is known by its start, and with it its scope. -/
theorem place_unique {source : Source} {b : Block} (h : parse source = .ok b)
    {program : ProgramId} {x y : Place} (hx : x ∈ b.places program [])
    (hy : y ∈ b.places program []) (hstart : x.start = y.start) : x = y :=
  List.inj_on_of_nodup_map (places_nodup_of_parse h program) hx hy hstart

end TierScript
