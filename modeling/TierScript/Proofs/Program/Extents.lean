import Mathlib.Data.List.Forall2
import Mathlib.Logic.Relation
import TierScript.Proofs.Program.Language
import TierScript.Proofs.Token.Spacing

/-!
# Extents of nodes

Every node of the tree of a program knows a span. Here that span is shown to be exact: it runs from
the start of the first token that the node is written with to the end of the last.

* `Node`, `Node.rows`: the nodes of a tree and their children, in written order.
* `Writes ts n`: the node `n` is written with the tokens `ts`.
* `Writes.extent`: then its span is the extent of these tokens.
* `Writes.encloses`: and its children are written with runs of these tokens, one behind the other.
* `spans_exact`: both hold of all nodes of a parsed program.
-/

namespace TierScript

open Parse (Item outPositions)
open Token (extent)

/-! ## Nodes -/

/-- A node of the tree of a program. -/
inductive Node where
  | term (t : Term)
  | expr (e : Expr)
  | condition (c : Condition)
  | conditions (c : Conditions)
  | stmt (s : Stmt)
  | block (b : Block)
  | function (f : FnDef)

/-- The span of a statement. -/
def Stmt.span : Stmt → Span
  | .block b => b.span
  | .assign _ _ span | .ifElse _ _ _ span | .whileLoop _ _ span | .forLoop _ _ _ span
  | .breakLoop span | .endCode span => span
  | .call c | .moduleCall _ c => c.span

/-- What an operand consists of. -/
def Term.Kind.parts : Term.Kind → List Node
  | .group e => [.expr e]
  | .number _ | .str _ | .bool _ | .null | .var _ => []

/-- What a condition consists of, in written order. -/
def Condition.parts (c : Condition) : List Node :=
  .expr c.left :: c.comparison.toList.map fun x => .expr x.2

/-- What a statement consists of, in written order. -/
def Stmt.parts : Stmt → List Node
  | .block b => [.block b]
  | .assign _ value _ => [.expr value]
  | .ifElse condition body otherwise _ =>
    .conditions condition :: .block body :: otherwise.toList.map .block
  | .whileLoop condition body _ => [.conditions condition, .block body]
  | .forLoop dest src body _ => [.term dest, .term src, .block body]
  | .call c | .moduleCall _ c => c.args.map .expr
  | .breakLoop _ | .endCode _ => []

namespace Node

/-- The span of a node. -/
def span : Node → Span
  | .term t => t.span
  | .expr e => e.span
  | .condition c => c.span
  | .conditions c => c.span
  | .stmt s => s.span
  | .block b => b.span
  | .function f => f.span

/-- The children of a node in rows, each in written order. Only a block has two rows, the statements
    and the functions: the tree does not tell how these were mixed. -/
def rows : Node → List (List Node)
  | .term t => [t.kind.parts]
  | .expr e => [e.terms.map .term]
  | .condition c => [c.parts]
  | .conditions c => [c.items.map .condition]
  | .stmt s => [s.parts]
  | .block b => [b.stmts.map .stmt, b.functions.map .function]
  | .function f => [[.block f.body]]

/-- The children of a node. -/
def children (n : Node) : List Node := n.rows.flatten

/-- The second node is within the first one, at any depth. -/
def Within : Node → Node → Prop := Relation.TransGen fun n c => c ∈ n.children

end Node

/-! ## What nodes are written with -/

/-- The node is written with the tokens. A function is written from its `fn` on, through its `end`
    or the `fn` after it, and its body up to the token before the `end`. The `!` before an operator
    inverts the operand after it, but is no part of that. -/
inductive Writes : List Token → Node → Prop where
  | term {ts t} : Spells ts (.term t) → Writes ts (.term t)
  | invertedTerm {ts t} : Spells ts (.term t) → Writes ts (.term { t with invert := !t.invert })
  | expr {ts e} : Spells ts (.expr e) → Writes ts (.expr e)
  | condition {ts c} : Spells ts (.cond c) → Writes ts (.condition c)
  | conditions {ts c} : Spells ts (.conds c) → Writes ts (.conditions c)
  | stmt {ts s bare} : Spells ts (.item (.stmt s) bare) → Writes ts (.stmt s)
  | braces {ts b} : Spells ts (.body b) → Writes ts (.block b)
  | elseIf {ts s span} : Spells ts (.ifStmt s span) → Writes ts (.block ⟨[s], [], span⟩)
  | function {ts f bare} : Spells ts (.item (.fn f) bare) → Writes ts (.function f)
  | functionBody {f n o ps params is l} : f.kind = .fnWord → n.kind = .identifier →
      o.kind = .openParen → Spells ps (.parameters params) → Spells is (.items l) →
      Writes (f :: n :: o :: (ps ++ is)) (.block (.ofItems l (f.span.through (ps ++ is))))

theorem Writes.ne_nil {ts : List Token} {n : Node} (h : Writes ts n) : ts ≠ [] := by
  cases h with
  | term h | invertedTerm h | expr h | condition h | conditions h | stmt h | braces h | elseIf h
  | function h => exact h.ne_nil rfl
  | functionBody => exact List.cons_ne_nil _ _

/-! ## Spans -/

/-- The span that a phrase knows, if it knows one. -/
def Phrase.span? : Phrase → Option Span
  | .term t => some t.span
  | .expr e => some e.span
  | .cond c => some c.span
  | .conds c => some c.span
  | .body b => some b.span
  | .ifStmt _ span => some span
  | .item (.stmt s) _ => some s.span
  | .item (.fn f) _ => some f.span
  | _ => none

/-- A conditional statement knows the span of its phrase. -/
theorem Spells.ifStmt_span {ts : List Token} {s : Stmt} {span : Span}
    (h : Spells ts (.ifStmt s span)) : s.span = span := by
  cases h
  rfl

/-- The extent of the tokens in front starts with the first of all tokens and ends with one of
    them. -/
theorem extent_front {ts : List Token} (us : List Token) (hne : ts ≠ []) :
    (extent ts).start = (firstSpanOf (ts ++ us)).start ∧
      ∃ t ∈ ts ++ us, (extent ts).stop = t.span.stop := by
  obtain ⟨t, ht, hlast⟩ := lastSpanOf_mem hne .first
  exact ⟨by rw [firstSpanOf_append hne]; rfl, t, List.mem_append_left _ ht, by rw [← hlast]; rfl⟩

/-- The span of a phrase is the extent of the tokens that spell it. -/
theorem Spells.extent {ts : List Token} {p : Phrase} (h : Spells ts p) (hts : Laid ts) :
    ∀ s ∈ p.span?, s = extent ts := by
  -- The first token, taken together with the last ones.
  have hfirst {t : Token} {us vs : List Token} (hlaid : Laid (t :: us)) (hvs : vs <:+ us)
      (hne : vs ≠ []) : t.span.through vs = Token.extent (t :: us) :=
    hlaid.through rfl ⟨t, List.mem_cons_self, rfl⟩ (hvs.trans (List.suffix_cons t us)) hne
  -- The extent of the tokens in front, taken together with the last ones.
  have hfront {us vs ws : List Token} (hlaid : Laid (us ++ vs)) (hus : us ≠ [])
      (hws : ws <:+ us ++ vs) (hne : ws ≠ []) :
      (Token.extent us).through ws = Token.extent (us ++ vs) := by
    obtain ⟨hstart, hstop⟩ := extent_front vs hus
    exact hlaid.through hstart hstop hws hne
  induction h with
  | @term ts kind negate h =>
    rintro _ ⟨⟩
    obtain ⟨t, us, rfl⟩ := List.exists_cons_of_ne_nil (h.ne_nil rfl)
    exact hts.through rfl ⟨t, List.mem_cons_self, rfl⟩ List.suffix_rfl (List.cons_ne_nil t us)
  | invertedTerm _ h =>
    rintro _ ⟨⟩
    exact hfirst hts List.suffix_rfl (h.ne_nil rfl)
  | @expr t first r rest h _ ih =>
    rintro _ ⟨⟩
    have hne := h.ne_nil rfl
    rw [ih (hts.sublist (List.sublist_append_left t r)) _ rfl]
    exact hfront hts hne List.suffix_rfl (List.append_ne_nil_of_left_ne_nil hne r)
  | @test ts e h ih =>
    rintro _ ⟨⟩
    have hne := h.ne_nil rfl
    rw [ih hts _ rfl]
    have hlaid : Laid (ts ++ []) := by simpa using hts
    simpa using hfront hlaid hne (by simp) hne
  | @comparison l left o op r right h _ h' ih _ =>
    rintro _ ⟨⟩
    rw [ih (hts.sublist (List.sublist_append_left l _)) _ rfl]
    exact hfront hts (h.ne_nil rfl) (List.suffix_append_of_suffix (List.suffix_cons o r))
      (h'.ne_nil rfl)
  | @conds c first r rest h _ ih =>
    rintro _ ⟨⟩
    have hne := h.ne_nil rfl
    rw [ih (hts.sublist (List.sublist_append_left c r)) _ rfl]
    exact hfront hts hne List.suffix_rfl (List.append_ne_nil_of_left_ne_nil hne r)
  | @assign v target q e value hv _ he _ ih =>
    rintro _ ⟨⟩
    obtain ⟨t, us, rfl⟩ := List.exists_cons_of_ne_nil (hv.ne_nil rfl)
    have hsuffix : e <:+ t :: us ++ q :: e := List.suffix_append_of_suffix (List.suffix_cons q e)
    show (firstSpanOf (t :: us)).merge value.span = _
    rw [ih (hts.sublist hsuffix.sublist) _ rfl]
    exact hts.merge_extent rfl ⟨t, by simp, rfl⟩ hsuffix (he.ne_nil rfl)
  | @call n o a args _ _ h =>
    rintro _ ⟨⟩
    exact hfirst hts (List.suffix_cons o a) (h.ne_nil rfl)
  | moduleCall _ _ _ _ h =>
    rintro _ ⟨⟩
    exact hfirst hts (List.suffix_append [_, _, _] _) (h.ne_nil rfl)
  | fnModuleCall _ _ _ _ _ h =>
    rintro _ ⟨⟩
    exact hfirst hts (List.suffix_append [_, _, _, _] _) (h.ne_nil rfl)
  | breakLoop | endCode =>
    rintro _ ⟨⟩
    rfl
  | block _ ih => exact ih hts
  | ifItem h ih =>
    rintro _ ⟨⟩
    rw [h.ifStmt_span]
    exact ih hts _ rfl
  | @whileLoop w o c x p b body _ _ _ _ h =>
    rintro _ ⟨⟩
    exact hfirst hts ⟨o :: (c ++ [p]), by simp⟩ (h.ne_nil rfl)
  | @forLoop w o d dest m s src p b body _ _ _ _ _ _ h =>
    rintro _ ⟨⟩
    exact hfirst hts ⟨o :: (d ++ m :: (s ++ [p])), by simp⟩ (h.ne_nil rfl)
  | @ifStmt w o c x p b body r alternative _ _ _ _ h =>
    rintro _ ⟨⟩
    exact hfirst hts ⟨o :: (c ++ [p]), by simp⟩
      (List.append_ne_nil_of_left_ne_nil (h.ne_nil rfl) r)
  | body =>
    rintro _ ⟨⟩
    exact hfirst hts List.suffix_rfl (by simp)
  | @fnEnd f n o ps params is l e =>
    rintro _ ⟨⟩
    have hsuffix : [e] <:+ f :: n :: o :: (ps ++ (is ++ [e])) :=
      ⟨f :: n :: o :: (ps ++ is), by simp⟩
    have hend : f.span.merge e.span = Token.extent (f :: n :: o :: (ps ++ (is ++ [e]))) :=
      hts.merge_extent rfl ⟨f, List.mem_cons_self, rfl⟩ hsuffix (List.cons_ne_nil e [])
    obtain ⟨hstart, hstop⟩ := extent_front [] (List.cons_ne_nil f (n :: o :: (ps ++ (is ++ [e]))))
    rw [List.append_nil] at hstart hstop
    show (f.span.merge e.span).merge e.span = _
    rw [hend]
    exact hts.merge_extent hstart hstop hsuffix (List.cons_ne_nil e [])
  | @fnEndFn f n o ps params is l e g =>
    rintro _ ⟨⟩
    have hsplit : f :: n :: o :: (ps ++ (is ++ [e, g])) =
        f :: n :: o :: (ps ++ (is ++ [e])) ++ [g] := by simp
    rw [hsplit] at hts ⊢
    have hend : f.span.merge e.span = Token.extent (f :: n :: o :: (ps ++ (is ++ [e]))) :=
      (hts.sublist (List.sublist_append_left _ _)).merge_extent rfl ⟨f, List.mem_cons_self, rfl⟩
        ⟨f :: n :: o :: (ps ++ is), by simp⟩ (List.cons_ne_nil e [])
    obtain ⟨hstart, hstop⟩ := extent_front [g] (List.cons_ne_nil f (n :: o :: (ps ++ (is ++ [e]))))
    show (f.span.merge e.span).merge g.span = _
    rw [hend]
    exact hts.merge_extent hstart hstop (List.suffix_append _ _) (List.cons_ne_nil g [])
  | _ => nofun

theorem Writes.extent {ts : List Token} {n : Node} (h : Writes ts n) (hts : Laid ts) :
    n.span = extent ts := by
  cases h with
  | term h | invertedTerm h | expr h | condition h | conditions h | stmt h | braces h | elseIf h
  | function h => exact h.extent hts _ rfl
  | functionBody _ _ _ hps =>
    exact hts.through rfl ⟨_, List.mem_cons_self, rfl⟩ (List.suffix_append [_, _, _] _)
      (List.append_ne_nil_of_left_ne_nil (hps.ne_nil rfl) _)

/-! ## Children -/

/-- The nodes are written with runs of the tokens, one behind the other. Other tokens may stand
    before, between and behind these runs. -/
inductive WritesRow : List Token → List Node → Prop where
  | nil {ts} : WritesRow ts []
  | cons {ts gap run rest n row} : ts = gap ++ (run ++ rest) → Writes run n →
      WritesRow rest row → WritesRow ts (n :: row)

namespace WritesRow

variable {ts us : List Token} {row row' : List Node} {n : Node}

theorem append (h : WritesRow ts row) (h' : WritesRow us row') :
    WritesRow (ts ++ us) (row ++ row') := by
  induction h with
  | @nil ts =>
    cases h' with
    | nil => exact .nil
    | @cons us gap run rest n row' hus hn hrow =>
      have hsplit : ts ++ us = ts ++ gap ++ (run ++ rest) := by rw [hus, List.append_assoc]
      exact .cons hsplit hn hrow
  | @cons ts gap run rest n row hts hn _ ih =>
    have hsplit : ts ++ us = gap ++ (run ++ (rest ++ us)) := by simp [hts]
    exact .cons hsplit hn ih

theorem after (h : WritesRow ts row) (us : List Token) : WritesRow (ts ++ us) row := by
  simpa using h.append (@WritesRow.nil us)

theorem before (h : WritesRow us row) (ts : List Token) : WritesRow (ts ++ us) row :=
  (@WritesRow.nil ts).append h

theorem next (h : WritesRow ts row) (t : Token) : WritesRow (t :: ts) row := h.before [t]

theorem sublist (h : WritesRow ts row) (hrow : row'.Sublist row) : WritesRow ts row' := by
  induction h generalizing row' with
  | nil => rw [List.sublist_nil.mp hrow]; exact .nil
  | @cons ts gap run rest n row hts hn _ ih =>
    cases hrow with
    | cons _ hrow =>
      rw [hts]
      exact ((ih hrow).before run).before gap
    | cons_cons _ hrow => exact .cons hts hn (ih hrow)

/-- Every node of the row is written with a run of the tokens. -/
theorem exists_run (h : WritesRow ts row) (hn : n ∈ row) : ∃ run, run <:+: ts ∧ Writes run n := by
  induction h with
  | nil => cases hn
  | @cons ts gap run rest m row hts hm _ ih =>
    rw [hts]
    rcases List.mem_cons.mp hn with rfl | hn
    · exact ⟨run, ⟨gap, rest, by simp⟩, hm⟩
    · obtain ⟨run', hrun', hwrites⟩ := ih hn
      exact ⟨run', hrun'.trans ⟨gap ++ run, [], by simp⟩, hwrites⟩

/-- The nodes of a row follow each other. -/
theorem ordered (h : WritesRow ts row) (hts : Laid ts) :
    row.Pairwise fun a b => a.span.stop.Before b.span.start := by
  induction h with
  | nil => exact .nil
  | @cons ts gap run rest n row heq hn hrow ih =>
    have hlaid : Laid (run ++ rest) := hts.sublist (heq ▸ List.sublist_append_right gap _)
    have hrest := hlaid.sublist (List.sublist_append_right run rest)
    refine List.pairwise_cons.mpr ⟨fun m hm => ?_, ih hrest⟩
    obtain ⟨run', hpart, hm⟩ := hrow.exists_run hm
    rw [hn.extent (hlaid.sublist (List.sublist_append_left run rest)),
      hm.extent (hrest.sublist hpart.sublist)]
    obtain ⟨t, ht, hlast⟩ := lastSpanOf_mem hn.ne_nil .first
    obtain ⟨u, us, rfl⟩ := List.exists_cons_of_ne_nil hm.ne_nil
    have hleaves := (List.pairwise_append.mp hlaid.order).2.2 t ht u
      (hpart.sublist.mem List.mem_cons_self)
    show (lastSpanOf .first run).stop.Before u.span.start
    rw [hlast]
    exact hleaves

end WritesRow

theorem Writes.row {ts : List Token} {n : Node} (h : Writes ts n) : WritesRow ts [n] := by
  have hts : ts = [] ++ (ts ++ []) := by simp
  exact .cons hts h .nil

/-- The node that an item is. -/
def Parse.Item.node : Item → Node
  | .stmt s => .stmt s
  | .fn f => .function f

theorem stmts_sublist (l : List Item) :
    ((l.filterMap Item.stmt?).map Node.stmt).Sublist (l.map Item.node) := by
  induction l with
  | nil => exact .slnil
  | cons x l ih =>
    cases x with
    | stmt s => exact ih.cons_cons _
    | fn f => exact ih.cons _

theorem functions_sublist (l : List Item) :
    ((l.filterMap Item.fn?).map Node.function).Sublist (l.map Item.node) := by
  induction l with
  | nil => exact .slnil
  | cons x l ih =>
    cases x with
    | stmt s => exact ih.cons _
    | fn f => exact ih.cons_cons _

/-- A row of items holds the rows of the block that they make. -/
theorem WritesRow.block {ts : List Token} {l : List Item} (h : WritesRow ts (l.map Item.node))
    (span : Span) : ∀ row ∈ (Node.block (.ofItems l span)).rows, WritesRow ts row := by
  refine List.forall_mem_cons.mpr ⟨?_, List.forall_mem_singleton.mpr ?_⟩
  · exact h.sublist (stmts_sublist l)
  · exact h.sublist (functions_sublist l)

/-- The nodes that a phrase consists of, in rows. -/
def Phrase.rows : Phrase → List (List Node)
  | .operand kind _ => [kind.parts]
  | .term t => (Node.term t).rows
  | .operands l => [l.map fun x => .term x.2]
  | .expr e => (Node.expr e).rows
  | .cond c => (Node.condition c).rows
  | .moreConds l => [l.map fun x => .condition x.2]
  | .conds c => (Node.conditions c).rows
  | .moreArguments l | .arguments l => [l.map .expr]
  | .body b => (Node.block b).rows
  | .ifStmt s _ => (Node.stmt s).rows
  | .otherwise b => [b.toList.map .block]
  | .item x _ => x.node.rows
  | .items l => [l.map Item.node]
  | .tierVar _ | .var _ | .moreParameters _ | .parameters _ => []

/-- What a phrase consists of is written with runs of its tokens. -/
theorem Spells.rows {ts : List Token} {p : Phrase} (h : Spells ts p) :
    ∀ row ∈ p.rows, WritesRow ts row := by
  induction h with
  | tierName | tierDotName | tierVar | name | lastParameter | nextParameter | lastOut | nextOut
  | noParameters | someParameters => exact nofun
  | number | negativeNumber | str | trueWord | falseWord | nullWord | var | negativeVar
  | noOperands | noConds | noArguments | breakLoop | endCode | noElse | noItems =>
    exact List.forall_mem_singleton.mpr .nil
  | group _ h => exact List.forall_mem_singleton.mpr (((Writes.expr h).row.after _).next _)
  | term _ ih | someArguments _ ih | ifItem _ ih => exact ih
  | invertedTerm _ _ ih => exact fun row hrow => (ih row hrow).next _
  | operand _ h _ _ ih =>
    have hrest := ih _ List.mem_cons_self
    exact List.forall_mem_singleton.mpr (((Writes.term h).row.append hrest).next _)
  | invertedOperand _ _ h _ _ ih =>
    have hrest := ih _ List.mem_cons_self
    exact List.forall_mem_singleton.mpr ((((Writes.invertedTerm h).row.append hrest).next _).next _)
  | expr h _ _ ih =>
    have hrest := ih _ List.mem_cons_self
    refine List.forall_mem_singleton.mpr ((Writes.term h).row.append ?_)
    rwa [List.map_map]
  | test h => exact List.forall_mem_singleton.mpr (Writes.expr h).row
  | comparison h _ h' =>
    have hright := (Writes.expr h').row
    exact List.forall_mem_singleton.mpr ((Writes.expr h).row.append (hright.next _))
  | nextCond _ h _ _ ih =>
    have hrest := ih _ List.mem_cons_self
    exact List.forall_mem_singleton.mpr (((Writes.condition h).row.append hrest).next _)
  | conds h _ _ ih =>
    have hrest := ih _ List.mem_cons_self
    refine List.forall_mem_singleton.mpr ((Writes.condition h).row.append ?_)
    rwa [List.map_map]
  | lastArgument h => exact List.forall_mem_singleton.mpr ((Writes.expr h).row.after _)
  | nextArgument h _ _ _ ih =>
    have hrest := ih _ List.mem_cons_self
    exact List.forall_mem_singleton.mpr ((Writes.expr h).row.append (hrest.next _))
  | assign _ _ h => exact List.forall_mem_singleton.mpr (((Writes.expr h).row.next _).before _)
  | call _ _ _ ih => exact List.forall_mem_singleton.mpr ((ih _ List.mem_cons_self).before [_, _])
  | moduleCall _ _ _ _ _ ih =>
    exact List.forall_mem_singleton.mpr ((ih _ List.mem_cons_self).before [_, _, _, _])
  | fnModuleCall _ _ _ _ _ _ ih =>
    exact List.forall_mem_singleton.mpr ((ih _ List.mem_cons_self).before [_, _, _, _, _])
  | block h => exact List.forall_mem_singleton.mpr (Writes.braces h).row
  | whileLoop _ _ hc _ hb =>
    have hbody := (Writes.braces hb).row
    exact List.forall_mem_singleton.mpr
      (((Writes.conditions hc).row.append (hbody.next _)).before [_, _])
  | forLoop _ _ hd _ hs _ hb =>
    have hdest := (Writes.term hd).row
    have hsrc := (Writes.term hs).row
    have hbody := (Writes.braces hb).row
    exact List.forall_mem_singleton.mpr
      ((hdest.append ((hsrc.append (hbody.next _)).next _)).before [_, _])
  | ifStmt _ _ hc _ hb _ _ _ ih =>
    have hbody := (Writes.braces hb).row.append (ih _ List.mem_cons_self)
    exact List.forall_mem_singleton.mpr
      (((Writes.conditions hc).row.append (hbody.next _)).before [_, _])
  | elseIf _ h => exact List.forall_mem_singleton.mpr ((Writes.elseIf h).row.next _)
  | elseBody _ h => exact List.forall_mem_singleton.mpr ((Writes.braces h).row.next _)
  | body _ _ _ ih => exact (((ih _ List.mem_cons_self).after _).next _).block _
  | @fnEnd f n o ps params is l e hf hn ho hps his =>
    have hbody := (Writes.functionBody hf hn ho hps his).row.after [e]
    exact List.forall_mem_singleton.mpr (by simpa using hbody)
  | @fnEndFn f n o ps params is l e g hf hn ho hps his =>
    have hbody := (Writes.functionBody hf hn ho hps his).row.after [e, g]
    exact List.forall_mem_singleton.mpr (by simpa using hbody)
  | semicolon _ _ ih => exact List.forall_mem_singleton.mpr ((ih _ List.mem_cons_self).next _)
  | @nextItem ts x bare r l h _ _ _ ih =>
    have hitem : Writes ts x.node := by
      cases x with
      | stmt s => exact .stmt h
      | fn f => exact .function h
    exact List.forall_mem_singleton.mpr (hitem.row.append (ih _ List.mem_cons_self))

theorem Writes.rows {ts : List Token} {n : Node} (h : Writes ts n) :
    ∀ row ∈ n.rows, WritesRow ts row := by
  cases h with
  | term h | invertedTerm h | expr h | condition h | conditions h | stmt h | braces h
  | function h => exact h.rows
  | elseIf h =>
    refine List.forall_mem_cons.mpr ⟨?_, List.forall_mem_singleton.mpr .nil⟩
    exact (Writes.stmt (.ifItem h)).row
  | functionBody _ _ _ _ h =>
    have hitems := h.rows _ List.mem_cons_self
    exact ((hitems.before _).before [_, _, _]).block _

/-! ## Exact spans -/

/-- The children of the node are written with runs of the tokens, and lie within its span. The
    children of a row follow each other. -/
structure Node.Encloses (ts : List Token) (n : Node) : Prop where
  rows : ∀ row ∈ n.rows, WritesRow ts row
  inside : ∀ c ∈ n.children, n.span.covers c.span = true
  ordered : ∀ row ∈ n.rows, row.Pairwise fun a b => a.span.stop.Before b.span.start

theorem Span.covers_iff {a b : Span} :
    a.covers b = true ↔ a.start.le b.start = true ∧ b.stop.le a.stop = true := Bool.and_eq_true_iff

/-- A span that covers the tokens covers what is written with them. -/
theorem Node.encloses_of_rows {ts : List Token} {n : Node} (hts : Laid ts)
    (hspan : ∀ t ∈ ts, n.span.covers t.span = true) (hrows : ∀ row ∈ n.rows, WritesRow ts row) :
    n.Encloses ts where
  rows := hrows
  ordered row hrow := (hrows row hrow).ordered hts
  inside c hc := by
    obtain ⟨row, hrow, hc⟩ := List.mem_flatten.mp hc
    obtain ⟨run, hinfix, hwrites⟩ := (hrows row hrow).exists_run hc
    have hsublist := hinfix.sublist
    rw [hwrites.extent (hts.sublist hsublist)]
    obtain ⟨t, ht, hlast⟩ := lastSpanOf_mem hwrites.ne_nil .first
    obtain ⟨u, us, rfl⟩ := List.exists_cons_of_ne_nil hwrites.ne_nil
    have hfirst := (Span.covers_iff.mp (hspan u (hsublist.mem List.mem_cons_self))).1
    have hstop := (Span.covers_iff.mp (hspan t (hsublist.mem ht))).2
    refine Span.covers_iff.mpr ⟨hfirst, ?_⟩
    show (lastSpanOf .first (u :: us)).stop.le n.span.stop = true
    rwa [hlast]

theorem Writes.encloses {ts : List Token} {n : Node} (h : Writes ts n) (hts : Laid ts) :
    n.Encloses ts :=
  n.encloses_of_rows hts (fun _ ht => h.extent hts ▸ hts.covers ht) h.rows

/-- In a parsed program, every node but the program itself is written with a run of the tokens that
    are not trivia. Its span is the extent of that run, from the start of its first token to the end
    of its last. The program starts with the text and ends with its last such token, if there is
    one. The children of a node are written with runs of its tokens; they lie within the node, and
    those of a row, such as the statements of a block, follow each other. -/
theorem spans_exact {source : Source} {b : Block} (h : parse source = .ok b) :
    ∃ ts us e, tokenize source.text = .ok ts ∧ Token.solid ts = us ++ [e] ∧ e.kind = .eof ∧
      b.span = ⟨.first, (lastSpanOf .first us).stop⟩ ∧ (Node.block b).Encloses us ∧
      ∀ n, (Node.block b).Within n →
        ∃ vs, vs <:+: us ∧ vs ≠ [] ∧ Writes vs n ∧ n.span = extent vs ∧ n.Encloses vs := by
  obtain ⟨ts, hts⟩ := tokenize_of_parse h
  have hlexes := Reader.lexes_of_tokenize hts
  obtain ⟨us, e, l, hsolid, he, hspell, rfl⟩ := (parse_eq_ok_of_lexes source hlexes).mp h
  have hsublist : us.Sublist ts :=
    (List.sublist_append_left us [e]).trans (hsolid ▸ List.filter_sublist)
  have hlaid : Laid us := hlexes.laid.sublist hsublist
  have hfirst : ∀ t ∈ us, Position.first.le t.span.start = true :=
    fun t ht => hlexes.first_le t (hsublist.mem ht)
  have hspan : Span.first.through us = ⟨.first, (lastSpanOf .first us).stop⟩ := by
    cases us using List.reverseRecOn with
    | nil => rfl
    | append_singleton us t _ =>
      have hstart := hfirst t (by simp)
      have hstop := Position.le_trans hstart (hlaid.spans t (by simp))
      rw [Span.through, lastSpanOf_append]
      exact Span.merge_of_le hstart hstop
  have htop : (Node.block (.ofItems l (Span.first.through us))).Encloses us := by
    refine Node.encloses_of_rows hlaid (fun t ht => ?_) ((hspell.rows _ List.mem_cons_self).block _)
    show (Span.first.through us).covers t.span = true
    rw [hspan]
    exact Span.covers_iff.mpr ⟨hfirst t ht, (Span.covers_iff.mp (hlaid.covers ht)).2⟩
  refine ⟨ts, us, e, hts, hsolid, he, hspan, htop, ?_⟩
  intro n hn
  -- a node is written with a run of the tokens of the node that it is in
  have hwritten : ∃ vs, vs <:+: us ∧ Writes vs n := by
    induction hn with
    | single hc =>
      obtain ⟨row, hrow, hc⟩ := List.mem_flatten.mp hc
      exact (htop.rows row hrow).exists_run hc
    | tail _ hc ih =>
      obtain ⟨vs, hvs, hwrites⟩ := ih
      obtain ⟨row, hrow, hc⟩ := List.mem_flatten.mp hc
      obtain ⟨ws, hws, hc⟩ := (hwrites.rows row hrow).exists_run hc
      exact ⟨ws, hws.trans hvs, hc⟩
  obtain ⟨vs, hvs, hwrites⟩ := hwritten
  have hvslaid := hlaid.sublist hvs.sublist
  exact ⟨vs, hvs, hwrites.ne_nil, hwrites, hwrites.extent hvslaid, hwrites.encloses hvslaid⟩

/-- The definition ends with the `fn` behind its `end`, and the call starts with its module. -/
theorem spans_exact_definitionAndCall :
    ∃ us b f c, parse definitionAndCall = .ok b ∧ b.functions = [f] ∧ b.stmts = [c] ∧
      b.span = ⟨.first, (lastSpanOf .first us).stop⟩ ∧
      (∃ vs, vs <:+: us ∧ f.span = extent vs ∧ f.span.stop = ⟨1, 13⟩) ∧
      ∃ ws, ws <:+: us ∧ c.span = extent ws ∧ c.span.start = ⟨1, 15⟩ := by
  have hparse : (parse definitionAndCall).toOption.any (fun b =>
      b.functions.map (fun f => f.span.stop) = [⟨1, 13⟩] &&
        b.stmts.map (fun c => c.span.start) = [⟨1, 15⟩]) = true := by
    decide +kernel
  obtain ⟨b, hb, htest⟩ := exists_ok_of_any hparse
  obtain ⟨hf, hc⟩ := Bool.and_eq_true_iff.mp htest
  obtain ⟨f, hf, hstop⟩ := List.map_eq_singleton_iff.mp (of_decide_eq_true hf)
  obtain ⟨c, hc, hstart⟩ := List.map_eq_singleton_iff.mp (of_decide_eq_true hc)
  obtain ⟨-, us, -, -, -, -, hspan, -, hnodes⟩ := spans_exact hb
  have hfunction : (Node.block b).Within (.function f) :=
    .single (by simp [Node.children, Node.rows, hf])
  have hcall : (Node.block b).Within (.stmt c) :=
    .single (by simp [Node.children, Node.rows, hc])
  obtain ⟨vs, hvs, -, -, hfspan, -⟩ := hnodes _ hfunction
  obtain ⟨ws, hws, -, -, hcspan, -⟩ := hnodes _ hcall
  exact ⟨us, b, f, c, hb, hf, hc, hspan, ⟨vs, hvs, hfspan, hstop⟩, ws, hws, hcspan, hstart⟩

end TierScript
