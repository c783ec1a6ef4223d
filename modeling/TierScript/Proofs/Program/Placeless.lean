import TierScript.Proofs.Program.RoundTrip
import TierScript.Proofs.Token.Joining

/-!
# Phrases without their places

What tokens spell depends on their kinds and their characters. Where they stand only shows in the
places of the parts.

* `SpellsBare`: the tokens spell the phrase, up to the places of its parts. For each production that
  puts phrases together there is the same production up to places.
* `Spells.elsewhere`: tokens of the same kinds and characters spell the same, up to places.
-/

namespace TierScript

open Parse (Item outPositions)

/-! ## Phrases without their places -/

@[inherit_doc Stmt.bare]
def Parse.Item.bare : Item → Item
  | .stmt s => .stmt s.bare
  | .fn f => .fn f.bare

/-- The tokens spell the phrase, up to the places of its parts. -/
abbrev SpellsBare (ts : List Token) : Phrase → Prop
  | .tierVar v => Spells ts (.tierVar v)
  | .var v => Spells ts (.var v)
  | .operand kind negate => ∃ kind', Spells ts (.operand kind' negate) ∧ kind'.bare = kind.bare
  | .term t => ∃ t', Spells ts (.term t') ∧ t'.bare = t.bare
  | .operands l => ∃ l', Spells ts (.operands l') ∧ l'.map Prod.fst = l.map Prod.fst ∧
      l'.map (fun x => x.2.bare) = l.map fun x => x.2.bare
  | .expr e => ∃ e', Spells ts (.expr e') ∧ e'.bare = e.bare
  | .cond c => ∃ c', Spells ts (.cond c') ∧ c'.bare = c.bare
  | .moreConds l => ∃ l', Spells ts (.moreConds l') ∧ l'.map Prod.fst = l.map Prod.fst ∧
      l'.map (fun x => x.2.bare) = l.map fun x => x.2.bare
  | .conds c => ∃ c', Spells ts (.conds c') ∧ c'.bare = c.bare
  | .moreArguments l => ∃ l', Spells ts (.moreArguments l') ∧ l'.map Expr.bare = l.map Expr.bare
  | .arguments l => ∃ l', Spells ts (.arguments l') ∧ l'.map Expr.bare = l.map Expr.bare
  | .moreParameters l => Spells ts (.moreParameters l)
  | .parameters l => Spells ts (.parameters l)
  | .body b => ∃ b', Spells ts (.body b') ∧ b'.bare = b.bare
  | .ifStmt s _ => ∃ s' span, Spells ts (.ifStmt s' span) ∧ s'.bare = s.bare
  | .otherwise b => ∃ b', Spells ts (.otherwise b') ∧ b'.map Block.bare = b.map Block.bare
  | .item x bare => ∃ x', Spells ts (.item x' bare) ∧ x'.bare = x.bare
  | .items l => ∃ l', Spells ts (.items l') ∧ l'.map Item.bare = l.map Item.bare

theorem Block.bare_ofItems (l : List Item) (span : Span) :
    (ofItems l span).bare = ofItems (l.map Item.bare) .first := by
  have hstmts : (l.filterMap Item.stmt?).map Stmt.bare =
      (l.map Item.bare).filterMap Item.stmt? := by
    rw [List.map_filterMap, List.filterMap_map]
    congr 1
    funext x
    cases x <;> rfl
  have hfns : (l.filterMap Item.fn?).map FnDef.bare = (l.map Item.bare).filterMap Item.fn? := by
    rw [List.map_filterMap, List.filterMap_map]
    congr 1
    funext x
    cases x <;> rfl
  rw [ofItems, bare, Stmt.bareAll_eq, FnDef.bareAll_eq, hstmts, hfns, ofItems]

theorem Block.bare_ofItems_eq {l l' : List Item} (h : l'.map Item.bare = l.map Item.bare)
    (span span' : Span) : (ofItems l' span').bare = (ofItems l span).bare := by
  rw [bare_ofItems, bare_ofItems, h]

theorem Stmt.bare_ifElse (condition : Conditions) (body : Block) (otherwise : Option Block)
    (span : Span) : (Stmt.ifElse condition body otherwise span).bare =
      .ifElse condition.bare body.bare (otherwise.map Block.bare) .first := by
  cases otherwise <;> rfl

theorem Term.parts_of_bare {t t' : Term} (h : t'.bare = t.bare) :
    t'.kind.bare = t.kind.bare ∧ t'.invert = t.invert ∧ t'.negate = t.negate := by
  obtain ⟨kind, invert, negate, span⟩ := t
  obtain ⟨kind', invert', negate', span'⟩ := t'
  simp only [Term.bare, Term.mk.injEq, and_true] at h
  exact h

/-! ## The productions up to places -/

/-- An item that is a statement, up to places. -/
theorem SpellsBare.stmt {ts : List Token} {s s' : Stmt} {bare : Bool}
    (h : Spells ts (.item (.stmt s') bare)) (hs : s'.bare = s.bare) :
    SpellsBare ts (.item (.stmt s) bare) := ⟨_, h, congrArg Item.stmt hs⟩

namespace SpellsBare

variable {ts a b c d r s v : List Token} {t n o p w : Token} {span : Span}

section Expressions

variable {e : Expr} {x : Term} {op : ArithOp} {rest : List (ArithOp × Term)}

theorem group (ho : o.kind = .openParen) (h : SpellsBare ts (.expr e))
    (hp : p.kind = .closeParen) : SpellsBare (o :: (ts ++ [p])) (.operand (.group e) false) := by
  obtain ⟨_, he, hbare⟩ := h
  exact ⟨_, .group ho he hp, congrArg Term.Kind.group hbare⟩

theorem term {kind : Term.Kind} {negate : Bool} (h : SpellsBare ts (.operand kind negate)) :
    SpellsBare ts (.term ⟨kind, false, negate, span⟩) := by
  obtain ⟨_, ho, hbare⟩ := h
  exact ⟨_, .term ho, by rw [Term.bare, hbare, Term.bare]⟩

theorem invertedTerm {kind : Term.Kind} {negate : Bool} (hn : n.kind = .not)
    (h : SpellsBare ts (.operand kind negate)) :
    SpellsBare (n :: ts) (.term ⟨kind, true, negate, span⟩) := by
  obtain ⟨_, ho, hbare⟩ := h
  exact ⟨_, .invertedTerm hn ho, by rw [Term.bare, hbare, Term.bare]⟩

theorem operand (ho : o.kind.arithOp? = some op) (h : SpellsBare ts (.term x))
    (hr : SpellsBare r (.operands rest)) :
    SpellsBare (o :: (ts ++ r)) (.operands ((op, x) :: rest)) := by
  obtain ⟨_, ht, hbare⟩ := h
  obtain ⟨_, hr, hops, hrest⟩ := hr
  exact ⟨_, .operand ho ht hr, by simp [hops], by simp [hbare, hrest]⟩

theorem invertedOperand (hn : n.kind = .not) (ho : o.kind.arithOp? = some op)
    (h : SpellsBare ts (.term x)) (hr : SpellsBare r (.operands rest)) :
    SpellsBare (n :: o :: (ts ++ r))
      (.operands ((op, { x with invert := !x.invert }) :: rest)) := by
  obtain ⟨_, ht, hbare⟩ := h
  obtain ⟨_, hr, hops, hrest⟩ := hr
  obtain ⟨hkind, hinvert, hnegate⟩ := Term.parts_of_bare hbare
  refine ⟨_, .invertedOperand hn ho ht hr, by simp [hops], ?_⟩
  simp only [List.map_cons, Term.bare, hkind, hinvert, hnegate, hrest]

theorem expr (h : SpellsBare ts (.term x)) (hr : SpellsBare r (.operands rest)) :
    SpellsBare (ts ++ r) (.expr ⟨x :: rest.map Prod.snd, rest.map Prod.fst, span⟩) := by
  obtain ⟨_, ht, hbare⟩ := h
  obtain ⟨_, hr, hops, hrest⟩ := hr
  refine ⟨_, .expr ht hr, ?_⟩
  simp only [Expr.bare, Term.bareAll_eq, List.map_cons, List.map_map, hbare, hops]
  exact congrArg (fun l => Expr.mk (_ :: l) _ _) hrest

end Expressions

section Conditions

variable {e e' : Expr} {x : Condition} {rest : List (BoolOp × Condition)}

theorem test (h : SpellsBare ts (.expr e)) : SpellsBare ts (.cond ⟨e, none, span⟩) := by
  obtain ⟨_, he, hbare⟩ := h
  exact ⟨_, .test he, by simp [Condition.bare, hbare]⟩

theorem comparison {op : RelOp} (h : SpellsBare ts (.expr e)) (ho : o.kind.relOp? = some op)
    (hr : SpellsBare r (.expr e')) :
    SpellsBare (ts ++ o :: r) (.cond ⟨e, some (op, e'), span⟩) := by
  obtain ⟨_, hl, hleft⟩ := h
  obtain ⟨_, hr, hright⟩ := hr
  exact ⟨_, .comparison hl ho hr, by simp [Condition.bare, hleft, hright]⟩

theorem nextCond {op : BoolOp} (ho : o.kind.boolOp? = some op) (h : SpellsBare ts (.cond x))
    (hr : SpellsBare r (.moreConds rest)) :
    SpellsBare (o :: (ts ++ r)) (.moreConds ((op, x) :: rest)) := by
  obtain ⟨_, hc, hbare⟩ := h
  obtain ⟨_, hr, hops, hrest⟩ := hr
  exact ⟨_, .nextCond ho hc hr, by simp [hops], by simp [hbare, hrest]⟩

theorem conds (h : SpellsBare ts (.cond x)) (hr : SpellsBare r (.moreConds rest)) :
    SpellsBare (ts ++ r) (.conds ⟨x :: rest.map Prod.snd, rest.map Prod.fst, span⟩) := by
  obtain ⟨_, hc, hbare⟩ := h
  obtain ⟨_, hr, hops, hrest⟩ := hr
  refine ⟨_, .conds hc hr, ?_⟩
  simp only [Conditions.bare, List.map_cons, List.map_map, hbare, hops]
  exact congrArg (fun l => Conditions.mk (_ :: l) _ _) hrest

end Conditions

section Calls

variable {e : Expr} {l args : List Expr} {name : String}

theorem lastArgument (h : SpellsBare ts (.expr e)) (hp : p.kind = .closeParen) :
    SpellsBare (ts ++ [p]) (.moreArguments [e]) := by
  obtain ⟨_, he, hbare⟩ := h
  exact ⟨_, .lastArgument he hp, by simp [hbare]⟩

theorem nextArgument (h : SpellsBare ts (.expr e)) (hp : p.kind = .comma)
    (hr : SpellsBare r (.moreArguments l)) :
    SpellsBare (ts ++ p :: r) (.moreArguments (e :: l)) := by
  obtain ⟨_, he, hbare⟩ := h
  obtain ⟨_, hr, hrest⟩ := hr
  exact ⟨_, .nextArgument he hp hr, by simp [hbare, hrest]⟩

theorem someArguments (h : SpellsBare ts (.moreArguments l)) : SpellsBare ts (.arguments l) := by
  obtain ⟨_, hl, hbare⟩ := h
  exact ⟨_, .someArguments hl, hbare⟩

theorem call (hn : n.kind = .identifier) (ho : o.kind = .openParen)
    (h : SpellsBare ts (.arguments args)) (hname : n.text = name) :
    SpellsBare (n :: o :: ts) (.item (.stmt (.call ⟨name, args, span⟩)) false) := by
  obtain ⟨_, ha, hargs⟩ := h
  exact stmt (.call hn ho ha) (by simp [Stmt.bare, Call.bare, hargs, hname])

variable {m d : Token} {module : String}

theorem moduleCall (hm : m.kind = .identifier) (hd : d.kind = .dot) (hn : n.kind = .identifier)
    (ho : o.kind = .openParen) (h : SpellsBare ts (.arguments args)) (hmodule : m.text = module)
    (hname : n.text = name) :
    SpellsBare (m :: d :: n :: o :: ts)
      (.item (.stmt (.moduleCall module ⟨name, args, span⟩)) false) := by
  obtain ⟨_, ha, hargs⟩ := h
  exact stmt (.moduleCall hm hd hn ho ha) (by simp [Stmt.bare, Call.bare, hargs, hmodule, hname])

theorem fnModuleCall (hw : w.kind = .fnWord) (hm : m.kind = .identifier) (hd : d.kind = .dot)
    (hn : n.kind = .identifier) (ho : o.kind = .openParen) (h : SpellsBare ts (.arguments args))
    (hmodule : m.text = module) (hname : n.text = name) :
    SpellsBare (w :: m :: d :: n :: o :: ts)
      (.item (.stmt (.moduleCall module ⟨name, args, span⟩)) false) := by
  obtain ⟨_, ha, hargs⟩ := h
  exact stmt (.fnModuleCall hw hm hd hn ho ha)
    (by simp [Stmt.bare, Call.bare, hargs, hmodule, hname])

end Calls

section Statements

variable {x : Conditions} {body : Block} {alternative : Option Block}

theorem assign {target : Var} {e : Expr} (hv : Spells v (.tierVar target)) (ho : o.kind = .eq)
    (h : SpellsBare ts (.expr e)) :
    SpellsBare (v ++ o :: ts) (.item (.stmt (.assign target e span)) false) := by
  obtain ⟨_, he, hvalue⟩ := h
  exact stmt (.assign hv ho he) (by simp [Stmt.bare, hvalue])

theorem block (h : SpellsBare ts (.body body)) :
    SpellsBare ts (.item (.stmt (.block body)) false) := by
  obtain ⟨_, hb, hbare⟩ := h
  exact stmt (.block hb) (by simp [Stmt.bare, hbare])

theorem ifItem {i : Stmt} (h : SpellsBare ts (.ifStmt i span)) :
    SpellsBare ts (.item (.stmt i) false) := by
  obtain ⟨_, _, hs, hbare⟩ := h
  exact stmt (.ifItem hs) hbare

theorem whileLoop (hw : w.kind = .whileWord) (ho : o.kind = .openParen)
    (hc : SpellsBare c (.conds x)) (hp : p.kind = .closeParen) (hb : SpellsBare b (.body body)) :
    SpellsBare (w :: o :: (c ++ p :: b)) (.item (.stmt (.whileLoop x body span)) false) := by
  obtain ⟨_, hc, hcond⟩ := hc
  obtain ⟨_, hb, hbody⟩ := hb
  exact stmt (.whileLoop hw ho hc hp hb) (by simp [Stmt.bare, hcond, hbody])

theorem forLoop {m : Token} {dest src : Term} (hw : w.kind = .forWord) (ho : o.kind = .openParen)
    (hd : SpellsBare d (.term dest)) (hm : m.kind = .semicolon) (hs : SpellsBare s (.term src))
    (hp : p.kind = .closeParen) (hb : SpellsBare b (.body body)) :
    SpellsBare (w :: o :: (d ++ m :: (s ++ p :: b)))
      (.item (.stmt (.forLoop dest src body span)) false) := by
  obtain ⟨_, hd, hdest⟩ := hd
  obtain ⟨_, hs, hsrc⟩ := hs
  obtain ⟨_, hb, hbody⟩ := hb
  exact stmt (.forLoop hw ho hd hm hs hp hb) (by simp [Stmt.bare, hdest, hsrc, hbody])

theorem ifStmt {span' : Span} (hw : w.kind = .ifWord) (ho : o.kind = .openParen)
    (hc : SpellsBare c (.conds x)) (hp : p.kind = .closeParen) (hb : SpellsBare b (.body body))
    (hr : SpellsBare r (.otherwise alternative)) :
    SpellsBare (w :: o :: (c ++ p :: (b ++ r)))
      (.ifStmt (.ifElse x body alternative span) span') := by
  obtain ⟨_, hc, hcond⟩ := hc
  obtain ⟨_, hb, hbody⟩ := hb
  obtain ⟨_, hr, halternative⟩ := hr
  exact ⟨_, _, .ifStmt hw ho hc hp hb hr,
    by rw [Stmt.bare_ifElse, Stmt.bare_ifElse, hcond, hbody, halternative]⟩

theorem elseIf {i : Stmt} (hw : w.kind = .elseWord) (h : SpellsBare ts (.ifStmt i span)) :
    SpellsBare (w :: ts) (.otherwise (some ⟨[i], [], span⟩)) := by
  obtain ⟨_, _, hs, hbare⟩ := h
  exact ⟨_, .elseIf hw hs, by simp [Block.bare, Stmt.bareAll, hbare]⟩

theorem elseBody (hw : w.kind = .elseWord) (h : SpellsBare ts (.body body)) :
    SpellsBare (w :: ts) (.otherwise (some body)) := by
  obtain ⟨_, hb, hbare⟩ := h
  exact ⟨_, .elseBody hw hb, congrArg some hbare⟩

end Statements

section Items

variable {l : List Item} {params : List (Bool × String)} {name : String} {e : Token}

theorem body (ho : o.kind = .openBrace) (h : SpellsBare ts (.items l)) (hp : p.kind = .closeBrace) :
    SpellsBare (o :: (ts ++ [p])) (.body (.ofItems l span)) := by
  obtain ⟨_, hl, hbare⟩ := h
  exact ⟨_, .body ho hl hp, Block.bare_ofItems_eq hbare _ _⟩

variable {span' : Span}

theorem fnEnd (hw : w.kind = .fnWord) (hn : n.kind = .identifier) (ho : o.kind = .openParen)
    (ha : Spells a (.parameters params)) (h : SpellsBare ts (.items l)) (he : e.kind = .endWord)
    (hname : n.text = name) :
    SpellsBare (w :: n :: o :: (a ++ (ts ++ [e]))) (.item (.fn ⟨name, params.map Prod.snd,
      outPositions 0 params, .ofItems l span, span'⟩) true) := by
  obtain ⟨_, hi, hbare⟩ := h
  exact ⟨_, .fnEnd hw hn ho ha hi he,
    by simp only [Item.bare, FnDef.bare, hname, Block.bare_ofItems, hbare]⟩

theorem fnEndFn {g : Token} (hw : w.kind = .fnWord) (hn : n.kind = .identifier)
    (ho : o.kind = .openParen) (ha : Spells a (.parameters params)) (h : SpellsBare ts (.items l))
    (he : e.kind = .endWord) (hg : g.kind = .fnWord) (hname : n.text = name) :
    SpellsBare (w :: n :: o :: (a ++ (ts ++ [e, g]))) (.item (.fn ⟨name, params.map Prod.snd,
      outPositions 0 params, .ofItems l span, span'⟩) false) := by
  obtain ⟨_, hi, hbare⟩ := h
  exact ⟨_, .fnEndFn hw hn ho ha hi he hg,
    by simp only [Item.bare, FnDef.bare, hname, Block.bare_ofItems, hbare]⟩

theorem semicolon (ht : t.kind = .semicolon) (h : SpellsBare ts (.items l)) :
    SpellsBare (t :: ts) (.items l) := by
  obtain ⟨_, hl, hbare⟩ := h
  exact ⟨_, .semicolon ht hl, hbare⟩

theorem nextItem {x : Item} {bare : Bool} (h : SpellsBare ts (.item x bare))
    (hr : SpellsBare r (.items l)) (hfn : bare = true → ∀ t ∈ r.head?, t.kind ≠ .fnWord) :
    SpellsBare (ts ++ r) (.items (x :: l)) := by
  obtain ⟨_, hx, hitem⟩ := h
  obtain ⟨_, hr, hrest⟩ := hr
  exact ⟨_, .nextItem hx hr hfn, by simp [hitem, hrest]⟩

end Items

end SpellsBare

/-! ## Tokens elsewhere -/

/-- A change of tokens that leaves their kinds and their characters alone. -/
structure Token.KeepsText (f : Token → Token) : Prop where
  kind : ∀ t, (f t).kind = t.kind
  lexeme : ∀ t, (f t).lexeme = t.lexeme

namespace Token.KeepsText

variable {f : Token → Token} (hf : KeepsText f)
include hf

theorem text (t : Token) : (f t).text = t.text := by
  rw [Token.text, hf.lexeme, Token.text]

theorem magnitude (t : Token) : (f t).magnitude = t.magnitude := by
  rw [Token.magnitude, hf.lexeme, Token.magnitude]

end Token.KeepsText

theorem Token.keepsText_moved (bytes lines : Nat) : KeepsText (Token.moved bytes lines) :=
  ⟨fun _ => rfl, fun _ => rfl⟩

/-- Tokens of the same kinds and characters spell the same, up to places. -/
theorem Spells.elsewhere {f : Token → Token} (hf : Token.KeepsText f) {ts : List Token} {p : Phrase}
    (h : Spells ts p) : SpellsBare (ts.map f) p := by
  have hkind {t : Token} {k : Kind} (ht : t.kind = k) : (f t).kind = k := (hf.kind t).trans ht
  induction h with
  | @tierName w n tier hw hn =>
    have hname := Spells.tierName (hkind hw) (hkind hn)
    rwa [hf.text] at hname
  | @tierDotName w d n tier hw hd hn =>
    have hname := Spells.tierDotName (hkind hw) (hkind hd) (hkind hn)
    rwa [hf.text] at hname
  | tierVar _ ih => exact Spells.tierVar ih
  | @name n hn =>
    have hname := Spells.name (hkind hn)
    rwa [hf.text] at hname
  -- Operands
  | group ho _ hc ih =>
    rw [List.map_cons, List.map_append]
    exact .group (hkind ho) ih (hkind hc)
  | number ht hn => exact ⟨_, .number (hkind ht) (hn.trans (hf.magnitude _).symm), rfl⟩
  | negativeNumber hm ht hn =>
    rw [← hf.magnitude] at hn
    exact ⟨_, .negativeNumber (hkind hm) (hkind ht) hn, rfl⟩
  | str ht => exact ⟨_, .str (hkind ht), by rw [hf.lexeme]⟩
  | trueWord ht => exact ⟨_, .trueWord (hkind ht), rfl⟩
  | falseWord ht => exact ⟨_, .falseWord (hkind ht), rfl⟩
  | nullWord ht => exact ⟨_, .nullWord (hkind ht), rfl⟩
  | var _ ih => exact ⟨_, .var ih, rfl⟩
  | negativeVar hm _ ih => exact ⟨_, .negativeVar (hkind hm) ih, rfl⟩
  -- Expressions
  | term _ ih => exact .term ih
  | invertedTerm hn _ ih => exact .invertedTerm (hkind hn) ih
  | noOperands => exact ⟨_, .noOperands, rfl, rfl⟩
  | operand ho _ _ iht ihr =>
    rw [List.map_cons, List.map_append]
    exact .operand (by rwa [hf.kind]) iht ihr
  | invertedOperand hn ho _ _ iht ihr =>
    rw [List.map_cons, List.map_cons, List.map_append]
    exact .invertedOperand (hkind hn) (by rwa [hf.kind]) iht ihr
  | expr _ _ iht ihr =>
    rw [List.map_append]
    exact .expr iht ihr
  -- Conditions
  | test _ ih => exact .test ih
  | comparison _ ho _ ihl ihr =>
    rw [List.map_append, List.map_cons]
    exact .comparison ihl (by rwa [hf.kind]) ihr
  | noConds => exact ⟨_, .noConds, rfl, rfl⟩
  | nextCond ho _ _ ihc ihr =>
    rw [List.map_cons, List.map_append]
    exact .nextCond (by rwa [hf.kind]) ihc ihr
  | conds _ _ ihc ihr =>
    rw [List.map_append]
    exact .conds ihc ihr
  -- Arguments and parameters
  | lastArgument _ hc ih =>
    rw [List.map_append]
    exact .lastArgument ih (hkind hc)
  | nextArgument _ hc _ ihe ihr =>
    rw [List.map_append, List.map_cons]
    exact .nextArgument ihe (hkind hc) ihr
  | noArguments hc => exact ⟨_, .noArguments (hkind hc), rfl⟩
  | someArguments _ ih => exact .someArguments ih
  | lastParameter hn hc =>
    have hlast := Spells.lastParameter (hkind hn) (hkind hc)
    rwa [hf.text] at hlast
  | nextParameter hn hc _ ih =>
    have hnext := Spells.nextParameter (hkind hn) (hkind hc) ih
    rwa [hf.text] at hnext
  | lastOut hs hn hc =>
    have hlast := Spells.lastOut (hkind hs) (hkind hn) (hkind hc)
    rwa [hf.text] at hlast
  | nextOut hs hn hc _ ih =>
    have hnext := Spells.nextOut (hkind hs) (hkind hn) (hkind hc) ih
    rwa [hf.text] at hnext
  | noParameters hc => exact Spells.noParameters (hkind hc)
  | someParameters _ ih => exact Spells.someParameters ih
  -- Statements
  | assign _ hq _ ihv ihe =>
    rw [List.map_append, List.map_cons]
    exact .assign ihv (hkind hq) ihe
  | call hn ho _ ih => exact .call (hkind hn) (hkind ho) ih (hf.text _)
  | moduleCall hm hd hn ho _ ih =>
    exact .moduleCall (hkind hm) (hkind hd) (hkind hn) (hkind ho) ih (hf.text _) (hf.text _)
  | fnModuleCall hw hm hd hn ho _ ih =>
    exact .fnModuleCall (hkind hw) (hkind hm) (hkind hd) (hkind hn) (hkind ho) ih (hf.text _)
      (hf.text _)
  | breakLoop ht => exact ⟨_, .breakLoop (hkind ht), rfl⟩
  | endCode ht => exact ⟨_, .endCode (hkind ht), rfl⟩
  | block _ ih => exact .block ih
  | ifItem _ ih => exact .ifItem ih
  | whileLoop hw ho _ hp _ ihc ihb =>
    rw [List.map_cons, List.map_cons, List.map_append, List.map_cons]
    exact .whileLoop (hkind hw) (hkind ho) ihc (hkind hp) ihb
  | forLoop hw ho _ hm _ hp _ ihd ihs ihb =>
    rw [List.map_cons, List.map_cons, List.map_append, List.map_cons, List.map_append,
      List.map_cons]
    exact .forLoop (hkind hw) (hkind ho) ihd (hkind hm) ihs (hkind hp) ihb
  | ifStmt hw ho _ hp _ _ ihc ihb ihr =>
    rw [List.map_cons, List.map_cons, List.map_append, List.map_cons, List.map_append]
    exact .ifStmt (hkind hw) (hkind ho) ihc (hkind hp) ihb ihr
  | noElse => exact ⟨_, .noElse, rfl⟩
  | elseIf he _ ih => exact .elseIf (hkind he) ih
  | elseBody he _ ih => exact .elseBody (hkind he) ih
  | body ho _ hc ih =>
    rw [List.map_cons, List.map_append]
    exact .body (hkind ho) ih (hkind hc)
  -- Definitions
  | fnEnd hw hn ho _ _ he ihp ihi =>
    rw [List.map_cons, List.map_cons, List.map_cons, List.map_append, List.map_append]
    exact .fnEnd (hkind hw) (hkind hn) (hkind ho) ihp ihi (hkind he) (hf.text _)
  | fnEndFn hw hn ho _ _ he hg ihp ihi =>
    rw [List.map_cons, List.map_cons, List.map_cons, List.map_append, List.map_append]
    exact .fnEndFn (hkind hw) (hkind hn) (hkind ho) ihp ihi (hkind he) (hkind hg) (hf.text _)
  -- Items in order
  | noItems => exact ⟨_, .noItems, rfl⟩
  | semicolon hs _ ih => exact .semicolon (hkind hs) ih
  | @nextItem ts x bare r l _ _ hfn ihx ihr =>
    rw [List.map_append]
    refine .nextItem ihx ihr fun hbare t ht => ?_
    rw [List.head?_map] at ht
    obtain ⟨u, hu, rfl⟩ := Option.map_eq_some_iff.mp ht
    rw [hf.kind]
    exact hfn hbare u hu

theorem Spells.bare {ts : List Token} {p : Phrase} (h : Spells ts p) : SpellsBare ts p := by
  have hid : Token.KeepsText id := ⟨fun _ => rfl, fun _ => rfl⟩
  have hbare := h.elsewhere hid
  rwa [List.map_id] at hbare

end TierScript
